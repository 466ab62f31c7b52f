import WorkflowEngine.Proofs.Graph.Representation
import WorkflowEngine.Proofs.Run.Execution

/-! What a graph covers of a run.

Where references mean what they spell and no action has the documents forgotten, a run finds everything
that its graph has. Each workflow step leads where its edge does, to the document of the graph, and never
back to an open one, whatever actions do to the files.
-/

set_option autoImplicit false

namespace WorkflowEngine

open Relation

theorem FileSystem.normalLocation_lexical (fs other : FileSystem) (p : Path) :
    fs.normalLocation .lexical p = other.normalLocation .lexical p := by
  unfold normalLocation
  cases p.spelledLocation <;> rfl

theorem Resolver.importTarget_lexical {r : Resolver} (lexical : r.normalization = .lexical)
    (fs other : FileSystem) : r.importTarget fs = r.importTarget other := by
  funext workflow step
  simp only [importTarget, resolve, lexical, FileSystem.normalLocation_lexical fs other]

/-- No action ever has the documents forgotten. -/
def Registry.Keeps {σ : Type} (r : Registry σ) : Prop :=
  ∀ name action, r.find? name = some action → ∀ params host, (action params host).resets = false

def Error.BlamesAction : Error → Prop
  | .unknownAction _ => True
  | .actionFailed _ _ => True
  | _ => False

/-- A graph represents what references mean at any time, and all its documents are in the cache. -/
structure Resolver.Covers (r : Resolver) (S : Sources) (g : ImportGraph) (cache : Cache) : Prop where
  represents : g.Represents S g.entry
  means : ∀ fs, r.importTarget fs = S.target
  cached : ∀ d ∈ g.documents, cache.find? d.location = some d

theorem Resolver.covers_of_resolveTargetGraph {r : Resolver} {fs : FileSystem} {cache after : Cache}
    {target : Target} {g : ImportGraph} (lexical : r.normalization = .lexical)
    (resolved : r.resolveTargetGraph fs cache target = (.ok g, after)) :
    r.Covers (r.sources fs cache) g after where
  represents := represents_of_resolveGraph (resolveGraph_of_resolveTargetGraph resolved)
  means other := by rw [sources_target, importTarget_lexical lexical other fs]
  cached := find?_of_resolveGraph (resolveGraph_of_resolveTargetGraph resolved)

/-- A frame runs a document of the graph, below documents of the graph that lead to it. -/
structure ImportGraph.Holds (g : ImportGraph) (S : Sources) (frame : Frame) (d : Document) : Prop where
  document : g.document? frame.location = some d
  leads : ∀ l ∈ frame.chain, S.Reaches l frame.location
  inside : frame.chain ⊆ g.locations
  distinct : frame.chain.Nodup

theorem ImportGraph.Represents.holds {g : ImportGraph} {S : Sources} (represents : g.Represents S g.entry)
    (params : Params) : g.Holds S (.enter [] g.entryDocument params) g.entryDocument where
  document := represents.document?_of_mem List.mem_cons_self
  leads l member := by
    obtain rfl := List.mem_singleton.1 member
    exact .refl
  inside := by
    intro l member
    obtain rfl := List.mem_singleton.1 member
    exact List.mem_map_of_mem List.mem_cons_self
  distinct := List.nodup_singleton _

theorem ImportGraph.Holds.extend {g : ImportGraph} {S : Sources} {frame : Frame} {d child : Document}
    (holds : g.Holds S frame d) (step : WorkflowStep)
    (document : g.document? child.location = some child)
    (imported : S.Imports frame.location child.location) (fresh : child.location ∉ frame.chain) :
    g.Holds S (frame.inside step child) child where
  document := document
  leads l there := by
    rcases List.mem_append.1 there with there | there
    · exact (holds.leads l there).tail imported
    · obtain rfl := List.mem_singleton.1 there
      exact .refl
  inside := by
    refine List.append_subset.2 ⟨holds.inside, fun l there => ?_⟩
    obtain rfl := List.mem_singleton.1 there
    exact List.mem_map_of_mem (mem_of_document? document).1
  distinct := by
    refine List.nodup_append.2 ⟨holds.distinct, List.nodup_singleton _, fun l again m there same => ?_⟩
    obtain rfl := List.mem_singleton.1 there
    exact fresh (same ▸ again)

/-- The open documents differ and all are of the graph, so they are not more than it has. -/
theorem ImportGraph.Holds.length_chain_le {g : ImportGraph} {S : Sources} {frame : Frame} {d : Document}
    (holds : g.Holds S frame d) : frame.chain.length ≤ g.documents.length := by
  have short := holds.distinct.length_le_of_subset holds.inside
  rwa [ImportGraph.locations, List.length_map] at short

/-- A graph covers an event: the documents are its own, and a workflow step leads where its edge does. -/
def Runner.Covered {σ : Type} (r : Runner σ) (g : ImportGraph) : RunEvent → Prop
  | .entered frame d => g.document? frame.location = some d
  | .importing frame stepIndex step files cache =>
    ∃ d target child, g.document? frame.location = some d ∧
      d.steps[stepIndex]? = some (.workflow step) ∧
      g.Leads frame.location stepIndex target child ∧
      r.resolver.importTarget files frame.location step = .ok target ∧
      target ∉ frame.chain ∧
      cache.load files target = (.ok child, cache)
  | _ => True

theorem ImportGraph.Holds.opens {σ : Type} {r : Runner σ} {S : Sources} {g : ImportGraph} {frame : Frame}
    {d : Document} {s : Session σ} (holds : g.Holds S frame d) (represents : g.Represents S g.entry)
    (means : r.resolver.importTarget s.host.files = S.target)
    (cached : ∀ d ∈ g.documents, s.cache.find? d.location = some d) {stepIndex : Nat}
    {step : WorkflowStep} (found : d.steps[stepIndex]? = some (.workflow step)) :
    ∃ child, r.openImport frame step s = .opened child.location child s.cache ∧
      g.Leads frame.location stepIndex child.location child ∧
      r.Covered g (.importing frame stepIndex step s.host.files s.cache) ∧
      g.Holds S (frame.inside step child) child := by
  obtain ⟨member, located⟩ := ImportGraph.mem_of_document? holds.document
  obtain ⟨child, leads, same, imported⟩ := represents.exists_leads member found
  rw [located] at leads same imported
  have path : S.Reaches g.entry frame.location :=
    (represents.reached _).1 (located ▸ List.mem_map_of_mem member)
  -- Every open document leads to the innermost one, so the import of one would close a cycle.
  have fresh : child.location ∉ frame.chain := fun again =>
    represents.acyclic _ path (TransGen.head'_iff.2 ⟨_, imported, holds.leads _ again⟩)
  have resolved : r.resolver.importTarget s.host.files frame.location step = .ok child.location := by
    rw [means]
    exact same
  have loaded : s.cache.load s.host.files child.location = (.ok child, s.cache) :=
    Cache.load_of_find? _ (cached child (ImportGraph.mem_of_document? leads.document).1)
  refine ⟨child, ?_, leads, ?_, holds.extend step leads.document imported fresh⟩
  · simp only [Runner.openImport, resolved, loaded]
    simp [fresh]
  · exact ⟨d, child.location, child, holds.document, found, leads, resolved, fresh, loaded⟩

namespace Runner

variable {σ : Type} {r : Runner σ} {S : Sources} {g : ImportGraph} {cache : Cache}

structure Ready (r : Runner σ) (S : Sources) (g : ImportGraph) (frame : Frame) (d : Document)
    (s : Session σ) : Prop where
  keeps : r.registry.Keeps
  covers : r.resolver.Covers S g s.cache
  holds : g.Holds S frame d

namespace Ready

variable {frame : Frame} {d : Document} {s : Session σ}

theorem move {later : Session σ} (ready : Ready r S g frame d s) (kept : later.cache = s.cache) :
    Ready r S g frame d later := ⟨ready.keeps, kept ▸ ready.covers, ready.holds⟩

theorem opens {stepIndex : Nat} {step : WorkflowStep} (ready : Ready r S g frame d s)
    (found : d.steps[stepIndex]? = some (.workflow step)) :
    ∃ child, r.openImport frame step s = .opened child.location child s.cache ∧
      g.Leads frame.location stepIndex child.location child ∧
      r.Covered g (.importing frame stepIndex step s.host.files s.cache) ∧
      Ready r S g (frame.inside step child) child s := by
  obtain ⟨keeps, covers, holds⟩ := ready
  obtain ⟨child, opened, leads, covered, inside⟩ :=
    holds.opens covers.represents (covers.means s.host.files) covers.cached found
  exact ⟨child, opened, leads, covered, keeps, covers, inside⟩

theorem not_refused {stepIndex : Nat} {step : WorkflowStep} {target : Option Location} {error : Error}
    {cache : Cache} (ready : Ready r S g frame d s)
    (found : d.steps[stepIndex]? = some (.workflow step)) :
    r.openImport frame step s ≠ .refused target error cache := by
  obtain ⟨_, opened, _⟩ := ready.opens found
  rw [opened]
  simp

theorem opened {stepIndex : Nat} {step : WorkflowStep} {child : Document} {cache : Cache}
    (ready : Ready r S g frame d s) (found : d.steps[stepIndex]? = some (.workflow step))
    (opening : r.openImport frame step s = .opened child.location child cache) :
    g.Leads frame.location stepIndex child.location child ∧
      r.Covered g (.importing frame stepIndex step s.host.files s.cache) ∧
      cache = s.cache ∧ Ready r S g (frame.inside step child) child { s with cache } := by
  obtain ⟨other, opened, leads, importing, inside⟩ := ready.opens found
  obtain ⟨_, rfl, rfl⟩ := Opening.opened.inj (opening.symm.trans opened)
  exact ⟨leads, importing, rfl, inside⟩

end Ready

/-- A part of a run goes by the graph and leaves the cache as it is. -/
structure Accords (r : Runner σ) (g : ImportGraph) (s : Session σ) (p : Progress σ) : Prop where
  kept : p.session.cache = s.cache
  covered : ∀ e ∈ p.events, r.Covered g e
  blames : ∀ f, p.failure = some f → f.error.BlamesAction

theorem Accords.append {s : Session σ} {first later : Progress σ} (accords : Accords r g s first)
    (behind : Accords r g first.session later) : Accords r g s (first.append later) where
  kept := behind.kept.trans accords.kept
  covered e member := by
    rcases List.mem_append.1 member with member | member
    · exact accords.covered e member
    · exact behind.covered e member
  blames := behind.blames

theorem Accords.nested {frame : Frame} {child : Document} {stepIndex : Nat} {step : WorkflowStep}
    {s : Session σ} {inner : Progress σ} (accords : Accords r g s inner)
    (importing : r.Covered g (.importing frame stepIndex step s.host.files s.cache))
    (entered : g.document? child.location = some child) :
    Accords r g s (nestedProgress frame stepIndex step s child inner) where
  kept := accords.kept
  covered e member := by
    rw [nestedProgress_events] at member
    rcases List.mem_append.1 member with member | member
    · rcases List.mem_cons.1 member with rfl | member
      · exact importing
      · obtain rfl := List.mem_singleton.1 member
        exact entered
    · rcases List.mem_append.1 member with member | member
      · exact accords.covered e member
      · obtain rfl := List.mem_singleton.1 member
        trivial
  blames := accords.blames

theorem blamesAction_of_actionError {name : String} {verdict : Except Error Bool} {error : Error}
    (answered : actionError name verdict = some error) : error.BlamesAction := by
  unfold actionError at answered
  split at answered <;> cases answered <;> trivial

theorem covered_invocationEvents (action : String) (params : Params) (reply : Reply σ) :
    ∀ e ∈ invocationEvents action params reply, r.Covered g e := by
  simp [invocationEvents, Covered]

theorem covered_answeredPause (step : ActionStep) (answer : Except Error Bool) :
    ∀ e ∈ answeredPause r step answer, r.Covered g e := by
  unfold answeredPause pauseEvents
  split
  · split <;> simp [Covered]
  · simp

theorem Acts.accords {frame : Frame} {stepIndex : Nat} {step : ActionStep} {s : Session σ}
    {p : Progress σ} (acts : Acts r frame stepIndex step s p) (keeps : r.registry.Keeps) :
    Accords r g s p := by
  cases acts with
  | unregistered =>
    refine ⟨rfl, by simp [Covered], fun f failed => ?_⟩
    cases failed
    trivial
  | @answered action reply registered replied =>
    subst replied
    refine ⟨by simp [afterReply, keeps _ _ registered], fun e member => ?_, fun f failed => ?_⟩
    · rcases List.mem_append.1 member with member | member
      · exact covered_invocationEvents _ _ _ e member
      · rcases List.mem_cons.1 member with rfl | member
        · trivial
        · exact covered_answeredPause _ _ e member
    · obtain ⟨error, answered, _, _, rfl⟩ := answeredFailure_eq_some (r := r) failed
      exact blamesAction_of_actionError answered

theorem Executes.accords {frame : Frame} {stepIndex : Nat} {steps : List Step} {s : Session σ}
    {p : Progress σ} (executed : Executes r frame stepIndex steps s p) {d : Document}
    (ready : Ready r S g frame d s) (ahead : d.steps.drop stepIndex = steps) : Accords r g s p := by
  -- The cache stays as it is, so the frame is ready for the next step, too.
  induction executed generalizing d with
  | done => exact ⟨rfl, by simp [Progress.start], fun _ failed => by cases failed⟩
  | action acts _ _ ih =>
    have first := acts.accords (g := g) ready.keeps
    exact first.append (ih (ready.move first.kept) (Document.drop_succ ahead))
  | actionFailed acts => exact acts.accords ready.keeps
  | refused refused => exact absurd refused (ready.not_refused (Document.getElem?_of_drop ahead))
  | nested opening _ _ _ ihInner ihLater =>
    obtain ⟨leads, importing, rfl, inside⟩ := ready.opened (Document.getElem?_of_drop ahead) opening
    have inner := ihInner inside rfl
    have later := ihLater (ready.move inner.kept) (Document.drop_succ ahead)
    exact (inner.nested importing leads.document).append later
  | nestedFailed opening _ _ ih =>
    obtain ⟨leads, importing, rfl, inside⟩ := ready.opened (Document.getElem?_of_drop ahead) opening
    exact (ih inside rfl).nested importing leads.document

section Termination

variable {enter : List Location → Document → Params → Session σ → Option (Progress σ)}

theorem exists_runSteps {frame : Frame} {stepIndex : Nat} {steps : List Step} {s : Session σ}
    (enters : ∀ child called (s : Session σ), Ready r S g (.enter frame.chain child called) child s →
      ∃ p, enter frame.chain child called s = some p ∧ p.session.cache = s.cache)
    {d : Document} (ready : Ready r S g frame d s) (ahead : d.steps.drop stepIndex = steps) :
    ∃ p, r.runSteps enter frame stepIndex steps s = some p := by
  induction steps generalizing stepIndex s with
  | nil => exact ⟨_, rfl⟩
  | cons step rest ih =>
    have stepped : ∃ first, r.runStep enter frame stepIndex step s = some first ∧
        first.session.cache = s.cache := by
      cases step with
      | action step =>
        exact ⟨_, rfl, ((acts_runAction frame stepIndex step s).accords (g := g) ready.keeps).kept⟩
      | workflow step =>
        obtain ⟨child, opened, _, _, inside⟩ := ready.opens (Document.getElem?_of_drop ahead)
        obtain ⟨inner, entered, kept⟩ := enters child _ s inside
        simp only [runStep, runNested, opened, entered, Option.map_some]
        exact ⟨_, rfl, kept⟩
    obtain ⟨first, stepped, kept⟩ := stepped
    simp only [runSteps, stepped]
    cases failed : first.failure with
    | some failure => exact ⟨first, Progress.andThen_eq_some.2 (.inl ⟨failure, failed, rfl⟩)⟩
    | none =>
      obtain ⟨later, ran⟩ := ih (ready.move kept) (Document.drop_succ ahead)
      exact ⟨_, Progress.andThen_eq_some.2 (.inr ⟨failed, later, ran, rfl⟩)⟩

/-- A document that is held is run to its end on a budget for all documents of the graph, since those
that are open differ. -/
theorem exists_runDocument {budget : Nat} {above : List Location} {d : Document} {called : Params}
    {s : Session σ} (ready : Ready r S g (.enter above d called) d s)
    (enough : g.documents.length ≤ above.length + budget) :
    ∃ p, r.runDocument budget above d called s = some p ∧ p.session.cache = s.cache := by
  induction budget generalizing above d called s with
  | zero =>
    -- The chain would have more documents than the graph.
    have short := ready.holds.length_chain_le
    simp only [Frame.enter, List.length_append, List.length_singleton] at short
    omega
  | succ budget ih =>
    have enters : ∀ child called (s : Session σ),
        Ready r S g (.enter (above ++ [d.location]) child called) child s →
          ∃ p, r.runDocument budget (above ++ [d.location]) child called s = some p ∧
            p.session.cache = s.cache := fun child called s below =>
      ih below (by rw [List.length_append, List.length_singleton]; omega)
    obtain ⟨inner, stepped⟩ := exists_runSteps enters ready (rfl : d.steps.drop 0 = _)
    have ran : r.runDocument (budget + 1) above d called s =
        some (inner.behindEvent (.entered (.enter above d called) d)) :=
      Option.map_eq_some_iff.2 ⟨inner, stepped, rfl⟩
    obtain ⟨same, executed, equal⟩ := executes_of_runDocument ran
    refine ⟨_, ran, ?_⟩
    rw [equal]
    exact (executed.accords ready rfl).kept

end Termination

/-- A run ends in one way only, and on every budget for all documents of its graph. -/
structure Ends (r : Runner σ) (g : ImportGraph) (target : Target) (params : Params) (s : Session σ)
    (finished : Finished σ) : Prop where
  ends : ∀ budget, g.documents.length ≤ budget → r.run budget target params s = some finished
  only : ∀ budget other, r.run budget target params s = some other → other = finished

theorem ends_of_runDocument {target : Target} {params : Params} {s : Session σ} {p : Progress σ}
    (resolved : r.resolver.resolveTargetGraph s.host.files s.cache target = (.ok g, cache))
    (began : r.runDocument g.documents.length [] g.entryDocument params { s with cache } = some p) :
    Ends r g target params s (.ofProgress p) := by
  have ran : r.run g.documents.length target params s = some (.ofProgress p) := by
    rw [run_eq, resolved]
    exact Option.map_eq_some_iff.2 ⟨p, began, rfl⟩
  exact ⟨fun budget enough => run_mono enough ran, fun budget other again => run_unique again ran⟩

theorem ends_of_resolved {target : Target} (params : Params) {s : Session σ}
    (lexical : r.resolver.normalization = .lexical) (keeps : r.registry.Keeps)
    (resolved : r.resolver.resolveTargetGraph s.host.files s.cache target = (.ok g, cache)) :
    ∃ S inner,
      Ready r S g (.enter [] g.entryDocument params) g.entryDocument { s with cache } ∧
      Executes r (.enter [] g.entryDocument params) 0 g.entryDocument.steps { s with cache } inner ∧
      Ends r g target params s (.ofProgress
        (inner.behindEvent (.entered (.enter [] g.entryDocument params) g.entryDocument))) := by
  have covers := Resolver.covers_of_resolveTargetGraph lexical resolved
  have ready : Ready r _ g (.enter [] g.entryDocument params) g.entryDocument { s with cache } :=
    ⟨keeps, covers, covers.represents.holds params⟩
  obtain ⟨p, began, _⟩ := exists_runDocument ready (Nat.le_add_left g.documents.length 0)
  obtain ⟨inner, executed, rfl⟩ := executes_of_runDocument began
  exact ⟨_, inner, ready, executed, ends_of_runDocument resolved began⟩

end Runner

theorem Sample.keeps : runner.registry.Keeps := by
  intro name action found params host
  simp only [runner, Registry.register, Registry.find?, Dictionary.find?_insert] at found
  split at found
  · cases found
    rfl
  · cases found

end WorkflowEngine
