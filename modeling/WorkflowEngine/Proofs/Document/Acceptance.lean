import WorkflowEngine.Proofs.Document.Blank
import WorkflowEngine.Proofs.Document.Fields
import WorkflowEngine.Proofs.Document.Waits
import WorkflowEngine.Proofs.Text.Trimming
import Mathlib.Data.List.Forall2
import Mathlib.Order.Bounds.Defs

/-! Which documents are accepted.

A document is accepted if it states steps and each of them is well formed: a mapping that states a known kind, whose
fields have the types and the contents that the kind asks for. It then has a step in the place of every one that is
written. Otherwise the first step that is not well formed is blamed. Fields that a kind does not know are never looked
into.
-/

set_option autoImplicit false

namespace WorkflowEngine

namespace Document

/-- An action is named, and what else is given is in its bounds. -/
structure ActionFields.WellFormed (fields : ActionFields) : Prop where
  named : ∃ name, fields.action = some name ∧ Text.isBlankText name = false
  waits : ∀ seconds, fields.waitAfter = some seconds → seconds.Within longestWait
  handed : ∀ name, fields.param = some name → Text.isBlankText name = false

structure WorkflowFields.WellFormed (fields : WorkflowFields) : Prop where
  named : ∃ name, fields.workflow = some name ∧ Text.isBlankText name = false

end Document

structure Text.Name (s : String) : Prop where
  something : s ≠ ""
  trimmed : Trimmed s.toList

theorem Text.name_trim {s : String} (visible : isBlankText s = false) : Name (trim s) where
  something := by
    intro nothing
    have left := isEmpty_toList_trim s
    rw [nothing, visible] at left
    cases left
  trimmed := by
    rw [toList_trim]
    exact trimmed_trimChars _

theorem Binary64.checked_of_within {x : Binary64} {bound : Nat} (within : x.Within bound) :
    x.isFinite = true ∧ x.isBelowZero = false ∧ x.exceeds bound = false := by
  obtain ⟨positive, le⟩ := within
  rename_i negative units
  refine ⟨rfl, ?_, ?_⟩
  · cases negative with
    | false => rfl
    | true => simp [isBelowZero, positive rfl]
  · simp [exceeds, le]

namespace ActionStep

theorem placeholderFor_eq (name : String) : placeholderFor name = .text ("$\x7b" ++ name ++ "\x7d") := by
  have spelled : String.ofList (Template.Piece.placeholder name.toList).written = "$\x7b" ++ name ++ "\x7d" := by
    apply String.toList_injective
    simp [Template.Piece.written, Template.opener]
  rw [placeholderFor, spelled]

theorem find?_handOn (declared : Params) (name key : String) :
    (handOn declared name).find? key =
      (declared.find? key).or (if name = key then some (placeholderFor key) else none) := by
  by_cases here : name = key
  · subst here
    unfold handOn
    split
    · rename_i already
      obtain ⟨v, found⟩ := Option.isSome_iff_exists.1 already
      simp [found]
    · rename_i missing
      have absent : declared.find? name = none := by simpa [Dictionary.contains] using missing
      simp [absent, Dictionary.find?_insert_self]
  · have kept : (handOn declared name).find? key = declared.find? key := by
      unfold handOn
      split
      · rfl
      · exact Dictionary.find?_insert_of_ne _ _ here
    simp [kept, here]

/-- What a step has of the fields that it was read from. -/
structure Holds (step : ActionStep) (fields : Document.ActionFields) : Prop where
  action : ∃ name, fields.action = some name ∧ step.action = Text.trim name
  named : Text.Name step.action
  description : step.description = fields.description
  optional : step.optional = fields.optional
  waitAfter : step.waitAfter = fields.waitAfter
  /-- What is declared, and what is handed on unless it is declared. -/
  params : ∀ key, step.params.find? key = ((fields.params.getD ∅).find? key).or
    (if fields.param.map Text.trim = some key then some (.text ("$\x7b" ++ key ++ "\x7d")) else none)

variable {fields : Document.ActionFields} {step : ActionStep}

theorem ofFields_of_wellFormed (wellFormed : fields.WellFormed) :
    ofFields fields = .ok {
      action := Text.trim (fields.action.getD "")
      description := fields.description
      params := ((fields.param.map Text.trim).map (handOn (fields.params.getD ∅))).getD (fields.params.getD ∅)
      optional := fields.optional
      waitAfter := fields.waitAfter } := by
  obtain ⟨⟨name, named, visible⟩, waits, handed⟩ := wellFormed
  have said : (Text.trim (fields.action.getD "")).toList.isEmpty = false := by
    rw [named, Option.getD_some, Text.isEmpty_toList_trim, visible]
  simp only [ofFields, said, Bool.false_eq_true, if_false]
  cases given : fields.waitAfter with
  | none =>
    cases param : fields.param with
    | none => rfl
    | some other => simp [Text.isEmpty_toList_trim, handed other param, bind, Except.bind]
  | some seconds =>
    obtain ⟨finite, above, below⟩ := Binary64.checked_of_within (waits seconds given)
    cases param : fields.param with
    | none => simp [finite, above, below, bind, Except.bind]
    | some other =>
      simp [finite, above, below, Text.isEmpty_toList_trim, handed other param, bind, Except.bind]

theorem named_of_ofFields (read : ofFields fields = .ok step) :
    ∃ name, fields.action = some name ∧ Text.isBlankText name = false := by
  have visible : Text.isBlankText (fields.action.getD "") = false := by
    by_contra blank
    rw [Bool.not_eq_false] at blank
    simp only [ofFields, Text.isEmpty_toList_trim, blank, if_true] at read
    cases read
  cases named : fields.action with
  | none =>
    rw [named] at visible
    cases visible
  | some name => exact ⟨name, rfl, by rwa [named] at visible⟩

theorem handed_of_ofFields (read : ofFields fields = .ok step) {name : String}
    (given : fields.param = some name) : Text.isBlankText name = false := by
  by_contra blank
  rw [Bool.not_eq_false] at blank
  simp only [ofFields, given, Option.map_some, Text.isEmpty_toList_trim, blank, if_true, bind,
    Except.bind] at read
  -- Whatever is found before, the parameter is refused in the end.
  repeat' split at read
  all_goals cases read

theorem wellFormed_of_ofFields (read : ofFields fields = .ok step) : fields.WellFormed where
  named := named_of_ofFields read
  waits := by
    rw [← waitAfter_ofFields read]
    exact waits_ofFields read
  handed := fun _ given => handed_of_ofFields read given

theorem holds_ofFields (read : ofFields fields = .ok step) : step.Holds fields := by
  have wellFormed := wellFormed_of_ofFields read
  rw [ofFields_of_wellFormed wellFormed] at read
  obtain ⟨⟨name, named, visible⟩, _, _⟩ := wellFormed
  cases read
  refine ⟨⟨name, named, by rw [named, Option.getD_some]⟩, ?_, rfl, rfl, rfl, fun key => ?_⟩
  · rw [named, Option.getD_some]
    exact Text.name_trim visible
  · cases fields.param with
    | none => simp
    | some other => simp [find?_handOn, placeholderFor_eq]

end ActionStep

namespace WorkflowStep

structure Holds (step : WorkflowStep) (fields : Document.WorkflowFields) : Prop where
  workflow : ∃ name, fields.workflow = some name ∧ step.workflow.text = Text.trim name
  named : Text.Name step.workflow.text
  description : step.description = fields.description
  params : step.params = fields.params.getD ∅

variable {fields : Document.WorkflowFields} {step : WorkflowStep}

theorem exists_ofFields (wellFormed : fields.WellFormed) : ∃ step, ofFields fields = .ok step := by
  obtain ⟨name, named, visible⟩ := wellFormed.named
  simp [ofFields, named, Text.isEmpty_toList_trim, visible]

theorem holds_ofFields (read : ofFields fields = .ok step) : fields.WellFormed ∧ step.Holds fields := by
  simp only [ofFields, Text.isEmpty_toList_trim] at read
  split at read
  · cases read
  rename_i visible
  cases read
  cases named : fields.workflow with
  | none =>
    rw [named] at visible
    exact absurd rfl visible
  | some name =>
    rw [named, Option.getD_some, Bool.not_eq_true] at visible
    refine ⟨⟨name, named, visible⟩, ⟨name, named, ?_⟩, ?_, rfl, rfl⟩
    · rfl
    · exact Text.name_trim visible

end WorkflowStep

namespace Step

def Kind.name : Kind → String
  | .action => "action"
  | .workflow => "workflow"

/-- The kind of a step with these fields. The first field that is called a type decides. -/
inductive OfKind : Document.Pairs → Kind → Prop
  | unstated {pairs : Document.Pairs} : (∀ v, (.text "type", v) ∉ pairs) → OfKind pairs .action
  | stated {before after : Document.Pairs} {written : String} {kind : Kind} :
      (∀ v, (.text "type", v) ∉ before) → Text.trim written = kind.name →
      OfKind (before ++ (.text "type", .text written) :: after) kind

inductive WellFormed : Yaml.Value → Prop
  | action {pairs : Document.Pairs} {fields : Document.ActionFields} : OfKind pairs .action →
      Document.ActionFields.ofPairs pairs = .ok fields → fields.WellFormed → WellFormed (.mapping pairs)
  | workflow {pairs : Document.Pairs} {fields : Document.WorkflowFields} : OfKind pairs .workflow →
      Document.WorkflowFields.ofPairs pairs = .ok fields → fields.WellFormed → WellFormed (.mapping pairs)

inductive Describes : Yaml.Value → Step → Prop
  | action {pairs : Document.Pairs} {fields : Document.ActionFields} {step : ActionStep} :
      OfKind pairs .action → Document.ActionFields.ofPairs pairs = .ok fields → step.Holds fields →
      Describes (.mapping pairs) (.action step)
  | workflow {pairs : Document.Pairs} {fields : Document.WorkflowFields} {step : WorkflowStep} :
      OfKind pairs .workflow → Document.WorkflowFields.ofPairs pairs = .ok fields → step.Holds fields →
      Describes (.mapping pairs) (.workflow step)

theorem kindValue?_append {before after : Document.Pairs} (without : ∀ v, (.text "type", v) ∉ before) :
    kindValue? (before ++ after) = kindValue? after := by
  induction before with
  | nil => rfl
  | cons head rest ih =>
    rw [List.cons_append, kindValue?]
    · exact ih fun v member => without v (List.mem_cons_of_mem _ member)
    · rintro v rfl
      exact without v List.mem_cons_self

theorem kindValue?_eq_some {pairs : Document.Pairs} {v : Yaml.Value} (found : kindValue? pairs = some v) :
    ∃ before after, pairs = before ++ (.text "type", v) :: after ∧ ∀ w, (.text "type", w) ∉ before := by
  fun_induction kindValue? pairs with
  | case1 => cases found
  | case2 w rest =>
    cases found
    exact ⟨[], rest, rfl, fun _ => List.not_mem_nil⟩
  | case3 head rest other ih =>
    obtain ⟨before, after, rfl, without⟩ := ih found
    refine ⟨head :: before, after, rfl, fun w member => ?_⟩
    rcases List.mem_cons.1 member with rfl | inside
    · exact other w rfl
    · exact without w inside

theorem not_mem_of_kindValue?_eq_none {pairs : Document.Pairs} (nothing : kindValue? pairs = none)
    (v : Yaml.Value) : (.text "type", v) ∉ pairs := by
  fun_induction kindValue? pairs with
  | case1 => exact List.not_mem_nil
  | case2 => cases nothing
  | case3 head rest other ih =>
    intro member
    rcases List.mem_cons.1 member with rfl | inside
    · exact other v rfl
    · exact ih nothing inside

theorem kindOf_eq_ok_iff {pairs : Document.Pairs} {kind : Kind} :
    kindOf pairs = .ok kind ↔ OfKind pairs kind := by
  constructor
  · intro known
    unfold kindOf at known
    split at known
    · rename_i nothing
      cases known
      exact .unstated (not_mem_of_kindValue?_eq_none nothing)
    · rename_i written found
      -- No field before the one that was found is called a type.
      obtain ⟨before, after, rfl, without⟩ := kindValue?_eq_some found
      refine .stated without ?_
      simp only [beq_iff_eq] at known
      split at known
      · rename_i same
        cases known
        exact same
      · split at known
        · rename_i same
          cases known
          exact same
        · cases known
    · cases known
  · rintro (without | ⟨without, same⟩)
    · have nothing : kindValue? (pairs ++ []) = none := kindValue?_append without
      rw [List.append_nil] at nothing
      rw [kindOf, nothing]
    · rw [kindOf, kindValue?_append without]
      cases kind <;> simp [kindValue?, same, Kind.name]

theorem exists_ofValue {v : Yaml.Value} (wellFormed : WellFormed v) : ∃ step, ofValue v = .ok step := by
  cases wellFormed with
  | action kind read wellFormed =>
    simp only [ofValue, kindOf_eq_ok_iff.2 kind, read, bind, Except.bind]
    rw [ActionStep.ofFields_of_wellFormed wellFormed]
    exact ⟨_, rfl⟩
  | workflow kind read wellFormed =>
    obtain ⟨step, made⟩ := WorkflowStep.exists_ofFields wellFormed
    simp only [ofValue, kindOf_eq_ok_iff.2 kind, read, made, bind, Except.bind]
    exact ⟨_, rfl⟩

theorem describes_of_ofValue {v : Yaml.Value} {step : Step} (read : ofValue v = .ok step) :
    WellFormed v ∧ Describes v step := by
  unfold ofValue at read
  split at read
  · obtain ⟨kind, known, read⟩ := exists_of_bind_eq_ok read
    have stated := kindOf_eq_ok_iff.1 known
    cases kind with
    | action =>
      dsimp only at read
      split at read
      · cases read
      · rename_i fields
        obtain ⟨own, checked, rfl⟩ := exists_of_map_eq_ok read
        exact ⟨.action stated fields (ActionStep.wellFormed_of_ofFields checked),
          .action stated fields (ActionStep.holds_ofFields checked)⟩
    | workflow =>
      dsimp only at read
      split at read
      · cases read
      · rename_i fields
        obtain ⟨own, checked, rfl⟩ := exists_of_map_eq_ok read
        obtain ⟨wellFormed, holds⟩ := WorkflowStep.holds_ofFields checked
        exact ⟨.workflow stated fields wellFormed, .workflow stated fields holds⟩
  · cases read

end Step

namespace Document

theorem readSteps_recognised (index : Nat) (values : List Yaml.Value) :
    readSteps index (values.map Step.recognised) = readSteps index values := by
  induction values generalizing index with
  | nil => rfl
  | cons v rest ih => simp only [List.map_cons, readSteps, Step.ofValue_recognised, ih]

theorem forall₂_readSteps {index : Nat} {values : List Yaml.Value} {steps : List Step}
    (read : readSteps index values = .ok steps) :
    List.Forall₂ (fun v step => Step.ofValue v = .ok step) values steps := by
  induction values generalizing index steps with
  | nil =>
    cases read
    exact .nil
  | cons v rest ih =>
    unfold readSteps at read
    split at read
    · cases read
    · rename_i step here
      obtain ⟨later, behind, rfl⟩ := exists_of_map_eq_ok read
      exact .cons here (ih behind)

theorem describes_of_readSteps {index : Nat} {values : List Yaml.Value} {steps : List Step}
    (read : readSteps index values = .ok steps) :
    (∀ v ∈ values, Step.WellFormed v) ∧ List.Forall₂ Step.Describes values steps :=
  (List.forall₂_and_left values steps).1 ((forall₂_readSteps read).imp fun _ _ => Step.describes_of_ofValue)

/-- The first value that is not well formed is blamed. -/
theorem exists_of_readSteps_error {index : Nat} {values : List Yaml.Value} {fault : DocumentFault}
    (refused : readSteps index values = .error fault) : ∃ before v after own,
      values = before ++ v :: after ∧ (∀ u ∈ before, Step.WellFormed u) ∧ ¬ Step.WellFormed v ∧
        fault = .step (index + before.length) own := by
  induction values generalizing index with
  | nil => cases refused
  | cons v rest ih =>
    unfold readSteps at refused
    split at refused
    · rename_i own here
      cases refused
      refine ⟨[], v, rest, own, rfl, by simp, fun wellFormed => ?_, rfl⟩
      obtain ⟨step, made⟩ := Step.exists_ofValue wellFormed
      cases here.symm.trans made
    · rename_i step here
      cases behind : readSteps (index + 1) rest with
      | ok later =>
        rw [behind] at refused
        cases refused
      | error other =>
        rw [behind] at refused
        cases refused
        obtain ⟨before, w, after, own, rfl, wellFormed, ill, rfl⟩ := ih behind
        refine ⟨v :: before, w, after, own, rfl, ?_, ill, ?_⟩
        · exact List.forall_mem_cons.2 ⟨(Step.describes_of_ofValue here).1, wellFormed⟩
        · rw [List.length_cons, Nat.add_assoc, Nat.add_comm 1]

theorem exists_readSteps {index : Nat} {values : List Yaml.Value} (wellFormed : ∀ v ∈ values, Step.WellFormed v) :
    ∃ steps, readSteps index values = .ok steps := by
  cases read : readSteps index values with
  | ok steps => exact ⟨steps, rfl⟩
  | error fault =>
    obtain ⟨before, v, after, _, rfl, _, ill, _⟩ := exists_of_readSteps_error read
    exact absurd (wellFormed v (by simp)) ill

def illPlaces (values : List Yaml.Value) : Set Nat := {i | ∃ v, values[i]? = some v ∧ ¬ Step.WellFormed v}

theorem isLeast_illPlaces {before after : List Yaml.Value} {v : Yaml.Value}
    (wellFormed : ∀ u ∈ before, Step.WellFormed u) (ill : ¬ Step.WellFormed v) :
    IsLeast (illPlaces (before ++ v :: after)) before.length := by
  constructor
  · exact ⟨v, by simp, ill⟩
  · rintro i ⟨u, here, other⟩
    by_contra earlier
    rw [Nat.not_le] at earlier
    rw [List.getElem?_append_left earlier] at here
    exact other (wellFormed u (List.mem_of_getElem? here))

def Outline.recognised (outline : Outline) : Outline :=
  { outline with steps := outline.steps.map fun values => values.map Step.recognised }

variable {location : Location} {text other : String} {outline same : Outline} {values : List Yaml.Value}

theorem ofText_of_steps (read : Outline.ofText text = .ok outline) (stated : outline.steps = some values)
    (location : Location) : ofText location text = (readSteps 0 values).map fun steps =>
      { location, steps, description := outline.description, defaults := outline.defaults.getD ∅ } := by
  have written : Text.isBlankText text = false := by
    by_contra blank
    rw [Bool.not_eq_false] at blank
    cases (Outline.steps_of_isBlankText blank read).symm.trans stated
  simp [ofText, written, read, ofOutline, stated]

theorem exists_outline_of_ofText {d : Document} (made : ofText location text = .ok d) :
    ∃ outline, Outline.ofText text = .ok outline := by
  cases read : Outline.ofText text with
  | ok outline => exact ⟨outline, rfl⟩
  | error fault =>
    simp only [ofText, read] at made
    split at made <;> cases made

theorem exists_steps_of_ofText (read : Outline.ofText text = .ok outline) {d : Document}
    (made : ofText location text = .ok d) : ∃ values, outline.steps = some values := by
  cases stated : outline.steps with
  | some values => exact ⟨values, rfl⟩
  | none =>
    simp only [ofText, read, ofOutline, stated] at made
    split at made <;> cases made

theorem ofText_eq_ok_iff (read : Outline.ofText text = .ok outline) :
    (∃ d, ofText location text = .ok d) ↔
      ∃ values, outline.steps = some values ∧ ∀ v ∈ values, Step.WellFormed v := by
  constructor
  · rintro ⟨d, made⟩
    obtain ⟨values, stated⟩ := exists_steps_of_ofText read made
    rw [ofText_of_steps read stated] at made
    obtain ⟨steps, behind, _⟩ := exists_of_map_eq_ok made
    exact ⟨values, stated, (describes_of_readSteps behind).1⟩
  · rintro ⟨values, stated, wellFormed⟩
    obtain ⟨steps, behind⟩ : ∃ steps, readSteps 0 values = .ok steps := exists_readSteps wellFormed
    rw [ofText_of_steps read stated, behind]
    exact ⟨_, rfl⟩

theorem isLeast_of_ofText_error (read : Outline.ofText text = .ok outline) (stated : outline.steps = some values)
    {fault : DocumentFault} (refused : ofText location text = .error fault) :
    ∃ index own, fault = .step index own ∧ IsLeast (illPlaces values) index := by
  rw [ofText_of_steps read stated] at refused
  cases behind : readSteps 0 values with
  | ok steps =>
    rw [behind] at refused
    cases refused
  | error other =>
    rw [behind] at refused
    cases refused
    obtain ⟨before, v, after, own, rfl, wellFormed, ill, rfl⟩ := exists_of_readSteps_error behind
    rw [Nat.zero_add]
    exact ⟨before.length, own, rfl, isLeast_illPlaces wellFormed ill⟩

/-- Two texts are read alike if their steps differ in nothing but what is passed over. -/
theorem ofText_congr (read : Outline.ofText text = .ok outline) (stated : outline.steps = some values)
    (readOther : Outline.ofText other = .ok same) (alike : same.recognised = outline.recognised)
    (location : Location) : ofText location other = ofText location text := by
  obtain ⟨description, defaults, steps⟩ := same
  simp only [Outline.recognised, stated, Option.map_some, Outline.mk.injEq] at alike
  obtain ⟨rfl, rfl, alike⟩ := alike
  obtain ⟨written, rfl, sameSteps⟩ := Option.map_eq_some_iff.1 alike
  rw [ofText_of_steps readOther rfl, ofText_of_steps read stated, ← readSteps_recognised, sameSteps,
    readSteps_recognised]

/-- A document with steps is accepted exactly if each of them is well formed. Otherwise the first that is not is
blamed. -/
theorem ofText_wellFormed (read : Outline.ofText text = .ok outline) (location : Location) :
    ((∃ d, ofText location text = .ok d) ↔
      ∃ values, outline.steps = some values ∧ ∀ v ∈ values, Step.WellFormed v) ∧
    (∀ d, ofText location text = .ok d → d.location = location ∧ d.description = outline.description ∧
      d.defaults = outline.defaults.getD ∅ ∧
        ∃ values, outline.steps = some values ∧ List.Forall₂ Step.Describes values d.steps) ∧
    (∀ values fault, outline.steps = some values → ofText location text = .error fault →
      ∃ index own, fault = .step index own ∧ IsLeast (illPlaces values) index) ∧
    ∀ other same, Outline.ofText other = .ok same → outline.steps.isSome →
      same.recognised = outline.recognised → ofText location other = ofText location text := by
  refine ⟨ofText_eq_ok_iff read, fun d made => ?_, ?_, ?_⟩
  · obtain ⟨values, stated⟩ := exists_steps_of_ofText read made
    rw [ofText_of_steps read stated] at made
    obtain ⟨steps, behind, rfl⟩ := exists_of_map_eq_ok made
    exact ⟨rfl, rfl, rfl, values, stated, (describes_of_readSteps behind).2⟩
  · intro values fault stated refused
    exact isLeast_of_ofText_error read stated refused
  · intro other same readOther stated alike
    obtain ⟨values, stated⟩ := Option.isSome_iff_exists.1 stated
    exact ofText_congr read stated readOther alike location

end Document

namespace Sample

/-- The first errand hands a parameter on, and has a field that is passed over. -/
def errands : String :=
  "steps:\n- action: ' tap '\n  param: ' crop '\n  retry: true\n- type: workflow\n  workflow: b\n"

def idleErrand : String := "steps:\n- action: tap\n- action: ' '\n"

end Sample

namespace Document

/-- Both errands are steps. With an idle one there is a first place that is ill. -/
theorem ofText_wellFormed_sample :
    (∃ d values, ofText .top Sample.errands = .ok d ∧ d.steps.length = 2 ∧
      (∀ v ∈ values, Step.WellFormed v) ∧ List.Forall₂ Step.Describes values d.steps) ∧
    ∃ fault values index, ofText .top Sample.idleErrand = .error fault ∧ IsLeast (illPlaces values) index := by
  constructor
  · have two : (ofText .top Sample.errands).toOption.map (fun d => d.steps.length) = some 2 := by decide +kernel
    cases made : ofText .top Sample.errands with
    | error => simp [made, Except.toOption] at two
    | ok d =>
      obtain ⟨outline, read⟩ := exists_outline_of_ofText made
      obtain ⟨accepted, described, _⟩ := ofText_wellFormed read .top
      obtain ⟨values, stated, wellFormed⟩ := accepted.1 ⟨d, made⟩
      obtain ⟨_, _, _, _, same, steps⟩ := described d made
      cases stated.symm.trans same
      rw [made] at two
      exact ⟨d, values, rfl, Option.some.inj two, wellFormed, steps⟩
  · have stands : ((Outline.ofText Sample.idleErrand).toOption.bind Outline.steps).isSome = true := by decide +kernel
    have refused : (ofText .top Sample.idleErrand).toOption.isNone = true := by decide +kernel
    cases read : Outline.ofText Sample.idleErrand with
    | error => simp [read, Except.toOption] at stands
    | ok outline =>
      cases made : ofText .top Sample.idleErrand with
      | ok d => simp [made, Except.toOption] at refused
      | error fault =>
        rw [read] at stands
        obtain ⟨values, stated⟩ := Option.isSome_iff_exists.1 stands
        obtain ⟨_, _, blamed, _⟩ := ofText_wellFormed read .top
        obtain ⟨index, _, _, least⟩ := blamed values fault stated made
        exact ⟨fault, values, index, rfl, least⟩

end Document

end WorkflowEngine
