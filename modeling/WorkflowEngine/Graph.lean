import WorkflowEngine.Cache
import WorkflowEngine.Resolver

/-! Import graphs.

The graph of an entry document holds every document that is reached over imports, and an edge for each
workflow step. It is found by going through the imports in depth, with the documents that are still
open on a chain: an import of one of these is a cycle. A document that has been left is settled and
is not entered again.
-/

set_option autoImplicit false

namespace WorkflowEngine

structure ImportSite where
  workflow : Location
  stepIndex : Nat
  deriving DecidableEq

structure ImportEdge where
  site : ImportSite
  target : Location
  deriving DecidableEq

/-- Why there is no graph: the place of the import that failed, unless the entry itself did, and the
documents open at that point. -/
structure GraphFailure where
  site : Option ImportSite
  chain : List Location
  error : Error
  deriving DecidableEq

namespace GraphFailure

def message (f : GraphFailure) : String :=
  match f.site with
  | some site => f.error.message ++ " (imported at step " ++
      String.ofList (Nat.toDigits 10 site.stepIndex) ++ " of " ++ site.workflow.text ++ ")"
  | none => f.error.message

end GraphFailure

structure ImportGraph where
  entry : Location
  entryDocument : Document
  /-- The other documents, in the order in which they were found. -/
  imported : List Document
  edges : List ImportEdge

namespace ImportGraph

def documents (g : ImportGraph) : List Document := g.entryDocument :: g.imported

def document? (g : ImportGraph) (l : Location) : Option Document :=
  g.documents.find? fun d => d.location = l

def importsOf (g : ImportGraph) (l : Location) : List ImportEdge :=
  g.edges.filter fun edge => edge.site.workflow = l

def actionNames (g : ImportGraph) : List String :=
  (Dictionary.ofList ((g.documents.flatMap Document.actionNames).map fun name => (name, ()))).keys

end ImportGraph

namespace FileSystem

def depth (fs : FileSystem) : Nat :=
  fs.entries.keys.foldl (fun depth l => max depth l.names.length) 0

/-- No more locations than this can be read: each of their names is one of the file system's, and
between two links no look-up descends deeper than the deepest entry. -/
def readableBound (fs : FileSystem) : Nat :=
  Nat.pow (fs.entries.size + 1) ((linkLimit + 1) * (fs.depth + 1))

end FileSystem

structure Findings where
  documents : List Document
  edges : List ImportEdge
  settled : List Location
  cache : Cache

inductive WalkResult where
  | found (findings : Findings)
  | rejected (failure : GraphFailure) (cache : Cache)
  /-- The budget of open documents was used up. -/
  | exhausted

namespace Findings

def nothing (settled : List Location) (cache : Cache) : Findings := ⟨[], [], settled, cache⟩

def settle (l : Location) (f : Findings) : Findings := { f with settled := l :: f.settled }

def behindEdge (edge : ImportEdge) (f : Findings) : Findings :=
  { f with edges := edge :: f.edges }

def behindImport (edge : ImportEdge) (child : Document) (inner later : Findings) : Findings where
  documents := child :: (inner.documents ++ later.documents)
  edges := edge :: (inner.edges ++ later.edges)
  settled := later.settled
  cache := later.cache

end Findings

namespace WalkResult

def map (f : Findings → Findings) : WalkResult → WalkResult
  | .found findings => .found (f findings)
  | .rejected failure cache => .rejected failure cache
  | .exhausted => .exhausted

def andThen (r : WalkResult) (next : Findings → WalkResult) : WalkResult :=
  match r with
  | .found findings => next findings
  | .rejected failure cache => .rejected failure cache
  | .exhausted => .exhausted

end WalkResult

namespace Resolver

def importTarget (r : Resolver) (fs : FileSystem) (workflow : Location) (step : WorkflowStep) :
    Except Error Location :=
  r.resolve fs step.workflow workflow.directory.path

/-- Go through the imports of the innermost open document; `enter` goes through a document found
there. -/
def walkImports (r : Resolver) (fs : FileSystem)
    (enter : Document → List Location → Cache → WalkResult) (chain : List Location)
    (workflow : Location) :
    List (Nat × WorkflowStep) → List Location → Cache → WalkResult
  | [], settled, cache => .found (.nothing settled cache)
  | (stepIndex, step) :: rest, settled, cache =>
    let site : ImportSite := ⟨workflow, stepIndex⟩
    match r.importTarget fs workflow step with
    | .error e => .rejected ⟨some site, chain, e⟩ cache
    | .ok target =>
      let edge : ImportEdge := ⟨site, target⟩
      -- An open document imports itself over the chain; a settled one cannot lead back to it.
      if chain.contains target then
        .rejected ⟨some site, chain, .cyclicImport chain target⟩ cache
      else if settled.contains target then
        (r.walkImports fs enter chain workflow rest settled cache).map (.behindEdge edge)
      else match cache.load fs target with
        | (.error e, cache) => .rejected ⟨some site, chain, e⟩ cache
        | (.ok child, cache) =>
          (enter child settled cache).andThen fun inner =>
            (r.walkImports fs enter chain workflow rest inner.settled inner.cache).map
              (.behindImport edge child inner)

/-- Go through a document below a chain of open ones, with a budget of documents that may be open. -/
def walk (r : Resolver) (fs : FileSystem) :
    Nat → List Location → Document → List Location → Cache → WalkResult
  | 0, _, _, _, _ => .exhausted
  | budget + 1, above, d, settled, cache =>
    let chain := above ++ [d.location]
    (r.walkImports fs (r.walk fs budget chain) chain d.location d.imports settled cache).map
      (.settle d.location)

/-- More documents than can be open at a time, since those on a chain differ and were all loaded. -/
def walkBudget (fs : FileSystem) (cache : Cache) : Nat :=
  fs.readableBound + cache.size + 1

def resolveGraph (r : Resolver) (fs : FileSystem) (cache : Cache) (entry : Location) :
    Except GraphFailure ImportGraph × Cache :=
  match cache.load fs entry with
  | (.error e, cache) => (.error ⟨none, [], e⟩, cache)
  | (.ok d, cache) =>
    match r.walk fs (walkBudget fs cache) [] d [] cache with
    | .found findings => (.ok ⟨entry, d, findings.documents, findings.edges⟩, findings.cache)
    | .rejected failure cache => (.error failure, cache)
    | .exhausted => (.error ⟨none, [], .cyclicImport [] entry⟩, cache)

def resolveTargetGraph (r : Resolver) (fs : FileSystem) (cache : Cache) (target : Target) :
    Except GraphFailure ImportGraph × Cache :=
  match r.resolveTarget fs target with
  | .error e => (.error ⟨none, [], e⟩, cache)
  | .ok entry => r.resolveGraph fs cache entry

end Resolver

end WorkflowEngine
