import WorkflowEngine.Engine
import WorkflowEngine.Graph.Tree

/-! Reports.

What an engine has found or done is told either in lines of text or as indented JSON. Locations are
spelled as seen from the root. A graph that was refused is told in text on the error output, all else
on the ordinary one.
-/

set_option autoImplicit false

namespace WorkflowEngine.Report

def lines (ls : List String) : String := String.join (ls.map (· ++ "\n"))

def count (n : Nat) : String := String.ofList (Nat.toDigits 10 n)

def indent (depth : Nat) : String := Text.repeated "  " depth

def arrows (names : List String) : String := String.intercalate " -> " names

def json (v : Value) : String := lines [Json.pretty v]

def orNull {α : Type} (f : α → Value) : Option α → Value
  | some a => f a
  | none => .null

def number (n : Nat) : Value := .integer n

def texts (names : List String) : Value := .list (names.map .text)

variable (root : Location)

def chain (ls : List Location) : List String := ls.map (Location.relativeTo root)

def place (l : Location) : Value := .text (Location.relativeTo root l)

/-! Runs -/

def target : StepTarget → String × String
  | .action name => ("action", name)
  | .workflow _ (some l) => ("workflow", Location.relativeTo root l)
  | .workflow reference none => ("workflow", reference.text)

def outcomeLine (o : StepOutcome) : String :=
  let (kind, name) := target root o.target
  indent o.depth ++ (if o.succeeded then "[ok] " else "[FAILED] ") ++
    Location.relativeTo root o.workflow ++ "#" ++ count o.stepIndex ++ " " ++ kind ++ " " ++ name ++
    (if o.optional then " (optional)" else "")

def siteLines (verb : String) (workflow : Option Location) (stepIndex : Option Nat) : List String :=
  match workflow, stepIndex with
  | some workflow, some index =>
    ["  " ++ verb ++ " step " ++ count index ++ " of " ++ Location.relativeTo root workflow]
  | _, _ => []

def chainLines (title : String) (ls : List Location) : List String :=
  if ls.isEmpty then [] else ["  " ++ title ++ ": " ++ arrows (chain root ls)]

def verdictLines (r : RunResult) : List String :=
  match r.failure with
  | none => ["workflow succeeded (" ++ count r.steps.length ++ " steps)"]
  | some f => ("workflow failed: " ++ f.error.message) ::
      (siteLines root "at" f.workflow f.stepIndex ++ chainLines root "call chain" f.callChain)

def runText (r : RunResult) : String :=
  lines (r.steps.map (outcomeLine root) ++ verdictLines root r)

def errorText (e : Error) : Value := .text e.message

def outcomeValue (o : StepOutcome) : Value :=
  let (kind, name) := target root o.target
  .ofFields [("workflow", place root o.workflow), ("step_index", number o.stepIndex),
    ("depth", number o.depth), ("kind", .text kind), ("target", .text name),
    ("success", .bool o.succeeded), ("optional", .bool o.optional),
    ("error", orNull errorText o.error)]

def runFailureValue (f : RunFailure) : Value :=
  .ofFields [("workflow", orNull (place root) f.workflow), ("step_index", orNull number f.stepIndex),
    ("call_chain", texts (chain root f.callChain)), ("error", errorText f.error)]

def runJson (r : RunResult) : String :=
  json (.ofFields [("success", .bool r.succeeded),
    ("failure", orNull (runFailureValue root) r.failure),
    ("steps", .list (r.steps.map (outcomeValue root)))])

/-! Graphs -/

def descriptionOf (g : ImportGraph) (l : Location) : String :=
  match (g.document? l).bind Document.description with
  | some text => "  # " ++ text
  | none => ""

def treeLine (g : ImportGraph) (entry : TreeEntry) : String :=
  indent entry.depth ++
    (match entry.stepIndex with
      | some index => "[" ++ count index ++ "] "
      | none => "") ++
    Location.relativeTo root entry.location ++
    (if entry.again then " (see above)" else descriptionOf g entry.location)

def graphText (g : ImportGraph) : String :=
  lines (g.tree.map (treeLine root g) ++ [count g.documents.length ++ " documents, " ++
    count g.edges.length ++ " imports, " ++ count g.actionNames.length ++ " distinct actions"])

def edgeValue (edge : ImportEdge) : Value :=
  .ofFields [("from", place root edge.site.workflow), ("step_index", number edge.site.stepIndex),
    ("to", place root edge.target)]

def graphJson (g : ImportGraph) : String :=
  json (.ofFields [("entry", place root g.entry),
    ("documents", texts (chain root (g.documents.map Document.location))),
    ("imports", .list (g.edges.map (edgeValue root))), ("actions", texts g.actionNames)])

def graphFailureText (f : GraphFailure) : String :=
  lines (("workflow graph rejected: " ++ f.error.message) ::
    (siteLines root "imported at" (f.site.map ImportSite.workflow)
        (f.site.map ImportSite.stepIndex) ++
      chainLines root "chain" f.chain))

def siteValue (site : ImportSite) : Value :=
  .ofFields [("workflow", place root site.workflow), ("step_index", number site.stepIndex)]

def graphFailureJson (f : GraphFailure) : String :=
  json (.ofFields [("success", .bool false), ("error", errorText f.error),
    ("site", orNull (siteValue root) f.site), ("chain", texts (chain root f.chain))])

/-! Listings -/

def aliasLines (aliases : List (String × String)) : List String :=
  if aliases.isEmpty then []
  else "aliases:" :: aliases.map fun entry => "  " ++ entry.1 ++ " -> " ++ entry.2

def listingText (workflows : List String) (aliases : List (String × String)) : String :=
  lines (("workflows under " ++ root.text ++ ":") ::
    (workflows.map ("  " ++ ·) ++ aliasLines aliases))

def aliasValue (entry : String × String) : Value :=
  .ofFields [("name", .text entry.1), ("workflow", .text entry.2)]

def listingJson (workflows : List String) (aliases : List (String × String)) : String :=
  json (.ofFields [("root", .text root.text), ("workflows", texts workflows),
    ("aliases", .list (aliases.map aliasValue))])

end WorkflowEngine.Report
