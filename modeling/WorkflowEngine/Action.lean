import WorkflowEngine.Error
import WorkflowEngine.Text.Quoted

/-! Actions and their registry.

An action takes parameters and the host it acts on. It answers success or failure, or an error, and
may change the host; it may say something, wait, or ask for the document cache to be emptied. A
registry knows actions by name.
-/

set_option autoImplicit false

namespace WorkflowEngine

/-- What actions act on: the files, and whatever else the host has. -/
structure Host (σ : Type) where
  files : FileSystem
  state : σ

inductive Note where
  | said (message : String)
  | waited (duration : Nanoseconds)
  deriving DecidableEq

structure Reply (σ : Type) where
  /-- True is success, false a failure without a reason. -/
  verdict : Except Error Bool
  host : Host σ
  /-- The document cache is to be emptied. -/
  resets : Bool
  notes : List Note

abbrev Action (σ : Type) := Params → Host σ → Reply σ

namespace Action

variable {σ : Type}

def answering (answer : Params → Except Error Bool × List Note) : Action σ := fun params host =>
  let (verdict, notes) := answer params
  ⟨verdict, host, false, notes⟩

def messageText : Option Value → String
  | some (.text s) => s
  | some v => Json.compact v
  | none => ""

def log : Action σ := answering fun params =>
  (.ok true, [.said (messageText (params.find? "message"))])

def secondsOf : Option Value → Except Error Binary64
  | none => .ok (.finite false 0)
  | some (.number n) => .ok n.toReal
  | some v => .error (.validation (.secondsNotNumeric v))

/-- A wait as a clock can make it. From `2 ^ 63` seconds on the clock cannot count to its end, and the
wait lasts thirty years instead. -/
def countable (duration : Nanoseconds) : Nanoseconds :=
  if Nat.pow 2 63 * Nanoseconds.perSecond ≤ duration then 30 * 365 * 86400 * Nanoseconds.perSecond
  else duration

def sleep : Action σ := answering fun params =>
  match secondsOf (params.find? "seconds") with
  | .error e => (.error e, [])
  | .ok seconds =>
    match Nanoseconds.ofSeconds seconds with
    | .error fault => (.error (.validation (.unusableSeconds seconds fault)), [])
    | .ok duration => (.ok true, [.waited (countable duration)])

def noop : Action σ := answering fun _ => (.ok true, [])

end Action

structure Registry (σ : Type) where
  actions : Dictionary String (Action σ)

namespace Registry

variable {σ : Type}

def empty : Registry σ := ⟨∅⟩

def register (r : Registry σ) (name : String) (action : Action σ) : Registry σ :=
  ⟨r.actions.insert name action⟩

def find? (r : Registry σ) (name : String) : Option (Action σ) := r.actions.find? name

def contains (r : Registry σ) (name : String) : Bool := r.actions.contains name

def names (r : Registry σ) : List String := r.actions.keys

def size (r : Registry σ) : Nat := r.actions.size

def withBuiltins (r : Registry σ) : Registry σ :=
  ((r.register "log" .log).register "sleep" .sleep).register "noop" .noop

def describe (r : Registry σ) : String :=
  "ActionRegistry \x7b actions: [" ++
    String.intercalate ", " (r.names.map (Text.quoted false)) ++ "] \x7d"

end Registry

end WorkflowEngine
