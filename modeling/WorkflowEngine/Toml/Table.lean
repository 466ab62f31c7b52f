import WorkflowEngine.Toml.Fault

/-! TOML values and how tables grow.

A table comes from a header, from braces, from a dotted key, or on the way to another table. Which of
these decides what may be added to it later: headers may complete only tables made on the way, and
dotted keys may extend only tables that no header or braces have defined.
-/

set_option autoImplicit false

namespace WorkflowEngine.Toml

inductive Form where
  | braces
  | header
  | onTheWay
  | dotted
  deriving DecidableEq

/-- No header and no braces have defined the table. -/
def Form.isImplicit : Form → Bool
  | .braces | .header => false
  | .onTheWay | .dotted => true

inductive Value where
  | text (value : String)
  | integer (value : Int)
  | real
  | bool (value : Bool)
  | moment
  | array (items : List Value)
  | table (form : Form) (fields : List (String × Value))
  /-- Tables under one repeated header. -/
  | tables (items : List (List (String × Value)))

abbrev Fields := List (String × Value)

namespace Fields

def set (name : String) (v : Value) : Fields → Fields
  | [] => [(name, v)]
  | (other, w) :: rest => if other = name then (name, v) :: rest else (other, w) :: set name v rest

abbrev Change := Form → Fields → Except Fault Fields

/-- Change the table that names lead to. Tables that are missing on the way are made; of repeated
tables the last one is meant. Dotted keys do not lead into defined tables. -/
def descend (dotted : Bool) (change : Change) : List String → Change
  | [], form, fields => change form fields
  | name :: rest, _, fields =>
    match fields.lookup name with
    | none => do
      let form : Form := if dotted then .dotted else .onTheWay
      let inner ← descend dotted change rest form []
      .ok (fields.set name (.table form inner))
    | some (.table form inner) =>
      if form = .braces || (dotted && !form.isImplicit) then .error .duplicateKey
      else do
        let inner ← descend dotted change rest form inner
        .ok (fields.set name (.table form inner))
    | some (.tables items) =>
      -- The last of the tables under a repeated header is the one that is open.
      match items.reverse with
      | [] => .error .table
      | last :: before => do
        let inner ← descend dotted change rest .header last
        .ok (fields.set name (.tables (before.reverse ++ [inner])))
    | some _ => .error .duplicateKey

/-- Add a value under a key. A dotted key adds only to tables that dotted keys have made. -/
def addKey (path : List String) (v : Value) : Change := fun form fields =>
  match path.reverse with
  | [] => .error .key
  | name :: above =>
    descend true (fun form fields =>
      if decide (form = .dotted) == above.isEmpty || (fields.lookup name).isSome then
        .error .duplicateKey
      else .ok (fields ++ [(name, v)])) above.reverse form fields

/-- Define the table of a header by adding what stands below the header. -/
def defineTable (path : List String) (add : Change) (fields : Fields) : Except Fault Fields :=
  match path.reverse with
  | [] => .error .key
  | name :: above =>
    descend false (fun _ fields =>
      match fields.lookup name with
      | none => do
        let inner ← add .header []
        .ok (fields ++ [(name, .table .header inner)])
      -- A header may fill in a table that others have only passed through.
      | some (.table .onTheWay inner) => do
        let inner ← add .header inner
        .ok (fields.set name (.table .header inner))
      | some _ => .error .duplicateKey) above.reverse .header fields

def appendTable (path : List String) (add : Change) (fields : Fields) : Except Fault Fields :=
  match path.reverse with
  | [] => .error .key
  | name :: above =>
    descend false (fun _ fields => do
      let inner ← add .header []
      match fields.lookup name with
      | none => .ok (fields ++ [(name, .tables [inner])])
      | some (.tables items) => .ok (fields.set name (.tables (items ++ [inner])))
      | some _ => .error .duplicateKey) above.reverse .header fields

end Fields

end WorkflowEngine.Toml
