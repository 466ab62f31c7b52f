import WorkflowEngine.Toml.Scalar

/-! Reading TOML.

A text is a sequence of lines: keys with their values, and headers that say which table the keys below
them belong to. The tables are built line by line, so that what a later line may add is known.
-/

set_option autoImplicit false

namespace WorkflowEngine.Toml

def skipLines (inComment : Bool) : List Char → Except Fault (List Char)
  | [] => .ok []
  | '\r' :: '\n' :: rest => skipLines false rest
  | c :: rest =>
    if c == '\n' then skipLines false rest
    else if inComment then if isTextChar c then skipLines true rest else .error .lineEnd
    else if isBlank c then skipLines false rest
    else if c == '#' then skipLines true rest
    else .ok (c :: rest)

def endLine (cs : List Char) : Except Fault (List Char) :=
  let rest := cs.dropWhile isBlank
  let rest := match rest with
    | '#' :: comment => comment.dropWhile isTextChar
    | _ => rest
  match rest with
  | [] => .ok []
  | _ =>
    match afterBreak? rest with
    | some rest => .ok rest
    | none => .error .lineEnd

def readPair (readValue : List Char → Except Fault (Value × List Char)) (cs : List Char) :
    Except Fault ((List String × Value) × List Char) := do
  let (key, rest) ← readKey 79 cs
  match rest with
  | '=' :: rest => do
    let (v, rest) ← readValue (rest.dropWhile isBlank)
    .ok ((key, v), rest)
  | _ => .error .key

/-- The items of an array, which may end with a comma. Each takes a character. -/
def readItems (readValue : List Char → Except Fault (Value × List Char)) :
    Nat → List Char → Except Fault (List Value × List Char)
  | 0, _ => .error .value
  | more + 1, cs => do
    match ← skipLines false cs with
    | ']' :: rest => .ok ([], rest)
    | rest => do
      let (v, rest) ← readValue rest
      match ← skipLines false rest with
      | ',' :: rest => do
        let (vs, rest) ← readItems readValue more rest
        .ok (v :: vs, rest)
      | ']' :: rest => .ok ([v], rest)
      | _ => .error .value

/-- The pairs between braces, on one line and without a comma at the end. -/
def readPairs (readValue : List Char → Except Fault (Value × List Char)) (fields : Fields) :
    Nat → List Char → Except Fault (Fields × List Char)
  | 0, _ => .error .value
  | more + 1, cs => do
    let ((key, v), rest) ← readPair readValue cs
    let fields ← Fields.addKey key v .braces fields
    match rest.dropWhile isBlank with
    | ',' :: rest => readPairs readValue fields more rest
    | '}' :: rest => .ok (fields, rest)
    | _ => .error .value

def readValue : Nat → List Char → Except Fault (Value × List Char)
  | 0, _ => .error .depth
  | depth + 1, cs =>
    match cs with
    | '[' :: rest =>
      if depth = 0 then .error .depth
      else do
        let (items, rest) ← readItems (readValue depth) (rest.length + 1) rest
        .ok (.array items, rest)
    | '{' :: rest =>
      if depth = 0 then .error .depth
      else
        match rest.dropWhile isBlank with
        | '}' :: rest => .ok (.table .braces [], rest)
        | rest => do
          let (fields, rest) ← readPairs (readValue depth) [] (rest.length + 1) rest
          .ok (.table .braces fields, rest)
    | c :: _ =>
      if c == '"' || c == '\'' then do
        let (text, rest) ← readText cs
        .ok (.text text, rest)
      else readScalar cs
    | [] => .error .value

def depthLimit : Nat := 80

inductive Line where
  | pair (key : List String) (value : Value)
  | header (path : List String)
  | repeatedHeader (path : List String)

def readLine (cs : List Char) : Except Fault (Line × List Char) :=
  match cs with
  | '[' :: '[' :: rest => do
    let (path, rest) ← readKey 79 rest
    match rest with
    | ']' :: ']' :: rest => do
      let rest ← endLine rest
      .ok (.repeatedHeader path, rest)
    | _ => .error .table
  | '[' :: rest => do
    let (path, rest) ← readKey 79 rest
    match rest with
    | ']' :: rest => do
      let rest ← endLine rest
      .ok (.header path, rest)
    | _ => .error .table
  | _ => do
    let ((key, v), rest) ← readPair (readValue depthLimit) cs
    let rest ← endLine rest
    .ok (.pair key v, rest)

def readLines : Nat → List Char → Except Fault (List Line)
  | 0, _ => .error .lineEnd
  | more + 1, cs => do
    match ← skipLines false cs with
    | [] => .ok []
    | rest => do
      let (line, rest) ← readLine rest
      let lines ← readLines more rest
      .ok (line :: lines)

/-- A table that is being filled: a header that says where it goes, and its pairs in reverse. -/
structure Section where
  header : Option Line
  pairs : List (List String × Value)

def addPairs (pairs : List (List String × Value)) : Fields.Change := fun form fields =>
  pairs.foldlM (fun fields pair => Fields.addKey pair.1 pair.2 form fields) fields

namespace Section

def close (s : Section) (root : Fields) : Except Fault Fields :=
  let add := addPairs s.pairs.reverse
  match s.header with
  | some (.header path) => Fields.defineTable path add root
  | some (.repeatedHeader path) => Fields.appendTable path add root
  | _ => add .header root

def build (root : Fields) (s : Section) : List Line → Except Fault Fields
  | [] => s.close root
  | .pair key v :: rest => build root { s with pairs := (key, v) :: s.pairs } rest
  | line :: rest => do
    let root ← s.close root
    build root ⟨some line, []⟩ rest

end Section

def ofText (text : String) : Except Fault Fields := do
  let cs := match text.toList with
    | c :: rest => if c == '\uFEFF' then rest else c :: rest
    | [] => []
  let lines ← readLines (cs.length + 1) cs
  Section.build [] ⟨none, []⟩ lines

end WorkflowEngine.Toml
