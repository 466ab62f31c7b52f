import WorkflowEngine.Error

/-! The document cache.

A document is read once and then kept under its location; what happens to its file afterwards does not
show until the cache is emptied. A failed read leaves no trace.
-/

set_option autoImplicit false

namespace WorkflowEngine

def FileSystem.readDocument (fs : FileSystem) (l : Location) : Except Error Document :=
  match fs.readText l.path with
  | .error .notFound => .error (.documentNotFound l.path)
  | .error fault => .error (.documentUnread l.path (.file fault))
  | .ok text =>
    match Document.ofText l text with
    | .ok d => .ok d
    | .error fault => .error (.documentMalformed l.path fault)

theorem FileSystem.location_readDocument {fs : FileSystem} {l : Location} {d : Document}
    (read : fs.readDocument l = .ok d) : d.location = l := by
  unfold readDocument at read
  split at read
  · cases read
  · cases read
  · split at read
    · rename_i parsed
      cases read
      exact Document.location_ofText parsed
    · cases read

structure Cache where
  documents : Dictionary Location Document
  /-- A document stands under its own location. -/
  keyed : ∀ l d, documents.find? l = some d → d.location = l

namespace Cache

def empty : Cache := ⟨∅, fun _ _ found => nomatch found⟩

def insert (c : Cache) (d : Document) : Cache where
  documents := c.documents.insert d.location d
  keyed l e found := by
    rw [Dictionary.find?_insert] at found
    split at found
    · rename_i same
      cases found
      exact same
    · exact c.keyed l e found

def find? (c : Cache) (l : Location) : Option Document := c.documents.find? l

def contains (c : Cache) (l : Location) : Bool := c.documents.contains l

def size (c : Cache) : Nat := c.documents.size

def locations (c : Cache) : List Location := c.documents.keys

def document (c : Cache) (fs : FileSystem) (l : Location) : Except Error Document :=
  match c.find? l with
  | some d => .ok d
  | none => fs.readDocument l

/-- The document at a location, and the cache that holds it from now on. -/
def load (c : Cache) (fs : FileSystem) (l : Location) : Except Error Document × Cache :=
  match c.find? l with
  | some d => (.ok d, c)
  | none =>
    match fs.readDocument l with
    | .ok d => (.ok d, c.insert d)
    | .error e => (.error e, c)

theorem location_of_find? {c : Cache} {l : Location} {d : Document} (found : c.find? l = some d) :
    d.location = l := c.keyed l d found

theorem find?_insert (c : Cache) (d : Document) (l : Location) :
    (c.insert d).find? l = if d.location = l then some d else c.find? l :=
  Dictionary.find?_insert c.documents d.location d l

theorem load_fst (c : Cache) (fs : FileSystem) (l : Location) :
    (c.load fs l).1 = c.document fs l := by
  unfold load document
  split
  · rfl
  · cases fs.readDocument l <;> rfl

theorem find?_load (c : Cache) (fs : FileSystem) (l other : Location) :
    (c.load fs l).2.find? other =
      if l = other then (c.document fs l).toOption else c.find? other := by
  unfold load document
  split
  · rename_i d found
    by_cases same : l = other
    · subst same
      simpa [Except.toOption] using found
    · simp [same]
  · rename_i missing
    cases read : fs.readDocument l with
    | error e =>
      by_cases same : l = other
      · subst same
        simpa [Except.toOption] using missing
      · simp [same]
    | ok d => simp [find?_insert, FileSystem.location_readDocument read, Except.toOption]

theorem load_of_document {c : Cache} {fs : FileSystem} {l : Location} {d : Document}
    (read : c.document fs l = .ok d) : c.load fs l = (.ok d, (c.load fs l).2) := by
  rw [← read, ← load_fst]

theorem load_of_document_error {c : Cache} {fs : FileSystem} {l : Location} {e : Error}
    (unread : c.document fs l = .error e) : c.load fs l = (.error e, c) := by
  unfold document at unread
  unfold load
  split at unread
  · cases unread
  · simp only [unread]

theorem location_of_document {c : Cache} {fs : FileSystem} {l : Location} {d : Document}
    (read : c.document fs l = .ok d) : d.location = l := by
  unfold document at read
  split at read
  · rename_i found
    cases read
    exact location_of_find? found
  · exact FileSystem.location_readDocument read

theorem load_of_find? {c : Cache} {l : Location} {d : Document} (fs : FileSystem)
    (found : c.find? l = some d) : c.load fs l = (.ok d, c) := by
  simp [load, found]

theorem document_of_find? {c : Cache} {l : Location} {d : Document} (fs : FileSystem)
    (found : c.find? l = some d) : c.document fs l = .ok d := by
  simp [document, found]

theorem find?_load_self {c : Cache} {fs : FileSystem} {l : Location} {d : Document}
    (read : c.document fs l = .ok d) : (c.load fs l).2.find? l = some d := by
  simp [find?_load, read, Except.toOption]

theorem find?_load_of_find? {c : Cache} {l : Location} {d : Document} (fs : FileSystem)
    (other : Location) (found : c.find? l = some d) : (c.load fs other).2.find? l = some d := by
  rw [find?_load]
  split
  · rename_i same
    subst same
    simp [document_of_find? fs found, Except.toOption]
  · exact found

@[simp]
theorem document_load (c : Cache) (fs : FileSystem) (l : Location) :
    (c.load fs l).2.document fs = c.document fs := by
  funext other
  unfold document
  rw [find?_load]
  by_cases same : l = other
  · subst same
    cases found : c.find? l with
    | some d => simp [document, found, Except.toOption]
    | none => cases read : fs.readDocument l <;> simp [document, found, read, Except.toOption]
  · simp [same]

end Cache

end WorkflowEngine
