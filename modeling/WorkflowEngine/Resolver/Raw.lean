import WorkflowEngine.Path.Raw
import WorkflowEngine.Resolver

/-! From references to locations in bytes.

The root of a resolver and the directory that a reference is seen from are paths of the system. References and
extensions are texts, and so is what an error says of a path.
-/

set_option autoImplicit false

namespace WorkflowEngine

/-- A resolver that goes by the spelling of paths. -/
structure RawResolver where
  root : RawLocation
  extension : String
  sandbox : Sandbox
  deriving DecidableEq

inductive RawTarget where
  | reference (reference : Reference)
  | location (location : RawLocation)
  deriving DecidableEq

def Resolver.raw (r : Resolver) : RawResolver := ⟨r.root.raw, r.extension, r.sandbox⟩

def Target.raw : Target → RawTarget
  | .reference text => .reference text
  | .location l => .location l.raw

namespace RawResolver

def build (root : RawPath) (extension : String) (sandbox : Sandbox) : Except Error RawResolver :=
  let extension := Resolver.bareExtension extension
  if extension.toList.isEmpty then .error (.configuration .emptyExtension)
  else match root.spelledLocation with
    | .ok root => .ok ⟨root, extension, sandbox⟩
    | .error fault => .error (.configuration (.unusableRoot ⟨root.text⟩ (.spelling fault)))

def confine (r : RawResolver) (reference : String) (l : RawLocation) : Except Error RawLocation :=
  if r.sandbox = .confineToRoot && !l.isUnder r.root then
    .error (.unresolved reference (.outsideRoot l.shown r.root.shown))
  else .ok l

def extend (base : RawPath) (names : List String) : RawPath :=
  names.foldl (fun path name => path.join (Path.raw ⟨name⟩)) base

def base (r : RawResolver) (reference : Reference) (directory : RawPath) : RawPath :=
  match reference.kind with
  | .relative => directory
  | .rootAnchored => r.root.path

def resolve (r : RawResolver) (reference : Reference) (directory : RawPath) : Except Error RawLocation :=
  match reference.segments.reverse with
  | [] => .error (.unresolved reference.text .emptyReference)
  | last :: above =>
    if last = "." || last = ".." then .error (.unresolved reference.text .namesNoDocument)
    else if reference.kind = .relative && !directory.isAbsolute then
      .error (.unresolved reference.text (.baseNotAbsolute ⟨directory.text⟩))
    else
      let written := extend (r.base reference directory)
        (above.reverse ++ [Reference.withExtension r.extension last])
      match written.spelledLocation with
      | .ok l => r.confine reference.text l
      | .error fault => .error (.unresolved reference.text (.normal (.spelling fault)))

/-- The location of a reference that is an absolute path to a place under the root. The path is a text, as the
reference is. -/
def absoluteUnderRoot? (r : RawResolver) (reference : Reference) : Option RawLocation :=
  let path : Path := ⟨Text.trim reference.text⟩
  if path.isAbsolute then do
    let name ← path.fileName?
    let written := path.parent.join ⟨Reference.withExtension r.extension name⟩
    let l ← written.raw.spelledLocation.toOption
    if l.isUnder r.root then some l else none
  else none

def resolveTarget (r : RawResolver) : RawTarget → Except Error RawLocation
  | .location l => r.confine l.text l
  | .reference reference =>
    match r.absoluteUnderRoot? reference with
    | some l => r.confine reference.text l
    | none => r.resolve reference r.root.path

end RawResolver

end WorkflowEngine
