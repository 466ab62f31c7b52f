import WorkflowEngine.Error
import WorkflowEngine.Text.Quoted

/-! From references to locations.

A resolver has a root directory and the extension of documents. A relative reference starts at the
directory it is seen from, any other one at the root. A confined resolver refuses locations outside
its root.
-/

set_option autoImplicit false

namespace WorkflowEngine

inductive Sandbox where
  | confineToRoot
  | unrestricted
  deriving DecidableEq

structure Resolver where
  root : Location
  extension : String
  sandbox : Sandbox
  normalization : Normalization
  deriving DecidableEq

inductive Target where
  | reference (reference : Reference)
  | location (location : Location)
  deriving DecidableEq

namespace Resolver

/-- An extension without blanks at its ends and dots in front. -/
def bareExtension (extension : String) : String :=
  String.ofList ((Text.trimChars extension.toList).dropWhile (· == '.'))

def build (fs : FileSystem) (root : Path) (extension : String) (sandbox : Sandbox)
    (normalization : Normalization) : Except Error Resolver :=
  let extension := bareExtension extension
  if extension.toList.isEmpty then .error (.configuration .emptyExtension)
  else match fs.normalLocation normalization root with
    | .ok root => .ok ⟨root, extension, sandbox, normalization⟩
    | .error fault => .error (.configuration (.unusableRoot root fault))

def confine (r : Resolver) (reference : String) (l : Location) : Except Error Location :=
  if r.sandbox = .confineToRoot && !l.isUnder r.root then
    .error (.unresolved reference (.outsideRoot l r.root))
  else .ok l

def extend (base : Path) (names : List String) : Path :=
  names.foldl (fun path name => path.join ⟨name⟩) base

def base (r : Resolver) (reference : Reference) (directory : Path) : Path :=
  match reference.kind with
  | .relative => directory
  | .rootAnchored => r.root.path

def resolve (r : Resolver) (fs : FileSystem) (reference : Reference) (directory : Path) :
    Except Error Location :=
  match reference.segments.reverse with
  | [] => .error (.unresolved reference.text .emptyReference)
  | last :: above =>
    -- The last segment names the document, so it may not climb.
    if last = "." || last = ".." then .error (.unresolved reference.text .namesNoDocument)
    else if reference.kind = .relative && !directory.isAbsolute then
      .error (.unresolved reference.text (.baseNotAbsolute directory))
    else
      let written := extend (r.base reference directory)
        (above.reverse ++ [Reference.withExtension r.extension last])
      match fs.normalLocation r.normalization written with
      | .ok l => r.confine reference.text l
      | .error fault => .error (.unresolved reference.text (.normal fault))

/-- The location of a reference that is an absolute path to a place under the root. -/
def absoluteUnderRoot? (r : Resolver) (fs : FileSystem) (reference : Reference) :
    Option Location :=
  let path : Path := ⟨Text.trim reference.text⟩
  if path.isAbsolute then do
    let name ← path.fileName?
    let written := path.parent.join ⟨Reference.withExtension r.extension name⟩
    -- Only the name is completed; the directories are taken as they are written.
    let l ← (fs.normalLocation r.normalization written).toOption
    if l.isUnder r.root then some l else none
  else none

/-- The location that a caller's target means. References are seen from the root, and an absolute
path under the root is taken as it is. -/
def resolveTarget (r : Resolver) (fs : FileSystem) : Target → Except Error Location
  | .location l => r.confine l.text l
  | .reference reference =>
    match r.absoluteUnderRoot? fs reference with
    | some l => r.confine reference.text l
    | none => r.resolve fs reference r.root.path

def describe (r : Resolver) : String :=
  let sandbox := match r.sandbox with
    | .confineToRoot => "ConfineToRoot"
    | .unrestricted => "Unrestricted"
  "PathResolver \x7b root: " ++ Text.quoted true r.root.text ++ ", extension: " ++
    Text.quoted false r.extension ++ ", sandbox: " ++ sandbox ++ ", .. \x7d"

end Resolver

end WorkflowEngine
