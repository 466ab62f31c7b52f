import WorkflowEngine.Location

/-! Locations of paths by their spelling.

The pieces of an absolute path are taken one after the other: an idle piece changes nothing, two
dots climb to the directory above, and any other piece is a name to descend to. A path that climbs
above the top directory has no location.
-/

set_option autoImplicit false

namespace WorkflowEngine

inductive SpellingFault where
  | notAbsolute (path : Path)
  | climbsAboveTop (path : Path)
  deriving DecidableEq

def SpellingFault.message : SpellingFault → String
  | .notAbsolute path => "'" ++ path.text ++ "' is not an absolute path"
  | .climbsAboveTop path => "'" ++ path.text ++ "' climbs above the filesystem root"

/-- The names descended to so far, and how many they are. -/
structure Descent where
  names : List String
  depth : Nat
  deriving DecidableEq

namespace Descent

def start : Descent := ⟨[], 0⟩

def step (d : Descent) (piece : String) : Option Descent :=
  if Path.isIdle piece then some d
  else if piece = ".." then
    if d.depth = 0 then none else some ⟨d.names.dropLast, d.depth - 1⟩
  else some ⟨d.names ++ [piece], d.depth + 1⟩

def follow (d : Descent) (pieces : List String) : Option Descent := pieces.foldlM step d

theorem depth_eq_of_step {d e : Descent} {piece : String} (exact : d.depth = d.names.length)
    (h : d.step piece = some e) : e.depth = e.names.length := by
  unfold step at h
  split at h
  · cases h
    exact exact
  · split at h
    · split at h
      · simp at h
      · cases h
        simp [exact]
    · cases h
      simp [exact]

end Descent

def Path.spelledLocation (p : Path) : Except SpellingFault Location :=
  if p.isAbsolute then
    match Descent.start.follow p.pieces with
    | some d => .ok ⟨d.names⟩
    | none => .error (.climbsAboveTop p)
  else .error (.notAbsolute p)

end WorkflowEngine
