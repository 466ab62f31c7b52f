import WorkflowEngine.Proofs.ListsAndResults
import WorkflowEngine.Proofs.Location.Proper

/-! When locations are free of links.

Under filesystem normalization a reference means the location where the written one really is, as far as it
exists. What is missing there is missing behind the real location as well, so a location that can be opened
is real. There is one exception. Where the written location is there, but behind more links than a look-up
follows, the names behind the link that was one too many are kept as if they were missing, and behind the
real location they can be found.
-/

set_option autoImplicit false

namespace WorkflowEngine

namespace FileSystem

variable {fs : FileSystem}

theorem locate_outer {l : Location} (proper : l.Proper) (free : l.NulFree) {outer inner : List String}
    (split : l.names = outer ++ inner) :
    fs.locate (Location.path ⟨outer⟩) = fs.follow linkLimit [] outer := by
  have inside : ∀ name ∈ outer, name ∈ l.names := fun name member =>
    split ▸ List.mem_append_left inner member
  exact locate_path (fun name member => proper name (inside name member))
    fun name member => free name (inside name member)

/-- A location that is there, but behind more links than a look-up follows. -/
def Overlinked (fs : FileSystem) (l : Location) : Prop :=
  fs.locate l.path = .error .tooManyLinks ∧ ∃ links real, fs.follow links [] l.names = .ok real

theorem absent_existingPart {above : List String} {name : String} {rest : List String}
    (missing : (fs.existingPart above).2 = name :: rest) :
    fs.isPresent (Location.path ⟨(fs.existingPart above).1.names ++ [name]⟩) = false := by
  induction above generalizing name rest with
  | nil => cases missing
  | cons last above ih =>
    rw [existingPart] at missing ⊢
    split at missing
    · cases missing
    rename_i absent
    rw [if_neg absent]
    have whole := fs.names_existingPart above
    cases between : (fs.existingPart above).2 with
    | nil =>
      rw [between, List.append_nil] at whole
      obtain ⟨rfl, _⟩ : last = name ∧ [] = rest := by simpa [between] using missing
      simpa [whole] using absent
    | cons first more =>
      obtain ⟨rfl, _⟩ : first = name ∧ more ++ [last] = rest := by simpa [between] using missing
      exact ih between

/-- A location in two parts: one that leads to a real location, and the names that are missing there. -/
structure Parts (fs : FileSystem) (l p found start : Location) (missing : List String) : Prop where
  whole : l.names = found.names ++ missing
  leads : fs.locate found.path = .ok start
  means : p.names = start.names ++ missing
  absent : ∀ name rest, missing = name :: rest →
    fs.isPresent (Location.path ⟨found.names ++ [name]⟩) = false

theorem exists_parts {l p : Location} (located : fs.realLocation l = .ok p) :
    ∃ found start missing, fs.Parts l p found start missing := by
  have whole := fs.names_existingPart l.names.reverse
  rw [List.reverse_reverse] at whole
  unfold realLocation at located
  dsimp only at located
  split at located
  · rename_i start leads
    cases located
    exact ⟨_, start, _, whole.symm, leads, rfl, fun _ _ => absent_existingPart⟩
  · cases located

namespace Parts

variable {l p found start real : Location} {missing : List String}

theorem looks (parts : fs.Parts l p found start missing) (proper : l.Proper) :
    fs.Looks linkLimit [] found.names (.ok start) := by
  have properFound : found.Proper := fun name member =>
    proper name (parts.whole ▸ List.mem_append_left missing member)
  exact looks_of_locate properFound parts.leads

theorem nulFree (parts : fs.Parts l p found start missing) (free : p.NulFree) : l.NulFree := by
  intro name member
  rw [parts.whole] at member
  rcases List.mem_append.1 member with member | member
  · exact nulFree_of_locate parts.leads name member
  · exact free name (parts.means ▸ List.mem_append_right start.names member)

theorem exists_fault (parts : fs.Parts l p found start missing) (proper : l.Proper) (free : l.NulFree)
    (gaps : missing ≠ []) : ∃ fault, fs.Looks linkLimit [] l.names (.error fault) := by
  obtain ⟨name, rest, rfl⟩ := List.exists_cons_of_ne_nil gaps
  have split : l.names = found.names ++ [name] ++ rest := by simpa using parts.whole
  have absent := parts.absent name rest rfl
  rw [isPresent, locate_outer proper free split] at absent
  have looks : fs.Looks linkLimit [] (found.names ++ [name]) _ := looks_follow _ _ _
  cases outcome : fs.follow linkLimit [] (found.names ++ [name]) with
  | ok there =>
    rw [outcome] at absent
    cases absent
  | error fault =>
    rw [outcome] at looks
    exact ⟨fault, split ▸ looks.append_error rest⟩

/-- A location with missing names is found with the links of both its parts, but not with those of one
look-up. -/
theorem overlinked (parts : fs.Parts l p found start missing) (proper : l.Proper) (properReal : p.Proper)
    (opened : fs.locate p.path = .ok real) (gaps : missing ≠ []) : fs.Overlinked l := by
  have free : l.NulFree := parts.nulFree (nulFree_of_locate opened)
  have reaches := looks_of_locate properReal opened
  rw [parts.means] at reaches
  have leads : fs.Looks (linkLimit + linkLimit) [] l.names (.ok real) :=
    parts.whole ▸ (parts.looks proper).behind_real reaches
  obtain ⟨fault, fails⟩ := parts.exists_fault proper free gaps
  -- Any other fault would stay with more links.
  obtain rfl : fault = .tooManyLinks := by
    by_contra other
    cases (fails.mono (by simpa using other) (Nat.le_add_left _ _)).unique leads
  exact ⟨(locate_path proper free).trans fails.follow_eq, _, real, leads.follow_eq⟩

end Parts

theorem real_of_realLocation {l p real : Location} (proper : l.Proper)
    (located : fs.realLocation l = .ok p) (short : ¬ fs.Overlinked l)
    (opened : fs.locate p.path = .ok real) : real = p ∧ fs.Real p := by
  have properReal := proper_of_realLocation proper located
  obtain ⟨found, start, missing, parts⟩ := exists_parts located
  have complete : missing = [] := by
    by_contra gaps
    exact short (parts.overlinked proper properReal opened gaps)
  obtain rfl : p = start := Location.ext_names (by simpa [complete] using parts.means)
  have isReal : fs.Real p := ((parts.looks proper).arrives .top).real
  cases (looks_of_locate properReal opened).unique (isReal.looks linkLimit)
  exact ⟨rfl, isReal⟩

theorem real_of_normalLocation {written : Path} {p real : Location}
    (located : fs.normalLocation .filesystem written = .ok p)
    (short : ∀ l, written.spelledLocation = .ok l → ¬ fs.Overlinked l)
    (opened : fs.locate p.path = .ok real) : real = p ∧ fs.Real p := by
  unfold normalLocation at located
  split at located
  · cases located
  · rename_i l spelled
    exact real_of_realLocation (Path.proper_of_spelledLocation spelled) located (short l spelled) opened

end FileSystem

/-- What is asked of a resolver: what a reference means from a directory, or which entry it names. -/
inductive Request where
  | seen (reference : Reference) (directory : Path)
  | entry (reference : Reference)

namespace Resolver

variable {r : Resolver} {fs : FileSystem} {p : Location}

def answer (r : Resolver) (fs : FileSystem) : Request → Except Error Location
  | .seen reference directory => r.resolve fs reference directory
  | .entry reference => r.resolveTarget fs (.reference reference)

def writtenFrom? (r : Resolver) (reference : Reference) (directory : Path) : Option Path :=
  match reference.segments.reverse with
  | [] => none
  | last :: above => some <| extend (r.base reference directory)
      (above.reverse ++ [Reference.withExtension r.extension last])

def writtenAbsolutely? (r : Resolver) (reference : Reference) : Option Path :=
  let path : Path := ⟨Text.trim reference.text⟩
  path.fileName?.map fun name => path.parent.join ⟨Reference.withExtension r.extension name⟩

def written? (r : Resolver) (fs : FileSystem) : Request → Option Path
  | .seen reference directory => r.writtenFrom? reference directory
  | .entry reference =>
    match r.absoluteUnderRoot? fs reference with
    | some _ => r.writtenAbsolutely? reference
    | none => r.writtenFrom? reference r.root.path

def Overlinked (r : Resolver) (fs : FileSystem) (request : Request) : Prop :=
  ∃ written l, r.written? fs request = some written ∧ written.spelledLocation = .ok l ∧ fs.Overlinked l

theorem isUnder_of_confine {reference : String} {l : Location} (inside : r.confine reference l = .ok p)
    (confined : r.sandbox = .confineToRoot) : p.isUnder r.root = true := by
  obtain rfl := eq_of_confine inside
  unfold confine at inside
  split at inside
  · cases inside
  · rename_i kept
    simpa [confined] using kept

theorem written_of_resolve {reference : Reference} {directory : Path}
    (resolved : r.resolve fs reference directory = .ok p) :
    ∃ written, r.writtenFrom? reference directory = some written ∧
      fs.normalLocation r.normalization written = .ok p ∧
      (r.sandbox = .confineToRoot → p.isUnder r.root = true) := by
  unfold resolve at resolved
  split at resolved
  · cases resolved
  rename_i last above backwards
  rw [writtenFrom?, backwards]
  split at resolved
  · cases resolved
  split at resolved
  · cases resolved
  dsimp only at resolved
  split at resolved
  · rename_i l located
    have under := isUnder_of_confine resolved
    obtain rfl := eq_of_confine resolved
    exact ⟨_, rfl, located, under⟩
  · cases resolved

theorem written_of_absoluteUnderRoot? {reference : Reference}
    (found : r.absoluteUnderRoot? fs reference = some p) :
    ∃ written, r.writtenAbsolutely? reference = some written ∧
      fs.normalLocation r.normalization written = .ok p := by
  unfold absoluteUnderRoot? at found
  unfold writtenAbsolutely?
  dsimp only at found ⊢
  split at found
  · simp only [Option.bind_eq_bind, Option.bind_eq_some_iff] at found
    obtain ⟨name, named, l, located, inside⟩ := found
    split at inside
    · cases inside
      rw [named]
      exact ⟨_, rfl, toOption_eq_some_iff.1 located⟩
    · cases inside
  · cases found

theorem written_of_answer {request : Request} (answered : r.answer fs request = .ok p) :
    ∃ written, r.written? fs request = some written ∧
      fs.normalLocation r.normalization written = .ok p ∧
      (r.sandbox = .confineToRoot → p.isUnder r.root = true) := by
  cases request with
  | seen reference directory =>
    rw [answer] at answered
    simp only [written?]
    exact written_of_resolve answered
  | entry reference =>
    rw [answer, resolveTarget] at answered
    split at answered
    · rename_i l found
      simp only [written?, found]
      have under := isUnder_of_confine answered
      obtain rfl := eq_of_confine answered
      obtain ⟨written, spelled, located⟩ := written_of_absoluteUnderRoot? found
      exact ⟨written, spelled, located, under⟩
    · rename_i outside
      simp only [written?, outside]
      exact written_of_resolve answered

end Resolver

namespace Sample

/-- Three links to one directory, over one link, five and twenty-one. In it are links to a file under the
root and to one outside, over twenty-two links each. -/
def tangle : FileSystem where
  entries := (∅ : Dictionary Location Entry).insertAll [
    (⟨["out.y"]⟩, .file (.text "steps: []")),
    (⟨["w"]⟩, .directory), (⟨["w", "d"]⟩, .directory), (⟨["w", "t.y"]⟩, .file (.text "steps: []")),
    (⟨["w", "s1"]⟩, .link ⟨"d"⟩), (⟨["w", "s2"]⟩, .link ⟨"s1/../s1/../s1/../s1"⟩),
    (⟨["w", "s3"]⟩, .link ⟨"s2/../s2/../s2/../s2"⟩), (⟨["w", "d", "x.y"]⟩, .link ⟨"../s3/../t.y"⟩),
    (⟨["w", "d", "y.y"]⟩, .link ⟨"../s3/../../out.y"⟩)]
  workingDirectory := .top

def follower : Resolver := ⟨⟨["w"]⟩, "y", .confineToRoot, .filesystem⟩

end Sample

namespace Resolver

/-- Under filesystem normalization a location that can be opened is its own real one, unless the written one is behind
too many links. -/
theorem answer_real (r : Resolver) (fs : FileSystem) (request : Request) (p real : Location)
    (filesystem : r.normalization = .filesystem) (answered : r.answer fs request = .ok p)
    (opened : fs.locate p.path = .ok real) (short : ¬ r.Overlinked fs request) :
    real = p ∧
    (∀ outer inner target, p.names = outer ++ inner → fs.entryAt? ⟨outer⟩ ≠ some (.link target)) ∧
    (r.sandbox = .confineToRoot → real.isUnder r.root = true) ∧
    ∀ other q, r.answer fs other = .ok q → fs.locate q.path = .ok real → ¬ r.Overlinked fs other →
      q = p := by
  have settles : ∀ {request p}, r.answer fs request = .ok p → fs.locate p.path = .ok real →
      ¬ r.Overlinked fs request → real = p ∧ fs.Real p := by
    intro request p answered opened short
    obtain ⟨written, spelled, located, _⟩ := written_of_answer answered
    rw [filesystem] at located
    exact FileSystem.real_of_normalLocation located
      (fun l leads overlinked => short ⟨written, l, spelled, leads, overlinked⟩) opened
  obtain ⟨rfl, isReal⟩ := settles answered opened short
  obtain ⟨_, _, _, under⟩ := written_of_answer answered
  refine ⟨rfl, fun _ _ target split => isReal.entryAt?_ne_link split target, under, ?_⟩
  intro other q again sameFile alsoShort
  exact (settles again sameFile alsoShort).1.symm

/-- Twenty-seven links lead to the file, and the reference means the place of the file itself. -/
theorem answer_real_sample :
    Sample.follower.answer Sample.tangle (.entry ⟨"s2/x"⟩) = .ok ⟨["w", "t.y"]⟩ ∧
    (∀ outer inner target, ["w", "t.y"] = outer ++ inner →
      Sample.tangle.entryAt? ⟨outer⟩ ≠ some (.link target)) := by
  have answered : Sample.follower.answer Sample.tangle (.entry ⟨"s2/x"⟩) = .ok ⟨["w", "t.y"]⟩ := by
    decide +kernel
  have opened : Sample.tangle.locate (Location.path ⟨["w", "t.y"]⟩) = .ok ⟨["w", "t.y"]⟩ := by
    decide +kernel
  have short : ¬ Sample.follower.Overlinked Sample.tangle (.entry ⟨"s2/x"⟩) := by
    rintro ⟨written, l, spelled, leads, exhausted, _⟩
    have path : Sample.follower.written? Sample.tangle (.entry ⟨"s2/x"⟩) = some ⟨"/w/s2/x.y"⟩ := by
      decide +kernel
    have place : Path.spelledLocation ⟨"/w/s2/x.y"⟩ = .ok ⟨["w", "s2", "x.y"]⟩ := by decide +kernel
    have found : Sample.tangle.locate (Location.path ⟨["w", "s2", "x.y"]⟩) = .ok ⟨["w", "t.y"]⟩ := by
      decide +kernel
    cases path.symm.trans spelled
    cases place.symm.trans leads
    cases found.symm.trans exhausted
  exact ⟨answered, (answer_real _ _ _ _ _ rfl answered opened short).2.1⟩

/-- Forty-three links lead to either file, so its name is kept as a missing one. Behind the directory that
is left there are few enough: one file has two locations, and the other one is read outside the root. -/
theorem answer_not_real :
    Sample.follower.answer Sample.tangle (.entry ⟨"s3/x"⟩) = .ok ⟨["w", "d", "x.y"]⟩ ∧
    Sample.tangle.locate (Location.path ⟨["w", "d", "x.y"]⟩) = .ok ⟨["w", "t.y"]⟩ ∧
    Sample.follower.answer Sample.tangle (.entry ⟨"t"⟩) = .ok ⟨["w", "t.y"]⟩ ∧
    Sample.follower.answer Sample.tangle (.entry ⟨"s3/y"⟩) = .ok ⟨["w", "d", "y.y"]⟩ ∧
    Sample.tangle.locate (Location.path ⟨["w", "d", "y.y"]⟩) = .ok ⟨["out.y"]⟩ ∧
    Sample.follower.sandbox = .confineToRoot ∧
    Location.isUnder ⟨["out.y"]⟩ Sample.follower.root = false := by
  decide +kernel

end Resolver

end WorkflowEngine
