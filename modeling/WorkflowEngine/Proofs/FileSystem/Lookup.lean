import WorkflowEngine.FileSystem
import Mathlib.Data.List.Basic

/-! How look-ups go on.

What a look-up comes to is derived piece by piece. Derivations compose: pieces behind a fault do not change
it, links that are left over do not change an outcome, and a look-up that leads to a directory goes on from
there as if it had started there, with the links that are left.
-/

set_option autoImplicit false

namespace WorkflowEngine.FileSystem

variable {fs : FileSystem}

structure Meets (fs : FileSystem) (here : List String) (piece : String) (found : Option Entry) : Prop where
  busy : Path.isIdle piece = false
  level : piece ≠ ".."
  found : fs.entries.find? ⟨here ++ [piece]⟩ = found

theorem Meets.entryAt? {here : List String} {piece : String} {found : Option Entry}
    (meets : fs.Meets here piece found) : fs.entryAt? ⟨here ++ [piece]⟩ = found := by
  rw [FileSystem.entryAt?]
  split
  · rename_i top
    simp at top
  · exact meets.found

/-- What pieces come to from a directory, when a number of links may be followed. -/
inductive Looks (fs : FileSystem) : Nat → List String → List String → Except FileFault Location → Prop
  | done {links : Nat} {here : List String} : Looks fs links here [] (.ok ⟨here⟩)
  | idle {links : Nat} {here rest : List String} {piece : String} {outcome : Except FileFault Location} :
      Path.isIdle piece = true → Looks fs links here rest outcome →
      Looks fs links here (piece :: rest) outcome
  | up {links : Nat} {here rest : List String} {outcome : Except FileFault Location} :
      Looks fs links here.dropLast rest outcome → Looks fs links here (".." :: rest) outcome
  | missing {links : Nat} {here rest : List String} {piece : String} :
      fs.Meets here piece none → Looks fs links here (piece :: rest) (.error .notFound)
  | directory {links : Nat} {here rest : List String} {piece : String}
      {outcome : Except FileFault Location} :
      fs.Meets here piece (some .directory) → Looks fs links (here ++ [piece]) rest outcome →
      Looks fs links here (piece :: rest) outcome
  | file {links : Nat} {here : List String} {piece : String} {content : Content} :
      fs.Meets here piece (some (.file content)) → Looks fs links here [piece] (.ok ⟨here ++ [piece]⟩)
  | blocked {links : Nat} {here rest : List String} {piece : String} {content : Content} :
      fs.Meets here piece (some (.file content)) → rest ≠ [] →
      Looks fs links here (piece :: rest) (.error .notADirectory)
  | exhausted {here rest : List String} {piece : String} {target : Path} :
      fs.Meets here piece (some (.link target)) →
      Looks fs 0 here (piece :: rest) (.error .tooManyLinks)
  | link {links : Nat} {here rest : List String} {piece : String} {target : Path}
      {outcome : Except FileFault Location} :
      fs.Meets here piece (some (.link target)) →
      Looks fs links (if target.isAbsolute then [] else here) (target.pieces ++ rest) outcome →
      Looks fs (links + 1) here (piece :: rest) outcome

theorem looks_followWith {links : Nat}
    {jump : List String → List String → Except FileFault Location}
    (jumps : ∀ here piece rest target, fs.Meets here piece (some (.link target)) →
      fs.Looks links here (piece :: rest)
        (jump (if target.isAbsolute then [] else here) (target.pieces ++ rest)))
    (here pieces : List String) : fs.Looks links here pieces (fs.followWith jump here pieces) := by
  induction pieces generalizing here with
  | nil => exact .done
  | cons piece rest ih =>
    rw [followWith]
    split
    · rename_i idle
      exact .idle idle (ih _)
    rename_i busy
    split
    · rename_i climbs
      exact climbs ▸ .up (ih _)
    rename_i level
    have meets : fs.Meets here piece (fs.entries.find? ⟨here ++ [piece]⟩) := ⟨by simpa using busy, level, rfl⟩
    split <;> rename_i found <;> rw [found] at meets
    · exact .missing meets
    · exact .directory meets (ih _)
    · split
      · rename_i last
        obtain rfl := List.isEmpty_iff.1 last
        exact .file meets
      · rename_i more
        exact .blocked meets (by simpa using more)
    · exact jumps _ _ _ _ meets

theorem looks_follow (links : Nat) (here pieces : List String) :
    fs.Looks links here pieces (fs.follow links here pieces) := by
  induction links generalizing here pieces with
  | zero => exact looks_followWith (fun _ _ _ _ meets => .exhausted meets) here pieces
  | succ links ih => exact looks_followWith (fun _ _ _ _ meets => .link meets (ih _ _)) here pieces

namespace Looks

variable {links : Nat} {here pieces : List String} {outcome : Except FileFault Location}

theorem follow_eq (looks : fs.Looks links here pieces outcome) : fs.follow links here pieces = outcome := by
  induction looks with
  | @done links => cases links <;> rfl
  | @idle links _ _ _ _ idle _ ih => cases links <;> simpa [follow, followWith, idle] using ih
  | @up links _ _ _ _ ih => cases links <;> simpa [follow, followWith, Path.isIdle] using ih
  | @missing links _ _ _ meets =>
    cases links <;> simp [follow, followWith, meets.busy, meets.level, meets.found]
  | @directory links _ _ _ _ meets _ ih =>
    cases links <;> simpa [follow, followWith, meets.busy, meets.level, meets.found] using ih
  | @file links _ _ _ meets =>
    cases links <;> simp [follow, followWith, meets.busy, meets.level, meets.found]
  | @blocked links _ _ _ _ meets more =>
    cases links <;> simp [follow, followWith, meets.busy, meets.level, meets.found, more]
  | exhausted meets => simp [follow, followWith, meets.busy, meets.level, meets.found]
  | link meets _ ih => simpa [follow, followWith, meets.busy, meets.level, meets.found] using ih

theorem unique {other : Except FileFault Location} (looks : fs.Looks links here pieces outcome)
    (again : fs.Looks links here pieces other) : outcome = other :=
  looks.follow_eq.symm.trans again.follow_eq

theorem append_error {fault : FileFault} (looks : fs.Looks links here pieces (.error fault))
    (more : List String) : fs.Looks links here (pieces ++ more) (.error fault) := by
  generalize failed : Except.error fault = outcome at looks
  induction looks with
  | done => cases failed
  | idle idle _ ih => exact .idle idle (ih failed)
  | up _ ih => exact .up (ih failed)
  | missing meets => cases failed; exact .missing meets
  | directory meets _ ih => exact .directory meets (ih failed)
  | file => cases failed
  | blocked meets behind =>
    cases failed
    exact .blocked meets fun nothing => behind (List.append_eq_nil_iff.1 nothing).1
  | exhausted meets => cases failed; exact .exhausted meets
  | link meets _ ih => exact .link meets (by simpa using ih failed)

/-- A piece that names nothing leaves a look-up where it is, unless that is behind a file. -/
theorem append_idle {l : Location} (looks : fs.Looks links here pieces (.ok l)) {piece : String}
    (idle : Path.isIdle piece = true) :
    fs.Looks links here (pieces ++ [piece]) (.ok l) ∨
      fs.Looks links here (pieces ++ [piece]) (.error .notADirectory) := by
  generalize found : Except.ok l = outcome at looks ⊢
  induction looks with
  | done => exact .inl (.idle idle .done)
  | idle other _ ih => exact (ih found).imp (.idle other) (.idle other)
  | up _ ih => exact (ih found).imp .up .up
  | missing => cases found
  | directory meets _ ih => exact (ih found).imp (.directory meets) (.directory meets)
  | file meets => exact .inr (.blocked meets (by simp))
  | blocked => cases found
  | exhausted => cases found
  | link meets _ ih =>
    rw [List.append_assoc] at ih
    exact (ih found).imp (.link meets) (.link meets)

theorem goes_on {l : Location} (looks : fs.Looks links here pieces (.ok l))
    (directory : fs.entryAt? l = some .directory) :
    ∃ left, ∀ more outcome, fs.Looks left l.names more outcome → fs.Looks links here (pieces ++ more) outcome := by
  generalize found : Except.ok l = outcome at looks
  induction looks with
  | @done links =>
    cases found
    exact ⟨links, fun _ _ looks => looks⟩
  | idle idle _ ih =>
    obtain ⟨left, goes⟩ := ih found
    exact ⟨left, fun more outcome looks => .idle idle (goes more outcome looks)⟩
  | up _ ih =>
    obtain ⟨left, goes⟩ := ih found
    exact ⟨left, fun more outcome looks => .up (goes more outcome looks)⟩
  | missing => cases found
  | directory meets _ ih =>
    obtain ⟨left, goes⟩ := ih found
    exact ⟨left, fun more outcome looks => .directory meets (goes more outcome looks)⟩
  | file meets =>
    cases found
    rw [meets.entryAt?] at directory
    cases directory
  | blocked => cases found
  | exhausted => cases found
  | link meets _ ih =>
    obtain ⟨left, goes⟩ := ih found
    exact ⟨left, fun more outcome looks => .link meets (by simpa using goes more outcome looks)⟩

theorem mono (looks : fs.Looks links here pieces outcome) (enough : outcome ≠ .error .tooManyLinks)
    {more : Nat} (le : links ≤ more) : fs.Looks more here pieces outcome := by
  induction looks generalizing more with
  | done => exact .done
  | idle idle _ ih => exact .idle idle (ih enough le)
  | up _ ih => exact .up (ih enough le)
  | missing meets => exact .missing meets
  | directory meets _ ih => exact .directory meets (ih enough le)
  | file meets => exact .file meets
  | blocked meets behind => exact .blocked meets behind
  | exhausted => exact absurd rfl enough
  | link meets _ ih =>
    obtain ⟨more, rfl⟩ := Nat.exists_eq_add_of_le' (Nat.lt_of_lt_of_le (Nat.succ_pos _) le)
    exact .link meets (ih enough (Nat.le_of_succ_le_succ le))

end Looks

/-- Names that lead from the top directory to a directory without a link. -/
inductive Stands (fs : FileSystem) : List String → Prop
  | top : Stands fs []
  | deeper {here : List String} {name : String} :
      Stands fs here → fs.Meets here name (some .directory) → Stands fs (here ++ [name])

/-- A location of a directory or a file with no link on the way. -/
inductive Real (fs : FileSystem) : Location → Prop
  | directory {here : List String} : fs.Stands here → Real fs ⟨here⟩
  | file {here : List String} {name : String} {content : Content} :
      fs.Stands here → fs.Meets here name (some (.file content)) → Real fs ⟨here ++ [name]⟩

namespace Stands

theorem of_append {outer inner : List String} (stands : fs.Stands (outer ++ inner)) : fs.Stands outer := by
  generalize whole : outer ++ inner = names at stands
  induction stands generalizing inner with
  | top => exact (List.append_eq_nil_iff.1 whole).1 ▸ .top
  | deeper stands meets ih =>
    rcases List.eq_nil_or_concat' inner with rfl | ⟨front, last, rfl⟩
    · rw [List.append_nil] at whole
      exact whole ▸ .deeper stands meets
    · rw [← List.append_assoc] at whole
      exact ih (List.append_inj_left' whole rfl)

theorem dropLast {here : List String} (stands : fs.Stands here) : fs.Stands here.dropLast := by
  cases stands with
  | top => exact .top
  | deeper stands _ => rwa [List.dropLast_concat]

theorem entryAt? {here : List String} (stands : fs.Stands here) : fs.entryAt? ⟨here⟩ = some .directory := by
  cases stands with
  | top => rfl
  | deeper _ meets => exact meets.entryAt?

theorem looks {here more : List String} {links : Nat} {outcome : Except FileFault Location}
    (stands : fs.Stands here) (looks : fs.Looks links here more outcome) :
    fs.Looks links [] (here ++ more) outcome := by
  induction stands generalizing more with
  | top => exact looks
  | deeper _ meets ih =>
    rw [List.append_assoc]
    exact ih (.directory meets looks)

end Stands

namespace Real

variable {l : Location}

theorem looks (real : fs.Real l) (links : Nat) : fs.Looks links [] l.names (.ok l) := by
  cases real with
  | @directory here stands =>
    have done : fs.Looks links here [] (.ok ⟨here⟩) := .done
    simpa using stands.looks done
  | file stands meets => exact stands.looks (.file meets)

theorem entryAt?_ne_link (real : fs.Real l) {outer inner : List String} (split : l.names = outer ++ inner)
    (target : Path) : fs.entryAt? ⟨outer⟩ ≠ some (.link target) := by
  intro link
  cases real with
  | directory stands =>
    obtain rfl : _ = outer ++ inner := split
    rw [stands.of_append.entryAt?] at link
    cases link
  | @file here name content stands meets =>
    rcases List.eq_nil_or_concat' inner with rfl | ⟨front, last, rfl⟩
    · obtain rfl : here ++ [name] = outer := by simpa using split
      rw [meets.entryAt?] at link
      cases link
    · have whole : here ++ [name] = outer ++ front ++ [last] := by rw [List.append_assoc]; exact split
      obtain rfl : here = outer ++ front := List.append_inj_left' whole rfl
      rw [stands.of_append.entryAt?] at link
      cases link

end Real

/-- A look-up has come to a real location. From a directory it goes on with the links that are left, however many
more it gets. -/
inductive Arrives (fs : FileSystem) (links : Nat) (here pieces : List String) : Location → Prop
  | directory {l : Location} (left : Nat) : fs.Stands l.names →
      (∀ extra more outcome, fs.Looks (left + extra) l.names more outcome →
        fs.Looks (links + extra) here (pieces ++ more) outcome) →
      Arrives fs links here pieces l
  | file {outer : List String} {name : String} {content : Content} :
      fs.Stands outer → fs.Meets outer name (some (.file content)) →
      Arrives fs links here pieces ⟨outer ++ [name]⟩

namespace Arrives

variable {links : Nat} {here pieces : List String} {l : Location}

theorem real (arrives : fs.Arrives links here pieces l) : fs.Real l := by
  cases arrives with
  | directory _ stands => exact .directory stands
  | file stands meets => exact .file stands meets

theorem along {fewer : Nat} {start between : List String} (arrives : fs.Arrives fewer start between l)
    (extend : ∀ extra more outcome, fs.Looks (fewer + extra) start (between ++ more) outcome →
      fs.Looks (links + extra) here (pieces ++ more) outcome) : fs.Arrives links here pieces l := by
  cases arrives with
  | directory left stands goes =>
    exact .directory left stands fun extra more outcome looks =>
      extend extra more outcome (goes extra more outcome looks)
  | file stands meets => exact .file stands meets

end Arrives

namespace Looks

variable {links : Nat} {here pieces : List String} {l : Location}

theorem arrives (stands : fs.Stands here) (looks : fs.Looks links here pieces (.ok l)) :
    fs.Arrives links here pieces l := by
  generalize found : Except.ok l = outcome at looks
  induction looks with
  | @done links here =>
    cases found
    exact .directory links stands fun _ _ _ looks => looks
  | idle idle _ ih => exact (ih stands found).along fun _ _ _ looks => .idle idle looks
  | up _ ih => exact (ih stands.dropLast found).along fun _ _ _ looks => .up looks
  | missing => cases found
  | directory meets _ ih =>
    exact (ih (stands.deeper meets) found).along fun _ _ _ looks => .directory meets looks
  | file meets =>
    cases found
    exact .file stands meets
  | blocked => cases found
  | exhausted => cases found
  | @link links here _ _ target _ meets _ ih =>
    have start : fs.Stands (if target.isAbsolute then [] else here) := by
      split
      · exact .top
      · exact stands
    -- The link that was followed is one more of those that the look-up needs.
    refine (ih start found).along fun extra more _ looks => ?_
    rw [Nat.add_right_comm]
    exact .link meets (by simpa using looks)

/-- What pieces lead to from a real location they lead to behind any way to it, with the links of both. -/
theorem behind_real {start : Location} {found more : List String} {further : Nat}
    (leads : fs.Looks links [] found (.ok start))
    (reaches : fs.Looks further [] (start.names ++ more) (.ok l)) :
    fs.Looks (links + further) [] (found ++ more) (.ok l) := by
  cases leads.arrives .top with
  | directory left stands goes =>
    have behind : fs.Looks further start.names more _ := looks_follow _ _ _
    rw [(stands.looks behind).unique reaches] at behind
    exact goes further more _ (behind.mono (by simp) (Nat.le_add_left _ _))
  | @file outer name _ stands meets =>
    cases more with
    | nil =>
      have itself : fs.Looks further [] (outer ++ [name] ++ []) (.ok ⟨outer ++ [name]⟩) := by
        simpa using (Real.file stands meets).looks further
      cases itself.unique reaches
      simpa using leads.mono (by simp) (Nat.le_add_right links further)
    | cons piece rest =>
      -- Nothing may follow a file.
      have fails : fs.Looks further [] (outer ++ [name] ++ piece :: rest) (.error .notADirectory) := by
        rw [List.append_assoc]
        exact stands.looks (.blocked meets (List.cons_ne_nil _ _))
      cases fails.unique reaches

end Looks

end WorkflowEngine.FileSystem
