import WorkflowEngine.Config.Reading

/-! Where configuration files lie.

The root that a file gives is seen from the file's directory before the configuration is checked. That changes no
verdict on a root that is written, since continued paths are not empty. An empty root is the directory itself by then,
and it is found to be empty only if the path of the file names no directory.
-/

set_option autoImplicit false

namespace WorkflowEngine

namespace Path

theorem isEmpty_iff {p : Path} : p.isEmpty = true ↔ p.text = "" := by
  simp [isEmpty]

theorem isEmpty_join (p q : Path) : (p.join q).isEmpty = true ↔ p.isEmpty = true ∧ q.isEmpty = true := by
  simp only [isEmpty_iff]
  unfold join
  split
  · rename_i absolute
    have written : q.text ≠ "" := fun nothing => by simp [isAbsolute, nothing] at absolute
    simp [written]
  split
  · simp
  · rename_i ahead
    have written : p.text ≠ "" := fun nothing => ahead (by simp [isEmpty, nothing])
    simp [written]

end Path

namespace Config

variable {c : Config} {fs other : FileSystem} {p q : Path} {text : String}

/-- The first fault of a configuration in anything but its root. -/
def faultBesidesRoot? (c : Config) : Option ValidationFault := (c.withRoot ⟨"/"⟩).fault?

theorem fault?_withRoot (c : Config) (root : Path) :
    (c.withRoot root).fault? = if root.isEmpty then some .emptyRoot else c.faultBesidesRoot? := by
  have written : (⟨"/"⟩ : Path).isEmpty = false := by simp [Path.isEmpty]
  unfold faultBesidesRoot? fault? withRoot
  simp only [written, Bool.false_eq_true, if_false]

def Admitted (fs : FileSystem) (path : Path) : Prop :=
  ∃ c, loadFile fs path = .ok c ∧ c.validate = .ok ()

theorem validate_eq_ok_iff : c.validate = .ok () ↔ c.fault? = none := by
  unfold validate
  cases c.fault? <;> simp

theorem admitted_iff (read : fs.readText p = .ok text) : Admitted fs p ↔ ∃ c, ofText text = .ok c ∧
    (c.workflows.root.isEmpty = true → p.parent.isEmpty = false) ∧ c.faultBesidesRoot? = none := by
  unfold Admitted loadFile
  simp only [read]
  cases ofText text with
  | error fault => simp
  | ok c =>
    simp only [Except.ok.injEq, exists_eq_left', validate_eq_ok_iff, anchor, fault?_withRoot, Path.isEmpty_join]
    cases c.workflows.root.isEmpty <;> cases p.parent.isEmpty <;> simp

/-- Files with one text are admitted alike, unless the text gives an empty root and just one of their paths names no
directory. -/
theorem admitted_of_same_text (here : fs.readText p = .ok text) (there : other.readText q = .ok text) :
    ((∀ c, ofText text = .ok c → c.workflows.root.isEmpty = false) ∨ p.parent.isEmpty = q.parent.isEmpty →
      (Admitted fs p ↔ Admitted other q)) ∧
    ∀ c, ofText text = .ok c → c.workflows.root.isEmpty = true →
      (Admitted fs p ↔ p.parent.isEmpty = false ∧ c.faultBesidesRoot? = none) := by
  rw [admitted_iff here, admitted_iff there]
  refine ⟨?_, fun c written empty => ?_⟩
  · rintro (rooted | alike)
    · refine exists_congr fun c => and_congr_right fun written => ?_
      simp [rooted c written]
    · rw [alike]
  · simp [written, empty]

end Config

namespace Sample

def bench (text : String) : FileSystem where
  entries := ((∅ : Dictionary Location Entry).insert ⟨["home"]⟩ .directory).insert ⟨["home", "autoflow.toml"]⟩
    (.file (.text text))
  workingDirectory := ⟨["home"]⟩

def rootedText : String := "[workflows]\nroot = 'flows'\n"

def rootlessText : String := "[workflows]\nroot = ''\n"

end Sample

namespace Config

theorem admitted_of_same_text_sample :
    (Sample.bench Sample.rootedText).readText ⟨"autoflow.toml"⟩ = .ok Sample.rootedText ∧
    (Sample.bench Sample.rootedText).readText ⟨"/home/autoflow.toml"⟩ = .ok Sample.rootedText ∧
    Admitted (Sample.bench Sample.rootedText) ⟨"autoflow.toml"⟩ ∧
    Admitted (Sample.bench Sample.rootedText) ⟨"/home/autoflow.toml"⟩ := by
  have here : (Sample.bench Sample.rootedText).readText ⟨"autoflow.toml"⟩ = .ok Sample.rootedText :=
    rfl
  have there : (Sample.bench Sample.rootedText).readText ⟨"/home/autoflow.toml"⟩ = .ok Sample.rootedText :=
    rfl
  have written : ofText Sample.rootedText = .ok (default.withRoot ⟨"flows"⟩) := rfl
  obtain ⟨same, _⟩ := admitted_of_same_text here there
  have admitted := (admitted_iff here).2 ⟨_, written, by decide +kernel, by decide +kernel⟩
  refine ⟨here, there, admitted, (same (.inl fun c other => ?_)).1 admitted⟩
  cases written.symm.trans other
  decide +kernel

/-- A file with an empty root is refused under its name in the working directory, and admitted under the same name
behind a dot. -/
theorem admitted_elsewhere :
    (Sample.bench Sample.rootlessText).readText ⟨"autoflow.toml"⟩ = .ok Sample.rootlessText ∧
    (Sample.bench Sample.rootlessText).readText ⟨"./autoflow.toml"⟩ = .ok Sample.rootlessText ∧
    ¬ Admitted (Sample.bench Sample.rootlessText) ⟨"autoflow.toml"⟩ ∧
    Admitted (Sample.bench Sample.rootlessText) ⟨"./autoflow.toml"⟩ := by
  have here : (Sample.bench Sample.rootlessText).readText ⟨"autoflow.toml"⟩ = .ok Sample.rootlessText :=
    rfl
  have there : (Sample.bench Sample.rootlessText).readText ⟨"./autoflow.toml"⟩ = .ok Sample.rootlessText :=
    rfl
  have written : ofText Sample.rootlessText = .ok (default.withRoot ⟨""⟩) := rfl
  refine ⟨here, there, fun admitted => ?_, (admitted_iff there).2 ⟨_, written, by decide +kernel, by decide +kernel⟩⟩
  obtain ⟨c, other, named, _⟩ := (admitted_iff here).1 admitted
  cases written.symm.trans other
  exact absurd (named (by decide +kernel)) (by decide +kernel)

end Config

end WorkflowEngine
