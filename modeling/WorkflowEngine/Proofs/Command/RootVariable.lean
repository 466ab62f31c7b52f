import WorkflowEngine.Command.Arguments
import WorkflowEngine.Command.Execution
import WorkflowEngine.Proofs.Engine.Construction

/-! The root that a variable names.

The variable for the root is read twice for a command: with the configuration, where it is trimmed and a blank
text does not count, and with the command's own options, where it is taken as it is written. The second reading
replaces the first. For a text without blanks at its ends both come to the same, and the engine of a command
has the root of an engine that is built from the configuration alone.
-/

set_option autoImplicit false

namespace WorkflowEngine

namespace Config

def withLevel (c : Config) (level : Option String) : Config := { c with level := level.getD c.level }

/-- The configuration with the root that a variable names, unless the variable is blank. -/
def withVariable (c : Config) (text : String) : Config :=
  if Text.trim text = "" then c else c.withRoot ⟨Text.trim text⟩

theorem overriding?_some (text : String) :
    overriding? (some text) = if Text.trim text = "" then none else some (Text.trim text) := by
  by_cases blank : Text.trim text = ""
  · simp [overriding?, blank]
  · simp [overriding?, blank]

theorem override_root (c : Config) (text : String) (level : Option String) :
    c.override ⟨some text, level⟩ = (c.override ⟨none, level⟩).withVariable text := by
  unfold withVariable override
  dsimp only
  rw [overriding?_some]
  by_cases blank : Text.trim text = ""
  · rw [if_pos blank, if_pos blank]
    rfl
  · rw [if_neg blank, if_neg blank]
    rfl

/-- The variable for the root has its say when everything else has been loaded. -/
theorem load_root (fs : FileSystem) (path : Option Path) (text : String) (level : Option String) :
    load fs path ⟨some text, level⟩ =
      (load fs path ⟨none, level⟩).map fun loaded => loaded.withVariable text := by
  unfold load
  simp only [override_root]
  cases path with
  | none => rfl
  | some path =>
    dsimp only
    cases loadFile fs path <;> rfl

@[simp]
theorem withRoot_withVariable (c : Config) (text : String) (root : Path) :
    (c.withVariable text).withRoot root = c.withRoot root := by
  unfold withVariable
  split <;> rfl

theorem withVariable_of_trimmed {text : String} (trimmed : Text.trim text = text) (named : text ≠ "")
    (c : Config) : c.withVariable text = c.withRoot ⟨text⟩ := by
  rw [withVariable, trimmed, if_neg named]

end Config

namespace Engine

variable {σ : Type}

theorem build_of_validated (fs : FileSystem) (config : Config) :
    ((do config.validate; .ok config) >>= build fs) = (build fs config : Except Error (Engine σ)) := by
  cases valid : config.fault? with
  | some fault => simp only [build, Config.validate, valid, bind, Except.bind]
  | none => simp only [Config.validate, valid, bind, Except.bind]

def configured (fs : FileSystem) (path : Option Path) (o : Overrides) : Except Error (Engine σ) := do
  build fs (← Config.load fs path o)

theorem configured_eq (fs : FileSystem) (path : Option Path) (text : String) (level : Option String) :
    configured fs path ⟨some text, level⟩ = (Config.load fs path ⟨none, level⟩ >>= fun loaded =>
      build fs (loaded.withVariable text) : Except Error (Engine σ)) := by
  rw [configured, Config.load_root]
  cases Config.load fs path ⟨none, level⟩ with
  | error e => simp only [Except.map, bind, Except.bind]
  | ok loaded => simp only [Except.map, bind, Except.bind]

end Engine

namespace Command

def GivesNoRoot (arguments : List String) : Prop :=
  ∀ o name rest, readOptions .start arguments = some (o, name, rest) → o.root = none

variable {arguments : List String} {text : String} {level : Option String} {c : Command} {fs : FileSystem}

/-- Without such an option a command has the root that the variable names, just as it is written. -/
theorem root_of_ofArguments? (unrooted : GivesNoRoot arguments)
    (read : ofArguments? arguments ⟨some text, level⟩ = some c) : text ≠ "" ∧ c.root = some ⟨text⟩ := by
  unfold ofArguments? at read
  simp only [Option.bind_eq_bind, Option.bind_eq_some_iff] at read
  obtain ⟨⟨o, name, rest⟩, options, task, _, root, given, same⟩ := read
  rw [unrooted o name rest options, rootOf?, firstPath?] at given
  by_cases blank : text = ""
  · simp [blank] at given
  · obtain rfl : some ⟨text⟩ = root := by simpa [blank] using given
    cases same
    exact ⟨blank, rfl⟩

theorem engine_eq (rooted : c.root = some ⟨text⟩) :
    c.engine fs ⟨some text, level⟩ = (Config.load fs (c.configPath? fs) ⟨none, level⟩ >>= fun loaded =>
      Engine.build fs ((loaded.withRoot ⟨text⟩).withLevel c.level)) := by
  rw [engine, config, Config.load_root, rooted]
  cases Config.load fs (c.configPath? fs) ⟨none, level⟩ with
  | error e => simp only [Except.map, bind, Except.bind]
  | ok loaded =>
    have checked := @Engine.build_of_validated Unit fs ((loaded.withRoot ⟨text⟩).withLevel c.level)
    simp only [Except.map, bind, Except.bind, Config.withRoot_withVariable] at checked ⊢
    exact checked

/-- The engine of a command has the root that the variable names as it is written, and one that is built from the
configuration alone the root of the trimmed text. -/
theorem engine_of_variable (arguments : List String) (text : String) (level : Option String) (c : Command)
    (fs : FileSystem) (unrooted : GivesNoRoot arguments)
    (read : ofArguments? arguments ⟨some text, level⟩ = some c) :
    (∀ e, c.engine fs ⟨some text, level⟩ = .ok e →
      fs.normalLocation e.resolver.normalization (fs.workingDirectory.path.join ⟨text⟩) = .ok e.root) ∧
    (∀ e : Engine Unit, Engine.configured fs (c.configPath? fs) ⟨some text, level⟩ = .ok e →
      if Text.trim text = "" then Engine.configured fs (c.configPath? fs) ⟨none, level⟩ = .ok e
      else fs.normalLocation e.resolver.normalization
        (fs.workingDirectory.path.join ⟨Text.trim text⟩) = .ok e.root) ∧
    (Text.trim text = text →
      (∀ e : Engine Unit, c.engine fs ⟨some text, level⟩ = .ok e → ∀ other : Engine Unit,
        Engine.configured fs (c.configPath? fs) ⟨some text, level⟩ = .ok other → e.root = other.root) ∧
      (c.level = none →
        c.engine fs ⟨some text, level⟩ = Engine.configured fs (c.configPath? fs) ⟨some text, level⟩)) := by
  obtain ⟨named, rooted⟩ := root_of_ofArguments? unrooted read
  rw [engine_eq rooted, Engine.configured_eq, Engine.configured]
  cases Config.load fs (c.configPath? fs) ⟨none, level⟩ with
  | error e => simp [bind, Except.bind]
  | ok loaded =>
    simp only [bind, Except.bind]
    refine ⟨fun e built => ?_, fun e built => ?_, fun trimmed => ⟨fun e built other plain => ?_, fun bare => ?_⟩⟩
    · obtain ⟨mode, located⟩ := Engine.root_of_build built
      rw [mode]
      exact located
    · unfold Config.withVariable at built
      split
      · rename_i blank
        rwa [if_pos blank] at built
      · rename_i written
        rw [if_neg written] at built
        obtain ⟨mode, located⟩ := Engine.root_of_build built
        rw [mode]
        exact located
    · rw [Config.withVariable_of_trimmed trimmed named] at plain
      obtain ⟨_, located⟩ := Engine.root_of_build built
      obtain ⟨_, again⟩ := Engine.root_of_build plain
      exact Except.ok.inj (located.symm.trans again)
    · rw [Config.withVariable_of_trimmed trimmed named, bare]
      rfl

end Command

namespace Sample

def desk : FileSystem := ⟨(∅ : Dictionary Location Entry).insert ⟨["home"]⟩ .directory, ⟨["home"]⟩⟩

def rootOf (built : Except Error (Engine Unit)) : Option Location := built.toOption.map Engine.root

end Sample

namespace Command

theorem engine_of_variable_sample : ∃ c, GivesNoRoot ["list"] ∧
    ofArguments? ["list"] ⟨some "flows/./a", none⟩ = some c ∧
    c.engine Sample.desk ⟨some "flows/./a", none⟩ =
      Engine.configured Sample.desk (c.configPath? Sample.desk) ⟨some "flows/./a", none⟩ ∧
    Sample.rootOf (c.engine Sample.desk ⟨some "flows/./a", none⟩) = some ⟨["home", "flows", "a"]⟩ := by
  have unrooted : GivesNoRoot ["list"] := by
    intro o name rest options
    cases options
    rfl
  have read : ofArguments? ["list"] ⟨some "flows/./a", none⟩ =
      some ⟨none, some ⟨"flows/./a"⟩, none, .text, .list⟩ := by
    decide +kernel
  obtain ⟨_, _, agrees⟩ := engine_of_variable ["list"] "flows/./a" none _ Sample.desk unrooted read
  refine ⟨_, unrooted, read, (agrees (by decide +kernel)).2 rfl, by decide +kernel⟩

/-- Blanks around the text are part of the root of a command, and a blank text is its root, while the
configuration alone has the trimmed text or keeps its own root. -/
theorem engine_of_blank_variable :
    (∃ c, GivesNoRoot ["list"] ∧ ofArguments? ["list"] ⟨some " flows ", none⟩ = some c ∧
      Sample.rootOf (c.engine Sample.desk ⟨some " flows ", none⟩) = some ⟨["home", " flows "]⟩ ∧
      Sample.rootOf (Engine.configured Sample.desk (c.configPath? Sample.desk) ⟨some " flows ", none⟩) =
        some ⟨["home", "flows"]⟩) ∧
    ∃ c, ofArguments? ["list"] ⟨some " ", none⟩ = some c ∧
      Sample.rootOf (c.engine Sample.desk ⟨some " ", none⟩) = some ⟨["home", " "]⟩ ∧
      Sample.rootOf (Engine.configured Sample.desk (c.configPath? Sample.desk) ⟨some " ", none⟩) =
        some ⟨["home", "workflows"]⟩ := by
  refine ⟨⟨⟨none, some ⟨" flows "⟩, none, .text, .list⟩, ?_, by decide +kernel, by decide +kernel, by decide +kernel⟩,
    ⟨none, some ⟨" "⟩, none, .text, .list⟩, by decide +kernel, by decide +kernel, by decide +kernel⟩
  intro o name rest options
  cases options
  rfl

end Command

end WorkflowEngine
