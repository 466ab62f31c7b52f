import WorkflowEngine.Engine
import WorkflowEngine.Proofs.Text.Trimming

/-! How engines are built.

An engine is built from a checked configuration. Its resolver has the location of the configured root and the
configured extension without blanks at its ends and dots in front, which is not empty, ends in no blank and has no
separator in it.
-/

set_option autoImplicit false

namespace WorkflowEngine

namespace Resolver

theorem build_eq_ok_iff {fs : FileSystem} {root : Path} {extension : String} {sandbox : Sandbox}
    {mode : Normalization} {r : Resolver} :
    build fs root extension sandbox mode = .ok r ↔ bareExtension extension ≠ "" ∧
      ∃ l, fs.normalLocation mode root = .ok l ∧ r = ⟨l, bareExtension extension, sandbox, mode⟩ := by
  unfold build
  by_cases empty : bareExtension extension = ""
  · simp [empty]
  · cases fs.normalLocation mode root with
    | error fault => simp [empty]
    | ok l =>
      simp only [String.toList_eq_nil_iff, List.isEmpty_iff, empty, if_false, Except.ok.injEq, ne_eq,
        not_false_eq_true, true_and, exists_eq_left']
      exact eq_comm

theorem trimmed_bareExtension (extension : String) :
    ∀ c ∈ (bareExtension extension).toList.getLast?, Text.isBlank c = false := by
  intro c last
  rw [bareExtension, String.toList_ofList] at last
  obtain ⟨dots, whole⟩ := List.dropWhile_suffix (l := Text.trimChars extension.toList) (· == '.')
  refine (Text.trimmed_trimChars extension.toList).last c ?_
  rw [← whole, List.getLast?_append, last]
  rfl

end Resolver

theorem Config.whole_of_fault?_eq_none {c : Config} (checked : c.fault? = none) :
    ∀ d ∈ (Resolver.bareExtension c.workflows.extension).toList, Reference.isSeparator d = false := by
  by_contra separated
  have separator : (Resolver.bareExtension c.workflows.extension).toList.any Reference.isSeparator = true := by
    simpa using separated
  simp only [fault?, separator, if_true] at checked
  split at checked
  · cases checked
  · split at checked
    · cases checked
    · cases checked

namespace Engine

variable {σ : Type} {fs : FileSystem} {config : Config} {e : Engine σ}

theorem build_eq_ok_iff : build fs config = .ok e ↔ config.fault? = none ∧ ∃ resolver,
    Resolver.build fs (fs.workingDirectory.path.join config.workflows.root) config.workflows.extension
      config.workflows.sandbox config.workflows.normalization = .ok resolver ∧
    e = ⟨config.anchor fs.workingDirectory.path, resolver, .empty, .empty⟩ := by
  unfold build Config.validate
  cases config.fault? with
  | some fault => simp [bind, Except.bind]
  | none =>
    simp only [bind, Except.bind, Config.anchor, Config.withRoot]
    generalize Resolver.build fs _ _ _ _ = built
    cases built with
    | error fault => simp
    | ok resolver => simp [eq_comm]

theorem root_of_build (built : build fs config = .ok e) :
    e.resolver.normalization = config.workflows.normalization ∧
      fs.normalLocation config.workflows.normalization
        (fs.workingDirectory.path.join config.workflows.root) = .ok e.root := by
  obtain ⟨_, resolver, resolved, rfl⟩ := build_eq_ok_iff.1 built
  obtain ⟨_, l, located, rfl⟩ := Resolver.build_eq_ok_iff.1 resolved
  exact ⟨rfl, located⟩

theorem whole_of_build (built : build fs config = .ok e) :
    ∀ c ∈ e.resolver.extension.toList, Reference.isSeparator c = false := by
  obtain ⟨checked, resolver, resolved, rfl⟩ := build_eq_ok_iff.1 built
  obtain ⟨_, l, _, rfl⟩ := Resolver.build_eq_ok_iff.1 resolved
  exact Config.whole_of_fault?_eq_none checked

end Engine

end WorkflowEngine
