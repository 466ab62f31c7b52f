import WorkflowEngine.Proofs.FileSystem.Discovery
import WorkflowEngine.Proofs.Reference.Raw

/-! Which documents an engine finds.

A reference leads to a file whose name ends with a dot and the extension. An engine looks for files with nothing
but the extension behind their last dot. If the extension has no dot in it, every file that a reference leads to
is found, as far down as is looked. If it has one, no file is found at all.
-/

set_option autoImplicit false

namespace WorkflowEngine

namespace Engine

variable {σ : Type}

def discovered (e : Engine σ) (fs : FileSystem) : List (List String) :=
  fs.discover e.root.path e.resolver.extension e.config.workflows.discoveryDepth

theorem proper_root {start : FileSystem} {config : Config} {e : Engine σ} (built : build start config = .ok e) :
    e.root.Proper := by
  obtain ⟨_, located⟩ := root_of_build built
  exact FileSystem.proper_of_normalLocation located

theorem discoveryDepth_of_build {start : FileSystem} {config : Config} {e : Engine σ}
    (built : build start config = .ok e) :
    e.config.workflows.discoveryDepth = config.workflows.discoveryDepth := by
  obtain ⟨_, resolver, _, rfl⟩ := build_eq_ok_iff.1 built
  rfl

/-- Without links, a file within the depth to which a reference leads is found exactly if there is no dot in the
extension. With a dot in it nothing is found. -/
theorem mem_discovered_iff_undotted (start fs : FileSystem) (config : Config) (e : Engine σ)
    (built : build start config = .ok e) (lexical : config.workflows.normalization = .lexical)
    (unlinked : fs.Unlinked) (reference : Reference) (directories : List String) (file : String)
    (resolved : e.resolver.resolveTarget fs (.reference reference) =
      .ok ⟨e.root.names ++ directories ++ [file]⟩)
    (isFile : fs.isFile (Location.path ⟨e.root.names ++ directories ++ [file]⟩) = true)
    (shallow : directories.length ≤ config.workflows.discoveryDepth) :
    (directories ++ [file] ∈ e.discovered fs ↔ '.' ∉ e.resolver.extension.toList) ∧
    ('.' ∈ e.resolver.extension.toList → e.discovered fs = []) := by
  have undotted : ∀ names ∈ e.discovered fs, '.' ∉ e.resolver.extension.toList := by
    intro names found
    obtain ⟨_, _, _, _, _, keeps⟩ := FileSystem.mem_discover.1 found
    exact (Location.cutExtension_snd_eq_iff.1 keeps.extended).1
  refine ⟨⟨undotted _, fun free => ?_⟩, fun dotted => ?_⟩
  · have mode : e.resolver.normalization = .lexical := (root_of_build built).1.trans lexical
    have answered : e.resolver.answer fs (.entry reference) = .ok ⟨e.root.names ++ directories ++ [file]⟩ := resolved
    -- The answer ends in a completed name, from which an extension without dots is cut off whole.
    have extended : (Location.cutExtension file).2 = some e.resolver.extension := by
      obtain ⟨name, named, last⟩ := Resolver.getLast?_of_answer mode (whole_of_build built) answered
      obtain ⟨stem, written, spelled⟩ := @Reference.exists_stem e.resolver.extension name named
      have completed : file = Reference.complete e.resolver.extension name := by simpa using last
      exact Location.cutExtension_snd_eq_iff.2 ⟨free, stem, written, completed.trans spelled⟩
    rw [discovered, discoveryDepth_of_build built]
    exact FileSystem.mem_discover_of_isFile unlinked (Resolver.proper_of_answer answered) isFile extended shallow
  · exact List.eq_nil_iff_forall_not_mem.2 fun names found => undotted names found dotted

end Engine

namespace Sample

def nook (file : String) : FileSystem :=
  ((FileSystem.empty.put ⟨["w"]⟩ .directory).put ⟨["w", "d"]⟩ .directory).put ⟨["w", "d", file]⟩
    (.file (.text "steps: []\n"))

def looking (extension : String) : Config :=
  { Config.default with
    workflows := { Config.defaultSettings with root := ⟨"/w"⟩, extension, discoveryDepth := 1 } }

def looker (extension : String) : Engine Unit :=
  ⟨looking extension, ⟨⟨["w"]⟩, extension, .confineToRoot, .lexical⟩, .empty, .empty⟩

end Sample

namespace Engine

/-- The second extension of a file is a part of its stem. -/
theorem mem_discovered_iff_undotted_sample :
    (Sample.looker "b").resolver.resolveTarget (Sample.nook "x.a.b") (.reference ⟨"./d//x.a"⟩) =
      .ok ⟨["w", "d", "x.a.b"]⟩ ∧
    ["d", "x.a.b"] ∈ (Sample.looker "b").discovered (Sample.nook "x.a.b") := by
  have built : build (Sample.nook "x.a.b") (Sample.looking "b") = .ok (Sample.looker "b") :=
    build_eq_ok_iff.2 ⟨by decide +kernel, _, by decide +kernel, rfl⟩
  have unlinked : (Sample.nook "x.a.b").Unlinked :=
    ((FileSystem.unlinked_empty.put (by simp) _).put (by simp) _).put (by simp) _
  have resolved : (Sample.looker "b").resolver.resolveTarget (Sample.nook "x.a.b") (.reference ⟨"./d//x.a"⟩) =
      .ok ⟨["w", "d", "x.a.b"]⟩ := by
    decide +kernel
  obtain ⟨found, _⟩ := mem_discovered_iff_undotted _ _ _ _ built rfl unlinked _ ["d"] "x.a.b" resolved
    (by decide +kernel) (by decide)
  exact ⟨resolved, found.2 (by decide)⟩

/-- With a dot in its extension the file is one that a reference leads to, and is not found. -/
theorem discovered_dotted :
    build (Sample.nook "x.a.b") (Sample.looking "a.b") = .ok (Sample.looker "a.b") ∧
    (Sample.nook "x.a.b").Unlinked ∧
    (Sample.looker "a.b").resolver.resolveTarget (Sample.nook "x.a.b") (.reference ⟨"d/x"⟩) =
      .ok ⟨["w", "d", "x.a.b"]⟩ ∧
    (Sample.nook "x.a.b").isFile ⟨"/w/d/x.a.b"⟩ = true ∧
    (Sample.looker "a.b").listWorkflows (Sample.nook "x.a.b") = [] := by
  refine ⟨build_eq_ok_iff.2 ⟨by decide +kernel, _, by decide +kernel, rfl⟩, ?_, by decide +kernel,
    by decide +kernel, by decide +kernel⟩
  exact ((FileSystem.unlinked_empty.put (by simp) _).put (by simp) _).put (by simp) _

end Engine

end WorkflowEngine
