import WorkflowEngine.Params

/-! What stands under a name.

A merge has the overlay's value where there is one. A nested workflow therefore sees what its step declares
before what its importer has, while an action sees only declared names, with the importer's values first.
-/

set_option autoImplicit false

namespace WorkflowEngine

namespace Dictionary

variable {κ α β : Type} [KeyOrder κ]

@[simp]
theorem keys_mapValues (d : Dictionary κ α) (f : κ → α → β) : (d.mapValues f).keys = d.keys := by
  simp [keys, mapValues, Function.comp_def]

theorem find?_insertAll [DecidableEq κ] (d overlay : Dictionary κ α) (key : κ) :
    (d.insertAll overlay.entries).find? key = (overlay.find? key).or (d.find? key) := by
  obtain ⟨entries, sorted⟩ := overlay
  induction entries generalizing d with
  | nil => rfl
  | cons head rest ih =>
    obtain ⟨first, tail⟩ := List.pairwise_cons.1 sorted
    have behind : (d.insertAll (head :: rest)).find? key =
        (find? ⟨rest, tail⟩ key).or ((d.insert head.1 head.2).find? key) := ih (d.insert head.1 head.2) tail
    rw [behind, find?_insert]
    by_cases here : head.1 = key
    · -- The keys ascend, so the first one does not come up again.
      have only : rest.find? (fun entry => decide (entry.1 = key)) = none := by
        refine List.find?_eq_none.2 fun entry member => ?_
        have apart := KeyOrder.ne_of_before (first entry member)
        simpa [here, eq_comm] using apart
      simp [find?, here, only]
    · simp [find?, here]

end Dictionary

namespace Params

@[simp]
theorem find?_merge (base overlay : Params) (key : String) :
    (base.merge overlay).find? key = (overlay.find? key).or (base.find? key) :=
  Dictionary.find?_insertAll base overlay key

@[simp]
theorem find?_render (declared scope : Params) (key : String) :
    (declared.render scope).find? key = (declared.find? key).map scope.renderValue :=
  Dictionary.find?_mapValues _ _ _

@[simp]
theorem find?_forWorkflow (frame declared : Params) (key : String) :
    (frame.forWorkflow declared).find? key =
      ((declared.find? key).map frame.renderValue).or (frame.find? key) := by
  simp [forWorkflow]

@[simp]
theorem find?_forAction (frame declared : Params) (key : String) :
    (frame.forAction declared).find? key =
      (declared.find? key).map fun v => (frame.find? key).getD (frame.renderValue v) := by
  rw [forAction, Dictionary.find?_mapValues, find?_render, Option.map_map]
  rfl

@[simp]
theorem keys_forAction (frame declared : Params) : (frame.forAction declared).keys = declared.keys := by
  simp [forAction, render]

end Params

end WorkflowEngine
