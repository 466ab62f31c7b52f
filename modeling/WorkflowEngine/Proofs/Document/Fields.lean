import WorkflowEngine.Document.Reading

/-! Fields of steps that are passed over.

A step is read from the fields that its kind knows. Any other field with a text for its name makes no difference,
neither to a step that is read nor to the reason for which one is refused.
-/

set_option autoImplicit false

namespace WorkflowEngine

namespace Document

open Yaml (Fault)

namespace Fields

variable {names : List String}

def select (names : List String) (fields : List (String × Yaml.Value)) : List (String × Yaml.Value) :=
  fields.filter fun field => names.contains field.1

theorem single?_select {name : String} (known : name ∈ names) (fields : List (String × Yaml.Value)) :
    single? (select names fields) name = single? fields name := by
  have same : (select names fields).filter (fun field => field.1 == name) =
      fields.filter fun field => field.1 == name := by
    rw [select, List.filter_filter]
    refine List.filter_congr fun field _ => ?_
    by_cases here : field.1 = name
    · simp [here, known]
    · simp [here]
  rw [single?, same, single?]

/-- A key that is known, or no text of its own. Any other key is passed over. -/
def isKept (names : List String) : Yaml.Value → Bool
  | .text name => names.contains name
  | _ => true

theorem map_select_cons (names : List String) (name : String) (v : Yaml.Value)
    (read : Except Fault (List (String × Yaml.Value))) :
    (read.map ((name, v) :: ·)).map (select names) =
      (read.map (select names)).map fun later => if names.contains name then (name, v) :: later else later := by
  cases read with
  | error fault => rfl
  | ok later => simp [Except.map, select, List.filter_cons]

theorem select_named_filter (names : List String) (pairs : Pairs) :
    (named (pairs.filter fun pair => isKept names pair.1)).map (select names) =
      (named pairs).map (select names) := by
  induction pairs with
  | nil => rfl
  | cons head rest ih =>
    obtain ⟨key, v⟩ := head
    cases kept : isKept names key with
    | false =>
      -- Only a text is passed over, and it names a field that is not selected.
      obtain ⟨name, rfl, unknown⟩ : ∃ name, key = .text name ∧ names.contains name = false := by
        cases key with
        | text name => exact ⟨name, rfl, kept⟩
        | _ => cases kept
      have read : named ((.text name, v) :: rest) = (named rest).map ((name, v) :: ·) := rfl
      rw [List.filter_cons_of_neg (by simp [kept]), ih, read, map_select_cons]
      simp only [unknown, Bool.false_eq_true, if_false]
      cases named rest <;> rfl
    | true =>
      rw [List.filter_cons_of_pos (by simp [kept])]
      unfold named
      cases key.text? with
      | none => rfl
      | some name => simp only [map_select_cons, ih]

variable {a b : List (String × Yaml.Value)} {α : Type} {name : String}

theorem optional_congr (same : select names a = select names b) (known : name ∈ names)
    (read : Yaml.Value → Except Fault α) : optional read a name = optional read b name := by
  unfold optional
  rw [← single?_select known a, same, single?_select known b]

theorem defaulted_congr (same : select names a = select names b) (known : name ∈ names)
    (read : Yaml.Value → Except Fault α) (default : α) :
    defaulted read default a name = defaulted read default b name := by
  unfold defaulted
  rw [← single?_select known a, same, single?_select known b]

/-- What is made of nothing but the fields of some names is the same for two steps that agree on these. -/
theorem named_bind_congr {β : Type} {make : List (String × Yaml.Value) → Except Fault β} {first second : Pairs}
    (alike : (named first).map (select names) = (named second).map (select names))
    (respects : ∀ a b, select names a = select names b → make a = make b) :
    named first >>= make = named second >>= make := by
  cases readFirst : named first with
  | error fault =>
    cases readSecond : named second with
    | error other =>
      rw [readFirst, readSecond] at alike
      cases alike
      rfl
    | ok b =>
      rw [readFirst, readSecond] at alike
      cases alike
  | ok a =>
    cases readSecond : named second with
    | error fault =>
      rw [readFirst, readSecond] at alike
      cases alike
    | ok b =>
      rw [readFirst, readSecond] at alike
      exact respects a b (Except.ok.inj alike)

end Fields

theorem ActionFields.ofPairs_congr {first second : Pairs}
    (alike : (Fields.named first).map (Fields.select Step.Kind.action.fieldNames) =
      (Fields.named second).map (Fields.select Step.Kind.action.fieldNames)) : ofPairs first = ofPairs second := by
  refine Fields.named_bind_congr alike fun a b same => ?_
  have known (name : String) (listed : name ∈ Step.Kind.action.fieldNames) {α : Type}
      (read : Yaml.Value → Except Fault α) : Fields.optional read a name = Fields.optional read b name :=
    Fields.optional_congr same listed read
  have flags : Fields.defaulted Fields.flag false a "optional" = Fields.defaulted Fields.flag false b "optional" :=
    Fields.defaulted_congr same (by decide) _ _
  simp only [known "action" (by decide), known "description" (by decide), known "params" (by decide),
    known "param" (by decide), flags, known "wait_after" (by decide)]

theorem WorkflowFields.ofPairs_congr {first second : Pairs}
    (alike : (Fields.named first).map (Fields.select Step.Kind.workflow.fieldNames) =
      (Fields.named second).map (Fields.select Step.Kind.workflow.fieldNames)) : ofPairs first = ofPairs second := by
  refine Fields.named_bind_congr alike fun a b same => ?_
  have known (name : String) (listed : name ∈ Step.Kind.workflow.fieldNames) {α : Type}
      (read : Yaml.Value → Except Fault α) : Fields.optional read a name = Fields.optional read b name :=
    Fields.optional_congr same listed read
  simp only [known "workflow" (by decide), known "description" (by decide), known "params" (by decide)]

end Document

namespace Step

/-- The names of fields that make a difference to a step. A step of no known kind is refused by its type. -/
def fieldNames (pairs : Document.Pairs) : List String :=
  match kindOf pairs with
  | .ok kind => kind.fieldNames
  | .error _ => ["type"]

def recognised : Yaml.Value → Yaml.Value
  | .mapping pairs => .mapping (pairs.filter fun pair => Document.Fields.isKept (fieldNames pairs) pair.1)
  | v => v

theorem kindValue?_filter {keep : Yaml.Value → Bool} (kept : keep (.text "type") = true) (pairs : Document.Pairs) :
    kindValue? (pairs.filter fun pair => keep pair.1) = kindValue? pairs := by
  fun_induction kindValue? pairs with
  | case1 => rfl
  | case2 v rest =>
    rw [List.filter_cons_of_pos (by exact kept)]
    rfl
  | case3 head rest other ih =>
    rw [List.filter_cons]
    split
    · rw [kindValue?, ih]
      exact other
    · exact ih

theorem type_mem_fieldNames (pairs : Document.Pairs) : "type" ∈ fieldNames pairs := by
  unfold fieldNames
  split
  · rename_i kind _
    cases kind <;> decide
  · decide

theorem ofValue_recognised (v : Yaml.Value) : ofValue (recognised v) = ofValue v := by
  unfold recognised
  split
  · rename_i pairs
    have kinds :
        kindOf (pairs.filter fun pair => Document.Fields.isKept (fieldNames pairs) pair.1) = kindOf pairs := by
      unfold kindOf
      rw [kindValue?_filter (by simpa [Document.Fields.isKept] using type_mem_fieldNames pairs)]
    have alike := Document.Fields.select_named_filter (fieldNames pairs) pairs
    simp only [ofValue, kinds, bind, Except.bind]
    cases known : kindOf pairs with
    | error fault => rfl
    | ok kind =>
      rw [show fieldNames pairs = kind.fieldNames by rw [fieldNames, known]] at alike ⊢
      cases kind with
      | action => rw [Document.ActionFields.ofPairs_congr alike]
      | workflow => rw [Document.WorkflowFields.ofPairs_congr alike]
  · rfl

end Step

end WorkflowEngine
