import WorkflowEngine.Proofs.Params.Interpolation
import WorkflowEngine.Proofs.Params.Lookup

/-! What rendering looks at and what it leaves.

Rendering a value looks at no names in scope but those of the placeholders in its texts, and puts other texts or
values in the place of its texts only. Lists keep their lengths and their order, records their names, and all that
is neither text nor collection stays.
-/

set_option autoImplicit false

namespace WorkflowEngine

namespace Template

/-- The names of the placeholders in a text, blanks around them left out. -/
def names (text : List Char) : List String :=
  (pieces text).filterMap fun
    | .placeholder written => some (String.ofList (Text.trimChars written))
    | _ => none

theorem mem_names {text : List Char} {name : String} : name ∈ names text ↔
    ∃ written, .placeholder written ∈ pieces text ∧ String.ofList (Text.trimChars written) = name := by
  rw [names, List.mem_filterMap]
  constructor
  · rintro ⟨piece, inside, named⟩
    cases piece with
    | literal text => cases named
    | unclosed rest => cases named
    | placeholder written => exact ⟨written, inside, Option.some.inj named⟩
  · rintro ⟨written, inside, rfl⟩
    exact ⟨_, inside, rfl⟩

end Template

namespace Value

/-- What holds of a collection whenever it holds of what is inside holds of every value. -/
@[elab_as_elim]
theorem inductionOn {motive : Value → Prop} (null : motive .null) (bool : ∀ b, motive (.bool b))
    (number : ∀ n, motive (.number n)) (text : ∀ s, motive (.text s))
    (list : ∀ items, (∀ v ∈ items, motive v) → motive (.list items))
    (record : ∀ fields, (∀ field ∈ fields, motive field.2) → motive (.record fields)) (v : Value) :
    motive v := by
  cases v with
  | null => exact null
  | bool b => exact bool b
  | number n => exact number n
  | text s => exact text s
  | list items => exact list items fun v _ => inductionOn null bool number text list record v
  | record fields =>
    exact record fields fun field _ => inductionOn null bool number text list record field.2
termination_by sizeOf v
decreasing_by
  · have smaller := List.sizeOf_lt_of_mem ‹v ∈ items›
    simp only [Value.list.sizeOf_spec]
    omega
  · have smaller := List.sizeOf_lt_of_mem ‹field ∈ fields›
    cases field
    simp only [Prod.mk.sizeOf_spec, Value.record.sizeOf_spec] at smaller ⊢
    omega

mutual

/-- The texts in a value, at any depth. The names of fields are not among them. -/
def texts : Value → List String
  | .text s => [s]
  | .list items => itemTexts items
  | .record fields => fieldTexts fields
  | .null => []
  | .bool _ => []
  | .number _ => []
termination_by structural v => v

def itemTexts : List Value → List String
  | [] => []
  | v :: rest => texts v ++ itemTexts rest
termination_by structural vs => vs

def fieldTexts : List (String × Value) → List String
  | [] => []
  | (_, v) :: rest => texts v ++ fieldTexts rest
termination_by structural vs => vs

end

theorem itemTexts_eq (items : List Value) : itemTexts items = items.flatMap texts := by
  induction items with
  | nil => rfl
  | cons v rest ih => rw [itemTexts, ih, List.flatMap_cons]

theorem fieldTexts_eq (fields : List (String × Value)) :
    fieldTexts fields = fields.flatMap fun field => field.2.texts := by
  induction fields with
  | nil => rfl
  | cons field rest ih => rw [fieldTexts, ih, List.flatMap_cons]

def Mentions (v : Value) (name : String) : Prop :=
  ∃ s ∈ v.texts, ∃ ps, Template.Decomposes s.toList ps ∧
    ∃ written, .placeholder written ∈ ps ∧ String.ofList (Text.trimChars written) = name

variable {name : String}

theorem mentions_iff {v : Value} : v.Mentions name ↔ ∃ s ∈ v.texts, name ∈ Template.names s.toList := by
  simp [Mentions, Template.decomposes_iff, Template.mem_names]

theorem mentions_text {s : String} : (text s).Mentions name ↔ name ∈ Template.names s.toList := by
  simp [mentions_iff, texts]

theorem mentions_list {items : List Value} :
    (list items).Mentions name ↔ ∃ v ∈ items, v.Mentions name := by
  simp only [mentions_iff, texts, itemTexts_eq, List.mem_flatMap]
  constructor
  · rintro ⟨s, ⟨v, inside, among⟩, named⟩
    exact ⟨v, inside, s, among, named⟩
  · rintro ⟨v, inside, s, among, named⟩
    exact ⟨s, ⟨v, inside, among⟩, named⟩

theorem mentions_record {fields : List (String × Value)} :
    (record fields).Mentions name ↔ ∃ field ∈ fields, field.2.Mentions name := by
  simp only [mentions_iff, texts, fieldTexts_eq, List.mem_flatMap]
  constructor
  · rintro ⟨s, ⟨field, inside, among⟩, named⟩
    exact ⟨field, inside, s, among, named⟩
  · rintro ⟨field, inside, s, among, named⟩
    exact ⟨s, ⟨field, inside, among⟩, named⟩

/-- The other value is built alike, and each text has become what stands in a relation to it. -/
inductive Reshapes (became : String → Value → Prop) : Value → Value → Prop
  | null : Reshapes became .null .null
  | bool {b : Bool} : Reshapes became (.bool b) (.bool b)
  | number {n : Number} : Reshapes became (.number n) (.number n)
  | text {s : String} {w : Value} : became s w → Reshapes became (.text s) w
  | list {items others : List Value} : List.Forall₂ (Reshapes became) items others →
      Reshapes became (.list items) (.list others)
  | record {fields others : List (String × Value)} : fields.map Prod.fst = others.map Prod.fst →
      List.Forall₂ (Reshapes became) (fields.map Prod.snd) (others.map Prod.snd) →
      Reshapes became (.record fields) (.record others)

end Value

namespace Params

open Template

variable {scope other : Params}

theorem renderItems_eq (scope : Params) (items : List Value) :
    scope.renderItems items = items.map scope.renderValue := by
  induction items with
  | nil => rfl
  | cons v rest ih => rw [renderItems, ih, List.map_cons]

theorem renderFields_eq (scope : Params) (fields : List (String × Value)) :
    scope.renderFields fields = fields.map fun field => (field.1, scope.renderValue field.2) := by
  induction fields with
  | nil => rfl
  | cons field rest ih => rw [renderFields, ih, List.map_cons]

theorem exists_of_soleName? {text trimmed : List Char} (sole : soleName? text = some trimmed) :
    ∃ written, pieces text = [.placeholder written] ∧ Text.trimChars written = trimmed := by
  obtain ⟨written, ⟨spelled, whole, _⟩, same⟩ := soleName?_eq_some_iff.1 sole
  exact ⟨written, spelled ▸ pieces_placeholder whole [], same⟩

theorem renderText_congr {s : String}
    (agree : ∀ name, (Value.text s).Mentions name → scope.find? name = other.find? name) :
    scope.renderText s = other.renderText s := by
  have named : ∀ written, .placeholder written ∈ pieces s.toList →
      scope.named? written = other.named? written := fun written inside =>
    agree _ (Value.mentions_text.2 (mem_names.2 ⟨written, inside, rfl⟩))
  unfold renderText
  cases sole : soleName? s.toList with
  | some trimmed =>
    obtain ⟨written, only, rfl⟩ := exists_of_soleName? sole
    exact congrArg (fun found => found.getD (.text s)) (named written (only ▸ List.mem_cons_self))
  | none =>
    have filled : scope.fillText s.toList = other.fillText s.toList := by
      refine List.flatMap_congr fun piece inside => ?_
      cases piece with
      | literal text => rfl
      | unclosed rest => rfl
      | placeholder written => simp only [fillPiece, named written inside]
    exact congrArg (fun text => Value.text (String.ofList text)) filled

theorem renderText_of_unknown {s : String}
    (unknown : ∀ name, (Value.text s).Mentions name → scope.find? name = none) :
    scope.renderText s = .text s := by
  have unnamed : ∀ written, .placeholder written ∈ pieces s.toList → scope.named? written = none :=
    fun written inside => unknown _ (Value.mentions_text.2 (mem_names.2 ⟨written, inside, rfl⟩))
  unfold renderText
  cases sole : soleName? s.toList with
  | some trimmed =>
    obtain ⟨written, only, rfl⟩ := exists_of_soleName? sole
    exact congrArg (fun found => found.getD (.text s)) (unnamed written (only ▸ List.mem_cons_self))
  | none =>
    have kept : scope.fillText s.toList = s.toList := by
      refine (List.flatMap_congr fun piece inside => ?_).trans (flatMap_written_pieces s.toList)
      cases piece with
      | literal text => rfl
      | unclosed rest => rfl
      | placeholder written => simp only [fillPiece, unnamed written inside, Option.map_none, Option.getD_none]
    simp only [kept, String.ofList_toList]

theorem renderValue_congr {v : Value}
    (agree : ∀ name, v.Mentions name → scope.find? name = other.find? name) :
    scope.renderValue v = other.renderValue v := by
  induction v using Value.inductionOn with
  | null => rfl
  | bool b => rfl
  | number n => rfl
  | text s => exact renderText_congr agree
  | list items ih =>
    simp only [renderValue, renderItems_eq, Value.list.injEq]
    refine List.map_congr_left fun v inside => ih v inside fun name inner => ?_
    exact agree name (Value.mentions_list.2 ⟨v, inside, inner⟩)
  | record fields ih =>
    simp only [renderValue, renderFields_eq, Value.record.injEq]
    refine List.map_congr_left fun field inside => congrArg (Prod.mk field.1) (ih field inside fun name inner => ?_)
    exact agree name (Value.mentions_record.2 ⟨field, inside, inner⟩)

theorem renderValue_of_unknown {v : Value} (unknown : ∀ name, v.Mentions name → scope.find? name = none) :
    scope.renderValue v = v := by
  induction v using Value.inductionOn with
  | null => rfl
  | bool b => rfl
  | number n => rfl
  | text s => exact renderText_of_unknown unknown
  | list items ih =>
    simp only [renderValue, renderItems_eq, Value.list.injEq]
    refine (List.map_congr_left fun v inside => ih v inside fun name inner => ?_).trans (List.map_id _)
    exact unknown name (Value.mentions_list.2 ⟨v, inside, inner⟩)
  | record fields ih =>
    simp only [renderValue, renderFields_eq, Value.record.injEq]
    refine (List.map_congr_left fun field inside =>
      congrArg (Prod.mk field.1) (ih field inside fun name inner => ?_)).trans (List.map_id _)
    exact unknown name (Value.mentions_record.2 ⟨field, inside, inner⟩)

/-- Rendering changes nothing but texts, each into what it is rendered to by itself. -/
theorem reshapes_renderValue (scope : Params) (v : Value) :
    v.Reshapes (fun s w => scope.renderValue (.text s) = w) (scope.renderValue v) := by
  induction v using Value.inductionOn with
  | null => exact .null
  | bool b => exact .bool
  | number n => exact .number
  | text s => exact .text rfl
  | list items ih =>
    rw [renderValue, renderItems_eq]
    exact .list (List.forall₂_map_right_iff.2 (List.forall₂_same.2 ih))
  | record fields ih =>
    rw [renderValue, renderFields_eq]
    refine .record ?_ ?_
    · simp [Function.comp_def]
    · simpa [List.forall₂_map_left_iff, List.forall₂_map_right_iff, List.forall₂_same] using ih

/-- Rendering a value looks at no names but those that it mentions, and changes nothing but the texts in it. -/
theorem renderValue_local (v : Value) (scope other declared : Params) :
    ((∀ name, v.Mentions name → scope.find? name = other.find? name) →
      scope.renderValue v = other.renderValue v) ∧
    ((∀ name, v.Mentions name → scope.find? name = none) → scope.renderValue v = v) ∧
    v.Reshapes (fun s w => scope.renderValue (.text s) = w) (scope.renderValue v) ∧
    (declared.render scope).keys = declared.keys ∧
    ∀ name, (declared.render scope).find? name = (declared.find? name).map scope.renderValue := by
  refine ⟨renderValue_congr, renderValue_of_unknown, reshapes_renderValue scope v, ?_, find?_render declared scope⟩
  rw [render, Dictionary.keys_mapValues]

end Params

namespace Sample

/-- A placeholder between blanks and one that is not closed, below a field whose name looks like another. -/
def letter : Value :=
  .record [("$\x7bz\x7d", .list [.text "to $\x7b x \x7d, $\x7bz", .null, .text "$\x7b x\x7d"])]

def address (note : String) : Params := ((∅ : Params).insert "x" (.integer 7)).insert "z" (.text note)

theorem name_of_letter {name : String} (inside : letter.Mentions name) : name = "x" := by
  have all : ∀ s ∈ letter.texts, Template.names s.toList = ["x"] := by decide +kernel
  obtain ⟨s, among, named⟩ := Value.mentions_iff.1 inside
  simpa [all s among] using named

end Sample

namespace Params

/-- What stands under a name that is not mentioned does not count, nor does the name of a field. -/
theorem renderValue_local_sample :
    (∀ name, Sample.letter.Mentions name →
      (Sample.address "p").find? name = (Sample.address "q").find? name) ∧
    (Sample.address "p").renderValue Sample.letter = (Sample.address "q").renderValue Sample.letter ∧
    (Sample.address "q").renderValue Sample.letter =
      .record [("$\x7bz\x7d", .list [.text "to 7, $\x7bz", .null, .integer 7])] ∧
    renderValue ((∅ : Params).insert "z" .null) Sample.letter = Sample.letter := by
  have agree : ∀ name, Sample.letter.Mentions name →
      (Sample.address "p").find? name = (Sample.address "q").find? name := by
    rintro name inside
    rw [Sample.name_of_letter inside]
    decide +kernel
  obtain ⟨same, _⟩ := renderValue_local Sample.letter (Sample.address "p") (Sample.address "q") ∅
  obtain ⟨_, kept, _⟩ := renderValue_local Sample.letter ((∅ : Params).insert "z" .null) ∅ ∅
  refine ⟨agree, same agree, by decide +kernel, kept fun name inside => ?_⟩
  rw [Sample.name_of_letter inside]
  rfl

end Params

end WorkflowEngine
