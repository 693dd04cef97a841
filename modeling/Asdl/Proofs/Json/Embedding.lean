import Mathlib.Data.List.Forall2
import Asdl.Proofs.Json.Plain

/-! One JSON value inside another: strings are equal, arrays agree item by item, and an object has
at least the members of the first one. Further keys do not matter, at whatever depth. -/
namespace Asdl.Json

mutual

/-- Whether a value is embedded in another. -/
def EmbeddedIn : Json → Json → Prop
  | .null, other => other = .null
  | .bool b, other => other = .bool b
  | .number n, other => other = .number n
  | .string text, other => other = .string text
  | .array items, other => ∃ others, other = .array others ∧ EmbeddedItems items others
  | .object members, other => other.isObject = true ∧ EmbeddedMembers members other

/-- Whether the items of an array are embedded in those of another, one by one. -/
def EmbeddedItems : List Json → List Json → Prop
  | [], [] => True
  | v :: rest, w :: others => v.EmbeddedIn w ∧ EmbeddedItems rest others
  | _, _ => False

/-- Whether each member of an object has its key in a value, with an embedding one. -/
def EmbeddedMembers : List (String × Json) → Json → Prop
  | [], _ => True
  | (key, v) :: rest, other =>
    (∃ w, other.member? key = some w ∧ v.EmbeddedIn w) ∧ EmbeddedMembers rest other

end

lemma embeddedItems_iff {items others : List Json} :
    EmbeddedItems items others ↔ List.Forall₂ EmbeddedIn items others := by
  induction items generalizing others with
  | nil => cases others <;> simp [EmbeddedItems]
  | cons v rest ih => cases others <;> simp [EmbeddedItems, ih]

lemma embeddedMembers_iff {members : List (String × Json)} {other : Json} :
    EmbeddedMembers members other ↔
      ∀ m ∈ members, ∃ w, other.member? m.1 = some w ∧ m.2.EmbeddedIn w := by
  induction members with
  | nil => simp [EmbeddedMembers]
  | cons m rest ih => simp only [EmbeddedMembers, ih, List.forall_mem_cons]

@[simp] lemma string_embeddedIn {text : String} {other : Json} :
    (Json.string text).EmbeddedIn other ↔ other = .string text := by
  simp only [EmbeddedIn]

lemma array_embeddedIn {items : List Json} {other : Json} :
    (Json.array items).EmbeddedIn other ↔
      ∃ others, other = .array others ∧ List.Forall₂ EmbeddedIn items others := by
  simp only [EmbeddedIn, embeddedItems_iff]

lemma array_map_embeddedIn {α : Type} {encode : α → Json} {xs : List α} {other : Json} :
    (Json.array (xs.map encode)).EmbeddedIn other ↔
      ∃ items, other = .array items ∧
        List.Forall₂ (fun v x => (encode x).EmbeddedIn v) items xs := by
  have hflip : ∀ items, List.Forall₂ (fun x v => (encode x).EmbeddedIn v) xs items ↔
      List.Forall₂ (fun v x => (encode x).EmbeddedIn v) items xs :=
    fun items => ⟨List.Forall₂.flip, List.Forall₂.flip⟩
  simp only [array_embeddedIn, List.forall₂_map_left_iff, hflip]

/-- Nothing but the array itself embeds an array of strings. -/
lemma ofStrings_embeddedIn {texts : List String} {other : Json} :
    (ofStrings texts).EmbeddedIn other ↔ other = ofStrings texts := by
  have hitems : ∀ others, List.Forall₂ EmbeddedIn (texts.map .string) others ↔
      others = texts.map .string := by
    induction texts with
    | nil => simp
    | cons text rest ih => simp [List.forall₂_cons_left_iff, ih]
  simp [ofStrings, array_embeddedIn, hitems]

/-- A value that has a member is an object, so an object that is not empty needs no more said. -/
lemma object_embeddedIn {key : String} {value : Json} {rest : List (String × Json)} {other : Json} :
    (Json.object ((key, value) :: rest)).EmbeddedIn other ↔
      EmbeddedMembers ((key, value) :: rest) other := by
  simp only [EmbeddedIn, and_iff_right_iff_imp, EmbeddedMembers]
  rintro ⟨⟨w, hw, -⟩, -⟩
  cases other with
  | object members => rfl
  | _ => simp [member?] at hw

/-- A plain value is embedded in itself. -/
theorem Plain.embeddedIn_self {n : ℕ} {v : Json} (h : Plain n v) : v.EmbeddedIn v := by
  induction h with
  | string text => exact string_embeddedIn.2 rfl
  | array _ ih => exact array_embeddedIn.2 ⟨_, rfl, List.forall₂_same.2 ih⟩
  | object keys _ ih =>
    refine ⟨rfl, embeddedMembers_iff.2 fun m hm => ?_⟩
    exact ⟨m.2, member?_of_mem keys hm, ih m hm⟩

end Asdl.Json
