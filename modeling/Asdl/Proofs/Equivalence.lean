import Mathlib.Data.List.Forall2
import Asdl.Production

/-! What fields and productions that are the same up to kinds have in common: their names, and their
fields one by one. Where the kinds of the types that they mention agree as well they are equal. -/
namespace Asdl

/-- Where equal values mean related items, lists with the same values are related one by one. -/
lemma forall₂_of_map_eq {α β γ : Type} {f : α → γ} {g : β → γ} {r : α → β → Prop} {as : List α}
    {bs : List β} (h : ∀ a ∈ as, ∀ b ∈ bs, f a = g b → r a b) (he : as.map f = bs.map g) :
    List.Forall₂ r as bs := by
  induction as generalizing bs with
  | nil =>
    obtain rfl : bs = [] := by simpa using he.symm
    exact .nil
  | cons a as ih =>
    cases bs with
    | nil => simp at he
    | cons b bs =>
      obtain ⟨hfirst, hrest⟩ := List.cons.inj he
      refine .cons (h a List.mem_cons_self b List.mem_cons_self hfirst) (ih ?_ hrest)
      exact fun a ha b hb => h a (List.mem_cons_of_mem _ ha) b (List.mem_cons_of_mem _ hb)

/-- Lists of which related items are equal are equal if their items are related one by one. -/
lemma eq_of_forall₂ {α : Type} {r : α → α → Prop} {as bs : List α}
    (h : ∀ a ∈ as, ∀ b ∈ bs, r a b → a = b) (hr : List.Forall₂ r as bs) : as = bs := by
  induction hr with
  | nil => rfl
  | @cons a b as bs hab _ ih =>
    have hrest : as = bs := ih fun a ha b hb =>
      h a (List.mem_cons_of_mem _ ha) b (List.mem_cons_of_mem _ hb)
    rw [h a List.mem_cons_self b List.mem_cons_self hab, hrest]

lemma Field.eq_of_equiv {e f : Field} (h : e ≈ f) (htype : e.type = f.type) : e = f := by
  obtain ⟨hname, -, hcardinality⟩ := Field.equiv_iff.1 h
  cases e
  cases f
  simp_all

lemma Constructor.equiv_iff {c d : Constructor} :
    c ≈ d ↔ c.name = d.name ∧ List.Forall₂ (· ≈ ·) c.fields d.fields := by
  have hfields : List.Forall₂ (· ≈ ·) c.fields d.fields ↔
      c.fields.map Field.key = d.fields.map Field.key := by
    rw [← List.forall₂_eq_eq_eq, List.forall₂_map_left_iff, List.forall₂_map_right_iff]
    rfl
  rw [hfields]
  change c.key = d.key ↔ _
  simp [key]

namespace Production
variable {p q : Production}

/-- Whether a type stands in a production, as its head or as the type of a field. -/
def Mentions (p : Production) (t : Ty) : Prop :=
  t = p.head ∨ ∃ f ∈ p.constructor.fields, t = f.type

lemma mentions_iff {t : Ty} : p.Mentions t ↔ t ∈ p.types := by
  simp [Mentions, types, fields, eq_comm]

lemma mentions_head (p : Production) : p.Mentions p.head := .inl rfl

lemma mentions_type {f : Field} (hf : f ∈ p.fields) : p.Mentions f.type := .inr ⟨f, hf, rfl⟩

lemma name_eq_of_equiv (h : p ≈ q) : p.name = q.name :=
  congrArg (fun key => key.2.1) (show p.key = q.key from h)

lemma fields_key_eq_of_equiv (h : p ≈ q) : p.fields.map Field.key = q.fields.map Field.key :=
  congrArg (fun key => key.2.2) (show p.key = q.key from h)

lemma equiv_iff_fields :
    p ≈ q ↔ p.head ≈ q.head ∧ p.name = q.name ∧ List.Forall₂ (· ≈ ·) p.fields q.fields := by
  rw [equiv_iff, Constructor.equiv_iff]
  rfl

lemma forall₂_fields_of_equiv (h : p ≈ q) : List.Forall₂ (· ≈ ·) p.fields q.fields :=
  (equiv_iff_fields.1 h).2.2

lemma exists_field_of_equiv (h : p ≈ q) {f : Field} (hf : f ∈ q.fields) :
    ∃ f' ∈ p.fields, f' ≈ f := by
  have hmem : f.key ∈ p.fields.map Field.key :=
    fields_key_eq_of_equiv h ▸ List.mem_map_of_mem hf
  obtain ⟨f', hf', he⟩ := List.mem_map.1 hmem
  exact ⟨f', hf', he⟩

/-- Productions that are the same up to kinds are equal where no type has two kinds. -/
lemma eq_of_equiv (h : p ≈ q) (htypes : ∀ t u, p.Mentions t → q.Mentions u → t ≈ u → t = u) :
    p = q := by
  have hhead : p.head = q.head :=
    htypes _ _ (mentions_head p) (mentions_head q) (equiv_iff.1 h).1
  have hfields : p.fields = q.fields := by
    refine eq_of_forall₂ (fun e he f hf hequiv => Field.eq_of_equiv hequiv ?_)
      (forall₂_fields_of_equiv h)
    exact htypes _ _ (mentions_type he) (mentions_type hf) (Field.equiv_iff.1 hequiv).2.1
  have hname := name_eq_of_equiv h
  obtain ⟨head, name, fields⟩ := p
  obtain ⟨head', name', fields'⟩ := q
  cases hhead
  cases hfields
  cases hname
  rfl

end Production

end Asdl
