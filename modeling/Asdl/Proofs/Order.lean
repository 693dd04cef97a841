import Asdl.Proofs.Equivalence
import Asdl.Proofs.Sorted

/-! The orders of fields and productions in terms of their parts. Fields compare equal exactly if
they are the same up to kinds, and so do productions. -/
namespace Asdl

lemma compare_list_eq_eq {α : Type} [Ord α] {xs ys : List α} :
    compare xs ys = .eq ↔ List.Forall₂ (fun a b => compare a b = .eq) xs ys := by
  induction xs generalizing ys with
  | nil => cases ys <;> simp
  | cons x xs ih =>
    cases ys with
    | nil => simp
    | cons y ys => rw [List.compare_cons_cons, Ordering.then_eq_eq, ih, List.forall₂_cons]

lemma Cardinality.label_injective : Function.Injective label := by
  intro c d h
  cases c <;> cases d <;> first | rfl | exact absurd h (by decide)

lemma Cardinality.compare_eq_eq {c d : Cardinality} : compare c d = .eq ↔ c = d := by
  change compare c.label d.label = .eq ↔ c = d
  rw [Std.LawfulEqOrd.compare_eq_iff_eq, label_injective.eq_iff]

lemma Ty.compare_eq_iff {t u : Ty} : compare t u = .eq ↔ t.name = u.name := by
  change compare t.name u.name = .eq ↔ t.name = u.name
  exact Std.LawfulEqOrd.compare_eq_iff_eq

namespace Field
variable {e f : Field}

lemma compare_eq_eq : compare e f = .eq ↔ e ≈ f := by
  change ((compare e.name f.name).then ((compare e.type.name f.type.name).then
    (compare e.cardinality.label f.cardinality.label))) = .eq ↔ e ≈ f
  rw [Ordering.then_eq_eq, Ordering.then_eq_eq, Std.LawfulEqOrd.compare_eq_iff_eq,
    Std.LawfulEqOrd.compare_eq_iff_eq, Std.LawfulEqOrd.compare_eq_iff_eq,
    Cardinality.label_injective.eq_iff, equiv_iff, Ty.equiv_iff]

end Field

namespace Production
variable {p q : Production}

lemma compare_eq (p q : Production) : compare p q =
    (compare q.name p.name).then ((compare p.head q.head).then (compare p.fields q.fields)) := rfl

lemma compare_eq_eq : compare p q = .eq ↔ p ≈ q := by
  rw [compare_eq, Ordering.then_eq_eq, Ordering.then_eq_eq, Std.LawfulEqOrd.compare_eq_iff_eq,
    Ty.compare_eq_iff, compare_list_eq_eq, equiv_iff_fields, Ty.equiv_iff]
  simp only [Field.compare_eq_eq]
  tauto

/-- Between constructors of different names the names alone decide, the other way round. -/
lemma compare_eq_lt_of_name_ne (h : p.name ≠ q.name) : compare p q = .lt ↔ q.name < p.name := by
  have hne : compare q.name p.name ≠ .eq := fun he => h (Std.LawfulEqOrd.eq_of_compare he).symm
  rw [compare_eq, Ordering.then_eq_lt, Sorted.compare_string_eq_lt]
  tauto

end Production

end Asdl
