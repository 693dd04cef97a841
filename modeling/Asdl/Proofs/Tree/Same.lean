import Mathlib.Data.List.Forall2
import Asdl.Tree.Basic

/-! Trees that are the same up to kinds, in terms of their parts: productions that are the same, and
slot by slot the same fields with the same values. -/
namespace Asdl

/-- Slots of the same field with the same values, one by one. -/
def Slot.Same (s s' : Slot Value) : Prop :=
  s.field ≈ s'.field ∧ List.Forall₂ (fun v w => v.same w = true) s.values s'.values

namespace Tree

lemma sameValues_iff {values others : List Value} :
    sameValues values others = true ↔ List.Forall₂ (fun v w => v.same w = true) values others := by
  induction values generalizing others with
  | nil => cases others <;> simp [sameValues]
  | cons v rest ih => cases others <;> simp [sameValues, ih]

lemma sameSlots_iff {slots others : List (Slot Value)} :
    sameSlots slots others = true ↔ List.Forall₂ Slot.Same slots others := by
  induction slots generalizing others with
  | nil => cases others <;> simp [sameSlots]
  | cons s rest ih =>
    obtain ⟨f, values⟩ := s
    cases others with
    | nil => simp [sameSlots]
    | cons s' others =>
      obtain ⟨f', values'⟩ := s'
      simp [sameSlots, ih, sameValues_iff, Slot.Same]

lemma equiv_iff {t u : Tree} :
    t ≈ u ↔ t.production ≈ u.production ∧ List.Forall₂ Slot.Same t.slots u.slots := by
  obtain ⟨p, slots⟩ := t
  obtain ⟨q, others⟩ := u
  change same ⟨p, slots⟩ ⟨q, others⟩ = true ↔ _
  rw [same, Bool.and_eq_true, decide_eq_true_iff, sameSlots_iff]

end Tree
end Asdl
