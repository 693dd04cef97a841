import Mathlib.Data.List.Basic
import Asdl.Proofs.Result
import Asdl.Proofs.Tree.Validity

/-! Trees as they come about: a node starts empty, and values are offered to it by the names of
fields. What such a call does is said once, and from that it follows that a call that fails leaves
the node as it was, and what all nodes keep. -/
namespace Asdl

namespace Node
variable {α : Type} {t t' : Node α} {name : String} {value : α}

/-- A call under the name of no field fails. -/
lemma addValue_of_fresh (h : ∀ s ∈ t.slots, s.field.name ≠ name) :
    t.addValue name value = (.error (t.unknownField name), t) := by
  have hnone : t.slots.findFinIdx? (·.field.name = name) = none := by
    simpa [List.findFinIdx?_eq_none_iff] using h
  simp only [addValue, addValue.call, hnone, StateT.run_bind, StateT.run_get, pure_bind]
  rfl

/-- A call puts the value last in the first slot of the name if that one has room, and else fails. -/
lemma addValue_of_slots {p : Production} {before after : List (Slot α)} {s : Slot α}
    (hbefore : ∀ r ∈ before, r.field.name ≠ name) (hs : s.field.name = name) :
    addValue ⟨p, before ++ s :: after⟩ name value =
      if s.field.cardinality.allowsMany = true ∨ s.values = [] then
        (.ok (), ⟨p, before ++ ⟨s.field, s.values ++ [value]⟩ :: after⟩)
      else
        (.error (.cardinalityViolation name s.field.cardinality), ⟨p, before ++ s :: after⟩) := by
  have hlength : before.length < (before ++ s :: after).length := by simp
  have hfirst : (before ++ s :: after).findFinIdx? (·.field.name = name) =
      some ⟨before.length, hlength⟩ := by
    rw [List.findFinIdx?_eq_some_iff]
    refine ⟨by simpa using hs, fun j hj => ?_⟩
    have hj : j.val < before.length := hj
    simpa [List.getElem_append_left hj] using hbefore _ (List.getElem_mem hj)
  have hfull : (!s.field.cardinality.allowsMany && !s.values.isEmpty) = true ↔
      ¬ (s.field.cardinality.allowsMany = true ∨ s.values = []) := by
    rw [Bool.and_eq_true, Bool.not_eq_true', Bool.not_eq_true', List.isEmpty_eq_false_iff, not_or,
      Bool.not_eq_true]
  have hget : (before ++ s :: after)[before.length] = s := by simp
  simp only [addValue, addValue.call, hfirst, StateT.run_bind, StateT.run_get, pure_bind,
    Fin.getElem_fin, hget, hfull, ite_not, List.set_append_right, Nat.le_refl, Nat.sub_self,
    List.set_cons_zero]
  split <;> rfl

/-- All that a call can do. -/
theorem addValue_cases (t : Node α) (name : String) (value : α) :
    ((∀ s ∈ t.slots, s.field.name ≠ name) ∧
      t.addValue name value = (.error (t.unknownField name), t)) ∨
    ∃ before s after, t.slots = before ++ s :: after ∧ (∀ r ∈ before, r.field.name ≠ name) ∧
      s.field.name = name ∧ t.addValue name value =
        if s.field.cardinality.allowsMany = true ∨ s.values = [] then
          (.ok (), ⟨t.production, before ++ ⟨s.field, s.values ++ [value]⟩ :: after⟩)
        else (.error (.cardinalityViolation name s.field.cardinality), t) := by
  obtain ⟨p, slots⟩ := t
  cases hfirst : slots.find? (·.field.name = name) with
  | none =>
    have hfresh : ∀ s ∈ slots, s.field.name ≠ name := by simpa using hfirst
    exact .inl ⟨hfresh, addValue_of_fresh hfresh⟩
  | some s =>
    obtain ⟨hs, before, after, rfl, hbefore⟩ := List.find?_eq_some_iff_append.1 hfirst
    have hs : s.field.name = name := by simpa using hs
    have hbefore : ∀ r ∈ before, r.field.name ≠ name := by simpa using hbefore
    exact .inr ⟨before, s, after, rfl, hbefore, hs, addValue_of_slots hbefore hs⟩

/-- A call that fails has changed nothing. -/
lemma eq_of_addValue_eq_error {e : Error} (h : t.addValue name value = (.error e, t')) :
    t' = t := by
  obtain ⟨-, hrun⟩ | ⟨before, s, after, -, -, -, hrun⟩ := t.addValue_cases name value
  · cases hrun.symm.trans h
    rfl
  · rw [hrun] at h
    split at h <;> cases h
    rfl

lemma add_eq_ok_iff : t.add name value = .ok t' ↔ t.addValue name value = (.ok (), t') := by
  rw [Node.add]
  obtain ⟨answer, after⟩ := t.addValue name value
  cases answer <;> simp

lemma add_eq_error_iff {e : Error} :
    t.add name value = .error e ↔ (t.addValue name value).1 = .error e := by
  rw [Node.add]
  obtain ⟨answer, after⟩ := t.addValue name value
  cases answer <;> simp

/-- Adding a value puts it last in the first slot of the name, which has to have room for it. -/
theorem add_eq_ok : t.add name value = .ok t' ↔ ∃ before s after,
    t.slots = before ++ s :: after ∧ (∀ r ∈ before, r.field.name ≠ name) ∧ s.field.name = name ∧
    (s.field.cardinality.allowsMany = true ∨ s.values = []) ∧
    t' = ⟨t.production, before ++ ⟨s.field, s.values ++ [value]⟩ :: after⟩ := by
  rw [add_eq_ok_iff]
  constructor
  · intro h
    obtain ⟨-, hrun⟩ | ⟨before, s, after, hslots, hbefore, hs, hrun⟩ := t.addValue_cases name value
    · cases hrun.symm.trans h
    · rw [hrun] at h
      split at h
      · next hfree =>
        cases h
        exact ⟨before, s, after, hslots, hbefore, hs, hfree, rfl⟩
      · cases h
  · rintro ⟨before, s, after, hslots, hbefore, hs, hfree, rfl⟩
    obtain ⟨p, slots⟩ := t
    obtain rfl : slots = before ++ s :: after := hslots
    rw [addValue_of_slots hbefore hs, if_pos hfree]

/-- The node after a value is offered to it, taken or not. -/
def offer (t : Node α) (name : String) (value : α) : Node α := (t.addValue name value).2

lemma offer_eq_or (t : Node α) (name : String) (value : α) :
    t.offer name value = t ∨ t.add name value = .ok (t.offer name value) := by
  rw [add_eq_ok_iff, offer]
  cases hrun : t.addValue name value with
  | mk answer after =>
    cases answer with
    | ok u => exact .inr rfl
    | error e => exact .inl (eq_of_addValue_eq_error hrun)

lemma offer_production (t : Node α) (name : String) (value : α) :
    (t.offer name value).production = t.production := by
  obtain he | hadd := t.offer_eq_or name value
  · rw [he]
  · obtain ⟨before, s, after, -, -, -, -, hoffer⟩ := add_eq_ok.1 hadd
    rw [hoffer]

/-- What holds of a node however it was filled: the slots are those of the production, only a
multiple field has more than one value, and a field behind another of its name has none. -/
structure WellFilled (t : Node α) : Prop where
  fields : t.slots.map Slot.field = t.production.fields
  room : ∀ s ∈ t.slots, s.field.cardinality.allowsMany = true ∨ s.values.length ≤ 1
  hidden : t.slots.Pairwise fun r s => r.field.name = s.field.name → s.values = []

lemma wellFilled_empty (p : Production) : (Node.empty p : Node α).WellFilled where
  fields := by simp [Node.empty, Function.comp_def]
  room := by simp [Node.empty]
  hidden := by
    refine List.pairwise_of_forall_mem_list fun r _ s hs _ => ?_
    obtain ⟨f, -, rfl⟩ := List.mem_map.1 hs
    rfl

lemma WellFilled.add (h : t.WellFilled) (hadd : t.add name value = .ok t') : t'.WellFilled := by
  obtain ⟨before, s, after, hslots, hbefore, hs, hfree, rfl⟩ := add_eq_ok.1 hadd
  obtain ⟨hfields, hroom, hhidden⟩ := h
  rw [hslots] at hfields hroom hhidden
  refine ⟨by simpa using hfields, ?_, ?_⟩
  · intro r hr
    obtain hr | rfl | hr : r ∈ before ∨ r = _ ∨ r ∈ after := by simpa using hr
    · exact hroom r (by simp [hr])
    · exact hfree.imp_right fun hnil => by simp [hnil]
    · exact hroom r (by simp [hr])
  · rw [List.pairwise_append, List.pairwise_cons] at hhidden ⊢
    obtain ⟨hb, ⟨hsa, ha⟩, hba⟩ := hhidden
    refine ⟨hb, ⟨hsa, ha⟩, fun r hr q hq hname => ?_⟩
    obtain rfl | hq := List.mem_cons.1 hq
    · exact absurd (hname.trans hs) (hbefore r hr)
    · exact hba r hr q (by simp [hq]) hname

lemma WellFilled.offer (h : t.WellFilled) (name : String) (value : α) :
    (t.offer name value).WellFilled := by
  obtain he | hadd := t.offer_eq_or name value
  · rwa [he]
  · exact h.add hadd

lemma mem_values_of_offer {s : Slot α} {v : α} (hs : s ∈ (t.offer name value).slots)
    (hv : v ∈ s.values) : v = value ∨ ∃ r ∈ t.slots, v ∈ r.values := by
  obtain he | hadd := t.offer_eq_or name value
  · exact .inr ⟨s, he ▸ hs, hv⟩
  · obtain ⟨before, r, after, hslots, -, -, -, hoffer⟩ := add_eq_ok.1 hadd
    rw [hoffer] at hs
    rw [hslots]
    obtain hs | rfl | hs : s ∈ before ∨ s = _ ∨ s ∈ after := by simpa using hs
    · exact .inr ⟨s, by simp [hs], hv⟩
    · obtain hv | rfl : v ∈ r.values ∨ v = value := by simpa using hv
      · exact .inr ⟨r, by simp, hv⟩
      · exact .inl rfl
    · exact .inr ⟨s, by simp [hs], hv⟩

end Node

namespace Tree

/-- The trees that can be made: empty nodes, to which tokens and such trees are offered under any
names, whether or not they are taken. -/
inductive Built : Tree → Prop
  | empty (p : Production) : Built (Node.empty p)
  | offerToken {t : Tree} (name text : String) (ht : Built t) : Built (t.offer name (.token text))
  | offerTree {t u : Tree} (name : String) (ht : Built t) (hu : Built u) :
    Built (t.offer name (.tree u))

lemma Built.wellFilled {t : Tree} (h : Built t) : t.WellFilled := by
  induction h with
  | empty p => exact Node.wellFilled_empty p
  | offerToken name text _ ih => exact ih.offer name _
  | offerTree name _ _ ih _ => exact ih.offer name _

lemma Built.child {t u : Tree} (h : Built t) (hu : Node.HasChild t.slots u) : Built u := by
  induction h with
  | empty p =>
    obtain ⟨s, hs, hu⟩ := hu
    obtain ⟨f, -, rfl⟩ := List.mem_map.1 hs
    cases hu
  | offerToken name text _ ih =>
    obtain ⟨s, hs, hu⟩ := hu
    obtain he | hold := Node.mem_values_of_offer hs hu
    · cases he
    · exact ih hold
  | offerTree name _ hnew ih _ =>
    obtain ⟨s, hs, hu⟩ := hu
    obtain he | hold := Node.mem_values_of_offer hs hu
    · cases he
      exact hnew
    · exact ih hold

end Tree

end Asdl
