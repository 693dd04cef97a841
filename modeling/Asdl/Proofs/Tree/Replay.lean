import Asdl.Proofs.Tree.Filling

/-! Replay. What a node holds can be put into the empty node again, slot by slot, without a refusal;
so the nodes that runs of offers lead to are exactly the well filled ones. -/
namespace Asdl
variable {α : Type}

/-- The values of a slot, each under the name of the field. -/
def Slot.offers (s : Slot α) : List (String × α) := s.values.map (s.field.name, ·)

namespace Node

/-- What a node holds, slot by slot, as offers to an empty node. -/
def offers (t : Node α) : List (String × α) := t.slots.flatMap Slot.offers

/-- Adds values one by one. The first that is refused ends the run. -/
def addAll (t : Node α) (offers : List (String × α)) : Result (Node α) :=
  offers.foldlM (fun t o => t.add o.1 o.2) t

section Runs
variable {t t' : Node α} {p : Production}

@[simp] lemma addAll_nil : t.addAll [] = .ok t := rfl

lemma addAll_cons_eq_ok {name : String} {value : α} {rest : List (String × α)} :
    t.addAll ((name, value) :: rest) = .ok t' ↔
      ∃ u, t.add name value = .ok u ∧ u.addAll rest = .ok t' := by
  rw [addAll, List.foldlM_cons, Result.bind_eq_ok]
  rfl

lemma addAll_append_eq_ok {offers others : List (String × α)} :
    t.addAll (offers ++ others) = .ok t' ↔
      ∃ u, t.addAll offers = .ok u ∧ u.addAll others = .ok t' := by
  rw [addAll, List.foldlM_append, Result.bind_eq_ok]
  rfl

/-- A run in which nothing is refused is a run of offers. -/
lemma offerAll_of_addAll {offers : List (String × α)} (h : t.addAll offers = .ok t') :
    t.offerAll offers = t' := by
  induction offers generalizing t with
  | nil => exact Except.ok.inj h
  | cons o rest ih =>
    obtain ⟨u, hadd, hrest⟩ := addAll_cons_eq_ok.1 h
    rw [offerAll, List.foldl_cons, offer, add_eq_ok_iff.1 hadd]
    exact ih hrest

lemma WellFilled.offerAll (h : t.WellFilled) (offers : List (String × α)) :
    (t.offerAll offers).WellFilled := by
  induction offers generalizing t with
  | nil => exact h
  | cons o rest ih => exact ih (h.offer o.1 o.2)

end Runs

section Replay
variable {t : Node α} {p : Production} {f : Field}

/-- The first slot of a name takes values as long as it has room. -/
lemma addAll_slot {before after : List (Slot α)} (values more : List α)
    (hbefore : ∀ r ∈ before, r.field.name ≠ f.name)
    (hroom : f.cardinality.allowsMany = true ∨ (values ++ more).length ≤ 1) :
    addAll ⟨p, before ++ ⟨f, values⟩ :: after⟩ (more.map (f.name, ·)) =
      .ok ⟨p, before ++ ⟨f, values ++ more⟩ :: after⟩ := by
  induction more generalizing values with
  | nil => simp
  | cons v rest ih =>
    have hfree : f.cardinality.allowsMany = true ∨ values = [] := by
      refine hroom.imp_right fun hlength => ?_
      simp only [List.length_append, List.length_cons] at hlength
      exact List.eq_nil_of_length_eq_zero (by omega)
    have hrest := ih (values ++ [v]) (by simpa using hroom)
    rw [List.append_assoc, List.singleton_append] at hrest
    rw [List.map_cons, addAll_cons_eq_ok]
    exact ⟨_, add_eq_ok.2 ⟨before, ⟨f, values⟩, after, rfl, hbefore, rfl, hfree, rfl⟩, hrest⟩

/-- Slots are filled from left to right. A slot behind one of its name has nothing to take, so the
values of all others go where they came from. -/
lemma addAll_slots (before : List (Slot α)) {rest : List (Slot α)}
    (hroom : ∀ s ∈ rest, s.field.cardinality.allowsMany = true ∨ s.values.length ≤ 1)
    (hhidden : (before ++ rest).Pairwise fun r s => r.field.name = s.field.name → s.values = []) :
    addAll ⟨p, before ++ rest.map fun s => ⟨s.field, []⟩⟩ (rest.flatMap Slot.offers) =
      .ok ⟨p, before ++ rest⟩ := by
  induction rest generalizing before with
  | nil => simp
  | cons s rest ih =>
    have hrest := ih (before ++ [s]) (fun r hr => hroom r (by simp [hr])) (by simpa using hhidden)
    rw [List.append_assoc, List.append_assoc, List.singleton_append, List.singleton_append] at hrest
    rw [List.flatMap_cons, addAll_append_eq_ok]
    refine ⟨_, ?_, hrest⟩
    by_cases hnil : s.values = []
    · obtain ⟨f, values⟩ := s
      cases hnil
      rfl
    · have hbefore : ∀ r ∈ before, r.field.name ≠ s.field.name := fun r hr hname =>
        hnil ((List.pairwise_append.1 hhidden).2.2 r hr s List.mem_cons_self hname)
      exact addAll_slot [] s.values hbefore (hroom s List.mem_cons_self)

/-- A well filled node is made from the empty one by what it holds. -/
theorem WellFilled.addAll_offers (h : t.WellFilled) :
    (empty t.production).addAll t.offers = .ok t := by
  have hempty : t.production.fields.map (fun f => (⟨f, []⟩ : Slot α)) =
      t.slots.map fun s => ⟨s.field, []⟩ := by
    rw [← h.fields, List.map_map]
    rfl
  rw [empty, hempty]
  exact addAll_slots [] h.room h.hidden

/-- A well filled node is determined by its production and by what it holds. -/
lemma WellFilled.eq_filled (h : t.WellFilled) : t = filled t.production t.offers := by
  rw [← offerAll_empty, offerAll_of_addAll h.addAll_offers]

end Replay

section Completion
variable {t : Node α} {p : Production}

/-- A field that is hidden behind another of its name stays empty, so it cannot be a single one. -/
lemma WellFilled.pairwise_of_isComplete (h : t.WellFilled) (hcomplete : t.IsComplete) :
    t.production.fields.Pairwise fun e f => e.name = f.name → f.cardinality ≠ .single := by
  rw [← h.fields, List.pairwise_map]
  refine h.hidden.imp_of_mem fun {r s} _ hs hnil hname hsingle => ?_
  have hlength : s.values.length = 1 := hcomplete s hs hsingle
  simp [hnil hname] at hlength

end Completion

/-- The nodes at the end of runs of offers, some of which may have been refused. -/
theorem exists_offerAll_empty_iff {p : Production} {t : Node α} :
    (∃ offers, (empty p).offerAll offers = t) ↔ t.production = p ∧ t.WellFilled := by
  constructor
  · rintro ⟨offers, rfl⟩
    exact ⟨by rw [offerAll_empty, filled], (wellFilled_empty p).offerAll offers⟩
  · rintro ⟨rfl, h⟩
    exact ⟨t.offers, offerAll_of_addAll h.addAll_offers⟩

/-- The nodes at the end of runs in which nothing is refused. -/
theorem exists_addAll_empty_iff {p : Production} {t : Node α} :
    (∃ offers, (empty p).addAll offers = .ok t) ↔ t.production = p ∧ t.WellFilled := by
  constructor
  · rintro ⟨offers, h⟩
    exact exists_offerAll_empty_iff.1 ⟨offers, offerAll_of_addAll h⟩
  · rintro ⟨rfl, h⟩
    exact ⟨t.offers, h.addAll_offers⟩

end Node

end Asdl
