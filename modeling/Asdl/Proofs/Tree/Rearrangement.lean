import Mathlib.Data.List.Induction
import Asdl.Proofs.Tree.Replay

/-! The order of values in a node. A run without a refusal is stably sorted by the positions of the
fields: values of different fields lose the order in which they came, values of one field keep it.
Whether a run is refused depends on its names alone. -/
namespace Asdl
variable {α : Type}

/-- The position of the first field of a name. -/
def Production.position (p : Production) (name : String) : ℕ := p.fields.findIdx (·.name = name)

/-- Offers in the order of the fields that they are for, and else as they come. -/
def Production.arrange (p : Production) (offers : List (String × α)) : List (String × α) :=
  offers.mergeSort fun a b => p.position a.1 ≤ p.position b.1

/-- Whether an empty node has room for values under given names, in this order: each is the name of
a field, and occurs again only if the first field of the name is a multiple one. -/
def Production.HasRoom (p : Production) (names : List String) : Prop :=
  ∀ name ∈ names, ∃ f, p.fields.find? (·.name = name) = some f ∧
    (f.cardinality = .multiple ∨ names.count name ≤ 1)

section Offers
variable {rank : String → ℕ} {offers others : List (String × α)}

lemma rank_le_trans (a b c : String × α) : decide (rank a.1 ≤ rank b.1) = true →
    decide (rank b.1 ≤ rank c.1) = true → decide (rank a.1 ≤ rank c.1) = true := by
  simpa using Nat.le_trans

lemma rank_le_total (a b : String × α) :
    (decide (rank a.1 ≤ rank b.1) || decide (rank b.1 ≤ rank a.1)) = true := by
  simpa using Nat.le_total _ _

lemma mem_iff_mem_offered {o : String × α} : o ∈ offers ↔ o.2 ∈ offered o.1 offers := by
  simp only [offered, List.mem_map, List.mem_filter, decide_eq_true_eq]
  constructor
  · intro h
    exact ⟨o, ⟨h, rfl⟩, rfl⟩
  · rintro ⟨o', ⟨h, hname⟩, hvalue⟩
    rwa [Prod.ext hname hvalue] at h

lemma offered_cons (name : String) (o : String × α) :
    offered name (o :: offers) = if o.1 = name then o.2 :: offered name offers
      else offered name offers := by
  by_cases h : o.1 = name <;> simp [offered, h]

lemma rank_head_le {a b : String × α} (h : (a :: offers).Pairwise fun a b => rank a.1 ≤ rank b.1)
    (hb : b ∈ a :: offers) : rank a.1 ≤ rank b.1 := by
  obtain rfl | hb := List.mem_cons.1 hb
  · exact Nat.le_refl _
  · exact List.rel_of_pairwise_cons h hb

/-- Offers in order of rank are determined by what they offer under each name, if names of one rank
are the same. -/
lemma eq_of_offered_eq (rank : String → ℕ)
    (h : offers.Pairwise fun a b => rank a.1 ≤ rank b.1)
    (h' : others.Pairwise fun a b => rank a.1 ≤ rank b.1)
    (hrank : ∀ a ∈ offers, ∀ b ∈ offers, rank a.1 = rank b.1 → a.1 = b.1)
    (hsame : ∀ name, offered name offers = offered name others) : offers = others := by
  induction offers generalizing others with
  | nil =>
    refine (List.eq_nil_iff_forall_not_mem.2 fun o ho => ?_).symm
    rw [mem_iff_mem_offered, ← hsame] at ho
    cases ho
  | cons a rest ih =>
    have hmem (o : String × α) : o ∈ a :: rest ↔ o ∈ others := by
      rw [mem_iff_mem_offered, mem_iff_mem_offered, hsame]
    cases others with
    | nil => exact absurd ((hmem a).1 List.mem_cons_self) List.not_mem_nil
    | cons b rest' =>
      have hbmem : b ∈ a :: rest := (hmem b).2 List.mem_cons_self
      have hab : rank a.1 ≤ rank b.1 := rank_head_le h hbmem
      have hba : rank b.1 ≤ rank a.1 := rank_head_le h' ((hmem a).1 List.mem_cons_self)
      have hname : a.1 = b.1 := hrank a List.mem_cons_self b hbmem (Nat.le_antisymm hab hba)
      -- both lists begin with what is offered first under this name
      have hhead := hsame a.1
      rw [offered_cons, offered_cons, if_pos rfl, if_pos hname.symm, List.cons.injEq] at hhead
      obtain rfl : a = b := Prod.ext hname hhead.1
      congr 1
      have hrank' : ∀ c ∈ rest, ∀ d ∈ rest, rank c.1 = rank d.1 → c.1 = d.1 := fun c hc d hd =>
        hrank c (List.mem_cons_of_mem _ hc) d (List.mem_cons_of_mem _ hd)
      refine ih h.of_cons h'.of_cons hrank' fun name => ?_
      have htail := hsame name
      rw [offered_cons, offered_cons] at htail
      by_cases he : a.1 = name
      · simpa [he] using htail
      · simpa [he] using htail

/-- Sorting by rank does not change what is offered under a name. -/
lemma offered_mergeSort (name : String) (offers : List (String × α)) :
    offered name (offers.mergeSort fun a b => rank a.1 ≤ rank b.1) = offered name offers := by
  have hequal : (offers.filter (·.1 = name)).Pairwise fun a b => decide (rank a.1 ≤ rank b.1) := by
    refine List.pairwise_of_forall_mem_list fun a ha b hb => ?_
    simp_all
  have hsub : (offers.filter (·.1 = name)).Sublist
      (offers.mergeSort fun a b => rank a.1 ≤ rank b.1) :=
    List.sublist_mergeSort rank_le_trans rank_le_total hequal List.filter_sublist
  have hfilter := hsub.filter (·.1 = name)
  rw [List.filter_filter] at hfilter
  simp only [Bool.and_self] at hfilter
  have hlength := ((List.mergeSort_perm offers fun a b => rank a.1 ≤ rank b.1).filter
    (·.1 = name)).length_eq
  rw [offered, offered, hfilter.eq_of_length hlength.symm]

lemma pairwise_mergeSort_rank (offers : List (String × α)) :
    (offers.mergeSort fun a b => rank a.1 ≤ rank b.1).Pairwise fun a b => rank a.1 ≤ rank b.1 :=
  (List.pairwise_mergeSort rank_le_trans rank_le_total offers).imp of_decide_eq_true

end Offers

namespace Production
variable {p q : Production} {name : String} {names : List String}

lemma position_le {i : ℕ} (hi : i < p.fields.length) : p.position p.fields[i].name ≤ i := by
  by_contra h
  have hearlier := List.not_of_lt_findIdx (Nat.lt_of_not_le h)
  simp at hearlier

lemma position_lt_length (h : ∃ f ∈ p.fields, f.name = name) :
    p.position name < p.fields.length := by
  simpa [position] using h

lemma name_getElem_position (h : p.position name < p.fields.length) :
    p.fields[p.position name].name = name := by
  have hfound := List.findIdx_getElem (p := fun f : Field => decide (f.name = name)) (w := h)
  exact of_decide_eq_true hfound

/-- Names of fields are told apart by their positions. -/
lemma position_inj {other : String} (h : ∃ f ∈ p.fields, f.name = name)
    (he : p.position name = p.position other) : name = other := by
  have hlt := position_lt_length h
  calc name = p.fields[p.position name].name := (name_getElem_position hlt).symm
    _ = p.fields[p.position other].name := by simp only [he]
    _ = other := name_getElem_position (he ▸ hlt)

lemma hasRoom_snoc : p.HasRoom (names ++ [name]) ↔ p.HasRoom names ∧
    ∃ f, p.fields.find? (·.name = name) = some f ∧ (f.cardinality = .multiple ∨ name ∉ names) := by
  constructor
  · intro h
    constructor
    · intro other hother
      obtain ⟨f, hf, hroom⟩ := h other (by simp [hother])
      refine ⟨f, hf, hroom.imp_right fun hcount => ?_⟩
      rw [List.count_append] at hcount
      omega
    · obtain ⟨f, hf, hroom⟩ := h name (by simp)
      refine ⟨f, hf, hroom.imp_right fun hcount => List.count_eq_zero.1 ?_⟩
      rw [List.count_append, List.count_singleton_self] at hcount
      omega
  · rintro ⟨h, f, hf, hroom⟩ other hother
    by_cases he : other = name
    · subst he
      refine ⟨f, hf, hroom.imp_right fun hnew => ?_⟩
      rw [List.count_append, List.count_eq_zero.2 hnew, List.count_singleton_self]
    · obtain ⟨f, hf, hroom⟩ := h other (by simpa [he] using hother)
      refine ⟨f, hf, hroom.imp_right fun hcount => ?_⟩
      rwa [List.count_append, List.count_singleton, if_neg (by simpa using Ne.symm he)]

lemma not_hasRoom_iff : ¬ p.HasRoom names ↔ ∃ name ∈ names, (∀ f ∈ p.fields, f.name ≠ name) ∨
    ∃ f, p.fields.find? (·.name = name) = some f ∧ f.cardinality ≠ .multiple ∧
      2 ≤ names.count name := by
  rw [HasRoom]
  push Not
  refine exists_congr fun name => and_congr_right fun _ => ?_
  cases hfind : p.fields.find? (·.name = name) with
  | none => simpa using hfind
  | some f =>
    have hknown : ¬ ∀ e ∈ p.fields, e.name ≠ name := fun h =>
      h f (List.mem_of_find?_eq_some hfind) (by simpa using List.find?_some hfind)
    simp [hknown, Nat.succ_le_iff]

/-- Kinds are not asked for when a field is found by its name. -/
lemma exists_find?_of_equiv (h : p ≈ q) {f : Field} (hf : p.fields.find? (·.name = name) = some f) :
    ∃ f', q.fields.find? (·.name = name) = some f' ∧ f ≈ f' := by
  have hfields := forall₂_fields_of_equiv h
  generalize p.fields = fields at hf hfields
  generalize q.fields = fields' at hfields ⊢
  induction hfields with
  | nil => cases hf
  | @cons e e' _ _ he _ ih =>
    have hname : e.name = e'.name := (Field.equiv_iff.1 he).1
    by_cases hfirst : e.name = name
    · obtain rfl : e = f := by simpa [hfirst] using hf
      exact ⟨e', by simp [← hname, hfirst], he⟩
    · obtain ⟨f', hf', hequiv⟩ := ih (by simpa [hfirst] using hf)
      exact ⟨f', by simpa [← hname, hfirst] using hf', hequiv⟩

lemma HasRoom.of_equiv (h : p.HasRoom names) (he : p ≈ q) : q.HasRoom names := by
  intro name hname
  obtain ⟨f, hf, hroom⟩ := h name hname
  obtain ⟨f', hf', hequiv⟩ := exists_find?_of_equiv he hf
  exact ⟨f', hf', hroom.imp_left fun hmany => (Field.equiv_iff.1 hequiv).2.2 ▸ hmany⟩

end Production

namespace Node
variable {t t' : Node α} {p : Production} {name : String} {value : α}
  {offers : List (String × α)}

lemma offered_slot (name : String) (s : Slot α) :
    offered name s.offers = if s.field.name = name then s.values else [] := by
  by_cases h : s.field.name = name <;>
    simp [offered, Slot.offers, List.filter_map, Function.comp_def, h]

lemma offers_empty (p : Production) : (empty p : Node α).offers = [] := by
  simp [offers, empty, Slot.offers]

lemma exists_slot_of_mem_offers {slots : List (Slot α)} {o : String × α}
    (ho : o ∈ slots.flatMap Slot.offers) : ∃ s ∈ slots, s.field.name = o.1 ∧ s.values ≠ [] := by
  obtain ⟨s, hs, ho⟩ := List.mem_flatMap.1 ho
  obtain ⟨v, hv, rfl⟩ := List.mem_map.1 ho
  exact ⟨s, hs, rfl, List.ne_nil_of_mem hv⟩

/-- A slot with values is the first of its name, so values stand in the order of the positions of
their names. -/
lemma WellFilled.pairwise_offers (h : t.WellFilled) :
    t.offers.Pairwise fun a b => t.production.position a.1 ≤ t.production.position b.1 := by
  have hlength : t.production.fields.length = t.slots.length := by simp [← h.fields]
  have hfield (k : ℕ) (hk : k < t.production.fields.length) (hk' : k < t.slots.length) :
      t.production.fields[k] = t.slots[k].field := by
    simp [← h.fields]
  refine List.pairwise_flatMap.2 ⟨fun s _ => ?_, List.pairwise_iff_getElem.2 ?_⟩
  · exact List.pairwise_map.2 (List.pairwise_of_forall fun _ _ => Nat.le_refl _)
  · intro i j hi hj hij a ha b hb
    obtain ⟨v, -, rfl⟩ := List.mem_map.1 ha
    obtain ⟨w, hw, rfl⟩ := List.mem_map.1 hb
    change t.production.position t.slots[i].field.name ≤ t.production.position t.slots[j].field.name
    have hle : t.production.position t.slots[i].field.name ≤ i := by
      rw [← hfield i (hlength ▸ hi) hi]
      exact Production.position_le _
    refine hle.trans (Nat.le_of_not_lt fun hlt => ?_)
    -- a slot before this one has its name, so this one is empty
    have hposition : t.production.position t.slots[j].field.name < t.production.fields.length := by
      omega
    have hfirst := Production.name_getElem_position hposition
    rw [hfield _ hposition (hlength ▸ hposition)] at hfirst
    have hnil := List.pairwise_iff_getElem.1 h.hidden _ j (by omega) hj (hlt.trans hij) hfirst
    simp [hnil] at hw

/-- One more value is the last of those under its name, as no slot behind holds any. -/
lemma WellFilled.offered_add (h : t.WellFilled) (hadd : t.add name value = .ok t')
    (other : String) :
    offered other t'.offers = offered other t.offers ++ if name = other then [value] else [] := by
  obtain ⟨before, s, after, hslots, -, rfl, -, rfl⟩ := add_eq_ok.1 hadd
  have hhidden := h.hidden
  rw [hslots, List.pairwise_append, List.pairwise_cons] at hhidden
  have hafter (hname : s.field.name = other) : offered other (after.flatMap Slot.offers) = [] := by
    rw [offered_eq_nil_iff]
    intro hmem
    obtain ⟨o, ho, rfl⟩ := List.mem_map.1 hmem
    obtain ⟨r, hr, hrname, hvalues⟩ := exists_slot_of_mem_offers ho
    exact hvalues (hhidden.2.1.1 r hr (hname.trans hrname.symm))
  rw [offers, offers, hslots]
  simp only [List.flatMap_append, List.flatMap_cons, offered_append, offered_slot]
  by_cases hname : s.field.name = other
  · simp [hname, hafter hname]
  · simp [hname]

lemma WellFilled.offered_addAll (h : t.WellFilled) (hadd : t.addAll offers = .ok t')
    (name : String) : offered name t'.offers = offered name t.offers ++ offered name offers := by
  induction offers generalizing t with
  | nil =>
    cases hadd
    simp [offered]
  | cons o rest ih =>
    obtain ⟨u, hu, hrest⟩ := addAll_cons_eq_ok.1 hadd
    rw [ih (h.add hu) hrest, h.offered_add hu, offered_cons]
    by_cases hname : o.1 = name <;> simp [hname]

/-- A node keeps a run without a refusal in the order of the fields. -/
theorem offers_of_addAll (h : (empty p).addAll offers = .ok t) : t.offers = p.arrange offers := by
  obtain ⟨rfl, hfilled⟩ := exists_addAll_empty_iff.1 ⟨offers, h⟩
  refine eq_of_offered_eq _ hfilled.pairwise_offers (pairwise_mergeSort_rank offers) ?_ ?_
  · intro a ha b _ hposition
    obtain ⟨s, hs, hname, -⟩ := exists_slot_of_mem_offers ha
    refine Production.position_inj ⟨s.field, ?_, hname⟩ hposition
    rw [← hfilled.fields]
    exact List.mem_map_of_mem hs
  · intro name
    rw [(wellFilled_empty _).offered_addAll h, offers_empty, Production.arrange, offered_mergeSort]
    rfl

lemma exists_add_filled_eq_ok (value : α) : (∃ t, (filled p offers).add name value = .ok t) ↔
    ∃ f, p.fields.find? (·.name = name) = some f ∧
      (f.cardinality = .multiple ∨ name ∉ offers.map Prod.fst) := by
  simp only [add_eq_ok_iff, addValue_filled, Prod.mk.injEq, exists_and_left, exists_eq', and_true,
    answer, ← offered_eq_nil_iff]
  cases p.fields.find? (·.name = name) with
  | none => simp
  | some f => by_cases hroom : f.cardinality = .multiple ∨ offered name offers = [] <;> simp [hroom]

/-- Whether a value of a run is refused is a matter of the names alone. -/
theorem exists_addAll_empty_eq_ok :
    (∃ t, (empty p).addAll offers = .ok t) ↔ p.HasRoom (offers.map Prod.fst) := by
  induction offers using List.reverseRecOn with
  | nil => simp [Production.HasRoom]
  | append_singleton offers o ih =>
    obtain ⟨name, value⟩ := o
    rw [List.map_append, List.map_singleton, Production.hasRoom_snoc, ← ih,
      ← exists_add_filled_eq_ok value]
    have hfilled {u : Node α} (hu : (empty p).addAll offers = .ok u) : u = filled p offers :=
      (offerAll_of_addAll hu).symm.trans (offerAll_empty p offers)
    constructor
    · rintro ⟨t, h⟩
      obtain ⟨u, hu, hlast⟩ := addAll_append_eq_ok.1 h
      obtain ⟨t, ht, -⟩ := addAll_cons_eq_ok.1 hlast
      exact ⟨⟨u, hu⟩, t, hfilled hu ▸ ht⟩
    · rintro ⟨⟨u, hu⟩, t, ht⟩
      exact ⟨t, addAll_append_eq_ok.2 ⟨u, hu, addAll_cons_eq_ok.2 ⟨t, hfilled hu ▸ ht, rfl⟩⟩⟩

end Node

end Asdl
