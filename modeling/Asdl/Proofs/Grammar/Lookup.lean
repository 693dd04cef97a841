import Asdl.Grammar.Lookup
import Asdl.Proofs.Grammar.Catalogs

/-! What the questions to a grammar find: the one production of a constructor, and the one type of a
name with the kind that it is declared with. The indexes tell the truth about what is declared, so
that the entry at a stored position is the one that was asked for. -/
namespace Asdl.Grammar
variable {g : Grammar}

/-- The production at the stored position, or else no position and no production. -/
lemma production_cases (g : Grammar) (c : String) :
    (∃ p ∈ g.declared, p.name = c ∧ g.production c = .ok p) ∨
      c ∉ g.declared.map Production.name ∧ g.production c = .error (.unknownConstructor c) := by
  have hpositions := g.indexed.positions
  unfold production
  split
  · next position found =>
    have hposition := g.positions_within.lt found
    exact .inl ⟨_, List.getElem_mem hposition, hpositions.key_getElem found hposition, rfl⟩
  · next hnone => exact .inr ⟨hpositions.get?_eq_none.1 hnone, rfl⟩

theorem production_eq_ok {c : String} {p : Production} :
    g.production c = .ok p ↔ p ∈ g.declared ∧ p.name = c := by
  obtain ⟨q, hq, hqname, hfound⟩ | ⟨hnone, hfound⟩ := g.production_cases c
  · rw [hfound, Except.ok.injEq]
    constructor
    · rintro rfl
      exact ⟨hq, hqname⟩
    · rintro ⟨hp, hname⟩
      exact List.inj_on_of_nodup_map g.nodup_names hq hp (hqname.trans hname.symm)
  · rw [hfound]
    refine ⟨nofun, ?_⟩
    rintro ⟨hp, rfl⟩
    exact absurd (List.mem_map_of_mem hp) hnone

theorem production_eq_error {c : String} {e : Error} : g.production c = .error e ↔
    (∀ p ∈ g.declared, p.name ≠ c) ∧ e = .unknownConstructor c := by
  obtain ⟨q, hq, hqname, hfound⟩ | ⟨hnone, hfound⟩ := g.production_cases c
  · rw [hfound]
    exact ⟨nofun, fun h => absurd hqname (h.1 q hq)⟩
  · have hall : ∀ p ∈ g.declared, p.name ≠ c := by simpa using hnone
    rw [hfound, and_iff_right hall, Except.error.injEq, eq_comm]

/-- Halving the type catalog finds the position of the type of a name. -/
lemma typePosition?_eq_some {name : String} {i : ℕ} :
    g.vocabulary.typePosition? name = some i ↔ ∃ t, g.typeOfId? i = some t ∧ t.name = name := by
  have hinc : Sorted.Increasing (compareOn Ty.name) g.vocabulary.types.toList := g.increasing_types
  rw [Vocabulary.typePosition?, Sorted.search_eq_some_iff hinc]
  constructor
  · rintro ⟨hi, hname⟩
    exact ⟨_, Array.getElem?_eq_getElem hi, hname⟩
  · rintro ⟨t, ht, hname⟩
    obtain ⟨hi, rfl⟩ := Array.getElem?_eq_some_iff.1 ht
    exact ⟨hi, hname⟩

lemma mem_types_iff_typeOfId? {t : Ty} : t ∈ g.types ↔ ∃ i, g.typeOfId? i = some t := by
  rw [types, List.mem_iff_getElem?]
  simp only [Array.getElem?_toList, typeOfId?]

theorem type?_eq_some {name : String} {t : Ty} :
    g.type? name = some t ↔ t ∈ g.types ∧ t.name = name := by
  simp only [type?, Option.bind_eq_some_iff, typePosition?_eq_some]
  constructor
  · rintro ⟨i, ⟨u, hu, hname⟩, ht⟩
    obtain rfl : u = t := Option.some.inj (hu.symm.trans ht)
    exact ⟨mem_types_iff_typeOfId?.2 ⟨i, hu⟩, hname⟩
  · rintro ⟨ht, hname⟩
    obtain ⟨i, hi⟩ := mem_types_iff_typeOfId?.1 ht
    exact ⟨i, ⟨t, hi, hname⟩, hi⟩

theorem hasKind_eq_true {kind : Kind} {t : Ty} :
    g.hasKind kind t = true ↔ g.Declares ⟨t.name, kind⟩ := by
  rw [hasKind, Option.any_eq_true, ← mem_types]
  simp only [type?_eq_some, decide_eq_true_eq]
  constructor
  · rintro ⟨u, ⟨hu, hname⟩, rfl⟩
    exact hname ▸ hu
  · intro h
    exact ⟨_, ⟨h, rfl⟩, rfl⟩

lemma locates_types (g : Grammar) : g.ids.types.Locates Ty.name g.types := by
  have hinc : Sorted.Increasing (compareOn Ty.name) g.types := g.increasing_types
  rw [g.ids_eq]
  exact Index.locates_ofList hinc.nodup_map

lemma typePosition?_eq_typeId? (g : Grammar) (t : Ty) :
    g.vocabulary.typePosition? t.name = g.typeId? t := by
  ext i
  rw [typePosition?_eq_some, typeId?, g.locates_types t.name i, types, Array.getElem?_toList]
  rfl

lemma type?_eq_bind_typeId? (g : Grammar) (t : Ty) :
    g.type? t.name = (g.typeId? t).bind g.typeOfId? := by
  rw [type?, typePosition?_eq_typeId?]
  rfl

/-- Three ways to a type: halving the catalog gives the entry that a search from the front gives,
and the one with the id of any type of that name, whatever kind the latter has. -/
theorem type?_linear_and_by_id (g : Grammar) (name : String) :
    g.type? name = g.types.find? (·.name = name) ∧
    (∀ t, g.type? name = some t ↔ t ∈ g.types ∧ t.name = name) ∧
    ∀ kind, g.type? name = (g.typeId? ⟨name, kind⟩).bind g.typeOfId? := by
  have hid (kind : Kind) := g.type?_eq_bind_typeId? ⟨name, kind⟩
  have hinc : Sorted.Increasing (compareOn Ty.name) g.vocabulary.types.toList := g.increasing_types
  have hsearch : g.vocabulary.typePosition? name = g.vocabulary.types.findIdx? (·.name = name) :=
    Sorted.search_eq_findIdx? hinc name
  refine ⟨?_, fun t => type?_eq_some, hid⟩
  rw [type?, hsearch, types, Array.find?_toList, Array.find?_eq_bind_findIdx?_getElem?]

end Asdl.Grammar
