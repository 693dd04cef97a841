import Mathlib.Data.Set.Function
import Asdl.Proofs.Grammar.Coverage
import Asdl.Proofs.Grammar.Lookup

/-! Ids. No two entries of a catalog are the same up to kinds, so that none takes the place of
another when the positions of all are stored. The position of an entry is its id, and ids are read
back from the catalog. -/
namespace Asdl

/-- Whether a catalog is numbered by its positions: `ofId?` gives the entries in their order, `id?`
finds an item at the position of the entry that is the same up to kinds, and on the entries it is a
bijection to the numbers below the length. -/
structure Numbering {α : Type} [Setoid α] (id? : α → Option ℕ) (ofId? : ℕ → Option α)
    (catalog : List α) : Prop where
  entry : ∀ i, ofId? i = catalog[i]?
  isSome : ∀ i, (ofId? i).isSome ↔ i < catalog.length
  eq_some : ∀ a i, id? a = some i ↔ ∃ b, ofId? i = some b ∧ b ≈ a
  bijOn : Set.BijOn id? {a | a ∈ catalog} (some '' {i | i < catalog.length})

namespace Numbering
variable {α : Type} [Setoid α] {id? : α → Option ℕ} {ofId? : ℕ → Option α} {catalog : List α}

/-- An id that is a position makes a numbering. -/
lemma of_eq_some (hentry : ∀ i, ofId? i = catalog[i]?)
    (hid : ∀ a i, id? a = some i ↔ ∃ b, ofId? i = some b ∧ b ≈ a) :
    Numbering id? ofId? catalog := by
  have hself (i : ℕ) (hi : i < catalog.length) : id? catalog[i] = some i :=
    (hid _ i).2 ⟨_, (hentry i).trans (List.getElem?_eq_getElem hi), Setoid.refl _⟩
  refine ⟨hentry, fun i => by simp [hentry], hid, ?_, ?_, ?_⟩
  · intro a ha
    obtain ⟨i, hi, rfl⟩ := List.getElem_of_mem ha
    exact ⟨i, hi, (hself i hi).symm⟩
  · intro a ha b hb he
    obtain ⟨i, hi, rfl⟩ := List.getElem_of_mem ha
    obtain ⟨j, hj, rfl⟩ := List.getElem_of_mem hb
    obtain rfl : i = j := by simpa [hself i hi, hself j hj] using he
    rfl
  · rintro _ ⟨i, hi, rfl⟩
    exact ⟨catalog[i], List.getElem_mem hi, hself i hi⟩

/-- A catalog is numbered by an index of it whose keys tell its entries apart up to kinds. -/
lemma of_locates {κ : Type} [DecidableEq κ] {index : Index κ} {key : α → κ}
    (hentry : ∀ i, ofId? i = catalog[i]?) (hindex : index.Locates key catalog)
    (hkey : ∀ a b, a ≈ b ↔ key a = key b) :
    Numbering (fun a => index.get? (key a)) ofId? catalog :=
  .of_eq_some hentry fun a i => by simp only [hindex (key a) i, hentry, hkey]

/-- An entry of the catalog stands at its own id. -/
lemma exists_id (h : Numbering id? ofId? catalog) {a : α} (ha : a ∈ catalog) :
    ∃ i, id? a = some i ∧ ofId? i = some a := by
  obtain ⟨i, hi, rfl⟩ := List.getElem_of_mem ha
  have hi' : ofId? i = some catalog[i] := (h.entry i).trans (List.getElem?_eq_getElem hi)
  exact ⟨i, (h.eq_some _ i).2 ⟨_, hi', Setoid.refl _⟩, hi'⟩

lemma existsUnique_id (h : Numbering id? ofId? catalog) {a : α} (ha : a ∈ catalog) :
    ∃! i, id? a = some i := by
  obtain ⟨i, hi, -⟩ := h.exists_id ha
  exact ⟨i, hi, fun j hj => Option.some.inj (hj.symm.trans hi)⟩

end Numbering

namespace Grammar
variable (g : Grammar)

lemma locates_productions : g.ids.productions.Locates Production.key g.productions := by
  have hnames : (g.productions.map Production.name).Nodup := g.increasing_productions.nodup_map
  have hkeys : (g.productions.map Production.key).Nodup := by
    refine .of_map (fun key => key.2.1) ?_
    rw [List.map_map]
    exact hnames
  rw [g.ids_eq]
  exact Index.locates_ofList hkeys

lemma locates_fields : g.ids.fields.Locates Field.key g.fields := by
  have hkeys : (g.fields.map Field.key).Nodup := by
    refine List.pairwise_map.2 (g.increasing_fields.imp fun {e f} hlt he => ?_)
    rw [Field.compare_eq_eq.2 he] at hlt
    cases hlt
  rw [g.ids_eq]
  exact Index.locates_ofList hkeys

lemma numbering_productions : Numbering g.productionId? g.productionOfId? g.productions :=
  .of_locates (fun _ => (Array.getElem?_toList ..).symm) g.locates_productions fun _ _ => Iff.rfl

lemma numbering_types : Numbering g.typeId? g.typeOfId? g.types :=
  .of_locates (fun _ => (Array.getElem?_toList ..).symm) g.locates_types fun _ _ => Iff.rfl

lemma numbering_fields : Numbering g.fieldId? g.fieldOfId? g.fields :=
  .of_locates (fun _ => (Array.getElem?_toList ..).symm) g.locates_fields fun _ _ => Iff.rfl

/-- The ids of a grammar number its three catalogs. Questions may differ in kind from the entries,
or ask for what the grammar lacks; but each production that is declared has an id, as have its head,
its fields and their types. -/
theorem ids_number_catalogs :
    Numbering g.productionId? g.productionOfId? g.productions ∧
    Numbering g.typeId? g.typeOfId? g.types ∧
    Numbering g.fieldId? g.fieldOfId? g.fields ∧
    ∀ p ∈ g.declared, (∃! id, g.productionId? p = some id) ∧
      (∃! id, g.typeId? p.head = some id) ∧
      ∀ f ∈ p.constructor.fields,
        (∃! id, g.typeId? f.type = some id) ∧ ∃! id, g.fieldId? f = some id := by
  have htype {p : Production} (hp : p ∈ g.declared) {t : Ty} (ht : p.Mentions t) :
      ∃! id, g.typeId? t = some id :=
    g.numbering_types.existsUnique_id (g.mem_types.2 ⟨p, hp, ht⟩)
  refine ⟨g.numbering_productions, g.numbering_types, g.numbering_fields, fun p hp => ⟨?_, ?_, ?_⟩⟩
  · exact g.numbering_productions.existsUnique_id (g.productions_perm.mem_iff.2 hp)
  · exact htype hp p.mentions_head
  · intro f hf
    exact ⟨htype hp (Production.mentions_type hf),
      g.numbering_fields.existsUnique_id (g.mem_fields.2 ⟨p, hp, hf⟩)⟩

end Grammar

end Asdl
