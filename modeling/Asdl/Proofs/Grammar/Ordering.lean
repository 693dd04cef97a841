import Mathlib.Data.Set.Card
import Asdl.English
import Asdl.Order
import Asdl.Proofs.Grammar.Groups

/-! The orders of types, cardinalities, fields and productions are total and tell apart what `≈`
tells apart, so that sorting, sorted sets and counting by keys agree on what is the same item.
Productions come in the order opposite to that of the names of their constructors. -/
namespace Asdl

/-- Whether the order of a type is total and items compare equal exactly if they are the same. -/
structure LawfulOrder (α : Type) [Ord α] (same : α → α → Prop) : Prop where
  swap : ∀ a b : α, compare b a = (compare a b).swap
  trans : ∀ a b c : α, (compare a b).isLE → (compare b c).isLE → (compare a c).isLE
  eq_iff : ∀ a b : α, compare a b = .eq ↔ same a b
  partial_eq : ∀ a b : α, partialCompare a b = some (compare a b)

lemma LawfulOrder.of_eq_iff {α : Type} [Ord α] [Std.TransOrd α] {same : α → α → Prop}
    (h : ∀ a b : α, compare a b = .eq ↔ same a b) : LawfulOrder α same where
  swap _ _ := Std.OrientedOrd.eq_swap
  trans _ _ _ := Std.TransOrd.isLE_trans
  eq_iff := h
  partial_eq _ _ := rfl

lemma pairwise_sorted {α : Type} [Ord α] [Std.TransOrd α] (items : List α) :
    (sorted items).Pairwise fun a b => (compare a b).isLE := by
  have htrans (a b c : α) : (compare a b).isLE → (compare b c).isLE → (compare a c).isLE :=
    Std.TransOrd.isLE_trans
  have htotal (a b : α) : (compare a b).isLE || (compare b a).isLE := by
    rw [Std.OrientedOrd.eq_swap (a := b)]
    cases compare a b <;> rfl
  exact List.pairwise_mergeSort htrans htotal items

section Classes
variable {α κ : Type} {same : α → α → Prop} {items : List α}

/-- How many classes of items that are the same there are in a list. -/
noncomputable def classCount (same : α → α → Prop) (items : List α) : ℕ :=
  {c : Set α | ∃ a ∈ items, c = {b | same a b}}.ncard

/-- Classes are counted by a list that stands for each of them once. -/
lemma classCount_eq_length {kept : List κ} {f : κ → Set α}
    (hmem : ∀ c, (∃ a ∈ items, c = {b | same a b}) ↔ c ∈ kept.map f) (hn : (kept.map f).Nodup) :
    classCount same items = kept.length := by
  classical
  have hclasses : {c | ∃ a ∈ items, c = {b | same a b}} =
      ((kept.map f).toFinset : Set (Set α)) := by
    ext c
    rw [List.coe_toFinset]
    exact hmem c
  rw [classCount, hclasses, Set.ncard_coe_finset, List.toFinset_card_of_nodup hn, List.length_map]

/-- What a key tells apart are the classes of items with one key. -/
theorem countDistinct_eq_classCount [BEq κ] [LawfulBEq κ] {key : α → κ}
    (hkey : ∀ a b, same a b ↔ key a = key b) (items : List α) :
    countDistinct key items = classCount same items := by
  have hkeys (k : κ) : k ∈ (items.map key).eraseDups ↔ ∃ a ∈ items, key a = k := by
    rw [List.mem_eraseDups, List.mem_map]
  symm
  refine classCount_eq_length (f := fun k => {b | k = key b}) (fun c => ?_) ?_
  · simp only [List.mem_map, hkeys, hkey]
    constructor
    · rintro ⟨a, ha, rfl⟩
      exact ⟨key a, ⟨a, ha, rfl⟩, rfl⟩
    · rintro ⟨_, ⟨a, ha, rfl⟩, rfl⟩
      exact ⟨a, ha, rfl⟩
  · refine (nodup_eraseDups _).map_on fun k hk l _ he => ?_
    obtain ⟨a, -, rfl⟩ := (hkeys k).1 hk
    exact ((Set.ext_iff.1 he a).1 rfl).symm

/-- A sorted set keeps one item of each class. -/
theorem length_ofList_eq_classCount {cmp : α → α → Ordering} [Std.TransCmp cmp] (items : List α) :
    (Sorted.ofList cmp items).length = classCount (cmp · · = .eq) items := by
  symm
  refine classCount_eq_length (f := fun a => {b | cmp a b = .eq}) (fun c => ?_) ?_
  · rw [List.mem_map]
    constructor
    · rintro ⟨a, ha, rfl⟩
      obtain ⟨b, hb, he⟩ : ∃ b ∈ Sorted.ofList cmp items, cmp a b = .eq :=
        Sorted.exists_mem_ofList ha
      refine ⟨b, hb, Set.ext fun c => ?_⟩
      exact Eq.congr_left (Std.TransCmp.congr_left he).symm
    · rintro ⟨a, ha, rfl⟩
      exact ⟨a, Sorted.mem_of_mem_ofList ha, rfl⟩
  · refine List.pairwise_map.2 ((Sorted.increasing_ofList cmp items).imp fun {a b} hlt he => ?_)
    have hab : cmp a b = .eq := (Set.ext_iff.1 he b).2 Std.ReflCmp.compare_self
    rw [hlt] at hab
    cases hab

/-- A set of keys, the classes of the order and a sorted set give the same number of items. -/
lemma counts_agree [Ord α] [Std.TransOrd α] [BEq κ] [LawfulBEq κ] {key : α → κ}
    (hkey : ∀ a b, same a b ↔ key a = key b) (heq : ∀ a b : α, compare a b = .eq ↔ same a b)
    (items : List α) : countDistinct key items = classCount same items ∧
      classCount same items = classCount (compare · · = .eq) items ∧
      (Sorted.ofList compare items).length = countDistinct key items := by
  have hclasses : classCount same items = classCount (compare · · = .eq) items := by
    simp only [heq]
  have hdistinct := countDistinct_eq_classCount hkey items
  exact ⟨hdistinct, hclasses,
    (length_ofList_eq_classCount items).trans (hclasses.symm.trans hdistinct.symm)⟩

end Classes

namespace Grammar
variable {g : Grammar}

lemma isLE_reverse_productions :
    g.productions.reverse.Pairwise fun p q => (compare p q).isLE := by
  refine List.pairwise_reverse.2 (g.increasing_productions.imp fun {p q} hlt => ?_)
  have hname : p.name < q.name := Sorted.compare_string_eq_lt.1 hlt
  have hne : q.name ≠ p.name := fun he => String.lt_irrefl _ (he ▸ hname)
  rw [(Production.compare_eq_lt_of_name_ne hne).2 hname]
  rfl

/-- The productions of a grammar, however shuffled, are sorted into the catalog backwards. -/
theorem sorted_eq_reverse_productions {ps : List Production} (h : ps.Perm g.productions) :
    sorted ps = g.productions.reverse := by
  have hperm : (sorted ps).Perm g.productions.reverse :=
    (perm_sorted ps).trans (h.trans (List.reverse_perm _).symm)
  refine hperm.eq_of_pairwise (fun p q hp hq hpq hqp => ?_) (pairwise_sorted ps)
    isLE_reverse_productions
  have hequiv : p ≈ q := Production.compare_eq_eq.1 (Std.OrientedCmp.isLE_antisymm hpq hqp)
  have hpg : p ∈ g.declared := (((perm_sorted ps).trans h).trans g.productions_perm).mem_iff.1 hp
  have hqg : q ∈ g.declared := g.productions_perm.mem_iff.1 (List.mem_reverse.1 hq)
  exact List.inj_on_of_nodup_map g.nodup_names hpg hqg (Production.name_eq_of_equiv hequiv)

/-- The four orders are total and agree with sameness. Productions of different constructors are
ordered against the names of these, so that the production catalog is what sorting gives, backwards;
and a list has as many distinct fields or productions as the order tells apart. -/
theorem orders_lawful :
    LawfulOrder Ty (· ≈ ·) ∧ LawfulOrder Cardinality (· = ·) ∧ LawfulOrder Field (· ≈ ·) ∧
    LawfulOrder Production (· ≈ ·) ∧
    (∀ p q : Production, p.name ≠ q.name → (precedes p q = true ↔ q.name < p.name)) ∧
    (∀ (g : Grammar) (ps : List Production), ps.Perm g.productions →
      sorted ps = g.productions.reverse) ∧
    (∀ fs : List Field, countDistinct Field.key fs = classCount (· ≈ ·) fs ∧
      classCount (· ≈ ·) fs = classCount (compare · · = .eq) fs ∧
      (Sorted.ofList compare fs).length = countDistinct Field.key fs) ∧
    ∀ ps : List Production, countDistinct Production.key ps = classCount (· ≈ ·) ps ∧
      classCount (· ≈ ·) ps = classCount (compare · · = .eq) ps ∧
      (Sorted.ofList compare ps).length = countDistinct Production.key ps := by
  refine ⟨.of_eq_iff fun _ _ => Ty.compare_eq_iff, .of_eq_iff fun _ _ => Cardinality.compare_eq_eq,
    .of_eq_iff fun _ _ => Field.compare_eq_eq, .of_eq_iff fun _ _ => Production.compare_eq_eq,
    fun p q hne => ?_, fun g ps h => sorted_eq_reverse_productions h, ?_, ?_⟩
  · rw [precedes_eq_true, Production.compare_eq_lt_of_name_ne hne]
  · exact counts_agree (fun _ _ => Iff.rfl) fun _ _ => Field.compare_eq_eq
  · exact counts_agree (fun _ _ => Iff.rfl) fun _ _ => Production.compare_eq_eq

/-- The productions of the English grammar as declared are sorted from the last constructor to the
first; questions come before declaratives. -/
theorem orders_lawful_english : ∃ g, English.grammar = .ok g ∧
    English.productions.Perm g.productions ∧
    sorted English.productions = g.productions.reverse ∧
    English.productions[1].name ≠ English.productions[0].name ∧
    precedes English.productions[1] English.productions[0] = true := by
  obtain ⟨g, hg⟩ : ∃ g, English.grammar = .ok g := ⟨_, rfl⟩
  have hperm : English.productions.Perm g.productions :=
    ofProductions_eq_ok.1 hg ▸ g.productions_perm.symm
  have hne : English.productions[1].name ≠ English.productions[0].name := by decide
  obtain ⟨-, -, -, -, hnames, hsorted, -⟩ := orders_lawful
  exact ⟨g, hg, hperm, hsorted g _ hperm, hne, (hnames _ _ hne).2 (by decide)⟩

end Grammar

end Asdl
