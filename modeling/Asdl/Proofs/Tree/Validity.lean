import Mathlib.Data.List.Basic
import Asdl.Proofs.Equivalence
import Asdl.Proofs.Grammar.Lookup
import Asdl.Proofs.Result
import Asdl.Tree.Validity

/-! The check of a tree, one level at a time: when it accepts a node, and when two grammars cannot
differ on it. Children are reached through the values of the slots of a node. -/
namespace Asdl

/-- Whether a tree is a value in a slot of a node. -/
def Node.HasChild (slots : List (Slot Value)) (u : Tree) : Prop :=
  ∃ s ∈ slots, Value.tree u ∈ s.values

/-- Trees are built up from children: what a node inherits from its children holds of all trees. -/
@[elab_as_elim]
theorem Tree.induction {P : Tree → Prop}
    (node : ∀ p slots, (∀ u, Node.HasChild slots u → P u) → P ⟨p, slots⟩) : ∀ t, P t
  | ⟨p, slots⟩ => node p slots fun u _hu => Tree.induction node u
termination_by t => sizeOf t
decreasing_by
  obtain ⟨⟨f, values⟩, hs, hu⟩ := _hu
  have hslot := List.sizeOf_lt_of_mem hs
  have hvalue := List.sizeOf_lt_of_mem hu
  simp only [Slot.mk.sizeOf_spec, Value.tree.sizeOf_spec, Node.mk.sizeOf_spec] at *
  omega

/-- Whether the productions of all nodes of a tree are declared, up to kinds. Nothing is said about
what the slots hold. -/
inductive Tree.Over (g : Grammar) : Tree → Prop
  | node {p : Production} {slots : List (Slot Value)} (declared : ∃ q ∈ g.declared, q ≈ p)
    (children : ∀ u, Node.HasChild slots u → Over g u) : Over g ⟨p, slots⟩

section Accepted
variable {g : Grammar}

lemma Grammar.checkProduction_eq_ok {p : Production} :
    g.checkProduction p = .ok () ↔ ∃ q ∈ g.declared, q ≈ p := by
  simp only [checkProduction, Result.bind_eq_ok, production_eq_ok]
  constructor
  · rintro ⟨q, ⟨hq, -⟩, h⟩
    split at h
    · next he => exact ⟨q, hq, he⟩
    · cases h
  · rintro ⟨q, hq, he⟩
    exact ⟨q, ⟨hq, Production.name_eq_of_equiv he⟩, if_pos he⟩

lemma Tree.checkValues_eq_ok {f : Field} {values : List Value} :
    Tree.checkValues g f values = .ok () ↔ ∀ v ∈ values, v.check g f = .ok () := by
  induction values with
  | nil => simp [Tree.checkValues]
  | cons v rest ih => rw [Tree.checkValues, Result.then_eq_ok, ih, List.forall_mem_cons]

lemma Tree.checkSlots_eq_ok {owner : String} {slots : List (Slot Value)} :
    Tree.checkSlots g owner slots = .ok () ↔
      ∀ s ∈ slots, s.IsSatisfied ∧ ∀ v ∈ s.values, v.check g s.field = .ok () := by
  induction slots with
  | nil => simp [Tree.checkSlots]
  | cons s rest ih =>
    obtain ⟨f, values⟩ := s
    rw [Tree.checkSlots, List.forall_mem_cons, ← ih, ← Tree.checkValues_eq_ok]
    by_cases hs : Slot.IsSatisfied ⟨f, values⟩ <;> simp [hs, Result.then_eq_ok]

/-- A node is accepted if its production is declared, nothing needed is missing, and every value
fits its field. -/
theorem Tree.check_eq_ok {p : Production} {slots : List (Slot Value)} :
    Tree.check g ⟨p, slots⟩ = .ok () ↔ (∃ q ∈ g.declared, q ≈ p) ∧
      ∀ s ∈ slots, s.IsSatisfied ∧ ∀ v ∈ s.values, v.check g s.field = .ok () := by
  rw [Tree.check, Result.then_eq_ok, Grammar.checkProduction_eq_ok, Tree.checkSlots_eq_ok]

lemma Value.check_token_eq_ok {f : Field} {text : String} :
    (Value.token text).check g f = .ok () ↔ g.Declares ⟨f.type.name, .primitive⟩ := by
  rw [← Grammar.hasKind_eq_true, Value.check, Grammar.isPrimitive]
  split <;> simp [*]

lemma Value.check_tree_eq_ok {f : Field} {t : Tree} :
    (Value.tree t).check g f = .ok () ↔
      g.Declares ⟨f.type.name, .composite⟩ ∧ t.production.head ≈ f.type ∧
        Tree.check g t = .ok () := by
  rw [← Grammar.hasKind_eq_true, Value.check, Grammar.isComposite]
  by_cases h : g.hasKind .composite f.type = true ∧ t.production.head ≈ f.type
  · rw [if_pos h]
    exact ⟨fun hcheck => ⟨h.1, h.2, hcheck⟩, fun hall => hall.2.2⟩
  · rw [if_neg h]
    exact ⟨nofun, fun hall => absurd ⟨hall.1, hall.2.1⟩ h⟩

lemma Tree.over_of_check {t : Tree} (h : check g t = .ok ()) : t.Over g := by
  induction t using Tree.induction with
  | node p slots ih =>
    obtain ⟨hdeclared, hslots⟩ := check_eq_ok.1 h
    refine .node hdeclared fun u hchild => ih u hchild ?_
    obtain ⟨s, hs, hu⟩ := hchild
    exact (Value.check_tree_eq_ok.1 ((hslots s hs).2 _ hu)).2.2

end Accepted

section Congruence
variable {g h : Grammar}

lemma Tree.checkValues_congr {f : Field} {values : List Value}
    (hv : ∀ v ∈ values, v.check g f = v.check h f) :
    Tree.checkValues g f values = Tree.checkValues h f values := by
  induction values with
  | nil => rfl
  | cons v rest ih =>
    rw [Tree.checkValues, Tree.checkValues, hv v (by simp), ih fun w hw => hv w (by simp [hw])]

lemma Tree.checkSlots_congr {owner : String} {slots : List (Slot Value)}
    (hs : ∀ s ∈ slots, ∀ v ∈ s.values, v.check g s.field = v.check h s.field) :
    Tree.checkSlots g owner slots = Tree.checkSlots h owner slots := by
  induction slots with
  | nil => rfl
  | cons s rest ih =>
    obtain ⟨f, values⟩ := s
    rw [Tree.checkSlots, Tree.checkSlots, Tree.checkValues_congr (hs ⟨f, values⟩ (by simp)),
      ih fun s hmem => hs s (by simp [hmem])]

lemma Value.check_congr {f : Field} {v : Value}
    (hkind : ∀ kind, g.hasKind kind f.type = h.hasKind kind f.type)
    (htree : ∀ t, v = .tree t → Tree.check g t = Tree.check h t) :
    v.check g f = v.check h f := by
  have hprimitive : g.isPrimitive f.type = h.isPrimitive f.type := hkind .primitive
  have hcomposite : g.isComposite f.type = h.isComposite f.type := hkind .composite
  cases v with
  | token text => simp only [Value.check, hprimitive]
  | tree t => simp only [Value.check, hcomposite, htree t rfl]

end Congruence

end Asdl
