import Asdl.English
import Asdl.Proofs.Tree.Building

/-! The language of a grammar, and that the check decides it. The check says nothing about optional
fields, nor that slots belong to the production of their node; for trees that can be made it need
not, as a node is well filled then. -/
namespace Asdl
variable {g : Grammar}

/-- The trees of the language of a grammar. Types of fields have the kinds that the grammar declares
for their names, and productions and types are compared up to kinds. -/
inductive Tree.Belongs (g : Grammar) : Tree → Prop
  | node {p : Production} {slots : List (Slot Value)}
    (declared : ∃ q ∈ g.declared, q ≈ p)
    (single : ∀ s ∈ slots, s.field.cardinality = .single → s.values.length = 1)
    (optional : ∀ s ∈ slots, s.field.cardinality = .optional → s.values.length ≤ 1)
    (tokens : ∀ s ∈ slots, g.Declares ⟨s.field.type.name, .primitive⟩ →
      ∀ v ∈ s.values, ∃ text, v = .token text)
    (heads : ∀ s ∈ slots, g.Declares ⟨s.field.type.name, .composite⟩ →
      ∀ v ∈ s.values, ∃ u, v = .tree u ∧ u.production.head ≈ s.field.type)
    (children : ∀ s ∈ slots, g.Declares ⟨s.field.type.name, .composite⟩ →
      ∀ u, Value.tree u ∈ s.values → Belongs g u) :
    Belongs g ⟨p, slots⟩

/-- No type name is declared with both kinds. -/
lemma Grammar.Declares.not_composite {name : String} (h : g.Declares ⟨name, .primitive⟩) :
    ¬ g.Declares ⟨name, .composite⟩ := by
  intro hc
  have heq := h.eq_of_name hc rfl
  cases heq

/-- The fields of a declared production have declared types, whatever kinds they carry. -/
lemma Grammar.declares_of_equiv {p q : Production} (hq : q ∈ g.declared) (he : q ≈ p) {f : Field}
    (hf : f ∈ p.fields) : ∃ kind, g.Declares ⟨f.type.name, kind⟩ := by
  obtain ⟨f', hf', he'⟩ := Production.exists_field_of_equiv he hf
  have hname : f'.type.name = f.type.name := (Field.equiv_iff.1 he').2.1
  refine ⟨f'.type.kind, q, hq, ?_⟩
  rw [← hname]
  exact Production.mentions_type hf'

namespace Tree

lemma Built.belongs_of_check {t : Tree} (built : t.Built) (h : check g t = .ok ()) :
    t.Belongs g := by
  induction t using Tree.induction with
  | node p slots ih =>
    obtain ⟨hdeclared, hslots⟩ := check_eq_ok.1 h
    refine .node hdeclared (fun s hs => (hslots s hs).1) ?_ ?_ ?_ ?_
    · intro s hs hcard
      obtain hmany | hlength := built.wellFilled.room s hs
      · rw [hcard] at hmany
        cases hmany
      · exact hlength
    · intro s hs hprimitive v hv
      have hcheck := (hslots s hs).2 v hv
      cases v with
      | token text => exact ⟨text, rfl⟩
      | tree u => exact absurd (Value.check_tree_eq_ok.1 hcheck).1 hprimitive.not_composite
    · intro s hs hcomposite v hv
      have hcheck := (hslots s hs).2 v hv
      cases v with
      | token text => exact absurd hcomposite (Value.check_token_eq_ok.1 hcheck).not_composite
      | tree u => exact ⟨u, rfl, (Value.check_tree_eq_ok.1 hcheck).2.1⟩
    · intro s hs _ u hu
      have hchild : Node.HasChild slots u := ⟨s, hs, hu⟩
      exact ih u hchild (built.child hchild) (Value.check_tree_eq_ok.1 ((hslots s hs).2 _ hu)).2.2

lemma Built.check_of_belongs {t : Tree} (built : t.Built) (h : t.Belongs g) :
    check g t = .ok () := by
  induction h with
  | @node p slots hdeclared single _ tokens heads _ ih =>
    obtain ⟨q, hq, he⟩ := hdeclared
    refine check_eq_ok.2 ⟨⟨q, hq, he⟩, fun s hs => ⟨single s hs, fun v hv => ?_⟩⟩
    have hfield : s.field ∈ p.fields := built.wellFilled.fields ▸ List.mem_map_of_mem hs
    obtain ⟨kind, hkind⟩ := Grammar.declares_of_equiv hq he hfield
    cases kind with
    | primitive =>
      obtain ⟨text, rfl⟩ := tokens s hs hkind v hv
      exact Value.check_token_eq_ok.2 hkind
    | composite =>
      obtain ⟨u, rfl, hhead⟩ := heads s hs hkind v hv
      exact Value.check_tree_eq_ok.2 ⟨hkind, hhead, ih s hs hkind u hv (built.child ⟨s, hs, hv⟩)⟩

end Tree

/-- The check accepts a tree that was made by adding values exactly if it is in the language. -/
theorem Grammar.validate_eq_ok_iff_belongs (g : Grammar) {t : Tree} (built : t.Built) :
    g.validate t = .ok () ↔ t.Belongs g :=
  ⟨built.belongs_of_check, built.check_of_belongs⟩

/-- A sentence of two nodes, made by adding values and accepted. -/
theorem Grammar.validate_imperative : ∃ g, English.grammar = .ok g ∧ ∃ phrase sentence : Tree,
    phrase = (Node.empty English.productions[6]).offer "verb" (.token "go") ∧
    sentence = (Node.empty English.productions[2]).offer "pred" (.tree phrase) ∧
    sentence.Built ∧ g.validate sentence = .ok () ∧ sentence.Belongs g := by
  obtain ⟨g, hg⟩ : ∃ g, English.grammar = .ok g := ⟨_, rfl⟩
  obtain ⟨phrase, hphrase⟩ : ∃ t : Tree,
    t = (Node.empty English.productions[6]).offer "verb" (.token "go") := ⟨_, rfl⟩
  obtain ⟨sentence, hsentence⟩ : ∃ t : Tree,
    t = (Node.empty English.productions[2]).offer "pred" (.tree phrase) := ⟨_, rfl⟩
  have built : sentence.Built := by
    rw [hsentence, hphrase]
    exact .offerTree "pred" (.empty _) (.offerToken "verb" "go" (.empty _))
  have accepted : (English.grammar.bind (·.validate sentence)).isOk = true := by
    rw [hsentence, hphrase]
    decide +kernel
  rw [hg] at accepted
  have valid : g.validate sentence = .ok () := Result.eq_ok_of_isOk accepted
  have belongs := (g.validate_eq_ok_iff_belongs built).1 valid
  exact ⟨g, hg, phrase, sentence, hphrase, hsentence, built, valid, belongs⟩

end Asdl
