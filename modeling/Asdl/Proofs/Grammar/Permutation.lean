import Asdl.Document.Encode
import Asdl.English
import Asdl.Proofs.Tree.Validity

/-! The order in which productions are given matters to the root, the groups and the list of what is
declared alone. All else about a grammar, and why there is none, is the same in every order. -/
namespace Asdl

/-- Failures of the same cause. Which of several repeated constructors is named is left open, and so
are the head types of the two productions. -/
inductive Error.SameCause : Error → Error → Prop
  | emptyGrammar : SameCause .emptyGrammar .emptyGrammar
  | duplicateConstructor {name first second name' first' second' : String} :
      SameCause (.duplicateConstructor name first second)
        (.duplicateConstructor name' first' second')
  | conflictingTypeKind (name : String) :
      SameCause (.conflictingTypeKind name) (.conflictingTypeKind name)

namespace Grammar

/-- Grammars with the same catalogs, kinds included, the same ids, the same stored vocabulary, the
same productions by constructor and types by name, and the same verdict on every tree. -/
structure Agrees (g h : Grammar) : Prop where
  productions : g.productions = h.productions
  types : g.types = h.types
  fields : g.fields = h.fields
  primitiveTypes : g.primitiveTypes = h.primitiveTypes
  compositeTypes : g.compositeTypes = h.compositeTypes
  productionId? : ∀ p, g.productionId? p = h.productionId? p
  typeId? : ∀ t, g.typeId? t = h.typeId? t
  fieldId? : ∀ f, g.fieldId? f = h.fieldId? f
  vocabulary : (Document.encode g).member? "vocabulary" = (Document.encode h).member? "vocabulary"
  production : ∀ c, g.production c = h.production c
  type? : ∀ name, g.type? name = h.type? name
  isComposite : ∀ t, g.isComposite t = h.isComposite t
  isPrimitive : ∀ t, g.isPrimitive t = h.isPrimitive t
  validate : ∀ t, g.validate t = h.validate t

variable {g h : Grammar}

lemma validate_congr (hp : ∀ c, g.production c = h.production c)
    (hk : ∀ kind t, g.hasKind kind t = h.hasKind kind t) (t : Tree) :
    g.validate t = h.validate t := by
  unfold validate
  induction t using Tree.induction with
  | node p slots ih =>
    rw [Tree.check, Tree.check, checkProduction, checkProduction, hp]
    congr 1
    funext _
    exact Tree.checkSlots_congr fun s hs v hv =>
      Value.check_congr (fun kind => hk kind _) fun t ht => ih t ⟨s, hs, ht ▸ hv⟩

lemma agrees_of_perm (hp : g.declared.Perm h.declared) (hv : g.vocabulary = h.vocabulary) :
    g.Agrees h := by
  have hproduction : ∀ c, g.production c = h.production c := by
    intro c
    cases hc : h.production c with
    | ok p =>
      obtain ⟨hmem, hname⟩ := production_eq_ok.1 hc
      exact production_eq_ok.2 ⟨hp.mem_iff.2 hmem, hname⟩
    | error e =>
      obtain ⟨hnone, rfl⟩ := production_eq_error.1 hc
      exact production_eq_error.2 ⟨fun p hmem => hnone p (hp.mem_iff.1 hmem), rfl⟩
  have htype : ∀ name, g.type? name = h.type? name := by
    intro name
    rw [Grammar.type?, Grammar.type?, hv]
  have hkind : ∀ kind t, g.hasKind kind t = h.hasKind kind t := by
    intro kind t
    rw [hasKind, hasKind, htype]
  have hids : g.ids = h.ids := by rw [g.ids_eq, h.ids_eq, hv]
  exact {
    productions := congrArg (·.productions.toList) hv
    types := congrArg (·.types.toList) hv
    fields := congrArg (·.fields.toList) hv
    primitiveTypes := congrArg (·.typesOfKind .primitive) hv
    compositeTypes := congrArg (·.typesOfKind .composite) hv
    productionId? := fun p => congrArg (·.productions.get? p.key) hids
    typeId? := fun t => congrArg (·.types.get? t.name) hids
    fieldId? := fun f => congrArg (·.fields.get? f.key) hids
    vocabulary := congrArg (some <| Document.ofVocabulary ·) hv
    production := hproduction
    type? := htype
    isComposite := hkind .composite
    isPrimitive := hkind .primitive
    validate := validate_congr hproduction hkind }

/-- Productions in another order make a grammar that agrees, or fail for the same cause. -/
theorem ofProductions_perm {ps qs : List Production} (h : ps.Perm qs) :
    (∀ g, ofProductions ps = .ok g → ∃ g', ofProductions qs = .ok g' ∧ g.Agrees g') ∧
    (∀ e, ofProductions ps = .error e → ∃ e', ofProductions qs = .error e' ∧ e.SameCause e') := by
  have hnil : ps = [] ↔ qs = [] := ⟨fun he => (he ▸ h).nil_eq.symm, fun he => (he ▸ h).eq_nil⟩
  have hnodup : (ps.map Production.name).Nodup ↔ (qs.map Production.name).Nodup :=
    (h.map _).nodup_iff
  constructor
  · intro g hg
    obtain rfl := ofProductions_eq_ok.1 hg
    have hv : Vocabulary.ofProductions qs = .ok g.vocabulary :=
      Vocabulary.ofProductions_eq_of_perm h g.nodup_names ▸ g.vocabulary_eq
    obtain ⟨g', rfl, hg'⟩ :=
      exists_of_vocabulary (mt hnil.2 g.declared_ne_nil) (hnodup.1 g.nodup_names) hv
    exact ⟨g', ofProductions_declared g', agrees_of_perm h hg'.symm⟩
  · intro e he
    obtain ⟨hps, rfl⟩ | ⟨first, second, hfirst, rfl⟩ | ⟨hps, hn, he⟩ := ofProductions_eq_error.1 he
    · exact ⟨_, ofProductions_eq_error.2 (.inl ⟨hnil.1 hps, rfl⟩), .emptyGrammar⟩
    · have hrepeated := Declarations.exists_firstRepeated_iff.1 ⟨first, second, hfirst⟩
      obtain ⟨first', second', hfirst'⟩ :=
        Declarations.exists_firstRepeated_iff.2 (mt hnodup.2 hrepeated)
      exact ⟨_, ofProductions_eq_error.2 (.inr (.inl ⟨_, _, hfirst', rfl⟩)), .duplicateConstructor⟩
    · obtain ⟨name, rfl⟩ := Vocabulary.ofProductions_eq_error he
      refine ⟨_, ofProductions_eq_error.2 (.inr (.inr ⟨mt hnil.2 hps, hnodup.1 hn, ?_⟩)),
        .conflictingTypeKind name⟩
      exact Vocabulary.ofProductions_eq_of_perm h hn ▸ he

/-- The English grammar read backwards is another grammar, and agrees with it. -/
theorem ofProductions_reverse_english :
    English.productions.Perm English.productions.reverse ∧
    ∃ g g', English.grammar = .ok g ∧ ofProductions English.productions.reverse = .ok g' ∧
      g ≠ g' ∧ g.Agrees g' := by
  have hperm : English.productions.Perm English.productions.reverse := (List.reverse_perm _).symm
  obtain ⟨g, hg⟩ : ∃ g, English.grammar = .ok g := ⟨_, rfl⟩
  obtain ⟨g', hg', hagrees⟩ := (ofProductions_perm hperm).1 g hg
  refine ⟨hperm, g, g', hg, hg', ?_, hagrees⟩
  rintro rfl
  have hsame := (ofProductions_eq_ok.1 hg).trans (ofProductions_eq_ok.1 hg').symm
  exact absurd hsame (by decide)

end Grammar

end Asdl
