import Asdl.Grammar.Basic
import Asdl.Proofs.Grammar.Declarations

/-! When a list of productions makes a grammar. It has to be declared to the end, and then its types
have to be collected. -/
namespace Asdl.Grammar

theorem ofProductions_eq_ok {ps : List Production} {g : Grammar} :
    ofProductions ps = .ok g ↔ ps = g.declared := by
  constructor
  · exact fun h => (declared_of_ofProductions h).symm
  · rintro rfl
    exact ofProductions_declared g

/-- The three checks, in their order. -/
theorem ofProductions_eq_error {ps : List Production} {e : Error} :
    ofProductions ps = .error e ↔
      (ps = [] ∧ e = .emptyGrammar) ∨
      (∃ first second, Production.FirstRepeated ps first second ∧
        e = .duplicateConstructor second.name first.head.name second.head.name) ∨
      (ps ≠ [] ∧ (ps.map Production.name).Nodup ∧ Vocabulary.ofProductions ps = .error e) := by
  rw [← Declarations.ofProductions_eq_error]
  unfold ofProductions
  split
  · next hempty =>
    subst hempty
    have hdeclared : Declarations.ofProductions [] ≠ .error e := fun h => by cases h
    simp [hdeclared, eq_comm]
  · next hne =>
    split
    · next e' hrefused =>
      have hrepeated : ¬ (ps.map Production.name).Nodup := by
        rw [← Declarations.exists_ofProductions_iff, hrefused]
        rintro ⟨d, hd⟩
        cases hd
      simp [hne, hrefused, hrepeated]
    · next d hdeclared =>
      have hnodup := Declarations.nodup_of_ofProductions hdeclared
      split
      · next e' he => simp [hne, hdeclared, hnodup, he]
      · next v hv => simp [hne, hdeclared, hv]

/-- Productions that pass the three checks are the declared ones of a grammar. -/
lemma exists_of_vocabulary {ps : List Production} {v : Vocabulary} (hne : ps ≠ [])
    (hn : (ps.map Production.name).Nodup) (hv : Vocabulary.ofProductions ps = .ok v) :
    ∃ g : Grammar, g.declared = ps ∧ g.vocabulary = v := by
  obtain ⟨d, hd⟩ := Declarations.exists_ofProductions_iff.2 hn
  obtain rfl := Declarations.declared_of_ofProductions hd
  exact ⟨⟨d, v, .ofVocabulary v, hne, hd, hv, rfl⟩, rfl, rfl⟩

lemma indexed (g : Grammar) : g.Indexed := Declarations.indexed_of_ofProductions g.declarations_eq

lemma nodup_names (g : Grammar) : (g.declared.map Production.name).Nodup :=
  g.indexed.positions.nodup

end Asdl.Grammar
