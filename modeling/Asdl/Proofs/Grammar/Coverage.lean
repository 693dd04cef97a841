import Asdl.Proofs.Equivalence
import Asdl.Proofs.Grammar.Catalogs
import Asdl.Proofs.Order

/-! The catalogs of a grammar are in strict order and lose nothing: each production, type and field
that is declared has one place in its catalog, and nothing else has. -/
namespace Asdl.Grammar
variable (g : Grammar)

lemma fields_eq : g.fields = Sorted.ofList compare (g.productions.flatMap Production.fields) :=
  (Vocabulary.ofProductions_eq_ok.1 g.vocabulary_eq).2.2

lemma increasing_fields : Sorted.Increasing compare g.fields := by
  rw [fields_eq]
  exact Sorted.increasing_ofList _ _

/-- The field catalog covers what is declared, and nothing else. A field that was left out for an
equal one is that very field, since its type has one kind. -/
theorem mem_fields {f : Field} : f ∈ g.fields ↔ ∃ p ∈ g.declared, f ∈ p.fields := by
  have hmem {e : Field} :
      e ∈ g.productions.flatMap Production.fields ↔ ∃ p ∈ g.declared, e ∈ p.fields := by
    simp only [List.mem_flatMap, g.productions_perm.mem_iff]
  have htype {e : Field} (he : ∃ p ∈ g.declared, e ∈ p.fields) : g.Declares e.type := by
    obtain ⟨p, hp, he⟩ := he
    exact ⟨p, hp, Production.mentions_type he⟩
  rw [fields_eq]
  constructor
  · exact fun hf => hmem.1 (Sorted.mem_of_mem_ofList hf)
  · intro hf
    obtain ⟨e, he, hcompare⟩ : ∃ e ∈ Sorted.ofList compare _, compare f e = .eq :=
      Sorted.exists_mem_ofList (hmem.2 hf)
    have hequiv : f ≈ e := Field.compare_eq_eq.1 hcompare
    have hkind := (htype hf).eq_of_name (htype (hmem.1 (Sorted.mem_of_mem_ofList he)))
      (Field.equiv_iff.1 hequiv).2.1
    exact Field.eq_of_equiv hequiv hkind ▸ he

end Asdl.Grammar
