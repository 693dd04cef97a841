import Asdl.Proofs.Equivalence
import Asdl.Proofs.Grammar.Construction
import Asdl.Proofs.Grammar.Types

/-! What the catalogs of a grammar hold and in which order. The production catalog rearranges the
declared productions, and the type catalog holds the types that occur in them, each with the one
kind that it has everywhere. -/
namespace Asdl

namespace Production

/-- Productions of distinct names do not compare equal in the order of the catalog. -/
lemma pairwise_name_of_nodup {ps : List Production} (h : (ps.map name).Nodup) :
    ps.Pairwise fun p q => compareOn name p q ≠ .eq := by
  refine (List.pairwise_map.1 h).imp fun {p q} hne he => hne ?_
  exact Std.LawfulEqOrd.eq_of_compare he

/-- The order of the catalog does not depend on the order in which productions are given. -/
lemma ofList_eq_of_perm {ps qs : List Production} (h : ps.Perm qs) (hn : (ps.map name).Nodup) :
    Sorted.ofList (compareOn name) ps = Sorted.ofList (compareOn name) qs := by
  have hps := Sorted.ofList_perm (pairwise_name_of_nodup hn)
  have hqs := Sorted.ofList_perm (pairwise_name_of_nodup ((h.map name).nodup hn))
  exact (Sorted.increasing_ofList _ ps).eq_of_perm (Sorted.increasing_ofList _ qs)
    (hps.trans (h.trans hqs.symm))

end Production

namespace Vocabulary

lemma ofProductions_eq_ok {ps : List Production} {v : Vocabulary} :
    ofProductions ps = .ok v ↔
      v.productions.toList = Sorted.ofList (compareOn Production.name) ps ∧
      (v.productions.toList.flatMap Production.types).foldlM Ty.collect [] = .ok v.types.toList ∧
      v.fields.toList =
        Sorted.ofList compare (v.productions.toList.flatMap Production.fields) := by
  simp only [ofProductions, Result.bind_eq_ok, Result.pure_eq_ok]
  constructor
  · rintro ⟨types, htypes, rfl⟩
    exact ⟨rfl, htypes, rfl⟩
  · rintro ⟨hp, ht, hf⟩
    refine ⟨v.types.toList, by rw [← hp]; exact ht, ?_⟩
    rw [← hp, ← hf]

lemma ofProductions_eq_error {ps : List Production} {e : Error} (h : ofProductions ps = .error e) :
    ∃ name, e = .conflictingTypeKind name := by
  obtain htypes | ⟨types, -, h⟩ := Result.bind_eq_error.1 h
  · exact Ty.foldlM_collect_eq_error htypes
  · cases h

lemma ofProductions_eq_of_perm {ps qs : List Production} (h : ps.Perm qs)
    (hn : (ps.map Production.name).Nodup) : ofProductions ps = ofProductions qs := by
  unfold ofProductions
  rw [Production.ofList_eq_of_perm h hn]

end Vocabulary

namespace Grammar
variable (g : Grammar)

/-- Whether a type occurs in a production of the grammar. -/
def Declares (t : Ty) : Prop := ∃ p ∈ g.declared, p.Mentions t

lemma productions_eq : g.productions = Sorted.ofList (compareOn Production.name) g.declared :=
  (Vocabulary.ofProductions_eq_ok.1 g.vocabulary_eq).1

lemma collect_types : (g.productions.flatMap Production.types).foldlM Ty.collect [] = .ok g.types :=
  (Vocabulary.ofProductions_eq_ok.1 g.vocabulary_eq).2.1

theorem increasing_productions : Sorted.Increasing (compareOn Production.name) g.productions := by
  rw [productions_eq]
  exact Sorted.increasing_ofList _ _

theorem productions_perm : g.productions.Perm g.declared := by
  rw [productions_eq]
  exact Sorted.ofList_perm (Production.pairwise_name_of_nodup g.nodup_names)

theorem increasing_types : Sorted.Increasing compare g.types :=
  Ty.increasing_foldlM_collect g.collect_types .nil

/-- The type catalog covers what is declared, and nothing else. -/
theorem mem_types {t : Ty} : t ∈ g.types ↔ g.Declares t := by
  rw [Ty.mem_foldlM_collect g.collect_types]
  simp [Declares, Production.mentions_iff, g.productions_perm.mem_iff]

lemma vocabulary_eq_of_perm {g h : Grammar} (hp : g.declared.Perm h.declared) :
    g.vocabulary = h.vocabulary := by
  have hv := Vocabulary.ofProductions_eq_of_perm hp g.nodup_names
  exact Except.ok.inj (g.vocabulary_eq.symm.trans (hv.trans h.vocabulary_eq))

/-- All occurrences of a type name have the same kind. -/
theorem Declares.eq_of_name {g : Grammar} {t u : Ty} (ht : g.Declares t) (hu : g.Declares u)
    (hname : t.name = u.name) : t = u := by
  have hinc : Sorted.Increasing (compareOn Ty.name) g.types := g.increasing_types
  exact List.inj_on_of_nodup_map hinc.nodup_map (g.mem_types.2 ht) (g.mem_types.2 hu) hname

end Grammar

end Asdl
