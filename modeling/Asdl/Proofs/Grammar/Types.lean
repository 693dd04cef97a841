import Asdl.Grammar.Vocabulary
import Asdl.Proofs.Order
import Asdl.Proofs.Result

/-! The type catalog. Collecting types keeps each of them once, in the order of their names, and it
ends only if no name has two kinds; so a catalog holds exactly the types that occur. -/
namespace Asdl

namespace Ty

/-- One more occurrence: either the very type is there, or no type of its name is. -/
lemma collect_eq_ok {seen types : List Ty} {t : Ty} (h : collect seen t = .ok types) :
    t ∈ seen ∧ types = seen ∨
      (∀ u ∈ seen, u.name ≠ t.name) ∧ types = Sorted.insert compare t seen := by
  unfold collect at h
  split at h
  · next hnone =>
    refine .inr ⟨fun u hu => ?_, (Except.ok.inj h).symm⟩
    simpa [equiv_iff] using List.find?_eq_none.1 hnone u hu
  · next first hfirst =>
    split at h
    · next hkind =>
      have hname : first.name = t.name := by simpa [equiv_iff] using List.find?_some hfirst
      have he : first = t := by
        cases first
        cases t
        simp_all
      exact .inl ⟨he ▸ List.mem_of_find?_eq_some hfirst, (Except.ok.inj h).symm⟩
    · cases h

lemma mem_collect {seen types : List Ty} {t : Ty} (h : collect seen t = .ok types) (u : Ty) :
    u ∈ types ↔ u = t ∨ u ∈ seen := by
  obtain ⟨ht, rfl⟩ | ⟨hfresh, rfl⟩ := collect_eq_ok h
  · exact ⟨.inr, fun hu => hu.elim (fun he => he ▸ ht) id⟩
  · have hp : (Sorted.insert compare t seen).Perm (t :: seen) :=
      Sorted.insert_perm fun v hv he => hfresh v hv (compare_eq_iff.1 he).symm
    rw [hp.mem_iff, List.mem_cons]

lemma increasing_collect {seen types : List Ty} {t : Ty} (h : collect seen t = .ok types)
    (hs : Sorted.Increasing compare seen) : Sorted.Increasing compare types := by
  obtain ⟨-, rfl⟩ | ⟨-, rfl⟩ := collect_eq_ok h
  · exact hs
  · exact Sorted.increasing_insert compare t hs

lemma mem_foldlM_collect {occurrences seen types : List Ty}
    (h : occurrences.foldlM collect seen = .ok types) (u : Ty) :
    u ∈ types ↔ u ∈ occurrences ∨ u ∈ seen := by
  induction occurrences generalizing seen with
  | nil =>
    cases h
    simp
  | cons t rest ih =>
    obtain ⟨next, hnext, h⟩ := Result.bind_eq_ok.1 h
    rw [ih h, mem_collect hnext, List.mem_cons]
    tauto

lemma increasing_foldlM_collect {occurrences seen types : List Ty}
    (h : occurrences.foldlM collect seen = .ok types) (hs : Sorted.Increasing compare seen) :
    Sorted.Increasing compare types := by
  induction occurrences generalizing seen with
  | nil =>
    cases h
    exact hs
  | cons t rest ih =>
    obtain ⟨next, hnext, h⟩ := Result.bind_eq_ok.1 h
    exact ih h (increasing_collect hnext hs)

lemma foldlM_collect_eq_error {occurrences seen : List Ty} {e : Error}
    (h : occurrences.foldlM collect seen = .error e) : ∃ name, e = .conflictingTypeKind name := by
  obtain ⟨-, t, -, types, -, -, ht⟩ := Result.foldlM_eq_error.1 h
  unfold collect at ht
  split at ht
  · cases ht
  · split at ht
    · cases ht
    · exact ⟨t.name, (Except.error.inj ht).symm⟩

end Ty

end Asdl
