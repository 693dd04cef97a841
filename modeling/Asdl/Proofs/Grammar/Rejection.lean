import Mathlib.Data.List.Pairwise
import Asdl.Proofs.Grammar.Catalogs

/-! Why a list of productions makes no grammar, and which defect is named. Constructors are compared
in the order of declaration, kinds along the productions in the order of their names. -/
namespace Asdl

namespace Ty

/-- The types that stand in productions, one production after the other: of each the head, then the
types of the fields. -/
def occurrences (ps : List Production) : List Ty :=
  ps.flatMap fun p => p.head :: p.constructor.fields.map Field.type

/-- Whether two occurrences do not give one name two kinds. -/
def Compatible (t u : Ty) : Prop := t.name = u.name → t.kind = u.kind

instance : Std.Symm Compatible := ⟨fun _ _ h hname => (h hname.symm).symm⟩

/-- Whether `t` is the first occurrence of a type that gives its name another kind than an earlier
occurrence does. -/
def FirstConflict (occurrences : List Ty) (t : Ty) : Prop :=
  ∃ before after, occurrences = before ++ t :: after ∧ before.Pairwise Compatible ∧
    ∃ u ∈ before, ¬ u.Compatible t

/-- Occurrences are compatible unless some name occurs with both kinds. -/
lemma pairwise_compatible_iff {occurrences : List Ty} :
    occurrences.Pairwise Compatible ↔ ¬ ∃ name, ∀ kind, ⟨name, kind⟩ ∈ occurrences := by
  constructor
  · rintro h ⟨name, hname⟩
    have hall := List.Pairwise.forall_of_forall (fun _ _ _ => rfl) h
    have hkind := hall (hname .primitive) (hname .composite) rfl
    cases hkind
  · intro h
    refine List.pairwise_of_forall_mem_list fun t ht u hu hname => ?_
    by_contra hkind
    refine h ⟨t.name, fun kind => ?_⟩
    have hmem : (⟨t.name, kind⟩ : Ty) = t ∨ (⟨t.name, kind⟩ : Ty) = u := by
      obtain ⟨n, k⟩ := t
      obtain ⟨m, l⟩ := u
      cases hname
      cases kind <;> cases k <;> cases l <;> simp_all
    rcases hmem with he | he <;> rwa [he]

lemma collect_eq_error {seen : List Ty} (hseen : Sorted.Increasing compare seen) {t : Ty}
    {e : Error} : collect seen t = .error e ↔
      (∃ u ∈ seen, ¬ u.Compatible t) ∧ e = .conflictingTypeKind t.name := by
  have hnames : (seen.map name).Nodup := Sorted.Increasing.nodup_map hseen
  unfold collect
  cases hfind : seen.find? (· ≈ t) with
  | none =>
    have hfresh : ∀ u ∈ seen, u.name ≠ t.name := by
      simpa [equiv_iff] using hfind
    refine ⟨nofun, fun h => ?_⟩
    obtain ⟨⟨u, hu, hconflict⟩, -⟩ := h
    exact absurd (fun hname => absurd hname (hfresh u hu)) hconflict
  | some first =>
    have hfirst := List.mem_of_find?_eq_some hfind
    have hname : first.name = t.name := by simpa [equiv_iff] using List.find?_some hfind
    have honly : (∃ u ∈ seen, ¬ u.Compatible t) ↔ first.kind ≠ t.kind := by
      constructor
      · rintro ⟨u, hu, hconflict⟩ hkind
        refine hconflict fun he => ?_
        rwa [List.inj_on_of_nodup_map hnames hu hfirst (he.trans hname.symm)]
      · exact fun hkind => ⟨first, hfirst, fun hcompatible => hkind (hcompatible hname)⟩
    rw [honly]
    by_cases hkind : first.kind = t.kind
    · simp [hkind]
    · simp [hkind, eq_comm]

/-- Collecting types ends exactly if their kinds are compatible. -/
lemma exists_foldlM_collect_iff {occurrences : List Ty} :
    (∃ types, occurrences.foldlM collect [] = .ok types) ↔ occurrences.Pairwise Compatible := by
  constructor
  · rintro ⟨types, h⟩
    have hnames : (types.map name).Nodup :=
      Sorted.Increasing.nodup_map (increasing_foldlM_collect h .nil)
    refine List.pairwise_of_forall_mem_list fun t ht u hu hname => ?_
    have hmem {v : Ty} (hv : v ∈ occurrences) : v ∈ types :=
      (mem_foldlM_collect h v).2 (.inl hv)
    rw [List.inj_on_of_nodup_map hnames (hmem ht) (hmem hu) hname]
  · intro h
    cases hresult : occurrences.foldlM collect [] with
    | ok types => exact ⟨types, rfl⟩
    | error e =>
      obtain ⟨before, t, after, types, rfl, hbefore, ht⟩ := Result.foldlM_eq_error.1 hresult
      obtain ⟨⟨u, hu, hconflict⟩, -⟩ :=
        (collect_eq_error (increasing_foldlM_collect hbefore .nil)).1 ht
      have hu : u ∈ before := by simpa using (mem_foldlM_collect hbefore u).1 hu
      exact absurd ((List.pairwise_append.1 h).2.2 u hu t (by simp)) hconflict

/-- Collecting types fails at the first conflict. -/
theorem foldlM_collect_eq_error_iff {occurrences : List Ty} {e : Error} :
    occurrences.foldlM collect [] = .error e ↔
      ∃ t, FirstConflict occurrences t ∧ e = .conflictingTypeKind t.name := by
  rw [Result.foldlM_eq_error]
  constructor
  · rintro ⟨before, t, after, types, hsplit, hbefore, ht⟩
    obtain ⟨⟨u, hu, hconflict⟩, rfl⟩ :=
      (collect_eq_error (increasing_foldlM_collect hbefore .nil)).1 ht
    have hu : u ∈ before := by simpa using (mem_foldlM_collect hbefore u).1 hu
    exact ⟨t, ⟨before, after, hsplit, exists_foldlM_collect_iff.1 ⟨types, hbefore⟩, u, hu,
      hconflict⟩, rfl⟩
  · rintro ⟨t, ⟨before, after, hsplit, hcompatible, u, hu, hconflict⟩, rfl⟩
    obtain ⟨types, hbefore⟩ := exists_foldlM_collect_iff.2 hcompatible
    have hu : u ∈ types := (mem_foldlM_collect hbefore u).2 (.inl hu)
    refine ⟨before, t, after, types, hsplit, hbefore, ?_⟩
    exact (collect_eq_error (increasing_foldlM_collect hbefore .nil)).2 ⟨⟨u, hu, hconflict⟩, rfl⟩

lemma exists_firstConflict_iff {occurrences : List Ty} :
    (∃ t, FirstConflict occurrences t) ↔ ∃ name, ∀ kind, ⟨name, kind⟩ ∈ occurrences := by
  rw [← not_iff_not, ← pairwise_compatible_iff, ← exists_foldlM_collect_iff]
  cases hresult : occurrences.foldlM collect [] with
  | ok types =>
    refine ⟨fun _ => ⟨types, rfl⟩, fun _ => ?_⟩
    rintro ⟨t, ht⟩
    have herror := foldlM_collect_eq_error_iff.2 ⟨t, ht, rfl⟩
    rw [hresult] at herror
    cases herror
  | error e =>
    obtain ⟨t, ht, -⟩ := foldlM_collect_eq_error_iff.1 hresult
    exact ⟨fun hnone => absurd ⟨t, ht⟩ hnone, nofun⟩

end Ty

namespace Production

/-- Whether `sorted` holds productions in the order of their names, which all differ. -/
def SortedFrom (ps sorted : List Production) : Prop :=
  sorted.Perm ps ∧ sorted.Pairwise fun p q => p.constructor.name < q.constructor.name

/-- Productions of distinct names stand in the order of the catalog in one way. -/
lemma sortedFrom_iff {ps sorted : List Production} (h : (ps.map name).Nodup) :
    SortedFrom ps sorted ↔ sorted = Sorted.ofList (compareOn name) ps := by
  have hperm : (Sorted.ofList (compareOn name) ps).Perm ps :=
    Sorted.ofList_perm (pairwise_name_of_nodup h)
  have hinc := Sorted.increasing_ofList (compareOn name) ps
  constructor
  · rintro ⟨hsorted, hnames⟩
    have hsortedInc : Sorted.Increasing (compareOn name) sorted :=
      Sorted.increasing_compareOn_iff.2 hnames
    exact hsortedInc.eq_of_perm hinc (hsorted.trans hperm.symm)
  · rintro rfl
    exact ⟨hperm, Sorted.increasing_compareOn_iff.1 hinc⟩

end Production

namespace Grammar

/-- Kinds are the last thing that can go wrong. -/
lemma vocabulary_eq_error {ps : List Production} (h : (ps.map Production.name).Nodup) {e : Error} :
    Vocabulary.ofProductions ps = .error e ↔ ∃ sorted t, Production.SortedFrom ps sorted ∧
      Ty.FirstConflict (Ty.occurrences sorted) t ∧ e = .conflictingTypeKind t.name := by
  simp only [Production.sortedFrom_iff h, exists_and_left, exists_eq_left]
  rw [← Ty.foldlM_collect_eq_error_iff, Vocabulary.ofProductions, Result.bind_eq_error]
  refine or_iff_left ?_
  rintro ⟨types, -, h⟩
  cases h

lemma exists_sortedFrom_firstConflict_iff {ps : List Production}
    (h : (ps.map Production.name).Nodup) :
    (∃ sorted t, Production.SortedFrom ps sorted ∧ Ty.FirstConflict (Ty.occurrences sorted) t) ↔
      ∃ name, ∀ kind, ⟨name, kind⟩ ∈ Ty.occurrences ps := by
  have hperm := Sorted.ofList_perm (Production.pairwise_name_of_nodup h)
  simp only [Production.sortedFrom_iff h, exists_and_left, exists_eq_left,
    Ty.exists_firstConflict_iff, Ty.occurrences, List.mem_flatMap, hperm.mem_iff]

/-- The defects in the order in which they are looked for. -/
theorem ofProductions_eq_error_iff {ps : List Production} {e : Error} :
    ofProductions ps = .error e ↔
      (ps = [] ∧ e = .emptyGrammar) ∨
      (∃ p q, Production.FirstRepeated ps p q ∧
        e = .duplicateConstructor q.name p.head.name q.head.name) ∨
      (ps ≠ [] ∧ (ps.map Production.name).Nodup ∧ ∃ sorted t, Production.SortedFrom ps sorted ∧
        Ty.FirstConflict (Ty.occurrences sorted) t ∧ e = .conflictingTypeKind t.name) := by
  rw [ofProductions_eq_error]
  refine or_congr_right (or_congr_right (and_congr_right fun _ => ?_))
  exact and_congr_right fun h => vocabulary_eq_error h

lemma exists_ofProductions_iff {ps : List Production} : (∃ g, ofProductions ps = .ok g) ↔
    ps ≠ [] ∧ (ps.map Production.name).Nodup ∧
      ¬ ∃ name, ∀ kind, ⟨name, kind⟩ ∈ Ty.occurrences ps := by
  cases hresult : ofProductions ps with
  | ok g =>
    -- a defect of any sort would have been an error
    have hnone (e : Error) : ¬ ofProductions ps = .error e := by
      rw [hresult]
      exact nofun
    simp only [ofProductions_eq_error_iff] at hnone
    have hne : ps ≠ [] := fun h => hnone _ (.inl ⟨h, rfl⟩)
    have hnodup : (ps.map Production.name).Nodup := by
      by_contra h
      obtain ⟨p, q, hrepeated⟩ := Declarations.exists_firstRepeated_iff.2 h
      exact hnone _ (.inr (.inl ⟨p, q, hrepeated, rfl⟩))
    refine ⟨fun _ => ⟨hne, hnodup, fun hkinds => ?_⟩, fun _ => ⟨g, rfl⟩⟩
    obtain ⟨sorted, t, hsorted, ht⟩ := (exists_sortedFrom_firstConflict_iff hnodup).2 hkinds
    exact hnone _ (.inr (.inr ⟨hne, hnodup, sorted, t, hsorted, ht, rfl⟩))
  | error e =>
    refine ⟨nofun, ?_⟩
    rintro ⟨hne, hnodup, hkinds⟩
    obtain ⟨hempty, -⟩ | ⟨p, q, hrepeated, -⟩ | ⟨-, -, sorted, t, hsorted, ht, -⟩ :=
      ofProductions_eq_error_iff.1 hresult
    · exact absurd hempty hne
    · exact absurd hnodup (Declarations.exists_firstRepeated_iff.1 ⟨p, q, hrepeated⟩)
    · exact absurd ((exists_sortedFrom_firstConflict_iff hnodup).1 ⟨sorted, t, hsorted, ht⟩) hkinds

/-- What becomes of a list of productions. It is refused if it is empty, else for the first
constructor that is declared twice, else for the first type of two kinds in the order of the
catalog; and it is accepted if there is no such defect. -/
theorem ofProductions_outcome (ps : List Production) :
    (ofProductions ps = .error .emptyGrammar ↔ ps = []) ∧
    (∀ name first second, ofProductions ps = .error (.duplicateConstructor name first second) ↔
      ∃ p q, Production.FirstRepeated ps p q ∧
        name = q.constructor.name ∧ first = p.head.name ∧ second = q.head.name) ∧
    ((∃ name first second, ofProductions ps = .error (.duplicateConstructor name first second)) ↔
      ps ≠ [] ∧ ¬ (ps.map (·.constructor.name)).Nodup) ∧
    (∀ name, ofProductions ps = .error (.conflictingTypeKind name) ↔
      ps ≠ [] ∧ (ps.map (·.constructor.name)).Nodup ∧ ∃ sorted t, Production.SortedFrom ps sorted ∧
        Ty.FirstConflict (Ty.occurrences sorted) t ∧ name = t.name) ∧
    ((∃ name, ofProductions ps = .error (.conflictingTypeKind name)) ↔
      ps ≠ [] ∧ (ps.map (·.constructor.name)).Nodup ∧
        ∃ name, ∀ kind, ⟨name, kind⟩ ∈ Ty.occurrences ps) ∧
    ((∃ g, ofProductions ps = .ok g) ↔
      ps ≠ [] ∧ (ps.map (·.constructor.name)).Nodup ∧
        ¬ ∃ name, ∀ kind, ⟨name, kind⟩ ∈ Ty.occurrences ps) := by
  have hnames : ps.map (·.constructor.name) = ps.map Production.name := rfl
  rw [hnames]
  have hduplicate (name first second : String) :
      ofProductions ps = .error (.duplicateConstructor name first second) ↔
        ∃ p q, Production.FirstRepeated ps p q ∧
          name = q.constructor.name ∧ first = p.head.name ∧ second = q.head.name := by
    simp [ofProductions_eq_error_iff, Production.name]
  have hconflict (name : String) : ofProductions ps = .error (.conflictingTypeKind name) ↔
      ps ≠ [] ∧ (ps.map Production.name).Nodup ∧ ∃ sorted t, Production.SortedFrom ps sorted ∧
        Ty.FirstConflict (Ty.occurrences sorted) t ∧ name = t.name := by
    simp [ofProductions_eq_error_iff]
  refine ⟨?_, hduplicate, ?_, hconflict, ?_, exists_ofProductions_iff⟩
  · simp [ofProductions_eq_error_iff]
  · rw [← Declarations.exists_firstRepeated_iff]
    simp only [hduplicate]
    constructor
    · rintro ⟨name, first, second, p, q, hrepeated, -⟩
      obtain ⟨before, after, rfl, -⟩ := id hrepeated
      exact ⟨by simp, p, q, hrepeated⟩
    · rintro ⟨-, p, q, hrepeated⟩
      exact ⟨_, _, _, p, q, hrepeated, rfl, rfl, rfl⟩
  · simp only [hconflict]
    constructor
    · rintro ⟨name, hne, hnodup, sorted, t, hsorted, ht, -⟩
      exact ⟨hne, hnodup, (exists_sortedFrom_firstConflict_iff hnodup).1 ⟨sorted, t, hsorted, ht⟩⟩
    · rintro ⟨hne, hnodup, hkinds⟩
      obtain ⟨sorted, t, hsorted, ht⟩ := (exists_sortedFrom_firstConflict_iff hnodup).2 hkinds
      exact ⟨t.name, hne, hnodup, sorted, t, hsorted, ht, rfl⟩

end Grammar

end Asdl
