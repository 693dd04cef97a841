import Mathlib.Data.List.Induction
import Mathlib.Data.List.Nodup
import Asdl.Index

/-! When an index tells the truth about a list: it finds, under the key of each entry, the position
of that entry, and nothing else. A list whose keys differ gets such an index when it is stored entry
by entry. -/
namespace Asdl

lemma getElem?_concat_eq_some {α : Type} {l : List α} {a b : α} {i : ℕ} :
    (l ++ [a])[i]? = some b ↔ l[i]? = some b ∨ i = l.length ∧ a = b := by
  rw [List.getElem?_append]
  split
  · next hlt => simp [Nat.ne_of_lt hlt]
  · next hge =>
    have hzero : i - l.length = 0 ↔ i = l.length := by omega
    simp [List.getElem?_eq_none_iff.2 (Nat.le_of_not_lt hge), List.getElem?_singleton, hzero]

lemma nodup_map_concat {α κ : Type} {key : α → κ} {l : List α} {a : α} :
    ((l ++ [a]).map key).Nodup ↔ key a ∉ l.map key ∧ (l.map key).Nodup := by
  rw [List.map_append, List.map_singleton, ← List.concat_eq_append, List.nodup_concat]

namespace Index
variable {κ α : Type}

lemma ofList_concat (key : α → κ) (entries : List α) (a : α) :
    ofList key (entries ++ [a]) = (ofList key entries).insert (key a) entries.length := by
  simp [ofList, List.zipIdx_append]

variable [DecidableEq κ]

/-- Whether an index finds the entries of a list, each at its position and under its key, and finds
nothing else. -/
def Locates (index : Index κ) (key : α → κ) (entries : List α) : Prop :=
  ∀ k i, index.get? k = some i ↔ ∃ a, entries[i]? = some a ∧ key a = k

namespace Locates
variable {index : Index κ} {key : α → κ} {entries : List α} {k : κ}

lemma empty (key : α → κ) : (Index.empty : Index κ).Locates key [] := by
  simp [Locates]

lemma get?_eq_none (h : index.Locates key entries) :
    index.get? k = none ↔ k ∉ entries.map key := by
  rw [← not_iff_not, not_not, ← ne_eq, Option.ne_none_iff_exists', List.mem_map]
  simp only [h k, List.mem_iff_getElem?]
  constructor
  · rintro ⟨i, a, ha, rfl⟩
    exact ⟨a, ⟨i, ha⟩, rfl⟩
  · rintro ⟨a, ⟨i, ha⟩, rfl⟩
    exact ⟨i, a, ha, rfl⟩

/-- What is found is an entry of the key that was asked for. -/
lemma key_getElem (h : index.Locates key entries) {i : ℕ} (hget : index.get? k = some i)
    (hi : i < entries.length) : key entries[i] = k := by
  obtain ⟨a, ha, rfl⟩ := (h k i).1 hget
  rw [(List.getElem_eq_iff hi).2 ha]

/-- Only the keys of entries matter. -/
lemma congr (h : index.Locates key entries) {others : List α}
    (hkeys : entries.map key = others.map key) : index.Locates key others := by
  intro k i
  have hi := congrArg (·[i]?) hkeys
  simp only [List.getElem?_map] at hi
  rw [h k i, ← Option.map_eq_some_iff, ← Option.map_eq_some_iff, hi]

/-- Two entries of one key could not both be found. -/
lemma nodup (h : index.Locates key entries) : (entries.map key).Nodup := by
  rw [List.nodup_iff_injective_get]
  intro i j he
  have hi : i.val < entries.length := by simpa using i.isLt
  have hj : j.val < entries.length := by simpa using j.isLt
  have hkey : key entries[i.val] = key entries[j.val] := by simpa using he
  have hfirst := (h (key entries[i.val]) i).2 ⟨_, List.getElem?_eq_getElem hi, rfl⟩
  have hsecond := (h (key entries[i.val]) j).2 ⟨_, List.getElem?_eq_getElem hj, hkey.symm⟩
  exact Fin.ext (Option.some.inj (hfirst.symm.trans hsecond))

/-- An entry of a new key is put behind the others, and its position is stored. -/
lemma concat (h : index.Locates key entries) {a : α} (hnew : index.get? (key a) = none) :
    (index.insert (key a) entries.length).Locates key (entries ++ [a]) := by
  intro k i
  simp only [get?_insert, getElem?_concat_eq_some]
  by_cases hk : key a = k
  · subst hk
    have hold (b : α) (hb : entries[i]? = some b) : key b ≠ key a := fun he =>
      h.get?_eq_none.1 hnew (he ▸ List.mem_map_of_mem (List.mem_of_getElem? hb))
    rw [if_pos rfl, Option.some.injEq]
    constructor
    · rintro rfl
      exact ⟨a, .inr ⟨rfl, rfl⟩, rfl⟩
    · rintro ⟨b, hb | ⟨rfl, -⟩, he⟩
      · exact absurd he (hold b hb)
      · rfl
  · rw [if_neg hk, h k i]
    refine exists_congr fun b => and_congr_left fun he => (or_iff_left ?_).symm
    rintro ⟨-, rfl⟩
    exact hk he

end Locates

/-- Where no two entries have the same key, none is stored in the place of another. -/
theorem locates_ofList {key : α → κ} {entries : List α} (h : (entries.map key).Nodup) :
    (ofList key entries).Locates key entries := by
  induction entries using List.reverseRecOn with
  | nil => exact .empty key
  | append_singleton entries a ih =>
    obtain ⟨hnew, hdistinct⟩ := nodup_map_concat.1 h
    have hentries := ih hdistinct
    rw [ofList_concat]
    exact hentries.concat (hentries.get?_eq_none.2 hnew)

end Index

end Asdl
