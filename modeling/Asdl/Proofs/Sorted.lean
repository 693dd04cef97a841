import Mathlib.Data.List.Nodup
import Mathlib.Data.List.Sort
import Asdl.Sorted

/-! Strictly increasing lists are determined by what they hold, insertion loses nothing but entries
that compare equal to earlier ones, and a search by halving finds exactly the entry of a key. -/
namespace Asdl.Sorted
variable {α κ : Type} {cmp : α → α → Ordering}

instance (cmp : α → α → Ordering) (l : List α) : Decidable (Increasing cmp l) :=
  inferInstanceAs (Decidable (l.Pairwise _))

/-- An entry that is different from all others is inserted. -/
lemma insert_perm {a : α} {l : List α} (h : ∀ b ∈ l, cmp a b ≠ .eq) :
    (insert cmp a l).Perm (a :: l) := by
  induction l with
  | nil => rfl
  | cons b rest ih =>
    unfold insert
    split
    · rfl
    · next he => exact absurd he (h b (by simp))
    · exact ((ih fun c hc => h c (by simp [hc])).cons b).trans (.swap a b rest)

lemma foldl_insert_perm [Std.OrientedCmp cmp] {l s : List α}
    (hl : l.Pairwise fun a b => cmp a b ≠ .eq) (hs : ∀ a ∈ l, ∀ b ∈ s, cmp a b ≠ .eq) :
    (l.foldl (fun sorted a => insert cmp a sorted) s).Perm (l ++ s) := by
  induction l generalizing s with
  | nil => rfl
  | cons a rest ih =>
    obtain ⟨ha, hrest⟩ := List.pairwise_cons.1 hl
    have hins : (insert cmp a s).Perm (a :: s) := insert_perm (hs a (by simp))
    have hne : ∀ c ∈ rest, ∀ b ∈ insert cmp a s, cmp c b ≠ .eq := by
      intro c hc b hb
      rcases List.mem_cons.1 (hins.mem_iff.1 hb) with rfl | hb
      · exact fun he => ha c hc (Std.OrientedCmp.eq_symm he)
      · exact hs c (by simp [hc]) b hb
    exact (ih hrest hne).trans ((hins.append_left rest).trans List.perm_middle)

/-- Entries of which no two compare equal are all kept. -/
theorem ofList_perm [Std.OrientedCmp cmp] {l : List α} (h : l.Pairwise fun a b => cmp a b ≠ .eq) :
    (ofList cmp l).Perm l := by
  have hp := foldl_insert_perm h (fun a _ b hb => absurd hb (List.not_mem_nil (a := b)))
  rwa [List.append_nil] at hp

lemma mem_insert_of_mem {a b : α} {l : List α} (h : b ∈ l) : b ∈ insert cmp a l := by
  induction l with
  | nil => cases h
  | cons c rest ih =>
    unfold insert
    split
    · simp [h]
    · exact h
    · exact List.mem_cons.2 ((List.mem_cons.1 h).imp_right ih)

lemma exists_mem_insert [Std.ReflCmp cmp] (a : α) (l : List α) :
    ∃ b ∈ insert cmp a l, cmp a b = .eq := by
  induction l with
  | nil => exact ⟨a, by simp [insert], Std.ReflCmp.compare_self⟩
  | cons c rest ih =>
    unfold insert
    split
    · exact ⟨a, by simp, Std.ReflCmp.compare_self⟩
    · next he => exact ⟨c, by simp, he⟩
    · obtain ⟨b, hb, he⟩ := ih
      exact ⟨b, by simp [hb], he⟩

lemma mem_of_mem_foldl_insert {b : α} {l s : List α}
    (h : b ∈ l.foldl (fun sorted a => insert cmp a sorted) s) : b ∈ l ∨ b ∈ s := by
  induction l generalizing s with
  | nil => exact .inr h
  | cons a rest ih =>
    rcases ih h with hb | hb
    · simp [hb]
    · rcases mem_of_mem_insert cmp hb with rfl | hb <;> simp [*]

lemma exists_mem_foldl_insert [Std.ReflCmp cmp] {a : α} {l s : List α}
    (h : a ∈ l ∨ ∃ b ∈ s, cmp a b = .eq) :
    ∃ b ∈ l.foldl (fun sorted a => insert cmp a sorted) s, cmp a b = .eq := by
  induction l generalizing s with
  | nil => simpa using h
  | cons c rest ih =>
    refine ih ?_
    obtain h | ⟨b, hb, he⟩ := h
    · obtain rfl | h := List.mem_cons.1 h
      · exact .inr (exists_mem_insert a s)
      · exact .inl h
    · exact .inr ⟨b, mem_insert_of_mem hb, he⟩

/-- What is sorted is from the list. -/
theorem mem_of_mem_ofList {a : α} {l : List α} (h : a ∈ ofList cmp l) : a ∈ l := by
  simpa using mem_of_mem_foldl_insert h

/-- Of each item of the list an equal one is kept. -/
theorem exists_mem_ofList [Std.ReflCmp cmp] {a : α} {l : List α} (h : a ∈ l) :
    ∃ b ∈ ofList cmp l, cmp a b = .eq :=
  exists_mem_foldl_insert (.inl h)

/-- There is one way to put entries in strictly increasing order. -/
theorem Increasing.eq_of_perm [Std.OrientedCmp cmp] {l l' : List α} (h : Increasing cmp l)
    (h' : Increasing cmp l') (hp : l.Perm l') : l = l' := by
  refine hp.eq_of_pairwise (fun a b _ _ hab hba => ?_) h h'
  exact absurd hba (Std.OrientedCmp.not_lt_of_lt hab)

/-- What stands in strictly increasing order keeps its order among more entries. -/
theorem Increasing.sublist_of_subset [Std.OrientedCmp cmp] {l l' : List α}
    (h : Increasing cmp l) (h' : Increasing cmp l') (hs : l ⊆ l') : l.Sublist l' := by
  have hnodup : l.Nodup := by
    refine h.imp fun {a b} hlt he => ?_
    rw [he] at hlt
    exact Std.OrientedCmp.not_lt_of_lt hlt hlt
  have hantisymm : Std.Antisymm fun a b => cmp a b = .lt :=
    ⟨fun a b hab hba => absurd hba (Std.OrientedCmp.not_lt_of_lt hab)⟩
  exact List.sublist_of_subperm_of_pairwise (List.subperm_of_subset hnodup hs) h h'

lemma compare_string_eq_lt {a b : String} : compare a b = .lt ↔ a < b :=
  compareOfLessAndEq_eq_lt

/-- Strictly increasing in a string key, in the order of strings itself. -/
lemma increasing_compareOn_iff {key : α → String} {l : List α} :
    Increasing (compareOn key) l ↔ l.Pairwise fun a b => key a < key b := by
  simp only [Increasing, compareOn, compare_string_eq_lt]

/-- Strictly increasing keys are distinct. -/
lemma Increasing.nodup_map [Ord κ] [Std.ReflOrd κ] {key : α → κ} {l : List α}
    (h : Increasing (compareOn key) l) : (l.map key).Nodup := by
  refine List.pairwise_map.2 (h.imp fun {a b} hlt he => ?_)
  simp [compareOn, he] at hlt

section Search
variable [Ord κ] {key : α → κ} {entries : Array α}

lemma Increasing.key_lt (h : Increasing (compareOn key) entries.toList) {i j : ℕ} (hij : i < j)
    (hj : j < entries.size) : compare (key entries[i]) (key entries[j]) = .lt :=
  List.pairwise_iff_getElem.1 h i j (by simpa using Nat.lt_trans hij hj) (by simpa using hj) hij

lemma search_go_sound {probe : α → Ordering} {low high i : ℕ} {bound : high ≤ entries.size}
    (h : search.go probe entries low high bound = some i) :
    ∃ hi : i < entries.size, probe entries[i] = .eq := by
  fun_induction search.go probe entries low high bound with
  | case1 low high bound hlt middle hmiddle hprobe ih => exact ih h
  | case2 low high bound hlt middle hmiddle hprobe =>
    obtain rfl : middle = i := Option.some.inj h
    exact ⟨hmiddle, hprobe⟩
  | case3 low high bound hlt middle hmiddle hprobe ih => exact ih h
  | case4 => cases h

variable [Std.TransOrd κ] [Std.LawfulEqOrd κ]

/-- Half of a range is given up only when what is sought is in the other half. -/
lemma search_go_complete (hinc : Increasing (compareOn key) entries.toList) {i : ℕ} {k : κ}
    (hi : i < entries.size) (hk : key entries[i] = k) {low high : ℕ} (bound : high ≤ entries.size) :
    low ≤ i → i < high →
      search.go (fun a => compare (key a) k) entries low high bound = some i := by
  subst hk
  fun_induction search.go (fun a => compare (key a) (key entries[i])) entries low high bound with
  | case1 low high bound hlt middle hmiddle hprobe ih =>
    intro hlow hhigh
    refine ih ?_ hhigh
    rcases Nat.lt_trichotomy i middle with h | h | h
    · exact absurd (hinc.key_lt h hmiddle) (Std.OrientedCmp.not_lt_of_lt hprobe)
    · subst h
      simp at hprobe
    · exact h
  | case2 low high bound hlt middle hmiddle hprobe =>
    intro hlow hhigh
    rcases Nat.lt_trichotomy i middle with h | h | h
    · simp [Std.OrientedCmp.gt_of_lt (hinc.key_lt h hmiddle)] at hprobe
    · rw [h]
    · simp [hinc.key_lt h hi] at hprobe
  | case3 low high bound hlt middle hmiddle hprobe ih =>
    intro hlow hhigh
    refine ih hlow ?_
    rcases Nat.lt_trichotomy i middle with h | h | h
    · exact h
    · subst h
      simp at hprobe
    · simp [hinc.key_lt h hi] at hprobe
  | case4 low high bound hlt => omega

/-- Where keys strictly increase, halving finds a position exactly if it has the key. -/
theorem search_eq_some_iff (hinc : Increasing (compareOn key) entries.toList) {k : κ} {i : ℕ} :
    search (fun a => compare (key a) k) entries = some i ↔
      ∃ hi : i < entries.size, key entries[i] = k := by
  constructor
  · intro h
    obtain ⟨hi, he⟩ := search_go_sound h
    exact ⟨hi, Std.LawfulEqOrd.eq_of_compare he⟩
  · rintro ⟨hi, hk⟩
    exact search_go_complete hinc hi hk _ (Nat.zero_le i) hi

/-- Where keys strictly increase, halving finds what a search from the front finds. -/
theorem search_eq_findIdx? [DecidableEq κ] (hinc : Increasing (compareOn key) entries.toList)
    (k : κ) : search (fun a => compare (key a) k) entries = entries.findIdx? (key · = k) := by
  ext i
  rw [search_eq_some_iff hinc, Array.findIdx?_eq_some_iff_getElem]
  constructor
  · rintro ⟨hi, hk⟩
    refine ⟨hi, decide_eq_true hk, fun j hji => ?_⟩
    have hlt : compare (key entries[j]) (key entries[i]) = .lt := hinc.key_lt hji hi
    rw [decide_eq_true_eq]
    intro hj
    rw [hj, hk, Std.ReflOrd.compare_self] at hlt
    cases hlt
  · rintro ⟨hi, hk, -⟩
    exact ⟨hi, of_decide_eq_true hk⟩

end Search

end Asdl.Sorted
