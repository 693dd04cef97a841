/-!
Strictly increasing lists: built by insertion, searched by halving. Of entries that compare equal
the first to come is kept, so a sorted list has no duplicates. Main statement: `increasing_ofList`.
-/
namespace Asdl.Sorted

variable {α : Type} (cmp : α → α → Ordering)

/-- Every entry is less than each later one. -/
def Increasing (l : List α) : Prop := l.Pairwise fun a b => cmp a b = .lt

/-- Puts an entry in its place, unless one that compares equal is there. -/
def insert (a : α) : List α → List α
  | [] => [a]
  | b :: rest =>
    match cmp a b with
    | .lt => a :: b :: rest
    | .eq => b :: rest
    | .gt => b :: insert a rest

/-- The strictly increasing list of the entries of a list. -/
def ofList (l : List α) : List α := l.foldl (fun sorted a => insert cmp a sorted) []

theorem mem_of_mem_insert {a b : α} {l : List α} (h : b ∈ insert cmp a l) : b = a ∨ b ∈ l := by
  induction l with
  | nil => simpa [insert] using h
  | cons c rest ih =>
    unfold insert at h
    split at h
    · simpa using h
    · exact .inr h
    · rcases List.mem_cons.1 h with rfl | h
      · simp
      · rcases ih h with rfl | h <;> simp [*]

theorem increasing_insert [Std.TransCmp cmp] (a : α) {l : List α} (h : Increasing cmp l) :
    Increasing cmp (insert cmp a l) := by
  induction l with
  | nil => simp [insert, Increasing]
  | cons b rest ih =>
    obtain ⟨hb, hrest⟩ := List.pairwise_cons.1 h
    unfold insert
    split
    · next hab =>
      refine List.pairwise_cons.2 ⟨fun c hc => ?_, h⟩
      rcases List.mem_cons.1 hc with rfl | hc
      · exact hab
      · exact Std.TransCmp.lt_trans hab (hb c hc)
    · exact h
    · next hab =>
      refine List.pairwise_cons.2 ⟨fun c hc => ?_, ih hrest⟩
      rcases mem_of_mem_insert cmp hc with rfl | hc
      · exact Std.OrientedCmp.gt_iff_lt.1 hab
      · exact hb c hc

theorem increasing_ofList [Std.TransCmp cmp] (l : List α) : Increasing cmp (ofList cmp l) := by
  suffices h : ∀ (l s : List α), Increasing cmp s →
      Increasing cmp (l.foldl (fun sorted a => insert cmp a sorted) s) from h l [] .nil
  intro l
  induction l with
  | nil => exact fun _ h => h
  | cons a rest ih => exact fun s h => ih _ (increasing_insert cmp a h)

/-- The position of the entry that `probe` places at equality, by halving the range that is left.
The probe says on which side of what is sought an entry lies. -/
def search (probe : α → Ordering) (entries : Array α) : Option Nat :=
  go 0 entries.size (Nat.le_refl _)
where
  /-- Searches the positions from `low` up to, but not including, `high`. -/
  go (low high : Nat) (bound : high ≤ entries.size) : Option Nat :=
    if _ : low < high then
      let middle := low + (high - low) / 2
      have : middle < entries.size := by omega
      match probe entries[middle] with
      | .lt => go (middle + 1) high bound
      | .eq => some middle
      | .gt => go low middle (by omega)
    else none
  termination_by high - low

end Asdl.Sorted
