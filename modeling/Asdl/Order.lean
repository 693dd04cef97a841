/-!
Sorting by a type's own order, and counting what a key tells apart.
-/
namespace Asdl

/-- The order as that of items which need not be comparable. All of them are. -/
def partialCompare {α : Type} [Ord α] (a b : α) : Option Ordering := some (compare a b)

/-- Whether an item comes before another one. -/
def precedes {α : Type} [Ord α] (a b : α) : Bool := partialCompare a b == some .lt

@[simp] theorem precedes_eq_true {α : Type} [Ord α] {a b : α} :
    precedes a b = true ↔ compare a b = .lt := by
  simp [precedes, partialCompare]

/-- The items in order. Items that compare equal keep their places among themselves. -/
def sorted {α : Type} [Ord α] (items : List α) : List α :=
  items.mergeSort fun a b => (compare a b).isLE

theorem perm_sorted {α : Type} [Ord α] (items : List α) : (sorted items).Perm items :=
  List.mergeSort_perm _ _

/-- How many items a key tells apart. -/
def countDistinct {α κ : Type} [BEq κ] (key : α → κ) (items : List α) : Nat :=
  (items.map key).eraseDups.length

end Asdl
