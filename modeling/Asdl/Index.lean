/-!
Indexes of lists: the positions of entries, stored under their keys. An index is all that a lookup
reads, so whether it tells the truth about the list depends on what was stored.
-/
namespace Asdl

/-- Positions under keys. Of several positions stored under one key the last one counts. -/
structure Index (κ : Type) where
  stored : List (κ × Nat)
  deriving Repr

namespace Index
variable {κ : Type}

def empty : Index κ := ⟨[]⟩

def insert (index : Index κ) (key : κ) (position : Nat) : Index κ :=
  ⟨(key, position) :: index.stored⟩

variable [DecidableEq κ]

def get? (index : Index κ) (key : κ) : Option Nat :=
  (index.stored.find? (·.1 = key)).map Prod.snd

@[simp] theorem get?_empty (key : κ) : (empty : Index κ).get? key = none := rfl

theorem get?_insert (index : Index κ) (stored : κ) (position : Nat) (key : κ) :
    (index.insert stored position).get? key =
      if stored = key then some position else index.get? key := by
  by_cases h : stored = key <;> simp [get?, insert, h]

/-- Whether all stored positions lie within a list of a given length. -/
def Within (index : Index κ) (length : Nat) : Prop :=
  ∀ key position, index.get? key = some position → position < length

theorem within_empty (length : Nat) : (empty : Index κ).Within length := nofun

theorem Within.lt {index : Index κ} {length position : Nat} {key : κ} (h : index.Within length)
    (hget : index.get? key = some position) : position < length :=
  h key position hget

/-- The position behind the last entry may be stored if an entry is put there. -/
theorem Within.insert {index : Index κ} {length : Nat} (h : index.Within length) (key : κ) :
    (index.insert key length).Within (length + 1) := by
  intro other position hget
  rw [get?_insert] at hget
  split at hget
  · cases hget
    exact Nat.lt_succ_self length
  · exact Nat.lt_succ_of_lt (h.lt hget)

/-- The index that arises when the entries of a list are stored one after the other. -/
def ofList {α : Type} (key : α → κ) (entries : List α) : Index κ :=
  entries.zipIdx.foldl (fun index (entry, position) => index.insert (key entry) position) empty

end Index

end Asdl
