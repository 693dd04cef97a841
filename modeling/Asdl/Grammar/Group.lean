import Asdl.Index
import Asdl.Production

/-!
Productions grouped by head type. The groups stand in the order in which their heads first occur,
and the productions of a group in the order in which they are declared.
-/
namespace Asdl

structure Group where
  head : Ty
  productions : List Production
  deriving DecidableEq, Repr

/-- Groups, and an index of their slots by the names of their heads. -/
structure GroupTable where
  groups : List Group
  slots : Index String
  slots_within : slots.Within groups.length

namespace GroupTable

def empty : GroupTable := ⟨[], .empty, Index.within_empty _⟩

/-- The slot of a head in a table. If the head has no group, one is opened behind all others. -/
def slotFor (table : GroupTable) (head : Ty) :
    (table : GroupTable) × Fin table.groups.length :=
  match found : table.slots.get? head.name with
  | some slot => ⟨table, slot, table.slots_within.lt found⟩
  | none =>
    ⟨{ groups := table.groups ++ [⟨head, []⟩]
       slots := table.slots.insert head.name table.groups.length
       slots_within := by simpa using table.slots_within.insert head.name },
      table.groups.length, by simp⟩

/-- Adds a production to the group of its head. -/
def add (table : GroupTable) (p : Production) : GroupTable :=
  let ⟨table, slot⟩ := table.slotFor p.head
  let group := table.groups[slot]
  { table with
    groups := table.groups.set slot { group with productions := group.productions ++ [p] }
    slots_within := by simpa using table.slots_within }

end GroupTable

end Asdl
