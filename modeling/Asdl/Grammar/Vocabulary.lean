import Asdl.Production
import Asdl.Sorted

/-!
The vocabulary of a grammar: its productions, types and fields, each numbered in sorted order. It
does not depend on the order of declaration.
-/
namespace Asdl

/-- Adds an occurrence of a type to the types seen so far. A type keeps the kind of its first
occurrence. -/
def Ty.collect (seen : List Ty) (t : Ty) : Result (List Ty) :=
  match seen.find? (· ≈ t) with
  | none => .ok (Sorted.insert compare t seen)
  | some first => if first.kind = t.kind then .ok seen else .error (.conflictingTypeKind t.name)

/-- Three catalogs. The position of an entry is its id. -/
structure Vocabulary where
  productions : Array Production
  types : Array Ty
  fields : Array Field
  deriving DecidableEq, Repr

namespace Vocabulary

/-- Productions by constructor name, types by name and fields in their own order. Kinds are compared
along the productions in the order of the catalog, not in that of declaration. -/
def ofProductions (declared : List Production) : Result Vocabulary := do
  let productions := Sorted.ofList (compareOn Production.name) declared
  let types ← (productions.flatMap Production.types).foldlM Ty.collect []
  let fields := Sorted.ofList compare (productions.flatMap Production.fields)
  return ⟨productions.toArray, types.toArray, fields.toArray⟩

/-- The written entries of a catalog, in the order of their ids. -/
def entries (v : Vocabulary) : Catalog → List String
  | .productions => v.productions.toList.map Production.name
  | .types => v.types.toList.map Ty.name
  | .fields => v.fields.toList.map Field.declaration

/-- The types of one kind, in the order of their ids. -/
def typesOfKind (v : Vocabulary) (kind : Kind) : List Ty :=
  v.types.toList.filter (·.kind = kind)

def typePosition? (v : Vocabulary) (name : String) : Option Nat :=
  Sorted.search (fun t => compare t.name name) v.types

end Vocabulary

end Asdl
