import Asdl.Grammar.Vocabulary
import Asdl.Index

/-!
The ids of a vocabulary by what they are the ids of. Kinds do not tell entries apart here: an item
has the id of the entry that is the same up to kinds.
-/
namespace Asdl

/-- Indexes of the three catalogs. -/
structure Ids where
  productions : Index (String × String × List (String × String × Cardinality))
  types : Index String
  fields : Index (String × String × Cardinality)

def Ids.ofVocabulary (v : Vocabulary) : Ids where
  productions := .ofList Production.key v.productions.toList
  types := .ofList Ty.name v.types.toList
  fields := .ofList Field.key v.fields.toList

end Asdl
