import Asdl.Grammar.Basic
import Asdl.Json.Printer

/-!
The stored form of a grammar: the declared productions, from which all else follows, and the entries
of the vocabulary in the order of their ids, by which a reader can tell that nothing has moved. Keys
stand in sorted order.
-/
namespace Asdl.Document

def format : String := "asdl-grammar/1"

def ofType (t : Ty) : Json := .object [("kind", .string t.kind.label), ("name", .string t.name)]

def ofField (f : Field) : Json :=
  .object [("cardinality", .string f.cardinality.label), ("name", .string f.name),
    ("type", ofType f.type)]

def ofProduction (p : Production) : Json :=
  .object [("constructor", .string p.name), ("fields", .array (p.fields.map ofField)),
    ("type", ofType p.head)]

/-- The written entries of the three catalogs. -/
def ofVocabulary (v : Vocabulary) : Json :=
  .object [("fields", .ofStrings (v.entries .fields)),
    ("productions", .ofStrings (v.entries .productions)),
    ("types", .ofStrings (v.entries .types))]

/-- The document of a grammar. -/
def encode (g : Grammar) : Json :=
  .object [("format", .string format), ("productions", .array (g.declared.map ofProduction)),
    ("root", .string g.root.name), ("vocabulary", ofVocabulary g.vocabulary)]

def write (g : Grammar) : String := (encode g).pretty

end Asdl.Document
