import Asdl.Document.Encode
import Asdl.Json.Reader

/-!
Reading a stored grammar. The grammar is built again from its productions, and then the stored root
and the stored vocabulary have to agree with it. The first defect met is reported; keys that the
format does not have are ignored.
-/
namespace Asdl.Document

/-- The failure of a document of the wrong shape. -/
def malformed {α : Type} (cause : Malformed) : Result α := .error (.malformedDocument cause)

/-- The string at a key of an object. -/
def stringAt (value : Json) (key : String) : Result String :=
  if value.isObject then
    match (value.member? key).bind Json.string? with
    | some text => .ok text
    | none => malformed (.missingString key)
  else malformed .notAnObject

/-- The array at a key of an object. -/
def arrayAt (value : Json) (key : String) : Result (List Json) :=
  if value.isObject then
    match (value.member? key).bind Json.array? with
    | some items => .ok items
    | none => malformed (.missingArray key)
  else malformed .notAnObject

/-- The value at a key, of whatever shape. -/
def valueAt (value : Json) (key : String) (missing : Malformed) : Result Json :=
  match value.member? key with
  | some v => .ok v
  | none => malformed missing

/-- Reads a type: first its kind, then its name. -/
def toType (value : Json) : Result Ty := do
  let label ← stringAt value "kind"
  match Kind.ofLabel? label with
  | some kind => return ⟨← stringAt value "name", kind⟩
  | none => malformed (.unknownKind label)

/-- Reads a field: its type, its name and then its cardinality. -/
def toField (value : Json) : Result Field := do
  let type ← toType (← valueAt value "type" .fieldWithoutType)
  let name ← stringAt value "name"
  Field.ofLabel name type (← stringAt value "cardinality")

/-- Reads a production: its head, its fields and then its constructor. -/
def toProduction (value : Json) : Result Production := do
  let head ← toType (← valueAt value "type" .productionWithoutType)
  let fields ← (← arrayAt value "fields").mapM toField
  return ⟨head, ⟨← stringAt value "constructor", fields⟩⟩

/-- The first position at which stored values are not the given strings, or at which one of the two
lists has ended before the other. -/
def firstDifference? : List Json → List String → Option Nat
  | [], [] => none
  | .string text :: stored, entry :: entries =>
    if text = entry then (firstDifference? stored entries).map (· + 1) else some 0
  | _, _ => some 0

/-- Compares a stored catalog with that of a vocabulary. -/
def checkCatalog (stored : Json) (v : Vocabulary) (catalog : Catalog) : Result Unit := do
  let items ← arrayAt stored catalog.name
  match firstDifference? items (v.entries catalog) with
  | some id => .error (.vocabularyMismatch catalog id)
  | none => .ok ()

def checkRoot (root : String) (g : Grammar) : Result Unit :=
  if root = g.root.name then .ok () else malformed (.foreignRoot root)

/-- Compares the stored catalogs with those of a vocabulary, one after the other. -/
def checkVocabulary (stored : Json) (v : Vocabulary) : Result Unit := do
  checkCatalog stored v .productions
  checkCatalog stored v .types
  checkCatalog stored v .fields

def checkFormat (tag : String) : Result Unit :=
  if tag = format then .ok () else malformed (.unsupportedFormat tag)

/-- The grammar of a document. -/
def decode (doc : Json) : Result Grammar := do
  checkFormat (← stringAt doc "format")
  let declared ← (← arrayAt doc "productions").mapM toProduction
  let g ← Grammar.ofProductions declared
  checkRoot (← stringAt doc "root") g
  checkVocabulary (← valueAt doc "vocabulary" .missingVocabulary) g.vocabulary
  return g

def read (text : String) : Result Grammar :=
  match Json.read text with
  | .ok doc => decode doc
  | .error cause => .error (.json cause)

end Asdl.Document
