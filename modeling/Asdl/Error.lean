import Asdl.Cardinality
import Asdl.Json.ReadError

/-!
Everything that can go wrong, by cause, and the one function that puts a cause into words.
-/
namespace Asdl

/-- The three numbered lists that a grammar gives to a decoder. -/
inductive Catalog where
  | productions
  | types
  | fields
  deriving DecidableEq, Repr

/-- The key under which a catalog is stored. -/
def Catalog.name : Catalog → String
  | productions => "productions"
  | types => "types"
  | fields => "fields"

/-- What makes a stored document unreadable. -/
inductive Malformed where
  | notAnObject
  | missingString (key : String)
  | missingArray (key : String)
  | missingVocabulary
  | productionWithoutType
  | fieldWithoutType
  | unknownKind (label : String)
  | unsupportedFormat (format : String)
  | foreignRoot (root : String)
  deriving DecidableEq, Repr

namespace Malformed

def message : Malformed → String
  | notAnObject => "expected a JSON object"
  | missingString key => s!"missing string '{key}'"
  | missingArray key => s!"missing array '{key}'"
  | missingVocabulary => "missing 'vocabulary'"
  | productionWithoutType => "production without 'type'"
  | fieldWithoutType => "field without 'type'"
  | unknownKind label => s!"unknown type kind '{label}'"
  | unsupportedFormat format => s!"unsupported format '{format}'"
  | foreignRoot root => s!"root '{root}' is not the head of the first production"

end Malformed

inductive Misplaced where
  | tree (head : String)
  | token (text : String)
  deriving DecidableEq, Repr

/-- A tree is named by its head type, a token by its text. -/
def Misplaced.message : Misplaced → String
  | tree head => head
  | token text => s!"token '{text}'"

inductive Error where
  | invalidCardinality (label : String)
  | emptyGrammar
  /-- Two productions, with the given head types, declare the same constructor. -/
  | duplicateConstructor (name first second : String)
  | conflictingTypeKind (name : String)
  | unknownType (name : String)
  | unknownConstructor (name : String)
  | unknownField (constructor field : String)
  /-- One value more than the field may hold. -/
  | cardinalityViolation (field : String) (cardinality : Cardinality)
  | missingValue (constructor field : String)
  | typeMismatch (field expected : String) (found : Misplaced)
  | malformedDocument (cause : Malformed)
  /-- A stored catalog that first differs from the rebuilt one at an id. -/
  | vocabularyMismatch (catalog : Catalog) (id : Nat)
  | json (cause : Json.ReadError)
  deriving DecidableEq, Repr

namespace Error

/-- What is said to people. What is wrong with a JSON text, its reader says in words of its own. -/
def message (ofJson : Json.ReadError → String) : Error → String
  | invalidCardinality label =>
    s!"invalid cardinality '{label}': expected 'single', 'optional' or 'multiple'"
  | emptyGrammar => "a grammar needs at least one production"
  | duplicateConstructor name first second =>
    s!"constructor '{name}' is declared by both '{first}' and '{second}'"
  | conflictingTypeKind name => s!"type '{name}' is declared both primitive and composite"
  | unknownType name => s!"unknown type '{name}'"
  | unknownConstructor name => s!"unknown constructor '{name}'"
  | unknownField constructor field => s!"constructor '{constructor}' has no field '{field}'"
  | cardinalityViolation field cardinality =>
    s!"field '{field}' is {cardinality.label} and already holds a value"
  | missingValue constructor field => s!"field '{field}' of '{constructor}' requires a value"
  | typeMismatch field expected found =>
    s!"field '{field}' expects type '{expected}', found '{found.message}'"
  | malformedDocument cause => s!"malformed grammar document: {cause.message}"
  | vocabularyMismatch catalog id =>
    s!"stored {catalog.name} vocabulary differs from the rebuilt grammar at id {id}"
  | json cause => ofJson cause

end Error

/-- A value, or the cause why there is none. -/
abbrev Result (α : Type) : Type := Except Error α

end Asdl
