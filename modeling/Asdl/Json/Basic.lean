import Asdl.Json.Number

/-!
JSON values. The members of an object are meant to stand in the order of their keys without
repetition, as `Json.putMember` keeps them.
-/
namespace Asdl

inductive Json where
  | null
  | bool (value : Bool)
  | number (value : Json.Number)
  | string (text : String)
  | array (items : List Json)
  | object (members : List (String × Json))
  deriving Inhabited

namespace Json

/-- Puts a member in its place. A key that is there gets the new value. -/
def putMember (key : String) (value : Json) : List (String × Json) → List (String × Json)
  | [] => [(key, value)]
  | (k, v) :: rest =>
    match compare key k with
    | .lt => (key, value) :: (k, v) :: rest
    | .eq => (key, value) :: rest
    | .gt => (k, v) :: putMember key value rest

def ofStrings (texts : List String) : Json := .array (texts.map .string)

/-- The value of a key. Only an object has one. -/
def member? (key : String) : Json → Option Json
  | .object members => (members.find? (·.1 = key)).map Prod.snd
  | _ => none

def string? : Json → Option String
  | .string text => some text
  | _ => none

def array? : Json → Option (List Json)
  | .array items => some items
  | _ => none

def isObject : Json → Bool
  | .object _ => true
  | _ => false

end Json

end Asdl
