import Asdl.Json.Basic
import Asdl.Json.Quoted

/-!
JSON values as text, an item or member a line, indented by two spaces a level.
-/
namespace Asdl.Json

/-- The spaces before a line inside of `depth` brackets. -/
def indent (depth : Nat) : String := String.ofList (List.replicate (2 * depth) ' ')

mutual

/-- The text of a value that stands inside of `depth` brackets. -/
def render (depth : Nat) : Json → String
  | .null => "null"
  | .bool true => "true"
  | .bool false => "false"
  | .number n => n.render
  | .string text => quote text
  | .array [] => "[]"
  | .array (item :: rest) =>
    "[\n" ++ indent (depth + 1) ++ render (depth + 1) item ++ renderItems (depth + 1) rest ++
      "\n" ++ indent depth ++ "]"
  | .object [] => "\x7b\x7d"
  | .object ((key, value) :: rest) =>
    "\x7b\n" ++ indent (depth + 1) ++ quote key ++ ": " ++ render (depth + 1) value ++
      renderMembers (depth + 1) rest ++ "\n" ++ indent depth ++ "\x7d"

/-- The items after the first, each after a comma. -/
def renderItems (depth : Nat) : List Json → String
  | [] => ""
  | item :: rest => ",\n" ++ indent depth ++ render depth item ++ renderItems depth rest

/-- The members after the first, each after a comma. -/
def renderMembers (depth : Nat) : List (String × Json) → String
  | [] => ""
  | (key, value) :: rest =>
    ",\n" ++ indent depth ++ quote key ++ ": " ++ render depth value ++ renderMembers depth rest

end

def pretty (value : Json) : String := value.render 0

end Asdl.Json
