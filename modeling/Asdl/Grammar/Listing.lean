import Asdl.Grammar.Basic
import Asdl.Text.Padding

/-!
The listing of a grammar for people: two lines of comment, then one definition for each head type
with an alternative a line.
-/
namespace Asdl

/-- A constructor with its fields as arguments. Without fields it is its name alone. -/
def Constructor.declaration (c : Constructor) : String :=
  if c.fields.isEmpty then c.name
  else c.name ++ "(" ++ ", ".intercalate (c.fields.map Field.declaration) ++ ")"

/-- The lines of a definition. Alternatives after the first are indented by the UTF-8 length of the
head's name and one, then marked by a bar. -/
def Group.listing (group : Group) : List String :=
  match group.productions.map fun p => p.constructor.declaration with
  | [] => []
  | first :: rest =>
    (group.head.name ++ " = " ++ first) ::
      rest.map fun c => Text.spaces (group.head.name.utf8ByteSize + 1) ++ "| " ++ c

namespace Grammar

/-- The comment that opens a listing: the root, and the primitive types if there are any. -/
def listingHeader (g : Grammar) : List String :=
  let primitives := g.primitiveTypes.map Ty.name
  ("-- root: " ++ g.root.name) ::
    (if primitives.isEmpty then [] else ["-- primitive types: " ++ ", ".intercalate primitives])

def listingLines (g : Grammar) : List String := g.listingHeader ++ g.groups.flatMap Group.listing

/-- The listing: every line ends with a line feed. -/
def listing (g : Grammar) : String := String.join (g.listingLines.map (· ++ "\n"))

end Grammar

end Asdl
