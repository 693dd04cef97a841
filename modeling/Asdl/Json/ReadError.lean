/-!
Why a text is not a JSON text.
-/
namespace Asdl.Json

/-- Either the text is the beginning of a longer JSON text, or nothing that follows can mend it. -/
inductive ReadError where
  | unexpectedEnd
  | invalid
  deriving DecidableEq, Repr

end Asdl.Json
