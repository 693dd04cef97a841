import Asdl.Json.ReadError

/-!
Quoted texts: how a text is written between quotation marks, and how the characters between them are
read, one at a time.
-/
namespace Asdl.Json

/-- What stands for a character between quotation marks. Quotation marks, backslashes and control
characters are escaped and all else stands for itself. -/
def escape (c : Char) : List Char :=
  match c with
  | '"' => ['\\', '"']
  | '\\' => ['\\', '\\']
  | '\x08' => ['\\', 'b']
  | '\t' => ['\\', 't']
  | '\n' => ['\\', 'n']
  | '\x0c' => ['\\', 'f']
  | '\r' => ['\\', 'r']
  | c =>
    if c.toNat < 0x20 then
      ['\\', 'u', '0', '0', Nat.digitChar (c.toNat / 16), Nat.digitChar (c.toNat % 16)]
    else [c]

/-- A text between quotation marks. -/
def quote (text : String) : String := "\"" ++ String.ofList (text.toList.flatMap escape) ++ "\""

/-- The value of a hexadecimal digit in either case. -/
def hexDigit? (c : Char) : Option Nat :=
  if '0' ≤ c ∧ c ≤ '9' then some (c.toNat - '0'.toNat)
  else if 'a' ≤ c ∧ c ≤ 'f' then some (c.toNat - 'a'.toNat + 10)
  else if 'A' ≤ c ∧ c ≤ 'F' then some (c.toNat - 'A'.toNat + 10)
  else none

/-- The value of exactly four hexadecimal digits. -/
def hexUnit? : List Char → Option Nat
  | [a, b, c, d] => do
    let a ← hexDigit? a
    let b ← hexDigit? b
    let c ← hexDigit? c
    let d ← hexDigit? d
    return ((a * 16 + b) * 16 + c) * 16 + d
  | _ => none

/-- The character that a letter stands for after a backslash. -/
def unescape? : Char → Option Char
  | '"' => some '"'
  | '\\' => some '\\'
  | '/' => some '/'
  | 'b' => some '\x08'
  | 'f' => some '\x0c'
  | 'n' => some '\n'
  | 'r' => some '\r'
  | 't' => some '\t'
  | _ => none

/-- Where the reader of a quoted text stands with respect to escapes. -/
inductive Quoted.Escape where
  | outside
  | backslash
  /-- After `\u` and some characters, last first. A high surrogate may have come before. -/
  | unit (high : Option Nat) (seen : List Char)
  /-- After a high surrogate, which a backslash must follow. -/
  | high (value : Nat)
  /-- After a high surrogate and a backslash, which a `u` must follow. -/
  | highBackslash (value : Nat)
  deriving DecidableEq, Repr

/-- The beginning of a quoted text: the characters read, last first, and the open escape. -/
structure Quoted where
  decoded : List Char
  escape : Quoted.Escape
  deriving DecidableEq, Repr

namespace Quoted

/-- A quoted text of which only the opening quotation mark has been read. -/
def start : Quoted := ⟨[], .outside⟩

def byteSize : List Char → Nat
  | [] => 0
  | c :: cs => c.utf8Size + byteSize cs

/-- Takes one code unit after the other. A high surrogate and a low one make a character together,
and neither stands alone. -/
def takeUnit (decoded : List Char) (high : Option Nat) (value : Nat) : Except ReadError Quoted :=
  match high with
  | some h =>
    if 0xDC00 ≤ value ∧ value ≤ 0xDFFF then
      .ok ⟨Char.ofNat (0x10000 + (h - 0xD800) * 0x400 + (value - 0xDC00)) :: decoded, .outside⟩
    else .error .invalid
  | none =>
    if 0xDC00 ≤ value ∧ value ≤ 0xDFFF then .error .invalid
    else if 0xD800 ≤ value ∧ value ≤ 0xDBFF then .ok ⟨decoded, .high value⟩
    else .ok ⟨Char.ofNat value :: decoded, .outside⟩

/-- Reads one more character. The result is the whole text if this was the closing quotation mark.
The four digits of a code unit are judged together once four bytes have been read. -/
def next (q : Quoted) (c : Char) : Except ReadError (Quoted ⊕ String) :=
  match q.escape with
  | .outside =>
    if c = '"' then .ok (.inr (String.ofList q.decoded.reverse))
    else if c = '\\' then .ok (.inl { q with escape := .backslash })
    else if c.toNat < 0x20 then .error .invalid
    else .ok (.inl ⟨c :: q.decoded, .outside⟩)
  | .backslash =>
    if c = 'u' then .ok (.inl { q with escape := .unit none [] })
    else
      match unescape? c with
      | some d => .ok (.inl ⟨d :: q.decoded, .outside⟩)
      | none => .error .invalid
  | .unit high seen =>
    if byteSize (c :: seen) < 4 then .ok (.inl { q with escape := .unit high (c :: seen) })
    else
      match hexUnit? (c :: seen).reverse with
      | some value => (takeUnit q.decoded high value).map .inl
      | none => .error .invalid
  | .high value =>
    if c = '\\' then .ok (.inl { q with escape := .highBackslash value }) else .error .invalid
  | .highBackslash value =>
    if c = 'u' then .ok (.inl { q with escape := .unit (some value) [] }) else .error .invalid

end Quoted

end Asdl.Json
