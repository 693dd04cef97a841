import Asdl.Json.Basic
import Asdl.Json.Numeral
import Asdl.Json.Quoted

/-!
Reading JSON text, a character at a time. The state between two characters says what is being read
and which enclosing arrays and objects wait for it; a text is accepted if the state after it holds a
whole value. What begins a longer text is told apart from what nothing can complete.
-/
namespace Asdl.Json

/-- An open array or object that waits for a value, with what came before it. Items stand last
first, members in the order of their keys. -/
inductive Frame where
  | item (before : List Json)
  | member (before : List (String × Json)) (key : String)

/-- What is being read, outside of the frames that wait. -/
inductive Focus where
  | value
  | arrayStart
  /-- An item of an array has ended. -/
  | arrayRest (items : List Json)
  | objectStart
  | key (members : List (String × Json))
  | colon (members : List (String × Json)) (key : String)
  /-- A member of an object has ended. -/
  | objectRest (members : List (String × Json))
  /-- The rest of a word that stands for a value. -/
  | word (rest : List Char) (meaning : Json)
  | number (numeral : Numeral)
  | string (text : Quoted)
  | keyText (members : List (String × Json)) (text : Quoted)
  | done (value : Json)

/-- What has been read so far: the frames from the innermost outwards, and the focus. -/
structure Reading where
  frames : List Frame
  focus : Focus

/-- How many arrays and objects may be open at once. -/
def maxDepth : Nat := 127

def isBlank (c : Char) : Bool := c == ' ' || c == '\t' || c == '\n' || c == '\r'

namespace Reading

def start : Reading := ⟨[], .value⟩

/-- Hands a finished value to the innermost frame. -/
def complete (value : Json) : List Frame → Reading
  | [] => ⟨[], .done value⟩
  | .item before :: frames => ⟨frames, .arrayRest (value :: before)⟩
  | .member before key :: frames => ⟨frames, .objectRest (putMember key value before)⟩

def beginValue (frames : List Frame) (c : Char) : Except ReadError Reading :=
  match c with
  | '"' => .ok ⟨frames, .string .start⟩
  | '[' => if frames.length < maxDepth then .ok ⟨frames, .arrayStart⟩ else .error .invalid
  | '{' => if frames.length < maxDepth then .ok ⟨frames, .objectStart⟩ else .error .invalid
  | 'n' => .ok ⟨frames, .word ['u', 'l', 'l'] .null⟩
  | 't' => .ok ⟨frames, .word ['r', 'u', 'e'] (.bool true)⟩
  | 'f' => .ok ⟨frames, .word ['a', 'l', 's', 'e'] (.bool false)⟩
  | c =>
    match Numeral.start? c with
    | some numeral => .ok ⟨frames, .number numeral⟩
    | none => .error .invalid

/-- Reads a character between the parts of a text. Blanks change nothing. -/
def stepBetween (r : Reading) (c : Char) : Except ReadError Reading :=
  if isBlank c then .ok r
  else
    match r.focus, c with
    | .value, c => beginValue r.frames c
    | .arrayStart, ']' => .ok (complete (.array []) r.frames)
    | .arrayStart, c => beginValue (.item [] :: r.frames) c
    | .arrayRest items, ']' => .ok (complete (.array items.reverse) r.frames)
    | .arrayRest items, ',' => .ok ⟨.item items :: r.frames, .value⟩
    | .objectStart, '}' => .ok (complete (.object []) r.frames)
    | .objectStart, '"' => .ok ⟨r.frames, .keyText [] .start⟩
    | .key members, '"' => .ok ⟨r.frames, .keyText members .start⟩
    | .colon members key, ':' => .ok ⟨.member members key :: r.frames, .value⟩
    | .objectRest members, '}' => .ok (complete (.object members) r.frames)
    | .objectRest members, ',' => .ok ⟨r.frames, .key members⟩
    | _, _ => .error .invalid

/-- The number that has been read, unless it is too large. -/
def endNumber (numeral : Numeral) : Except ReadError Json :=
  if numeral.IsComplete ∧ numeral.toNumber.FitsDouble then .ok (.number numeral.toNumber)
  else .error .invalid

def step (r : Reading) (c : Char) : Except ReadError Reading :=
  match r.focus with
  | .word [] meaning => stepBetween (complete meaning r.frames) c
  | .word (expected :: rest) meaning =>
    if c = expected then
      .ok (if rest.isEmpty then complete meaning r.frames else ⟨r.frames, .word rest meaning⟩)
    else .error .invalid
  | .number numeral =>
    match numeral.next? c with
    | some longer => .ok ⟨r.frames, .number longer⟩
    | none => do
      let value ← endNumber numeral
      stepBetween (complete value r.frames) c
  | .string text => do
    match ← text.next c with
    | .inl longer => return ⟨r.frames, .string longer⟩
    | .inr whole => return complete (.string whole) r.frames
  | .keyText members text => do
    match ← text.next c with
    | .inl longer => return ⟨r.frames, .keyText members longer⟩
    | .inr whole => return ⟨r.frames, .colon members whole⟩
  | _ => stepBetween r c

/-- The value, if the text may end here. A number at the end is judged before the brackets that it
leaves open. -/
def finish (r : Reading) : Except ReadError Json :=
  match r.focus with
  | .done value => .ok value
  | .number numeral =>
    if numeral.IsComplete then do
      let value ← endNumber numeral
      if r.frames.isEmpty then .ok value else .error .unexpectedEnd
    else .error .unexpectedEnd
  | _ => .error .unexpectedEnd

def steps (r : Reading) (cs : List Char) : Except ReadError Reading := cs.foldlM step r

end Reading

/-- The value that a text is. -/
def read (text : String) : Except ReadError Json := do
  let r ← Reading.start.steps text.toList
  r.finish

end Asdl.Json
