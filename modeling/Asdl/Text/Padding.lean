/-!
Texts in columns: a text is cut to a number of characters, then filled up with spaces. All lengths
count characters.
-/
namespace Asdl.Text

inductive Align where
  | left
  | right
  | center
  deriving DecidableEq, Repr

/-- The shape of a column: a least width, and a most length of what stands in it. -/
structure Padding where
  width : Nat := 0
  precision : Option Nat := none
  align : Align := .left
  deriving DecidableEq, Repr

def spaces (n : Nat) : String := String.ofList (List.replicate n ' ')

@[simp] theorem length_spaces (n : Nat) : (spaces n).length = n := by simp [spaces]

namespace Padding

/-- The first characters of a text, as many as the precision allows. -/
def cut (p : Padding) (text : String) : String :=
  match p.precision with
  | none => text
  | some n => String.ofList (text.toList.take n)

/-- Fills a text up to the width. Of an odd number of spaces around a centred text, the right side
gets one more. -/
def fill (p : Padding) (text : String) : String :=
  let free := p.width - text.length
  match p.align with
  | .left => text ++ spaces free
  | .right => spaces free ++ text
  | .center => spaces (free / 2) ++ text ++ spaces (free - free / 2)

def apply (p : Padding) (text : String) : String := p.fill (p.cut text)

theorem length_fill (p : Padding) (text : String) :
    (p.fill text).length = max p.width text.length := by
  unfold fill
  cases p.align <;> simp <;> omega

theorem length_cut (p : Padding) (text : String) :
    (p.cut text).length = min (p.precision.getD text.length) text.length := by
  unfold cut
  cases p.precision <;> simp [String.length_toList]

/-- A text that fits is left alone when no width is asked for. -/
@[simp] theorem apply_default (text : String) : ({} : Padding).apply text = text := by
  simp [apply, fill, cut, spaces]

end Padding

end Asdl.Text
