import Asdl.Json.Number

/-!
Written numbers, read a character at a time. The significand holds as many leading digits as fit
into 64 bits; what the digits after them would add is dropped.
-/
namespace Asdl.Json

/-- The part of a written number that was read last. -/
inductive Numeral.Part where
  | sign
  | zero
  | whole
  | point
  | fraction
  | mark
  | markSign
  | power
  deriving DecidableEq, Repr

/-- The beginning of a written number. -/
structure Numeral where
  part : Numeral.Part
  negative : Bool
  significand : Nat
  /-- The power of ten by which the digits kept so far are to be moved. -/
  scale : Int
  /-- Whether a digit of this part has already been dropped. -/
  full : Bool
  powerNegative : Bool
  power : Nat
  deriving DecidableEq, Repr

namespace Numeral

/-- The value of a decimal digit. -/
def digit? (c : Char) : Option Nat :=
  if '0' ≤ c ∧ c ≤ '9' then some (c.toNat - '0'.toNat) else none

/-- Appends a digit to the significand, unless it or one before it in this part does not fit. The
result is `none` if the digit is dropped. -/
def append? (n : Numeral) (d : Nat) : Option Nat :=
  let longer := n.significand * 10 + d
  if n.full ∨ Nat.pow 2 64 ≤ longer then none else some longer

/-- A digit before the point. A dropped one still counts as a place. -/
def addWhole (n : Numeral) (d : Nat) : Numeral :=
  match n.append? d with
  | some longer => { n with part := .whole, significand := longer }
  | none => { n with part := .whole, scale := n.scale + 1, full := true }

/-- A digit after the point. -/
def addFraction (n : Numeral) (d : Nat) : Numeral :=
  match n.append? d with
  | some longer => { n with part := .fraction, significand := longer, scale := n.scale - 1 }
  | none => { n with part := .fraction, full := true }

def addPower (n : Numeral) (d : Nat) : Numeral :=
  { n with part := .power, power := n.power * 10 + d }

/-- A written number of which nothing has been read but its sign. -/
def signed (negative : Bool) : Numeral := ⟨.sign, negative, 0, 0, false, false, 0⟩

/-- Reads one more character, if it goes on with the number. -/
def next? (n : Numeral) (c : Char) : Option Numeral :=
  match n.part, digit? c with
  | .sign, some 0 => some { n with part := .zero }
  | .sign, some d => some (n.addWhole d)
  | .whole, some d => some (n.addWhole d)
  | .point, some d => some (n.addFraction d)
  | .fraction, some d => some (n.addFraction d)
  | .mark, some d => some (n.addPower d)
  | .markSign, some d => some (n.addPower d)
  | .power, some d => some (n.addPower d)
  | .zero, none => afterWhole
  | .whole, none => afterWhole
  | .fraction, none => exponentMark
  | .mark, none =>
    if c = '+' then some { n with part := .markSign }
    else if c = '-' then some { n with part := .markSign, powerNegative := true }
    else none
  | _, _ => none
where
  /-- The exponent begins. -/
  exponentMark : Option Numeral :=
    if c = 'e' ∨ c = 'E' then some { n with part := .mark } else none
  /-- The digits before the point are over. -/
  afterWhole : Option Numeral :=
    if c = '.' then some { n with part := .point, full := false } else exponentMark

/-- Reads the first character of a number, if it is one. -/
def start? (c : Char) : Option Numeral :=
  if c = '-' then some (signed true) else (signed false).next? c

/-- Whether the number may end here. -/
def IsComplete (n : Numeral) : Prop :=
  n.part = .zero ∨ n.part = .whole ∨ n.part = .fraction ∨ n.part = .power

instance (n : Numeral) : Decidable n.IsComplete := by
  unfold IsComplete
  infer_instance

def toNumber (n : Numeral) : Number :=
  ⟨n.negative, n.significand, n.scale + if n.powerNegative then -(n.power : Int) else n.power⟩

end Numeral

end Asdl.Json
