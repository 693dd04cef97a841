/-!
Decimal numbers, and which of them are too large for a binary double. Everything is exact integer
arithmetic.
-/
namespace Asdl.Json

/-- A power of ten times a whole number, with a sign of its own. -/
structure Number where
  negative : Bool
  significand : Nat
  exponent : Int
  deriving DecidableEq, Repr

/-- Rounds a whole number to 53 significant bits, a tie to the even neighbour. -/
def roundToDouble (n : Nat) : Nat :=
  let unit := Nat.pow 2 (n.log2 + 1 - 53)
  let kept := n / unit
  let rest := n % unit
  if 2 * rest > unit ∨ (2 * rest = unit ∧ kept % 2 = 1) then (kept + 1) * unit else kept * unit

/-- The least whole number that rounds to the power of two past the greatest double. -/
def doubleOverflow : Nat := Nat.pow 2 1024 - Nat.pow 2 970

/-- Whether a number is small enough. Significand and power of ten are each rounded before they are
multiplied; a power of ten that is itself too large is refused unless the significand is zero. -/
def Number.FitsDouble (n : Number) : Prop :=
  n.significand = 0 ∨ n.exponent < 0 ∨
    n.exponent ≤ 308 ∧
      roundToDouble n.significand * roundToDouble (Nat.pow 10 n.exponent.toNat) < doubleOverflow

instance (n : Number) : Decidable n.FitsDouble := by
  unfold Number.FitsDouble
  infer_instance

/-- The shortest text of a number in this form: digits, and the exponent unless it is zero. -/
def Number.render (n : Number) : String :=
  (if n.negative then "-" else "") ++ toString n.significand ++
    (if n.exponent = 0 then "" else "e" ++ toString n.exponent)

end Asdl.Json
