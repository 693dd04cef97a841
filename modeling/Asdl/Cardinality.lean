/-!
How many values a field holds.
-/
namespace Asdl

/-- A field holds exactly one value, at most one, or any number of them. -/
inductive Cardinality where
  | single
  | optional
  | multiple
  deriving DecidableEq, Repr

namespace Cardinality

def label : Cardinality → String
  | single => "single"
  | optional => "optional"
  | multiple => "multiple"

def ofLabel? : String → Option Cardinality
  | "single" => some single
  | "optional" => some optional
  | "multiple" => some multiple
  | _ => none

@[simp] theorem ofLabel?_label (c : Cardinality) : ofLabel? c.label = some c := by
  cases c <;> rfl

/-- The mark written after the type of a field. -/
def suffix : Cardinality → String
  | single => ""
  | optional => "?"
  | multiple => "*"

/-- Whether a field may hold more than one value. -/
def allowsMany (c : Cardinality) : Bool := c == multiple

@[simp] theorem allowsMany_eq_true {c : Cardinality} : c.allowsMany = true ↔ c = multiple := by
  simp [allowsMany]

/-- Cardinalities are ordered by their written form. -/
instance : Ord Cardinality := ⟨compareOn label⟩

instance : Std.TransOrd Cardinality := inferInstanceAs (Std.TransCmp (compareOn label))

end Cardinality

end Asdl
