import Asdl.Text.Padding

/-!
Types of a grammar. A type is known by its name alone: `≈` and the order ignore its kind, while
`=` compares both.
-/
namespace Asdl

/-- Values of a primitive type are tokens, values of a composite type are trees. -/
inductive Kind where
  | primitive
  | composite
  deriving DecidableEq, Repr

namespace Kind

def label : Kind → String
  | primitive => "primitive"
  | composite => "composite"

def ofLabel? : String → Option Kind
  | "primitive" => some primitive
  | "composite" => some composite
  | _ => none

@[simp] theorem ofLabel?_label (k : Kind) : ofLabel? k.label = some k := by cases k <;> rfl

end Kind

structure Ty where
  name : String
  kind : Kind
  deriving DecidableEq, Repr

namespace Ty

instance : ToString Ty := ⟨name⟩

/-- Types with the same name are the same type, whatever kind each was given. -/
instance : Setoid Ty := ⟨fun a b => a.name = b.name, ⟨fun _ => rfl, Eq.symm, Eq.trans⟩⟩

instance (a b : Ty) : Decidable (a ≈ b) := inferInstanceAs (Decidable (a.name = b.name))

theorem equiv_iff {a b : Ty} : a ≈ b ↔ a.name = b.name := Iff.rfl

/-- Types are ordered by name. -/
instance : Ord Ty := ⟨compareOn name⟩

instance : Std.TransOrd Ty := inferInstanceAs (Std.TransCmp (compareOn name))

def padded (p : Text.Padding) (t : Ty) : String := p.apply t.name

end Ty

end Asdl
