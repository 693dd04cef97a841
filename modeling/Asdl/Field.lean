import Asdl.Error
import Asdl.Ty

/-!
Fields of constructors: a name, a type and a cardinality.
-/
namespace Asdl

def Cardinality.ofLabel (label : String) : Result Cardinality :=
  match ofLabel? label with
  | some c => .ok c
  | none => .error (.invalidCardinality label)

@[simp] theorem Cardinality.ofLabel_label (c : Cardinality) : ofLabel c.label = .ok c := by
  simp [ofLabel]

/-- A named place for values of one type. -/
structure Field where
  name : String
  type : Ty
  cardinality : Cardinality
  deriving DecidableEq, Repr

namespace Field

/-- A field whose cardinality is given by its label. -/
def ofLabel (name : String) (type : Ty) (label : String) : Result Field :=
  (Cardinality.ofLabel label).map fun c => ⟨name, type, c⟩

/-- The type with the mark of the cardinality. The field's own name is left out. -/
instance : ToString Field := ⟨fun f => f.type.name ++ f.cardinality.suffix⟩

/-- A field in a column: its text has no padding of its own. -/
def padded (_ : Text.Padding) (f : Field) : String := toString f

/-- The field as an argument of its constructor: type, mark and name. -/
def declaration (f : Field) : String := s!"{f} {f.name}"

/-- What tells fields apart: everything but the kind of the type. -/
def key (f : Field) : String × String × Cardinality := (f.name, f.type.name, f.cardinality)

/-- Fields that differ at most in the kind of their type. -/
instance : Setoid Field := ⟨fun a b => a.key = b.key, ⟨fun _ => rfl, Eq.symm, Eq.trans⟩⟩

instance (a b : Field) : Decidable (a ≈ b) := inferInstanceAs (Decidable (a.key = b.key))

theorem equiv_iff {a b : Field} :
    a ≈ b ↔ a.name = b.name ∧ a.type ≈ b.type ∧ a.cardinality = b.cardinality := by
  change a.key = b.key ↔
    a.name = b.name ∧ a.type.name = b.type.name ∧ a.cardinality = b.cardinality
  simp [key]

/-- Fields are ordered by name, then by type, then by cardinality. -/
instance : Ord Field :=
  ⟨compareLex (compareOn name) (compareLex (compareOn type) (compareOn cardinality))⟩

instance : Std.TransOrd Field :=
  inferInstanceAs (Std.TransCmp
    (compareLex (compareOn name) (compareLex (compareOn type) (compareOn cardinality))))

end Field

end Asdl
