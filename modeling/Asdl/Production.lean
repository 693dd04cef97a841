import Asdl.Field

/-!
Constructors and productions. A production says that a constructor builds trees of its head type.
-/
namespace Asdl

structure Constructor where
  name : String
  fields : List Field
  deriving DecidableEq, Repr

namespace Constructor

def field (c : Constructor) (name : String) : Result Field :=
  match c.fields.find? (·.name = name) with
  | some f => .ok f
  | none => .error (.unknownField c.name name)

instance : ToString Constructor :=
  ⟨fun c => c.name ++ " -> (" ++ ", ".intercalate (c.fields.map toString) ++ ")"⟩

/-- A constructor in a column: its text has no padding of its own. -/
def padded (_ : Text.Padding) (c : Constructor) : String := toString c

/-- What tells constructors apart: everything but the kinds of types. -/
def key (c : Constructor) : String × List (String × String × Cardinality) :=
  (c.name, c.fields.map Field.key)

/-- Constructors that differ at most in kinds. -/
instance : Setoid Constructor := ⟨fun a b => a.key = b.key, ⟨fun _ => rfl, Eq.symm, Eq.trans⟩⟩

instance (a b : Constructor) : Decidable (a ≈ b) := inferInstanceAs (Decidable (a.key = b.key))

end Constructor

/-- A constructor together with the type of the trees that it builds. -/
structure Production where
  head : Ty
  constructor : Constructor
  deriving DecidableEq, Repr

namespace Production

/-- The name of the constructor, which names the production within a grammar. -/
def name (p : Production) : String := p.constructor.name

def fields (p : Production) : List Field := p.constructor.fields

def field (p : Production) (name : String) : Result Field := p.constructor.field name

/-- The types that a production mentions: its head, then those of its fields. -/
def types (p : Production) : List Ty := p.head :: p.fields.map Field.type

instance : ToString Production := ⟨name⟩

def padded (layout : Text.Padding) (p : Production) : String := layout.apply p.name

/-- What tells productions apart: everything but the kinds of types. -/
def key (p : Production) : String × String × List (String × String × Cardinality) :=
  (p.head.name, p.constructor.key)

/-- Productions that differ at most in kinds. -/
instance : Setoid Production := ⟨fun a b => a.key = b.key, ⟨fun _ => rfl, Eq.symm, Eq.trans⟩⟩

instance (a b : Production) : Decidable (a ≈ b) := inferInstanceAs (Decidable (a.key = b.key))

theorem equiv_iff {a b : Production} :
    a ≈ b ↔ a.head ≈ b.head ∧ a.constructor ≈ b.constructor := by
  change a.key = b.key ↔ a.head.name = b.head.name ∧ a.constructor.key = b.constructor.key
  simp [key]

/-- Productions are ordered by constructor name from last to first, then by head type, then by
their fields, the first difference deciding. -/
instance : Ord Production :=
  ⟨compareLex (fun a b => compare b.name a.name)
    (compareLex (compareOn head) (compareOn fields))⟩

instance : Std.TransOrd Production :=
  have : Std.TransCmp fun a b : Production => compare b.name a.name :=
    @Std.TransCmp.opposite _ (compareOn name) _
  inferInstanceAs (Std.TransCmp (compareLex (fun a b => compare b.name a.name)
    (compareLex (compareOn head) (compareOn fields))))

end Production

end Asdl
