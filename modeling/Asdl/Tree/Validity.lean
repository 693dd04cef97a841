import Asdl.Grammar.Lookup
import Asdl.Tree.Basic

/-!
Validity of a tree for a grammar, checked from the root down and from left to right. The check stops
at the first defect.
-/
namespace Asdl

/-- Accepts a production that the grammar declares, up to kinds. -/
def Grammar.checkProduction (g : Grammar) (p : Production) : Result Unit := do
  let declared ← g.production p.name
  if declared ≈ p then .ok () else .error (.unknownConstructor p.name)

mutual

/-- Checks a value of a field. A token needs a primitive type; a tree needs a composite type that is
its head, and is then checked itself. -/
def Value.check (g : Grammar) (f : Field) : Value → Result Unit
  | .token text =>
    if g.isPrimitive f.type then .ok ()
    else .error (.typeMismatch f.name f.type.name (.token text))
  | .tree t =>
    if g.isComposite f.type ∧ t.production.head ≈ f.type then Tree.check g t
    else .error (.typeMismatch f.name f.type.name (.tree t.production.head.name))

/-- Checks a tree: the production of its root, then its slots. -/
def Tree.check (g : Grammar) : Tree → Result Unit
  | ⟨p, slots⟩ => do
    g.checkProduction p
    Tree.checkSlots g p.name slots

/-- Checks the slots of a node: that a needed value is there comes before what the values are. -/
def Tree.checkSlots (g : Grammar) (owner : String) : List (Slot Value) → Result Unit
  | [] => .ok ()
  | ⟨f, values⟩ :: rest => do
    if Slot.IsSatisfied ⟨f, values⟩ then .ok () else .error (.missingValue owner f.name)
    Tree.checkValues g f values
    Tree.checkSlots g owner rest

def Tree.checkValues (g : Grammar) (f : Field) : List Value → Result Unit
  | [] => .ok ()
  | v :: rest => do
    v.check g f
    Tree.checkValues g f rest

end

def Grammar.validate (g : Grammar) (t : Tree) : Result Unit := t.check g

end Asdl
