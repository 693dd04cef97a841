import Asdl.Binding

/-!
Terms: a constructor applied to named arguments. They are the plainest language that any grammar can
be bound to.
-/
namespace Asdl

/-- A constructor name with arguments, each under the name of its field. -/
structure Application (α : Type) where
  constructor : String
  arguments : List (String × α)
  deriving Repr

/-- What is passed for a field: a token, or a term. -/
inductive Argument where
  | token (text : String)
  | term (application : Application Argument)

abbrev Term : Type := Application Argument

mutual

def Argument.toValue (g : Grammar) : Argument → Result Value
  | .token text => .ok (.token text)
  | .term t => do return .tree (← Term.toTree g t)

/-- The tree of a term: the arguments are added one by one to an empty node. -/
def Term.toTree (g : Grammar) : Term → Result Tree
  | ⟨constructor, arguments⟩ => do
    let p ← g.production constructor
    Term.addArguments g arguments (Node.empty p)

/-- Adds arguments to a node, first to last. An argument is converted before it is added. -/
def Term.addArguments (g : Grammar) : List (String × Argument) → Tree → Result Tree
  | [], tree => .ok tree
  | (name, argument) :: rest, tree => do
    let value ← argument.toValue g
    let tree ← tree.add name value
    Term.addArguments g rest tree

end

mutual

def Argument.ofValue : Value → Argument
  | .token text => .token text
  | .tree t => .term (Term.ofTree t)

/-- The term of a tree: one argument for each value, slot by slot. -/
def Term.ofTree : Tree → Term
  | ⟨p, slots⟩ => ⟨p.name, Term.ofSlots slots⟩

def Term.ofSlots : List (Slot Value) → List (String × Argument)
  | [] => []
  | ⟨f, values⟩ :: rest => Term.ofValues f.name values ++ Term.ofSlots rest

def Term.ofValues (name : String) : List Value → List (String × Argument)
  | [] => []
  | v :: rest => (name, Argument.ofValue v) :: Term.ofValues name rest

end

def Term.binding (g : Grammar) : Binding Term where
  grammar := g
  toTree := Term.toTree g
  ofTree t := .ok (Term.ofTree t)

end Asdl
