import Asdl.Grammar.Basic

/-!
Questions to a grammar: productions by head type or constructor, types by name, and the ids of the
vocabulary in both directions. Groups, constructors and ids are found through indexes, types by
halving their catalog. Kinds in a question do not matter.
-/
namespace Asdl.Grammar

/-- The productions of a head type, in the order of declaration. -/
def lookup (g : Grammar) (head : String) : Result (List Production) :=
  match found : g.slots.get? head with
  | some slot =>
    have := g.slots_within.lt found
    .ok g.groups[slot].productions
  | none => .error (.unknownType head)

/-- What productions are looked up by: the name of a head type, or a type, which stands for its
name. -/
inductive TypeKey where
  | name (text : String)
  | type (type : Ty)

def TypeKey.typeName : TypeKey → String
  | name text => text
  | type t => t.name

@[simp] theorem TypeKey.typeName_name (text : String) : (name text).typeName = text := rfl

@[simp] theorem TypeKey.typeName_type (t : Ty) : (type t).typeName = t.name := rfl

def lookupBy (g : Grammar) (key : TypeKey) : Result (List Production) := g.lookup key.typeName

def production (g : Grammar) (constructor : String) : Result Production :=
  match found : g.positions.get? constructor with
  | some position =>
    have := g.positions_within.lt found
    .ok g.declared[position]
  | none => .error (.unknownConstructor constructor)

/-- The type of a given name, with the kind that the grammar gives it. -/
def type? (g : Grammar) (name : String) : Option Ty :=
  (g.vocabulary.typePosition? name).bind (g.vocabulary.types[·]?)

/-- Whether a type has a kind in the grammar. Of a type that the grammar lacks it has neither. -/
def hasKind (g : Grammar) (kind : Kind) (t : Ty) : Bool := (g.type? t.name).any (·.kind = kind)

def isComposite (g : Grammar) (t : Ty) : Bool := g.hasKind .composite t

def isPrimitive (g : Grammar) (t : Ty) : Bool := g.hasKind .primitive t

def productionId? (g : Grammar) (p : Production) : Option Nat := g.ids.productions.get? p.key

def typeId? (g : Grammar) (t : Ty) : Option Nat := g.ids.types.get? t.name

def fieldId? (g : Grammar) (f : Field) : Option Nat := g.ids.fields.get? f.key

def productionOfId? (g : Grammar) (id : Nat) : Option Production := g.vocabulary.productions[id]?

def typeOfId? (g : Grammar) (id : Nat) : Option Ty := g.vocabulary.types[id]?

def fieldOfId? (g : Grammar) (id : Nat) : Option Field := g.vocabulary.fields[id]?

end Asdl.Grammar
