import Asdl.Production

/-!
A node of a tree: a production with a slot for each of its fields. What a slot holds is left open,
so everything here is about one node alone.
-/
namespace Asdl

/-- A field together with the values put into it, first to last. -/
structure Slot (α : Type) where
  field : Field
  values : List α
  deriving Repr

namespace Slot

variable {α : Type}

/-- The first value, which is the only one of a field that allows no more. -/
def value? (s : Slot α) : Option α := s.values.head?

/-- Whether a field that needs exactly one value has it. -/
def IsSatisfied (s : Slot α) : Prop := s.field.cardinality = .single → s.values.length = 1

instance (s : Slot α) : Decidable s.IsSatisfied :=
  inferInstanceAs (Decidable (s.field.cardinality = .single → s.values.length = 1))

end Slot

structure Node (α : Type) where
  production : Production
  slots : List (Slot α)
  deriving Repr

namespace Node

variable {α : Type}

/-- The node of a production with every slot empty. -/
def empty (p : Production) : Node α := ⟨p, p.fields.map fun f => ⟨f, []⟩⟩

def unknownField (t : Node α) (name : String) : Error := .unknownField t.production.name name

def slot (t : Node α) (name : String) : Result (Slot α) :=
  match t.slots.find? (·.field.name = name) with
  | some s => .ok s
  | none => .error (t.unknownField name)

/-- Puts a value behind those of the first slot whose field has a given name. A call changes the
node in place: it gives its answer and the node after it. -/
def addValue (t : Node α) (name : String) (value : α) : Result Unit × Node α := call.run t
where
  call : StateM (Node α) (Result Unit) := do
    let t ← get
    let some index := t.slots.findFinIdx? (·.field.name = name)
      | return .error (t.unknownField name)
    let s := t.slots[index]
    if !s.field.cardinality.allowsMany && !s.values.isEmpty then
      return .error (.cardinalityViolation name s.field.cardinality)
    set { t with slots := t.slots.set index { s with values := s.values ++ [value] } }
    return .ok ()

/-- The node with one more value. -/
def add (t : Node α) (name : String) (value : α) : Result (Node α) :=
  match t.addValue name value with
  | (.ok (), after) => .ok after
  | (.error e, _) => .error e

def IsComplete (t : Node α) : Prop := ∀ s ∈ t.slots, s.IsSatisfied

instance (t : Node α) : Decidable t.IsComplete :=
  inferInstanceAs (Decidable (∀ s ∈ t.slots, s.IsSatisfied))

end Node

end Asdl
