import Asdl.Tree.Node

/-!
Trees: nodes whose slots hold tokens and trees. Two trees are the same, `≈`, when they differ at
most in the kinds of types.
-/
namespace Asdl

/-- What a field of a tree holds: a token of a primitive type, or a tree of a composite one. -/
inductive Value where
  | token (text : String)
  | tree (root : Node Value)

abbrev Tree : Type := Node Value

mutual

def Value.size : Value → Nat
  | .token _ => 0
  | .tree t => Tree.size t

/-- The number of nodes of a tree, its own root counted. -/
def Tree.size : Tree → Nat
  | ⟨_, slots⟩ => 1 + Tree.slotsSize slots

def Tree.slotsSize : List (Slot Value) → Nat
  | [] => 0
  | ⟨_, values⟩ :: rest => Tree.valuesSize values + Tree.slotsSize rest

def Tree.valuesSize : List Value → Nat
  | [] => 0
  | v :: rest => v.size + Tree.valuesSize rest

end

mutual

/-- Whether two values are the same up to kinds. -/
def Value.same : Value → Value → Bool
  | .token a, .token b => a == b
  | .tree t, .tree u => Tree.same t u
  | _, _ => false

def Tree.same : Tree → Tree → Bool
  | ⟨p, slots⟩, ⟨q, others⟩ => decide (p ≈ q) && Tree.sameSlots slots others

def Tree.sameSlots : List (Slot Value) → List (Slot Value) → Bool
  | [], [] => true
  | ⟨f, values⟩ :: rest, ⟨f', values'⟩ :: rest' =>
    decide (f ≈ f') && Tree.sameValues values values' && Tree.sameSlots rest rest'
  | _, _ => false

def Tree.sameValues : List Value → List Value → Bool
  | [], [] => true
  | v :: rest, w :: rest' => v.same w && Tree.sameValues rest rest'
  | _, _ => false

end

instance : HasEquiv Tree := ⟨fun t u => t.same u = true⟩

instance (t u : Tree) : Decidable (t ≈ u) := inferInstanceAs (Decidable (t.same u = true))

mutual

/-- A token is written as it is, a tree in brackets. -/
def Value.render : Value → String
  | .token text => text
  | .tree t => Tree.render t

/-- A tree as a bracketed list: the constructor, then a bracketed list for each slot. -/
def Tree.render : Tree → String
  | ⟨p, slots⟩ => "(" ++ p.name ++ Tree.renderSlots slots ++ ")"

/-- Each slot in brackets after a space: the type and the name of the field, then the values. -/
def Tree.renderSlots : List (Slot Value) → String
  | [] => ""
  | ⟨f, values⟩ :: rest =>
    " (" ++ f.type.name ++ "-" ++ f.name ++ Tree.renderValues values ++ ")" ++
      Tree.renderSlots rest

def Tree.renderValues : List Value → String
  | [] => ""
  | v :: rest => " " ++ v.render ++ Tree.renderValues rest

end

instance : ToString Tree := ⟨Tree.render⟩

end Asdl
