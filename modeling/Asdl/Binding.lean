import Asdl.Tree.Validity

/-!
Bindings: a language with a tree of its own is tied to a grammar by one conversion each way.
-/
namespace Asdl

/-- A language whose syntax trees are of type `α`, and the grammar of their tree form. -/
structure Binding (α : Type) where
  grammar : Grammar
  toTree : α → Result Tree
  ofTree : Tree → Result α

/-- Converts to a tree that is valid for the grammar. -/
def Binding.checkedTree {α : Type} (b : Binding α) (ast : α) : Result Tree := do
  let tree ← b.toTree ast
  b.grammar.validate tree
  return tree

end Asdl
