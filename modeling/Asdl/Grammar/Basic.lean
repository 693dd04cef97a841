import Asdl.Grammar.Declarations
import Asdl.Grammar.Ids

/-!
Grammars. A grammar is a list of declared productions that passed three checks, kept with the
groups, the vocabulary and the indexes that follow from it; so two grammars are equal as soon as
they declare the same productions (`Grammar.ext_declared`).
-/
namespace Asdl

/-- A non-empty list of productions with distinct constructor names and consistent kinds. -/
structure Grammar extends Declarations where
  vocabulary : Vocabulary
  ids : Ids
  declared_ne_nil : declared ≠ []
  declarations_eq : Declarations.ofProductions declared = .ok toDeclarations
  vocabulary_eq : Vocabulary.ofProductions declared = .ok vocabulary
  ids_eq : ids = .ofVocabulary vocabulary

namespace Grammar

theorem ext_declared {g h : Grammar} (e : g.declared = h.declared) : g = h := by
  obtain ⟨d, v, i, _, hd, hv, hi⟩ := g
  obtain ⟨d', v', i', _, hd', hv', hi'⟩ := h
  rw [e] at hd hv
  cases hd.symm.trans hd'
  cases hv.symm.trans hv'
  cases hi
  cases hi'
  rfl

/-- Builds a grammar: no production is an error, then a repeated constructor, then a type of two
kinds. -/
def ofProductions (productions : List Production) : Result Grammar :=
  if nonempty : productions = [] then .error .emptyGrammar
  else
    match made : Declarations.ofProductions productions with
    | .error e => .error e
    | .ok declarations =>
      have same := Declarations.declared_of_ofProductions made
      match built : Vocabulary.ofProductions productions with
      | .error e => .error e
      | .ok vocabulary =>
        .ok {
          toDeclarations := declarations
          vocabulary := vocabulary
          ids := .ofVocabulary vocabulary
          declared_ne_nil := by rwa [same]
          declarations_eq := by rwa [same]
          vocabulary_eq := by rwa [same]
          ids_eq := rfl }

theorem declared_of_ofProductions {ps : List Production} {g : Grammar}
    (h : ofProductions ps = .ok g) : g.declared = ps := by
  unfold ofProductions at h
  split at h
  · cases h
  · split at h
    · cases h
    · next made =>
      split at h
      · cases h
      · cases h
        exact Declarations.declared_of_ofProductions made

/-- A grammar is what is built from its declared productions. -/
theorem ofProductions_declared (g : Grammar) : ofProductions g.declared = .ok g := by
  cases h : ofProductions g.declared with
  | ok g' => rw [ext_declared (declared_of_ofProductions h)]
  | error e =>
    unfold ofProductions at h
    rw [dif_neg g.declared_ne_nil] at h
    split at h
    · next hd => simp [g.declarations_eq] at hd
    · split at h
      · next hv => simp [g.vocabulary_eq] at hv
      · cases h

instance : DecidableEq Grammar := fun g h =>
  decidable_of_iff (g.declared = h.declared) ⟨ext_declared, fun e => e ▸ rfl⟩

def root (g : Grammar) : Ty := (g.declared.head g.declared_ne_nil).head

def size (g : Grammar) : Nat := g.vocabulary.productions.size

/-- The head types in the order in which they first occur. -/
def headTypes (g : Grammar) : List Ty := g.groups.map Group.head

/-- The productions in the order of their ids. -/
def productions (g : Grammar) : List Production := g.vocabulary.productions.toList

def types (g : Grammar) : List Ty := g.vocabulary.types.toList

def fields (g : Grammar) : List Field := g.vocabulary.fields.toList

def primitiveTypes (g : Grammar) : List Ty := g.vocabulary.typesOfKind .primitive

def compositeTypes (g : Grammar) : List Ty := g.vocabulary.typesOfKind .composite

end Grammar

end Asdl
