import Asdl.Grammar.Group

/-!
The declarations of a grammar, made one by one. Each of them is put behind the earlier ones and into
the group of its head, and the indexes of constructors and of groups are kept in step.
-/
namespace Asdl

/-- What has been declared so far, in groups as well, and an index of the declared productions by
the names of their constructors. -/
structure Declarations extends GroupTable where
  declared : List Production
  positions : Index String
  positions_within : positions.Within declared.length

namespace Declarations

def empty : Declarations := ⟨.empty, [], .empty, Index.within_empty _⟩

/-- Puts a production behind the others and into its group. -/
def push (d : Declarations) (p : Production) : Declarations where
  toGroupTable := d.toGroupTable.add p
  declared := d.declared ++ [p]
  positions := d.positions.insert p.name d.declared.length
  positions_within := by simpa using d.positions_within.insert p.name

/-- Declares one more production, whose constructor has to be a new one. -/
def declare (d : Declarations) (p : Production) : Result Declarations :=
  match found : d.positions.get? p.name with
  | some first =>
    have := d.positions_within.lt found
    .error (.duplicateConstructor p.name d.declared[first].head.name p.head.name)
  | none => .ok (d.push p)

/-- Declares productions from first to last, up to the first one that is refused. -/
def ofProductions (productions : List Production) : Result Declarations :=
  productions.foldlM declare empty

@[simp] theorem push_declared (d : Declarations) (p : Production) :
    (d.push p).declared = d.declared ++ [p] := rfl

/-- A production is refused or pushed. -/
theorem eq_push_of_declare {d d' : Declarations} {p : Production} (h : d.declare p = .ok d') :
    d.positions.get? p.name = none ∧ d' = d.push p := by
  unfold declare at h
  split at h
  · cases h
  · next hnone => exact ⟨hnone, (Except.ok.inj h).symm⟩

theorem declared_of_foldlM {productions : List Production} {d d' : Declarations}
    (h : productions.foldlM declare d = .ok d') : d'.declared = d.declared ++ productions := by
  induction productions generalizing d with
  | nil =>
    cases h
    simp
  | cons p rest ih =>
    rw [List.foldlM_cons] at h
    cases hp : d.declare p with
    | error e =>
      rw [hp] at h
      cases h
    | ok next =>
      rw [hp] at h
      rw [ih h, (eq_push_of_declare hp).2]
      simp

theorem declared_of_ofProductions {productions : List Production} {d : Declarations}
    (h : ofProductions productions = .ok d) : d.declared = productions :=
  declared_of_foldlM h

end Declarations

end Asdl
