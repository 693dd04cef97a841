import Asdl.Grammar.Declarations
import Asdl.Proofs.Grammar.Grouping
import Asdl.Proofs.Result

/-! Declaring productions one by one. All indexes tell the truth after each of them; so a production
is refused exactly if its constructor is declared, and then against the production that declares
it. -/
namespace Asdl

/-- Whether `second` is the first production whose constructor is declared before it, by `first`. -/
def Production.FirstRepeated (ps : List Production) (first second : Production) : Prop :=
  ∃ before after, ps = before ++ second :: after ∧ (before.map (·.constructor.name)).Nodup ∧
    first ∈ before ∧ first.constructor.name = second.constructor.name

namespace Declarations
variable {d d' : Declarations} {p : Production} {ps : List Production} {e : Error}

/-- What holds between two declarations: the groups are those of what is declared, each slot is that
of a group, and each position that of a declared production. -/
structure Indexed (d : Declarations) : Prop where
  groups : d.Holds d.declared
  positions : d.positions.Locates Production.name d.declared

lemma indexed_empty : empty.Indexed := ⟨GroupTable.holds_empty, .empty _⟩

lemma Indexed.push (h : d.Indexed) (hnew : d.positions.get? p.name = none) :
    (d.push p).Indexed :=
  ⟨h.groups.add p, h.positions.concat hnew⟩

lemma Indexed.declare (h : d.Indexed) (hp : d.declare p = .ok d') : d'.Indexed := by
  obtain ⟨hnew, rfl⟩ := eq_push_of_declare hp
  exact h.push hnew

/-- A production of a new constructor is pushed. -/
lemma Indexed.declare_eq_push (h : d.Indexed) (hnew : p.name ∉ d.declared.map Production.name) :
    d.declare p = .ok (d.push p) := by
  have hnone := h.positions.get?_eq_none.2 hnew
  unfold Declarations.declare
  split
  · next found => cases hnone.symm.trans found
  · rfl

/-- A production is refused against the one that declares its constructor. -/
lemma Indexed.declare_eq_error (h : d.Indexed) : d.declare p = .error e ↔
    ∃ first ∈ d.declared, first.name = p.name ∧
      e = .duplicateConstructor p.name first.head.name p.head.name := by
  unfold Declarations.declare
  split
  · next first found =>
    have hfirst := d.positions_within.lt found
    have hname : d.declared[first].name = p.name := h.positions.key_getElem found hfirst
    rw [Except.error.injEq, eq_comm]
    constructor
    · exact fun he => ⟨_, List.getElem_mem hfirst, hname, he⟩
    · rintro ⟨q, hq, hqname, he⟩
      rwa [List.inj_on_of_nodup_map h.positions.nodup (List.getElem_mem hfirst) hq
        (hname.trans hqname.symm)]
  · next hnone =>
    refine ⟨nofun, ?_⟩
    rintro ⟨q, hq, hqname, -⟩
    exact absurd (hqname ▸ List.mem_map_of_mem hq) (h.positions.get?_eq_none.1 hnone)

lemma indexed_of_foldlM (h : d.Indexed) (hps : ps.foldlM Declarations.declare d = .ok d') :
    d'.Indexed := by
  induction ps generalizing d with
  | nil =>
    cases hps
    exact h
  | cons p rest ih =>
    obtain ⟨next, hp, hrest⟩ := Result.bind_eq_ok.1 hps
    exact ih (h.declare hp) hrest

/-- The indexes tell the truth about any productions that are declared, in whatever order their
heads come. -/
theorem indexed_of_ofProductions (h : ofProductions ps = .ok d) : d.Indexed :=
  indexed_of_foldlM indexed_empty h

lemma nodup_of_ofProductions (h : ofProductions ps = .ok d) : (ps.map Production.name).Nodup := by
  have hnodup := (indexed_of_ofProductions h).positions.nodup
  rwa [declared_of_ofProductions h] at hnodup

/-- Productions are declared to the end exactly if their constructors differ. -/
theorem exists_ofProductions_iff :
    (∃ d, ofProductions ps = .ok d) ↔ (ps.map Production.name).Nodup := by
  constructor
  · rintro ⟨d, h⟩
    exact nodup_of_ofProductions h
  · intro h
    induction ps using List.reverseRecOn with
    | nil => exact ⟨empty, rfl⟩
    | append_singleton ps p ih =>
      obtain ⟨hfresh, hdistinct⟩ := nodup_map_concat.1 h
      obtain ⟨d, hd⟩ := ih hdistinct
      have hnew : p.name ∉ d.declared.map Production.name := by
        rwa [declared_of_ofProductions hd]
      have hpush := (indexed_of_ofProductions hd).declare_eq_push hnew
      refine ⟨d.push p, ?_⟩
      rw [ofProductions, List.foldlM_append, Result.bind_eq_ok]
      exact ⟨d, hd, Result.bind_eq_ok.2 ⟨_, hpush, rfl⟩⟩

/-- Productions are refused at the first repetition. -/
theorem ofProductions_eq_error : ofProductions ps = .error e ↔
    ∃ first second, Production.FirstRepeated ps first second ∧
      e = .duplicateConstructor second.name first.head.name second.head.name := by
  rw [ofProductions, Result.foldlM_eq_error]
  constructor
  · rintro ⟨before, second, after, d, hsplit, hbefore, hsecond⟩
    have hdeclared : d.declared = before := declared_of_ofProductions hbefore
    obtain ⟨first, hfirst, hname, rfl⟩ :=
      (indexed_of_ofProductions hbefore).declare_eq_error.1 hsecond
    exact ⟨first, second, ⟨before, after, hsplit, nodup_of_ofProductions hbefore,
      hdeclared ▸ hfirst, hname⟩, rfl⟩
  · rintro ⟨first, second, ⟨before, after, hsplit, hnodup, hfirst, hname⟩, rfl⟩
    obtain ⟨d, hbefore⟩ := exists_ofProductions_iff.2 hnodup
    have hdeclared : d.declared = before := declared_of_ofProductions hbefore
    exact ⟨before, second, after, d, hsplit, hbefore,
      (indexed_of_ofProductions hbefore).declare_eq_error.2
        ⟨first, hdeclared ▸ hfirst, hname, rfl⟩⟩

lemma exists_firstRepeated_iff : (∃ first second, Production.FirstRepeated ps first second) ↔
    ¬ (ps.map Production.name).Nodup := by
  rw [← exists_ofProductions_iff]
  cases h : ofProductions ps with
  | ok d =>
    refine ⟨?_, fun hnone => absurd ⟨d, rfl⟩ hnone⟩
    rintro ⟨first, second, hrepeated⟩
    cases h.symm.trans (ofProductions_eq_error.2 ⟨first, second, hrepeated, rfl⟩)
  | error e =>
    obtain ⟨first, second, hrepeated, -⟩ := ofProductions_eq_error.1 h
    exact ⟨fun _ => nofun, fun _ => ⟨first, second, hrepeated⟩⟩

end Declarations

end Asdl
