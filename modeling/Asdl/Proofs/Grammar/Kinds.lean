import Asdl.English
import Asdl.Proofs.Grammar.Coverage
import Asdl.Proofs.Grammar.Groups

/-! Kinds. A type name has the same kind wherever it occurs in a grammar, and questions about a type
are answered by that kind, whatever kind the type in the question carries. -/
namespace Asdl.Grammar

/-- Whether a type, with its kind, stands anywhere in a grammar: in what is declared, in a group or
in a catalog, or as the root. -/
inductive Occurs (g : Grammar) : Ty → Prop
  | declared {p : Production} {t : Ty} (hp : p ∈ g.declared) (ht : p.Mentions t) : Occurs g t
  | group {group : Group} (hgroup : group ∈ g.groups) : Occurs g group.head
  | grouped {group : Group} {p : Production} {t : Ty} (hgroup : group ∈ g.groups)
    (hp : p ∈ group.productions) (ht : p.Mentions t) : Occurs g t
  | production {p : Production} {t : Ty} (hp : p ∈ g.productions) (ht : p.Mentions t) : Occurs g t
  | field {f : Field} (hf : f ∈ g.fields) : Occurs g f.type
  | type {t : Ty} (ht : t ∈ g.types) : Occurs g t
  | root : Occurs g g.root

variable {g : Grammar}

/-- Grouping and sorting bring in no type that is not declared. -/
lemma Occurs.declares {t : Ty} (h : g.Occurs t) : g.Declares t := by
  cases h with
  | declared hp ht => exact ⟨_, hp, ht⟩
  | @group group hgroup =>
    obtain ⟨p, hp, he⟩ := g.grouping.head group hgroup
    exact ⟨p, hp, he ▸ p.mentions_head⟩
  | grouped hgroup hp ht => exact ⟨_, mem_declared_of_mem_group hgroup hp, ht⟩
  | production hp ht => exact ⟨_, g.productions_perm.mem_iff.1 hp, ht⟩
  | field hf =>
    obtain ⟨p, hp, hf⟩ := g.mem_fields.1 hf
    exact ⟨p, hp, Production.mentions_type hf⟩
  | type ht => exact g.mem_types.1 ht
  | root => exact ⟨_, List.head_mem g.declared_ne_nil, Production.mentions_head _⟩

/-- A question about a type is one about the declared type of its name. -/
lemma Declares.hasKind_iff {t u : Ty} (hu : g.Declares u) (hname : t.name = u.name) (kind : Kind) :
    g.hasKind kind t = true ↔ u.kind = kind := by
  rw [hasKind_eq_true]
  constructor
  · intro ht
    exact congrArg Ty.kind (hu.eq_of_name ht hname.symm)
  · rintro rfl
    rwa [hname]

/-- No kind is answered for a type of an undeclared name. -/
lemma type?_eq_none {name : String} (h : ∀ u, g.Occurs u → u.name ≠ name) :
    g.type? name = none := by
  cases htype : g.type? name with
  | none => rfl
  | some u =>
    obtain ⟨hu, hname⟩ := type?_eq_some.1 htype
    exact absurd hname (h u (.type hu))

/-- A name has one kind throughout a grammar. That kind alone decides whether a type of the name is
composite or primitive in the grammar; a type of no name in the grammar is neither, and is not
found. -/
theorem kinds_consistent (g : Grammar) :
    (∀ t u, g.Occurs t → g.Occurs u → t.name = u.name → t.kind = u.kind) ∧
    (∀ t u, g.Occurs u → t.name = u.name →
      g.type? t.name = some u ∧
      (g.isComposite t = true ↔ u.kind = .composite) ∧
      (g.isPrimitive t = true ↔ u.kind = .primitive) ∧
      g.isComposite t = !g.isPrimitive t) ∧
    (∀ t : Ty, (∀ u, g.Occurs u → u.name ≠ t.name) →
      g.type? t.name = none ∧ g.isComposite t = false ∧ g.isPrimitive t = false) := by
  refine ⟨fun t u ht hu hname => ?_, fun t u hu hname => ?_, fun t hfresh => ?_⟩
  · exact congrArg Ty.kind (ht.declares.eq_of_name hu.declares hname)
  · have hcomposite := hu.declares.hasKind_iff hname .composite
    have hprimitive := hu.declares.hasKind_iff hname .primitive
    refine ⟨type?_eq_some.2 ⟨g.mem_types.2 hu.declares, hname.symm⟩, hcomposite, hprimitive, ?_⟩
    rw [Bool.eq_iff_iff, Bool.not_eq_true', ← Bool.not_eq_true, isComposite, isPrimitive,
      hcomposite, hprimitive]
    cases u.kind <;> simp
  · have hnone := type?_eq_none hfresh
    exact ⟨hnone, by simp [isComposite, hasKind, hnone], by simp [isPrimitive, hasKind, hnone]⟩

/-- Words are primitive in the English grammar, also for a question that takes them for composite;
and of sentences in another spelling it knows nothing. -/
theorem kinds_consistent_english : ∃ g, English.grammar = .ok g ∧ g.Occurs English.word ∧
    (∀ t : Ty, t.name = "word" → g.isPrimitive t = true ∧ g.isComposite t = false) ∧
    g.isComposite ⟨"sentence", .composite⟩ = false := by
  obtain ⟨g, hg⟩ : ∃ g, English.grammar = .ok g := ⟨_, rfl⟩
  have hdeclared : g.declared = English.productions := declared_of_ofProductions hg
  have hnoun : English.productions[3] ∈ g.declared := by simp [hdeclared]
  have hword : g.Occurs English.word := .declared hnoun (Production.mentions_iff.2 (by decide))
  obtain ⟨-, hknown, hunknown⟩ := kinds_consistent g
  refine ⟨g, hg, hword, fun t ht => ?_, ?_⟩
  · obtain ⟨-, -, hprimitive, hother⟩ := hknown t English.word hword ht
    have hp : g.isPrimitive t = true := hprimitive.2 rfl
    exact ⟨hp, by rw [hother, hp]; rfl⟩
  · have hnames : ∀ p ∈ English.productions, ∀ u ∈ p.types, u.name ≠ "sentence" := by decide
    refine (hunknown ⟨"sentence", .composite⟩ fun u hu => ?_).2.1
    obtain ⟨p, hp, ht⟩ := hu.declares
    exact hnames p (hdeclared ▸ hp) u (Production.mentions_iff.1 ht)

end Asdl.Grammar
