import Mathlib.Data.List.NodupEquivFin
import Mathlib.Order.WellFounded
import Asdl.Proofs.Grammar.Ids
import Asdl.Proofs.Grammar.Rejection
import Asdl.Proofs.Tree.Language

/-! Extension of a grammar by further productions. Catalogs are only interleaved with new entries,
kinds are kept, and trees over the old productions are judged as before, since all that the check
asks about them was known already. -/
namespace Asdl

/-- Whether the ids that one map gives are those of another after a shift, which keeps the order of
ids and makes none smaller. -/
def ShiftsIds {α : Type} (id? id'? : α → Option ℕ) : Prop :=
  ∃ shift : ℕ → ℕ, StrictMono shift ∧ (∀ i, i ≤ shift i) ∧
    ∀ a i, id? a = some i → id'? a = some (shift i)

lemma Numbering.shiftsIds {α : Type} [Setoid α] {id? id'? : α → Option ℕ}
    {ofId? ofId'? : ℕ → Option α} {catalog catalog' : List α} (h : Numbering id? ofId? catalog)
    (h' : Numbering id'? ofId'? catalog') (hs : catalog.Sublist catalog') :
    ShiftsIds id? id'? := by
  obtain ⟨shift, hshift⟩ := List.sublist_iff_exists_orderEmbedding_getElem?_eq.1 hs
  refine ⟨shift, shift.strictMono, fun i => shift.strictMono.le_apply, fun a i hi => ?_⟩
  obtain ⟨b, hb, he⟩ := (h.eq_some a i).1 hi
  refine (h'.eq_some a _).2 ⟨b, ?_, he⟩
  rw [h'.entry, ← hshift, ← h.entry, hb]

namespace Grammar

/-- What stays as it is from one grammar to another that declares more. -/
structure ConservedIn (g h : Grammar) : Prop where
  root : g.root = h.root
  productions : g.productions.Sublist h.productions
  types : g.types.Sublist h.types
  fields : g.fields.Sublist h.fields
  primitiveTypes : g.primitiveTypes.Sublist h.primitiveTypes
  compositeTypes : g.compositeTypes.Sublist h.compositeTypes
  productionIds : ShiftsIds g.productionId? h.productionId?
  typeIds : ShiftsIds g.typeId? h.typeId?
  fieldIds : ShiftsIds g.fieldId? h.fieldId?
  production : ∀ c p, g.production c = .ok p → h.production c = .ok p
  type? : ∀ name t, g.type? name = some t → h.type? name = some t
  isComposite : ∀ t, (g.type? t.name).isSome → g.isComposite t = h.isComposite t
  isPrimitive : ∀ t, (g.type? t.name).isSome → g.isPrimitive t = h.isPrimitive t
  validate : ∀ t : Tree, t.Built → t.Over g → g.validate t = h.validate t
  valid : ∀ t : Tree, t.Built → g.validate t = .ok () → h.validate t = .ok ()

section
variable {g h : Grammar} (hsub : g.declared ⊆ h.declared)
include hsub

lemma Declares.mono {t : Ty} (ht : g.Declares t) : h.Declares t := by
  obtain ⟨p, hp, ht⟩ := ht
  exact ⟨p, hsub hp, ht⟩

lemma productions_sublist : g.productions.Sublist h.productions := by
  refine g.increasing_productions.sublist_of_subset h.increasing_productions fun p hp => ?_
  exact h.productions_perm.mem_iff.2 (hsub (g.productions_perm.mem_iff.1 hp))

lemma types_sublist : g.types.Sublist h.types :=
  g.increasing_types.sublist_of_subset h.increasing_types fun _ ht =>
    h.mem_types.2 ((g.mem_types.1 ht).mono hsub)

lemma fields_sublist : g.fields.Sublist h.fields := by
  refine g.increasing_fields.sublist_of_subset h.increasing_fields fun f hf => ?_
  obtain ⟨p, hp, hf⟩ := g.mem_fields.1 hf
  exact h.mem_fields.2 ⟨p, hsub hp, hf⟩

/-- The kind of a name that has one does not change, as no name has two kinds. -/
lemma Declares.hasKind_eq {t : Ty} {kind : Kind} (ht : g.Declares ⟨t.name, kind⟩) (kind' : Kind) :
    g.hasKind kind' t = h.hasKind kind' t := by
  rw [Bool.eq_iff_iff, hasKind_eq_true, hasKind_eq_true]
  refine ⟨fun hg => hg.mono hsub, fun hh => ?_⟩
  have heq := hh.eq_of_name (ht.mono hsub) rfl
  rwa [heq]

lemma hasKind_eq_of_type? {t : Ty} (ht : (g.type? t.name).isSome) (kind : Kind) :
    g.hasKind kind t = h.hasKind kind t := by
  obtain ⟨u, hu⟩ := Option.isSome_iff_exists.1 ht
  obtain ⟨hu, hname⟩ := type?_eq_some.1 hu
  have hdeclares : g.Declares ⟨t.name, u.kind⟩ := hname ▸ g.mem_types.1 hu
  exact hdeclares.hasKind_eq hsub kind

/-- A tree over the smaller grammar asks for nothing that only the larger one knows: its nodes are
declared, and so are the types of their fields. -/
lemma validate_eq_of_over {t : Tree} (built : t.Built) (hover : t.Over g) :
    g.validate t = h.validate t := by
  unfold validate
  induction hover with
  | @node p slots hdeclared _ ih =>
    obtain ⟨q, hq, he⟩ := hdeclared
    rw [Tree.check, Tree.check, checkProduction_eq_ok.2 ⟨q, hq, he⟩,
      checkProduction_eq_ok.2 ⟨q, hsub hq, he⟩]
    -- the root passes in both grammars, so the verdicts can differ in the slots alone
    refine congrArg _ (funext fun _ => ?_)
    refine Tree.checkSlots_congr fun s hs v hv => Value.check_congr (fun kind => ?_) fun u hu => ?_
    · have hfield : s.field ∈ p.fields := built.wellFilled.fields ▸ List.mem_map_of_mem hs
      obtain ⟨_, hkind⟩ := declares_of_equiv hq he hfield
      exact hkind.hasKind_eq hsub kind
    · have hchild : Node.HasChild slots u := ⟨s, hs, hu ▸ hv⟩
      exact ih u hchild (built.child hchild)

theorem conservedIn_of_subset (hroot : g.root = h.root) : g.ConservedIn h where
  root := hroot
  productions := productions_sublist hsub
  types := types_sublist hsub
  fields := fields_sublist hsub
  primitiveTypes := (types_sublist hsub).filter _
  compositeTypes := (types_sublist hsub).filter _
  productionIds := g.numbering_productions.shiftsIds h.numbering_productions
    (productions_sublist hsub)
  typeIds := g.numbering_types.shiftsIds h.numbering_types (types_sublist hsub)
  fieldIds := g.numbering_fields.shiftsIds h.numbering_fields (fields_sublist hsub)
  production := fun c p hp => by
    obtain ⟨hp, hname⟩ := production_eq_ok.1 hp
    exact production_eq_ok.2 ⟨hsub hp, hname⟩
  type? := fun name t ht => by
    obtain ⟨ht, hname⟩ := type?_eq_some.1 ht
    exact type?_eq_some.2 ⟨(types_sublist hsub).subset ht, hname⟩
  isComposite := fun _ ht => hasKind_eq_of_type? hsub ht .composite
  isPrimitive := fun _ ht => hasKind_eq_of_type? hsub ht .primitive
  validate := fun _ built hover => validate_eq_of_over hsub built hover
  valid := fun _ built hvalid =>
    (validate_eq_of_over hsub built (Tree.over_of_check hvalid)).symm.trans hvalid

end

/-- Of productions that make a grammar, those at the front make one too, and nothing in it changes
by the rest. -/
theorem ofProductions_append {ps qs : List Production} {h : Grammar} (hne : ps ≠ [])
    (hh : ofProductions (ps ++ qs) = .ok h) :
    ∃ g, ofProductions ps = .ok g ∧ g.ConservedIn h := by
  have hdeclared : ps ++ qs = h.declared := ofProductions_eq_ok.1 hh
  obtain ⟨-, hnodup, hkinds⟩ := exists_ofProductions_iff.1 ⟨h, hh⟩
  obtain ⟨g, hg⟩ : ∃ g, ofProductions ps = .ok g := by
    refine exists_ofProductions_iff.2 ⟨hne, ?_, fun hboth => hkinds ?_⟩
    · exact hnodup.sublist ((List.sublist_append_left ps qs).map _)
    · obtain ⟨name, hname⟩ := hboth
      refine ⟨name, fun kind => ?_⟩
      rw [Ty.occurrences, List.flatMap_append]
      exact List.mem_append_left _ (hname kind)
  obtain rfl := ofProductions_eq_ok.1 hg
  have hsub : g.declared ⊆ h.declared := hdeclared ▸ List.subset_append_left _ _
  have hroot : g.root = h.root := by
    simp only [root, ← hdeclared, List.head_append_of_ne_nil hne]
  exact ⟨g, hg, conservedIn_of_subset hsub hroot⟩

/-- The first five productions of the English grammar. In the whole grammar two constructors come
before all of theirs, so that the first id becomes the third. -/
theorem ofProductions_append_english : English.productions.take 5 ≠ [] ∧ ∃ g h,
    ofProductions (English.productions.take 5) = .ok g ∧ English.grammar = .ok h ∧
    g.ConservedIn h ∧ g.productionId? English.productions[0] = some 0 ∧
    h.productionId? English.productions[0] = some 2 := by
  have hne : English.productions.take 5 ≠ [] := by decide
  obtain ⟨h, hh⟩ : ∃ h, English.grammar = .ok h := ⟨_, rfl⟩
  have hsplit : ofProductions (English.productions.take 5 ++ English.productions.drop 5) = .ok h :=
    hh
  obtain ⟨g, hg, hconserved⟩ := ofProductions_append hne hsplit
  have hid : (ofProductions (English.productions.take 5)).map
      (·.productionId? English.productions[0]) = .ok (some 0) := by decide +kernel
  have hid' : English.grammar.map (·.productionId? English.productions[0]) = .ok (some 2) := by
    decide +kernel
  rw [hg] at hid
  rw [hh] at hid'
  exact ⟨hne, g, h, hg, hh, hconserved, Except.ok.inj hid, Except.ok.inj hid'⟩

end Grammar

end Asdl
