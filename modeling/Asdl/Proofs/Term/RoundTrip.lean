import Asdl.English
import Asdl.Proofs.Term.Conversion
import Asdl.Proofs.Tree.Same

/-! The binding of terms to a grammar. A tree over the grammar is the tree of its term, up to kinds;
the term of a tree of a term is that term, but for the order of arguments; and a term has no tree
only if one of its nodes does not fit the grammar. -/
namespace Asdl

section Same
variable {α : Type} {R : α → α → Prop}

/-- Whether two lists of offers give, in turn, related values under the same names. -/
def OffersAlike (R : α → α → Prop) : List (String × α) → List (String × α) → Prop :=
  List.Forall₂ fun o o' => o.1 = o'.1 ∧ R o.2 o'.2

lemma OffersAlike.offered {offers others : List (String × α)} (h : OffersAlike R offers others)
    (name : String) : List.Forall₂ R (offered name offers) (offered name others) := by
  induction h with
  | nil => exact .nil
  | @cons o o' _ _ h _ ih =>
    rw [offered_cons, offered_cons, h.1]
    split
    · exact .cons h.2 ih
    · exact ih

lemma Field.kept_forall₂ {e f : Field} (he : e ≈ f) {values others : List α}
    (h : List.Forall₂ R values others) : List.Forall₂ R (e.kept values) (f.kept others) := by
  rw [kept, kept, (Field.equiv_iff.1 he).2.2]
  split
  · exact h
  · exact List.forall₂_take 1 h

/-- Slots that are filled by the same offers up to kinds are the same up to kinds. -/
lemma Tree.sameSlots_filled {offers others : List (String × Value)}
    (ho : OffersAlike (fun v w => v.same w = true) offers others) {fields fields' : List Field}
    (hf : List.Forall₂ (· ≈ ·) fields fields') (taken : List String) :
    sameSlots (Slot.filled offers taken fields) (Slot.filled others taken fields') = true := by
  induction hf generalizing taken with
  | nil => rw [Slot.filled, Slot.filled, sameSlots]
  | @cons e f _ _ he _ ih =>
    have hname : e.name = f.name := (Field.equiv_iff.1 he).1
    rw [Slot.filled, Slot.filled, sameSlots, hname, ih, decide_eq_true he, Bool.true_and,
      Bool.and_true, sameValues_iff]
    split
    · exact .nil
    · exact Field.kept_forall₂ he (ho.offered f.name)

end Same

namespace Term
variable {g : Grammar}

/-- What the slots of a node hold is converted back, up to kinds, if its children are. -/
lemma exists_converts_offers {slots : List (Slot Value)}
    (h : ∀ u, Node.HasChild slots u → ∃ u', toTree g (ofTree u) = .ok u' ∧ u'.same u = true) :
    ∃ offers, List.Forall₂ (Converts g)
        ((slots.flatMap Slot.offers).map (Prod.map id Argument.ofValue)) offers ∧
      OffersAlike (fun v w => v.same w = true) offers (slots.flatMap Slot.offers) := by
  have hvalue : ∀ o ∈ slots.flatMap Slot.offers, ∃ o' : String × Value,
      Converts g (Prod.map id Argument.ofValue o) o' ∧ o'.1 = o.1 ∧ o'.2.same o.2 = true := by
    intro o ho
    obtain ⟨s, hs, ho⟩ := List.mem_flatMap.1 ho
    obtain ⟨v, hv, rfl⟩ := List.mem_map.1 ho
    cases v with
    | token text => exact ⟨(s.field.name, .token text), ⟨rfl, rfl⟩, rfl, by simp [Value.same]⟩
    | tree u =>
      obtain ⟨u', hu', hsame⟩ := h u ⟨s, hs, hv⟩
      refine ⟨(s.field.name, .tree u'), ⟨rfl, toValue_term_eq_ok.2 ⟨u', hu', rfl⟩⟩, rfl, ?_⟩
      rwa [Value.same]
  obtain ⟨offers, hoffers⟩ := exists_forall₂_iff.2 hvalue
  exact ⟨offers, List.forall₂_map_left_iff.2 (hoffers.imp fun _ _ h => h.1),
    (hoffers.imp fun _ _ h => h.2).flip⟩

/-- A tree over a grammar comes back from its term, with the productions that the grammar declares
in place of those that are the same up to kinds. -/
lemma exists_toTree_ofTree {t : Tree} (built : t.Built) (hover : t.Over g) :
    ∃ t', toTree g (ofTree t) = .ok t' ∧ t'.same t = true := by
  induction hover with
  | @node p slots hdeclared _ ih =>
    obtain ⟨q, hq, he⟩ := hdeclared
    have hproduction : g.production p.name = .ok q :=
      Grammar.production_eq_ok.2 ⟨hq, Production.name_eq_of_equiv he⟩
    have hfilled : (⟨p, slots⟩ : Tree).WellFilled := built.wellFilled
    obtain ⟨offers, hconverts, halike⟩ :=
      exists_converts_offers fun u hchild => ih u hchild (built.child hchild)
    -- the node itself shows that there is room under these names
    have hroom : q.HasRoom (offers.map Prod.fst) := by
      have hp := Node.exists_addAll_empty_eq_ok.1 ⟨_, hfilled.addAll_offers⟩
      rw [← map_fst_of_converts hconverts, List.map_map]
      exact hp.of_equiv (Setoid.symm he)
    obtain ⟨t', ht'⟩ := Node.exists_addAll_empty_eq_ok.2 hroom
    have hslots := Tree.sameSlots_filled halike (Production.forall₂_fields_of_equiv he) []
    refine ⟨t', ?_, ?_⟩
    · rw [ofTree_eq]
      exact toTree_eq_ok.2 ⟨q, offers, hproduction, hconverts, ht'⟩
    · obtain rfl : Node.filled q offers = t' :=
        (Node.offerAll_empty q offers).symm.trans (Node.offerAll_of_addAll ht')
      rw [hfilled.eq_filled, Node.filled, Node.filled, Tree.same, Bool.and_eq_true]
      exact ⟨decide_eq_true he, hslots⟩

/-- The argument of a value of an argument is that argument in the order of the fields, if so it is
with the terms among the arguments. -/
lemma arranged_eq_ofValue {argument : Argument} {v : Value} (hv : argument.toValue g = .ok v)
    (h : ∀ u, argument = .term u → ∀ t, toTree g u = .ok t → ofTree t = arranged g u) :
    argument.arranged g = .ofValue v := by
  cases argument with
  | token text =>
    rw [Argument.toValue] at hv
    cases hv
    rw [Argument.arranged, Argument.ofValue]
  | term u =>
    obtain ⟨t, ht, rfl⟩ := toValue_term_eq_ok.1 hv
    rw [Argument.arranged, Argument.ofValue, h u rfl t ht]

/-- Sorting looks at names alone. -/
lemma arrange_map {α β : Type} (p : Production) (f : α → β) (offers : List (String × α)) :
    p.arrange (offers.map (Prod.map id f)) = (p.arrange offers).map (Prod.map id f) := by
  rw [Production.arrange, Production.arrange, List.map_mergeSort]
  simp

/-- The term of a tree of a term is the term in the order of the fields. -/
lemma ofTree_of_toTree {a : Term} {t : Tree} (h : toTree g a = .ok t) :
    ofTree t = arranged g a := by
  induction a using Term.induction generalizing t with
  | node c arguments ih =>
    obtain ⟨p, offers, hp, hconverts, hadd⟩ := toTree_eq_ok.1 h
    have harguments : arguments.map (Prod.map id (Argument.arranged g)) =
        offers.map (Prod.map id Argument.ofValue) := by
      refine map_eq_map_of_forall₂ hconverts fun o ho o' hconvert => Prod.ext hconvert.1 ?_
      exact arranged_eq_ofValue hconvert.2 fun u hu t ht => ih o.1 u (hu ▸ ho) ht
    have hname : t.production.name = c := by
      rw [(Node.exists_addAll_empty_iff.1 ⟨offers, hadd⟩).1]
      exact (Grammar.production_eq_ok.1 hp).2
    rw [ofTree_eq, arranged_eq hp, harguments, arrange_map, Node.offers_of_addAll hadd, hname]

/-- A term has a tree if each of its nodes, at any depth, has a declared constructor with room for
the arguments. -/
lemma exists_toTree_eq_ok_iff {a : Term} : (∃ t, toTree g a = .ok t) ↔ ∀ u, HasNode a u →
    ∃ p, g.production u.constructor = .ok p ∧ p.HasRoom (u.arguments.map Prod.fst) := by
  induction a using Term.induction with
  | node c arguments ih =>
    rw [forall_hasNode_iff]
    constructor
    · rintro ⟨t, h⟩
      obtain ⟨p, offers, hp, hconverts, hadd⟩ := toTree_eq_ok.1 h
      refine ⟨⟨p, hp, ?_⟩, fun name u hu => (ih name u hu).1 ?_⟩
      · rw [map_fst_of_converts hconverts]
        exact Node.exists_addAll_empty_eq_ok.1 ⟨t, hadd⟩
      · obtain ⟨o, -, ho⟩ := exists_forall₂_iff.1 ⟨offers, hconverts⟩ _ hu
        obtain ⟨t, ht, -⟩ := toValue_term_eq_ok.1 ho
        exact ⟨t, ht⟩
    · rintro ⟨⟨p, hp, hroom⟩, hbelow⟩
      have hvalue : ∀ a ∈ arguments, ∃ o, Converts g a o := by
        rintro ⟨name, argument⟩ ha
        cases argument with
        | token text => exact ⟨(name, .token text), rfl, rfl⟩
        | term u =>
          obtain ⟨t, ht⟩ := (ih name u ha).2 (hbelow name u ha)
          exact ⟨(name, .tree t), rfl, toValue_term_eq_ok.2 ⟨t, ht, rfl⟩⟩
      obtain ⟨offers, hconverts⟩ := exists_forall₂_iff.2 hvalue
      rw [map_fst_of_converts hconverts] at hroom
      obtain ⟨t, ht⟩ := Node.exists_addAll_empty_eq_ok.2 hroom
      exact ⟨t, toTree_eq_ok.2 ⟨p, offers, hp, hconverts, ht⟩⟩

/-- Whether a node of a term names what the grammar does not have, or a field once too often. Of
fields of one name the first is meant. -/
def Misfit (g : Grammar) (a : Term) : Prop :=
  (∀ p ∈ g.declared, p.name ≠ a.constructor) ∨
  ∃ p ∈ g.declared, p.name = a.constructor ∧ ∃ name ∈ a.arguments.map Prod.fst,
    (∀ f ∈ p.fields, f.name ≠ name) ∨
    ∃ f, p.fields.find? (·.name = name) = some f ∧ f.cardinality ≠ .multiple ∧
      2 ≤ (a.arguments.map Prod.fst).count name

lemma misfit_iff {a : Term} : Misfit g a ↔
    ¬ ∃ p, g.production a.constructor = .ok p ∧ p.HasRoom (a.arguments.map Prod.fst) := by
  simp only [Grammar.production_eq_ok, Misfit, ← Production.not_hasRoom_iff]
  constructor
  · rintro (hunknown | ⟨p, hp, hname, hroom⟩) ⟨q, ⟨hq, hqname⟩, hqroom⟩
    · exact hunknown q hq hqname
    · rw [List.inj_on_of_nodup_map g.nodup_names hp hq (hname.trans hqname.symm)] at hroom
      exact hroom hqroom
  · intro h
    by_cases hknown : ∃ p ∈ g.declared, p.name = a.constructor
    · obtain ⟨p, hp, hname⟩ := hknown
      exact .inr ⟨p, hp, hname, fun hroom => h ⟨p, ⟨hp, hname⟩, hroom⟩⟩
    · push Not at hknown
      exact .inl hknown

/-- The two conversions of the binding. From a tree over the grammar to its term and back nothing is
lost but kinds; from a term to its tree and back nothing but the order of arguments of different
fields; and a term has no tree exactly if one of its nodes, at any depth, does not fit. -/
theorem conversions_round_trip (g : Grammar) :
    (∀ t : Tree, t.Built → t.Over g → ∃ t', toTree g (ofTree t) = .ok t' ∧ t' ≈ t) ∧
    (∀ (a : Term) (t : Tree), toTree g a = .ok t → ofTree t = arranged g a) ∧
    ∀ a : Term, (∃ e, toTree g a = .error e) ↔ ∃ u, HasNode a u ∧ Misfit g u := by
  refine ⟨fun t built hover => exists_toTree_ofTree built hover, fun a t h => ofTree_of_toTree h,
    fun a => ?_⟩
  have herror : (∃ e, toTree g a = .error e) ↔ ¬ ∃ t, toTree g a = .ok t := by
    cases toTree g a <;> simp
  rw [herror, exists_toTree_eq_ok_iff]
  simp only [misfit_iff]
  push Not
  rfl

/-- In the English grammar: a tree whose head is given another kind comes back, a noun has its
arguments put in order, and a pronoun has no tree if its only field is given twice. -/
theorem conversions_round_trip_english : ∃ g, English.grammar = .ok g ∧
    (∃ t t' : Tree, t.Built ∧ t.Over g ∧ t.production.head = ⟨"VerbPhrase", .primitive⟩ ∧
      toTree g (ofTree t) = .ok t' ∧ t' ≈ t) ∧
    arranged g ⟨"Noun", [("head", .token "cat"), ("adj", .token "big"), ("det", .token "the"),
      ("adj", .token "old")]⟩ = ⟨"Noun", [("det", .token "the"), ("adj", .token "big"),
      ("adj", .token "old"), ("head", .token "cat")]⟩ ∧
    ∃ e, toTree g ⟨"Pronoun", [("head", .token "it"), ("head", .token "she")]⟩ = .error e := by
  obtain ⟨g, hg⟩ : ∃ g, English.grammar = .ok g := ⟨_, rfl⟩
  have hdeclared : g.declared = English.productions := Grammar.declared_of_ofProductions hg
  obtain ⟨hround, harranged, herror⟩ := conversions_round_trip g
  refine ⟨g, hg, ?_, ?_, (herror _).2 ⟨_, .root _, .inr ?_⟩⟩
  · obtain ⟨t, ht⟩ : ∃ t : Tree, t = (Node.empty { English.productions[6] with
        head := ⟨"VerbPhrase", .primitive⟩ }).offer "verb" (.token "go") := ⟨_, rfl⟩
    have built : t.Built := ht ▸ .offerToken "verb" "go" (.empty _)
    have accepted : (English.grammar.bind (·.validate t)).isOk = true := by
      rw [ht]
      decide +kernel
    rw [hg] at accepted
    have hover : t.Over g := Tree.over_of_check (Result.eq_ok_of_isOk accepted)
    obtain ⟨t', ht', hsame⟩ := hround t built hover
    exact ⟨t, t', built, hover, ht ▸ rfl, ht', hsame⟩
  · let noun := English.productions[3]
    let offers := [("head", Value.token "cat"), ("adj", .token "big"), ("det", .token "the"),
      ("adj", .token "old")]
    have hnoun : g.production "Noun" = .ok noun :=
      Grammar.production_eq_ok.2 ⟨by simp [noun, hdeclared], rfl⟩
    have hterm : toTree g ⟨"Noun", [("head", .token "cat"), ("adj", .token "big"),
        ("det", .token "the"), ("adj", .token "old")]⟩ = .ok (Node.filled noun offers) :=
      toTree_eq_ok.2 ⟨noun, offers, hnoun, by simp [offers, Converts, Argument.toValue], rfl⟩
    rw [← harranged _ _ hterm]
    rfl
  · refine ⟨English.productions[4], by simp [hdeclared], rfl, "head", by decide, .inr ?_⟩
    exact ⟨⟨"head", English.word, .single⟩, rfl, by decide, by decide⟩

end Term

end Asdl
