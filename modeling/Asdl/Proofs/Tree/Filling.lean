import Mathlib.Algebra.Ring.Nat
import Asdl.Proofs.Tree.Building
import Asdl.Tree.Basic

/-! What a node holds after any run of offers, taken or refused. The first field of a name keeps the
values that are offered under the name, or the first of them if it allows no more; a field behind
another of its name stays empty. Every answer to a further offer follows from this form. -/
namespace Asdl
variable {α : Type}

/-- The values that are offered under a name, first to last. -/
def offered (name : String) (offers : List (String × α)) : List α :=
  (offers.filter (·.1 = name)).map Prod.snd

lemma offered_append (name : String) (offers others : List (String × α)) :
    offered name (offers ++ others) = offered name offers ++ offered name others := by
  simp [offered]

lemma offered_snoc (name : String) (offers : List (String × α)) (other : String) (value : α) :
    offered name (offers ++ [(other, value)]) =
      if other = name then offered name offers ++ [value] else offered name offers := by
  by_cases h : other = name <;> simp [offered, h]

lemma offered_eq_nil_iff {name : String} {offers : List (String × α)} :
    offered name offers = [] ↔ name ∉ offers.map Prod.fst := by
  rw [offered, List.map_eq_nil_iff, List.filter_eq_nil_iff, List.mem_map, not_exists]
  simp

/-- What a field keeps of the values that are offered to it. -/
def Field.kept (f : Field) (values : List α) : List α :=
  if f.cardinality = .multiple then values else values.take 1

/-- A field that allows one value has no room for a second one. -/
lemma Field.kept_snoc {f : Field} (hf : f.cardinality ≠ .multiple) {values : List α}
    (hv : values ≠ []) (value : α) : f.kept (values ++ [value]) = f.kept values := by
  obtain ⟨first, rest, rfl⟩ := List.exists_cons_of_ne_nil hv
  simp [Field.kept, hf]

/-- A field with room keeps what is offered next. -/
lemma Field.kept_snoc_of_room {f : Field} {values : List α}
    (h : f.cardinality = .multiple ∨ values = []) (value : α) :
    f.kept (values ++ [value]) = f.kept values ++ [value] := by
  obtain hmany | rfl := h <;> simp [Field.kept, *]

lemma Field.kept_eq_nil {f : Field} {values : List α} : f.kept values = [] ↔ values = [] := by
  by_cases hmany : f.cardinality = .multiple <;> simp [Field.kept, hmany]

namespace Slot
variable {name : String} {value : α}

/-- The slots of fields after offers. A name in `taken` is that of an earlier field, which receives
all that is offered under it. -/
def filled (offers : List (String × α)) : List String → List Field → List (Slot α)
  | _, [] => []
  | taken, f :: rest =>
    ⟨f, if f.name ∈ taken then [] else f.kept (offered f.name offers)⟩ ::
      filled offers (f.name :: taken) rest

lemma filled_nil (taken : List String) (fields : List Field) :
    filled [] taken fields = fields.map fun f => (⟨f, []⟩ : Slot α) := by
  induction fields generalizing taken with
  | nil => rfl
  | cons f rest ih => simp [filled, ih, offered, Field.kept]

/-- Only what the first field of a name keeps matters to the slots. -/
lemma filled_congr {offers others : List (String × α)} {taken : List String} {fields : List Field}
    (h : ∀ f, f.name ∉ taken → fields.find? (·.name = f.name) = some f →
      f.kept (offered f.name offers) = f.kept (offered f.name others)) :
    filled offers taken fields = filled others taken fields := by
  induction fields generalizing taken with
  | nil => rfl
  | cons f rest ih =>
    have hrest : filled offers (f.name :: taken) rest = filled others (f.name :: taken) rest := by
      refine ih fun g hg hfirst => h g (fun hmem => hg (by simp [hmem])) ?_
      have hne : f.name ≠ g.name := fun he => hg (by simp [he])
      simpa [hne] using hfirst
    rw [filled, filled, hrest]
    by_cases hf : f.name ∈ taken
    · rw [if_pos hf, if_pos hf]
    · rw [h f hf (by simp)]

lemma filled_congr_of_offered {offers others : List (String × α)} {taken : List String}
    {fields : List Field} (h : ∀ name ∉ taken, offered name offers = offered name others) :
    filled offers taken fields = filled others taken fields :=
  filled_congr fun f hf _ => by rw [h f.name hf]

/-- A refused offer changes nothing: its name is no field's, or the field has its one value. -/
lemma filled_snoc_of_refused {offers : List (String × α)} {taken : List String}
    {fields : List Field} (h : ∀ f, fields.find? (·.name = name) = some f →
      f.cardinality ≠ .multiple ∧ offered name offers ≠ []) :
    filled (offers ++ [(name, value)]) taken fields = filled offers taken fields := by
  refine filled_congr fun f _ hfirst => ?_
  rw [offered_snoc]
  split
  · next he =>
    subst he
    obtain ⟨hf, hv⟩ := h f hfirst
    exact Field.kept_snoc hf hv value
  · rfl

/-- The first slot of a name is that of the first field of the name. One more offer under the name
goes there, and no other slot changes. -/
lemma filled_eq_append_cons {offers : List (String × α)} {taken : List String}
    {fields : List Field} {before after : List (Slot α)} {s : Slot α}
    (h : filled offers taken fields = before ++ s :: after) (htaken : name ∉ taken)
    (hbefore : ∀ r ∈ before, r.field.name ≠ name) (hs : s.field.name = name) (value : α) :
    fields.find? (·.name = name) = some s.field ∧ s.values = s.field.kept (offered name offers) ∧
    filled (offers ++ [(name, value)]) taken fields =
      before ++ ⟨s.field, s.field.kept (offered name offers ++ [value])⟩ :: after := by
  induction fields generalizing taken before with
  | nil => simp [filled] at h
  | cons f rest ih =>
    rw [filled] at h
    cases before with
    | nil =>
      obtain ⟨rfl, rfl⟩ := List.cons.inj h
      obtain rfl : f.name = name := hs
      have hbehind : filled (offers ++ [(f.name, value)]) (f.name :: taken) rest =
          filled offers (f.name :: taken) rest := by
        refine filled_congr_of_offered fun other hother => ?_
        rw [offered_snoc, if_neg fun he => hother (by simp [he])]
      refine ⟨by simp, if_neg htaken, ?_⟩
      rw [filled, hbehind, if_neg htaken, offered_snoc, if_pos rfl]
      rfl
    | cons b before =>
      obtain ⟨rfl, hrest⟩ := List.cons.inj h
      obtain ⟨hf, hbefore⟩ := List.forall_mem_cons.1 hbefore
      obtain ⟨hfirst, hvalues, hfilled⟩ :=
        ih hrest (List.not_mem_cons_of_ne_of_not_mem (Ne.symm hf) htaken) hbefore
      refine ⟨?_, hvalues, ?_⟩
      · rw [List.find?_cons_of_neg (by simpa using hf), hfirst]
      · rw [filled, hfilled, offered_snoc, if_neg (Ne.symm hf)]
        rfl

lemma map_field_filled (offers : List (String × α)) (taken : List String) (fields : List Field) :
    (filled offers taken fields).map Slot.field = fields := by
  induction fields generalizing taken with
  | nil => rfl
  | cons f rest ih => rw [filled, List.map_cons, ih]

end Slot

namespace Node
variable {name : String} {value : α}

/-- The node of a production after offers to its empty node, in closed form. -/
def filled (p : Production) (offers : List (String × α)) : Node α :=
  ⟨p, Slot.filled offers [] p.fields⟩

/-- The node after a run of offers, each of them taken or not. -/
def offerAll (t : Node α) (offers : List (String × α)) : Node α :=
  offers.foldl (fun t o => t.offer o.1 o.2) t

/-- The values of a run of offers that are taken, first to last. -/
def accepted : Node α → List (String × α) → List α
  | _, [] => []
  | t, (name, value) :: rest =>
    match t.addValue name value with
    | (.ok (), after) => value :: accepted after rest
    | (.error _, after) => accepted after rest

/-- The answer to a call under a name, after offers to the empty node. -/
def answer (p : Production) (offers : List (String × α)) (name : String) : Result Unit :=
  match p.fields.find? (·.name = name) with
  | none => .error (.unknownField p.name name)
  | some f =>
    if f.cardinality = .multiple ∨ offered name offers = [] then .ok ()
    else .error (.cardinalityViolation name f.cardinality)

lemma filled_nil (p : Production) : (filled p [] : Node α) = empty p := by
  rw [filled, Slot.filled_nil, empty]

/-- A further call to a filled node: its answer, and the node after it. -/
lemma addValue_filled (p : Production) (offers : List (String × α)) (name : String) (value : α) :
    (filled p offers).addValue name value =
      (answer p offers name, filled p (offers ++ [(name, value)])) := by
  have hrefused (h : ∀ f, p.fields.find? (·.name = name) = some f →
      f.cardinality ≠ .multiple ∧ offered name offers ≠ []) :
      filled p (offers ++ [(name, value)]) = filled p offers := by
    rw [filled, filled, Slot.filled_snoc_of_refused h]
  obtain ⟨hfresh, hcall⟩ | ⟨before, s, after, hslots, hbefore, hs, hcall⟩ :=
    (filled p offers).addValue_cases name value
  · have hnone : p.fields.find? (·.name = name) = none := by
      rw [← Slot.map_field_filled offers [] p.fields, List.find?_eq_none, List.forall_mem_map]
      exact fun s hs => by simpa using hfresh s hs
    rw [hcall, answer, hnone, hrefused (by simp [hnone])]
    rfl
  · obtain ⟨hfirst, hvalues, hfilled⟩ :=
      Slot.filled_eq_append_cons hslots List.not_mem_nil hbefore hs value
    have hroom : s.field.cardinality.allowsMany = true ∨ s.values = [] ↔
        s.field.cardinality = .multiple ∨ offered name offers = [] := by
      rw [hvalues, Field.kept_eq_nil, Cardinality.allowsMany_eq_true]
    rw [hcall, answer, hfirst]
    by_cases h : s.field.cardinality = .multiple ∨ offered name offers = []
    · simp only [if_pos (hroom.2 h), if_pos h]
      rw [hvalues, ← Field.kept_snoc_of_room h, filled, filled, hfilled]
    · simp only [if_neg (mt hroom.1 h), if_neg h]
      rw [hrefused]
      intro f hf
      cases hfirst.symm.trans hf
      exact not_or.1 h

lemma offer_filled (p : Production) (offers : List (String × α)) :
    (filled p offers).offer name value = filled p (offers ++ [(name, value)]) := by
  rw [offer, addValue_filled]

/-- What a call fails with, if it fails. -/
lemma answer_eq_error {p : Production} {offers : List (String × α)} {e : Error} :
    answer p offers name = .error e ↔
      (∀ f ∈ p.fields, f.name ≠ name) ∧ e = .unknownField p.name name ∨
      ∃ f, p.fields.find? (·.name = name) = some f ∧ f.cardinality ≠ .multiple ∧
        name ∈ offers.map Prod.fst ∧ e = .cardinalityViolation name f.cardinality := by
  rw [answer]
  cases hfirst : p.fields.find? (·.name = name) with
  | none =>
    have hnone : ∀ f ∈ p.fields, f.name ≠ name := by simpa using hfirst
    simp only [reduceCtorEq, false_and, exists_false, or_false, and_iff_right hnone, eq_comm,
      Except.error.injEq]
  | some f =>
    have hknown : ¬ ∀ g ∈ p.fields, g.name ≠ name := fun h =>
      h f (List.mem_of_find?_eq_some hfirst) (by simpa using List.find?_some hfirst)
    simp only [hknown, false_and, false_or, Option.some.injEq, exists_eq_left']
    by_cases hroom : f.cardinality = .multiple ∨ offered name offers = []
    · rw [if_pos hroom]
      rw [offered_eq_nil_iff] at hroom
      exact ⟨nofun, fun h => absurd hroom (not_or.2 ⟨h.1, not_not.2 h.2.1⟩)⟩
    · rw [if_neg hroom]
      rw [not_or, offered_eq_nil_iff, not_not] at hroom
      simp only [ne_eq, hroom, not_false_eq_true, true_and, Except.error.injEq, eq_comm]

/-- A call under another name does not matter. -/
lemma answer_snoc_of_ne {p : Production} {offers : List (String × α)} {other : String}
    (h : other ≠ name) (value : α) :
    answer p (offers ++ [(other, value)]) name = answer p offers name := by
  rw [answer, answer, offered_snoc, if_neg h]

lemma offerAll_filled (p : Production) (earlier offers : List (String × α)) :
    offerAll (filled p earlier) offers = filled p (earlier ++ offers) := by
  induction offers generalizing earlier with
  | nil => rw [List.append_nil, offerAll, List.foldl_nil]
  | cons o rest ih =>
    rw [offerAll, List.foldl_cons, offer_filled, ← offerAll, ih, List.append_assoc]
    rfl

/-- A run of offers to an empty node leaves the filled node. -/
theorem offerAll_empty (p : Production) (offers : List (String × α)) :
    offerAll (empty p) offers = filled p offers := by
  rw [← filled_nil, offerAll_filled, List.nil_append]

/-- Offers under different names may change places. -/
lemma filled_swap (p : Production) (earlier later : List (String × α)) {a b : String × α}
    (h : a.1 ≠ b.1) :
    filled p (earlier ++ a :: b :: later) = filled p (earlier ++ b :: a :: later) := by
  rw [filled, filled, Slot.filled_congr_of_offered]
  intro name _
  rw [offered_append, offered_append]
  congr 1
  by_cases ha : a.1 = name
  · have hb : b.1 ≠ name := fun hb => h (ha.trans hb.symm)
    simp [offered, ha, hb]
  · by_cases hb : b.1 = name <;> simp [offered, ha, hb]

/-- A node that has what it needs keeps it. -/
lemma IsComplete.offer {t : Node α} (h : t.IsComplete) (name : String) (value : α) :
    (t.offer name value).IsComplete := by
  obtain he | hadd := t.offer_eq_or name value
  · rwa [he]
  · obtain ⟨before, s, after, hslots, -, -, hfree, hoffer⟩ := add_eq_ok.1 hadd
    rw [IsComplete, hslots] at h
    rw [hoffer]
    intro r hr
    obtain hr | rfl | hr : r ∈ before ∨ r = _ ∨ r ∈ after := by simpa using hr
    · exact h r (by simp [hr])
    · intro (hsingle : s.field.cardinality = .single)
      have hlength : s.values.length = 1 := h s (by simp) hsingle
      -- a single field that is filled has no room, so the value was not taken
      rcases hfree with hmany | hnil
      · simp [hsingle] at hmany
      · simp [hnil] at hlength
    · exact h r (by simp [hr])

lemma IsComplete.offerAll {t : Node α} (h : t.IsComplete) (offers : List (String × α)) :
    (t.offerAll offers).IsComplete := by
  induction offers generalizing t with
  | nil => exact h
  | cons o rest ih => exact ih (h.offer o.1 o.2)

end Node

namespace Tree

lemma valuesSize_append (values others : List Value) :
    valuesSize (values ++ others) = valuesSize values + valuesSize others := by
  induction values with
  | nil => simp [valuesSize]
  | cons v rest ih => simp [valuesSize, ih, Nat.add_assoc]

lemma slotsSize_append (slots others : List (Slot Value)) :
    slotsSize (slots ++ others) = slotsSize slots + slotsSize others := by
  induction slots with
  | nil => simp [slotsSize]
  | cons s rest ih => simp [slotsSize, ih, Nat.add_assoc]

lemma size_empty (p : Production) : size (Node.empty p) = 1 := by
  have hslots (fields : List Field) : slotsSize (fields.map fun f => ⟨f, []⟩) = 0 := by
    induction fields with
    | nil => rfl
    | cons f rest ih => simp [slotsSize, valuesSize, ih]
  rw [Node.empty, size, hslots]

lemma size_of_addValue {t t' : Tree} {name : String} {value : Value}
    (h : t.addValue name value = (.ok (), t')) : size t' = size t + value.size := by
  obtain ⟨p, slots⟩ := t
  obtain ⟨before, s, after, rfl, -, -, -, rfl⟩ := Node.add_eq_ok.1 (Node.add_eq_ok_iff.2 h)
  simp only [size, slotsSize_append, slotsSize, valuesSize_append, valuesSize]
  omega

/-- A tree grows by the sizes of the values that it takes. -/
lemma size_offerAll (t : Tree) (offers : List (String × Value)) :
    size (t.offerAll offers) = size t + ((t.accepted offers).map Value.size).sum := by
  induction offers generalizing t with
  | nil => rfl
  | cons o rest ih =>
    obtain ⟨name, value⟩ := o
    rw [Node.offerAll, List.foldl_cons, ← Node.offerAll, ih, Node.offer, Node.accepted]
    cases hcall : t.addValue name value with
    | mk answer after =>
      cases answer with
      | ok u =>
        simp only [List.map_cons, List.sum_cons, size_of_addValue hcall]
        omega
      | error e => rw [Node.eq_of_addValue_eq_error hcall]

/-- Runs of calls that offer values to the empty node of a production, with failures passed over.
What is offered so far fixes the node: which values each slot holds, the answer to every further
call and the node after it, and the size. A call that fails leaves the node as it is; completeness
is not lost again; and calls under different names do not see each other. -/
theorem run_of_offers (p : Production) (offers : List (String × Value)) :
    let t : Tree := (Node.empty p).offerAll offers
    t = ⟨p, Slot.filled offers [] p.constructor.fields⟩ ∧
    -- a further call fails in two cases, and then leaves the node as it is
    (∀ name value,
      (∀ e, (t.addValue name value).1 = .error e ↔
        (∀ f ∈ p.constructor.fields, f.name ≠ name) ∧
          e = .unknownField p.constructor.name name ∨
        ∃ f, p.constructor.fields.find? (·.name = name) = some f ∧ f.cardinality ≠ .multiple ∧
          name ∈ offers.map Prod.fst ∧ e = .cardinalityViolation name f.cardinality) ∧
      (∀ e after, t.addValue name value = (.error e, after) → after = t) ∧
      (t.addValue name value).2 =
        ⟨p, Slot.filled (offers ++ [(name, value)]) [] p.constructor.fields⟩) ∧
    t.size = 1 + (((Node.empty p).accepted offers).map fun
      | .tree u => Tree.size u
      | .token _ => 0).sum ∧
    ((t.IsComplete ↔ ∀ s ∈ t.slots, s.field.cardinality = .single → s.values.length = 1) ∧
      ∀ more, t.IsComplete → (t.offerAll more).IsComplete) ∧
    -- two calls that change places have the same answers and the same effect
    ∀ (a b : String × Value) (more : List (String × Value)), a.1 ≠ b.1 →
      ((t.offer a.1 a.2).addValue b.1 b.2).1 = (t.addValue b.1 b.2).1 ∧
      t.offerAll (a :: b :: more) = t.offerAll (b :: a :: more) := by
  intro t
  have ht : t = Node.filled p offers := Node.offerAll_empty p offers
  refine ⟨ht, ?_, ?_, ⟨Iff.rfl, fun more h => h.offerAll more⟩, ?_⟩
  · intro name value
    refine ⟨fun e => ?_, fun e after hcall => Node.eq_of_addValue_eq_error hcall, ?_⟩
    · rw [ht, Node.addValue_filled]
      exact Node.answer_eq_error
    · rw [ht, Node.addValue_filled]
      rfl
  · have hsize : Value.size = fun | .tree u => Tree.size u | .token _ => 0 := by
      funext v
      cases v <;> rfl
    rw [← hsize]
    exact (size_offerAll _ offers).trans (by rw [size_empty])
  · intro a b more hne
    constructor
    · rw [ht, Node.offer_filled, Node.addValue_filled, Node.addValue_filled,
        Node.answer_snoc_of_ne hne]
    · rw [ht, Node.offerAll_filled, Node.offerAll_filled, Node.filled_swap p offers more hne]

/-- A run over a constructor with a repeated field name: the second token for the name is refused,
the field behind it is not reached, and a name of no field is refused too. A tree of three nodes is
taken, and a token adds nothing to the size. -/
theorem run_of_offers_repeated_name :
    let word : Ty := ⟨"word", .primitive⟩
    let single : Field := ⟨"x", word, .single⟩
    let hidden : Field := ⟨"x", word, .multiple⟩
    let open' : Field := ⟨"y", word, .multiple⟩
    let p : Production := ⟨⟨"Pair", .composite⟩, ⟨"Pair", [single, hidden, open']⟩⟩
    let leaf : Tree := Node.empty p
    let branch : Tree := (leaf.offer "y" (.tree leaf)).offer "y" (.tree leaf)
    let offers := [("x", Value.token "a"), ("z", .token "b"), ("x", .token "c"),
      ("y", .tree branch)]
    let t : Tree := leaf.offerAll offers
    t = ⟨p, [⟨single, [.token "a"]⟩, ⟨hidden, []⟩, ⟨open', [.tree branch]⟩]⟩ ∧
    branch.size = 3 ∧ t.size = 4 ∧
    t.addValue "x" (.token "c") = (.error (.cardinalityViolation "x" .single), t) ∧
    t.addValue "z" (.token "b") = (.error (.unknownField "Pair" "z"), t) ∧
    "x" ≠ "y" ∧
    t.offerAll [("x", .token "c"), ("y", .token "e")] =
      t.offerAll [("y", .token "e"), ("x", .token "c")] := by
  intro word single hidden open' p leaf branch offers t
  obtain ⟨ht, hcall, hsize, -, hswap⟩ := run_of_offers p offers
  have hfail {name : String} {value : Value} {e : Error}
      (he : (t.addValue name value).1 = .error e) : t.addValue name value = (.error e, t) := by
    cases hpair : t.addValue name value with
    | mk answer after =>
      rw [hpair] at he
      subst he
      rw [(hcall name value).2.1 e after hpair]
  have hbranch : branch.size = 3 := by decide
  have htotal : t.size = 4 := hsize.trans (by decide)
  have hne : "x" ≠ "y" := by decide
  refine ⟨ht.trans rfl, hbranch, htotal, hfail ?_, hfail ?_, hne,
    (hswap ("x", .token "c") ("y", .token "e") [] hne).2⟩
  · exact ((hcall "x" (.token "c")).1 _).2 (.inr ⟨single, rfl, by decide, by decide, rfl⟩)
  · exact ((hcall "z" (.token "b")).1 _).2 (.inl ⟨by decide, rfl⟩)

end Tree
end Asdl
