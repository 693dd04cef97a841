import Asdl.English
import Asdl.Proofs.Tree.Replay

/-! Growth of a valid tree. A value that is added comes last in its slot, and everything before and
after it has been found valid already; so the tree stays valid exactly if the new value fits its
field, and otherwise the check reports what it would report on the value alone. -/
namespace Asdl
variable {g : Grammar}

/-- Whether a value can stand in a field: a token where the type is primitive, or a valid tree of
the very type where it is composite. -/
inductive Value.Fits (g : Grammar) (f : Field) : Value → Prop
  | token (text : String) (primitive : g.isPrimitive f.type = true) : Fits g f (.token text)
  | tree {u : Tree} (composite : g.isComposite f.type = true) (head : u.production.head ≈ f.type)
    (valid : g.validate u = .ok ()) : Fits g f (.tree u)

lemma Value.check_eq_ok_iff_fits {f : Field} {v : Value} : v.check g f = .ok () ↔ v.Fits g f := by
  cases v with
  | token text =>
    rw [check_token_eq_ok, ← Grammar.hasKind_eq_true]
    apply Iff.intro
    · exact .token text
    · intro hfits
      cases hfits with
      | token _ hprimitive => exact hprimitive
  | tree u =>
    rw [check_tree_eq_ok, ← Grammar.hasKind_eq_true]
    apply Iff.intro
    · intro h
      exact .tree h.1 h.2.1 h.2.2
    · intro hfits
      cases hfits with
      | tree hcomposite hhead hvalid => exact ⟨hcomposite, hhead, hvalid⟩

namespace Tree

lemma checkValues_append {f : Field} {values others : List Value}
    (h : checkValues g f values = .ok ()) :
    checkValues g f (values ++ others) = checkValues g f others := by
  induction values with
  | nil => rfl
  | cons v rest ih =>
    rw [checkValues, Result.then_eq_ok] at h
    rw [List.cons_append, checkValues, h.1, ← ih h.2]
    rfl

lemma checkSlots_cons_of_satisfied (owner : String) {s : Slot Value} (hs : s.IsSatisfied)
    (rest : List (Slot Value)) :
    checkSlots g owner (s :: rest) =
      checkValues g s.field s.values >>= fun _ => checkSlots g owner rest := by
  rw [checkSlots, if_pos hs]
  rfl

lemma checkSlots_append (owner : String) {slots others : List (Slot Value)}
    (h : checkSlots g owner slots = .ok ()) :
    checkSlots g owner (slots ++ others) = checkSlots g owner others := by
  induction slots with
  | nil => rfl
  | cons s rest ih =>
    have hs : s.IsSatisfied := (checkSlots_eq_ok.1 h s List.mem_cons_self).1
    rw [checkSlots_cons_of_satisfied owner hs, Result.then_eq_ok] at h
    rw [List.cons_append, checkSlots_cons_of_satisfied owner hs, h.1, ← ih h.2]
    rfl

variable {t t' : Tree} {name : String} {v : Value}

lemma isComplete_of_check (valid : check g t = .ok ()) : t.IsComplete := by
  obtain ⟨p, slots⟩ := t
  intro s hs
  exact ((check_eq_ok.1 valid).2 s hs).1

/-- A slot that takes one more value is none that needs exactly one. -/
lemma isSatisfied_of_free {s : Slot Value} (hs : s.IsSatisfied)
    (hfree : s.field.cardinality.allowsMany = true ∨ s.values = []) (values : List Value) :
    (⟨s.field, values⟩ : Slot Value).IsSatisfied := by
  intro (hsingle : s.field.cardinality = .single)
  have hlength : s.values.length = 1 := hs hsingle
  obtain hmany | hnil := hfree
  · simp [hsingle] at hmany
  · simp [hnil] at hlength

/-- Of a valid tree that has grown only the new value has to be checked. -/
lemma check_of_add (valid : check g t = .ok ()) (hadd : t.add name v = .ok t') :
    ∃ before s after, t.slots = before ++ s :: after ∧ (∀ r ∈ before, r.field.name ≠ name) ∧
      s.field.name = name ∧ check g t' = v.check g s.field := by
  obtain ⟨before, s, after, hslots, hbefore, hname, hfree, rfl⟩ := Node.add_eq_ok.1 hadd
  refine ⟨before, s, after, hslots, hbefore, hname, ?_⟩
  obtain ⟨p, slots⟩ := t
  obtain rfl : slots = before ++ s :: after := hslots
  obtain ⟨hdeclared, hchecked⟩ := check_eq_ok.1 valid
  have hproduction : g.checkProduction p = .ok () := Grammar.checkProduction_eq_ok.2 hdeclared
  have hbefore' : checkSlots g p.name before = .ok () :=
    checkSlots_eq_ok.2 fun r hr => hchecked r (by simp [hr])
  have hafter : checkSlots g p.name after = .ok () :=
    checkSlots_eq_ok.2 fun r hr => hchecked r (by simp [hr])
  obtain ⟨hs, hvalues⟩ := hchecked s (by simp)
  have hgrown := isSatisfied_of_free hs hfree (s.values ++ [v])
  calc check g ⟨p, before ++ ⟨s.field, s.values ++ [v]⟩ :: after⟩
      = checkSlots g p.name (before ++ ⟨s.field, s.values ++ [v]⟩ :: after) := by
        rw [check, hproduction]
        rfl
    _ = checkValues g s.field (s.values ++ [v]) >>= fun _ => checkSlots g p.name after := by
        rw [checkSlots_append _ hbefore', checkSlots_cons_of_satisfied _ hgrown]
    _ = v.check g s.field := by
        rw [checkValues_append (checkValues_eq_ok.2 hvalues), hafter, checkValues, checkValues]
        cases v.check g s.field <;> rfl

end Tree

namespace Node
variable {α : Type} {t : Node α} {name : String} {value : α}

/-- In a node that has what it needs every single field is the first of its name. -/
lemma WellFilled.find?_of_single (h : t.WellFilled) (hcomplete : t.IsComplete) {f : Field}
    (hf : f ∈ t.production.fields) (hsingle : f.cardinality = .single) :
    t.production.fields.find? (·.name = f.name) = some f := by
  obtain ⟨before, after, hsplit⟩ := List.append_of_mem hf
  have hpairs := h.pairwise_of_isComplete hcomplete
  rw [hsplit, List.pairwise_append] at hpairs
  have hbefore : ∀ e ∈ before, e.name ≠ f.name := fun e he hname =>
    hpairs.2.2 e he f List.mem_cons_self hname hsingle
  rw [List.find?_eq_some_iff_append]
  exact ⟨by simp, before, after, hsplit, by simpa using hbefore⟩

/-- A single field of such a node has its value already. -/
lemma WellFilled.add_single (h : t.WellFilled) (hcomplete : t.IsComplete) {f : Field}
    (hf : f ∈ t.production.fields) (hsingle : f.cardinality = .single) (value : α) :
    t.add f.name value = .error (.cardinalityViolation f.name .single) := by
  obtain ⟨s, hs, rfl⟩ : ∃ s ∈ t.slots, s.field = f := by
    rwa [← h.fields, List.mem_map] at hf
  have hlength : s.values.length = 1 := hcomplete s hs hsingle
  have hoffered : s.field.name ∈ t.offers.map Prod.fst := by
    obtain ⟨v, hv⟩ := List.exists_mem_of_length_pos (by omega : 0 < s.values.length)
    have hmem : (s.field.name, v) ∈ t.offers :=
      List.mem_flatMap.2 ⟨s, hs, List.mem_map_of_mem hv⟩
    exact List.mem_map_of_mem hmem
  rw [h.eq_filled, add_eq_error_iff, addValue_filled, answer_eq_error]
  refine .inr ⟨s.field, h.find?_of_single hcomplete hf hsingle, ?_, hoffered, ?_⟩
  · rw [hsingle]
    decide
  · rw [hsingle]

end Node

/-- What becomes of a valid tree when a value is added to it. The new tree is valid exactly if the
value fits the first field of the name; a tree that is put where its type belongs is the only thing
that can be wrong, so that its error is that of the whole; and a single field takes no value, as it
has one. -/
theorem Grammar.validate_add (g : Grammar) {t : Tree} (built : t.Built)
    (valid : g.validate t = .ok ()) (v : Value) :
    (∀ name t', t.add name v = .ok t' →
      ∃ f, t.production.fields.find? (·.name = name) = some f ∧
        (g.validate t' = .ok () ↔ v.Fits g f) ∧
        ∀ u, v = .tree u → u.production.head ≈ f.type → g.isComposite f.type = true →
          g.validate t' = g.validate u) ∧
    ∀ f ∈ t.production.fields, f.cardinality = .single →
      t.add f.name v = .error (.cardinalityViolation f.name .single) := by
  refine ⟨fun name t' hadd => ?_, fun f hf hsingle => ?_⟩
  · obtain ⟨before, s, after, hslots, hbefore, rfl, hcheck⟩ := Tree.check_of_add valid hadd
    refine ⟨s.field, ?_, ?_, ?_⟩
    · rw [← built.wellFilled.fields, hslots, List.find?_eq_some_iff_append]
      refine ⟨by simp, before.map Slot.field, after.map Slot.field, by simp, ?_⟩
      intro f hf
      obtain ⟨r, hr, rfl⟩ := List.mem_map.1 hf
      simpa using hbefore r hr
    · rw [validate, hcheck]
      exact Value.check_eq_ok_iff_fits
    · intro u hu hhead hcomposite
      rw [validate, hcheck, hu, Value.check, if_pos ⟨hcomposite, hhead⟩, validate]
  · exact built.wellFilled.add_single (Tree.isComplete_of_check valid) hf hsingle v

/-- A finished phrase takes a modifier that lacks its object: the error of the phrase becomes that
of the modifier. The verb of the phrase cannot be replaced. -/
theorem Grammar.validate_add_unfinished : ∃ g, English.grammar = .ok g ∧
    ∃ phrase modifier grown : Tree,
      phrase = (Node.empty English.productions[6]).offer "verb" (.token "go") ∧
      modifier = (Node.empty English.productions[9]).offer "prep" (.token "to") ∧
      phrase.Built ∧ g.validate phrase = .ok () ∧ phrase.add "mods" (.tree modifier) = .ok grown ∧
      g.validate modifier = .error (.missingValue "Prep" "obj") ∧
      g.validate grown = .error (.missingValue "Prep" "obj") ∧
      phrase.add "verb" (.tree modifier) = .error (.cardinalityViolation "verb" .single) := by
  obtain ⟨g, hg⟩ : ∃ g, English.grammar = .ok g := ⟨_, rfl⟩
  obtain ⟨phrase, hphrase⟩ : ∃ t : Tree,
    t = (Node.empty English.productions[6]).offer "verb" (.token "go") := ⟨_, rfl⟩
  obtain ⟨modifier, hmodifier⟩ : ∃ t : Tree,
    t = (Node.empty English.productions[9]).offer "prep" (.token "to") := ⟨_, rfl⟩
  have built : phrase.Built := hphrase ▸ .offerToken "verb" "go" (.empty _)
  have accepted : (English.grammar.bind (·.validate phrase)).isOk = true := by
    rw [hphrase]
    decide +kernel
  have unfinished : English.grammar.bind (·.validate modifier) =
      .error (.missingValue "Prep" "obj") := by
    rw [hmodifier]
    decide +kernel
  have composite : English.grammar.map (·.isComposite English.prepPhrase) = .ok true := by
    decide +kernel
  rw [hg] at accepted unfinished composite
  have valid : g.validate phrase = .ok () := Result.eq_ok_of_isOk accepted
  have hproduction : phrase.production = English.productions[6] := by rw [hphrase]; rfl
  obtain ⟨grown, hadd⟩ : ∃ grown, phrase.add "mods" (.tree modifier) = .ok grown := by
    rw [hphrase]
    exact ⟨_, rfl⟩
  obtain ⟨hgrown, hsingle⟩ := g.validate_add built valid (.tree modifier)
  obtain ⟨f, hf, -, herror⟩ := hgrown "mods" grown hadd
  obtain rfl : ⟨"mods", English.prepPhrase, .multiple⟩ = f := by
    rw [hproduction] at hf
    exact Option.some.inj hf
  have hhead : modifier.production.head ≈ English.prepPhrase := by rw [hmodifier]; rfl
  have hsame := herror modifier rfl hhead (Except.ok.inj composite)
  have hverb : (⟨"verb", English.word, .single⟩ : Field) ∈ phrase.production.fields := by
    rw [hproduction]
    exact List.mem_cons_self
  exact ⟨g, hg, phrase, modifier, grown, hphrase, hmodifier, built, valid, hadd, unfinished,
    hsame.trans unfinished, hsingle _ hverb rfl⟩

end Asdl
