import Asdl.English
import Asdl.Proofs.Grammar.Groups
import Asdl.Proofs.Tree.Building

/-! Defects of a tree and the order in which they count. A walk comes by every part of a tree, from
the root down and from left to right; each part is sound or defective by itself, and the check of a
tree that can be made reports the first defect of the walk. -/
namespace Asdl

/-- A part of a tree: a node, seen by its production, a slot of a node, or a value of a field. -/
inductive Visit where
  | node (p : Production)
  | slot (p : Production) (s : Slot Value)
  | value (f : Field) (v : Value)

mutual

/-- The parts of a value of a field. A tree comes before its own parts. -/
def Value.walk (f : Field) : Value → List Visit
  | .token text => [.value f (.token text)]
  | .tree t => .value f (.tree t) :: Tree.walk t

/-- The parts of a tree: the root, then each slot in turn, with its values after it. -/
def Tree.walk : Tree → List Visit
  | ⟨p, slots⟩ => .node p :: Tree.slotsWalk p slots

def Tree.slotsWalk (p : Production) : List (Slot Value) → List Visit
  | [] => []
  | ⟨f, values⟩ :: rest =>
    .slot p ⟨f, values⟩ :: (Tree.valuesWalk f values ++ Tree.slotsWalk p rest)

def Tree.valuesWalk (f : Field) : List Value → List Visit
  | [] => []
  | v :: rest => v.walk f ++ Tree.valuesWalk f rest

end

/-- What makes a part sound by itself, whatever is around it or below it. -/
def Visit.Sound (g : Grammar) : Visit → Prop
  | .node p => ∃ q ∈ g.declared, q ≈ p
  | .slot _ s => s.field.cardinality = .single → s.values ≠ []
  | .value f (.token _) => g.Declares ⟨f.type.name, .primitive⟩
  | .value f (.tree t) => g.Declares ⟨f.type.name, .composite⟩ ∧ t.production.head ≈ f.type

/-- How a part is reported that is not sound. -/
def Visit.error : Visit → Error
  | .node p => .unknownConstructor p.name
  | .slot p s => .missingValue p.name s.field.name
  | .value f (.token text) => .typeMismatch f.name f.type.name (.token text)
  | .value f (.tree t) => .typeMismatch f.name f.type.name (.tree t.production.head.name)

/-- The first defect on a walk: all parts before the one reported are sound. -/
inductive FirstDefect (g : Grammar) : List Visit → Error → Prop
  | here {v : Visit} {rest : List Visit} (hv : ¬ v.Sound g) : FirstDefect g (v :: rest) v.error
  | later {v : Visit} {rest : List Visit} {e : Error} (hv : v.Sound g) (h : FirstDefect g rest e) :
      FirstDefect g (v :: rest) e

/-- Whether a result tells of a walk: of its first defect, or that there is none. -/
structure Reports (g : Grammar) (visits : List Visit) (r : Result Unit) : Prop where
  ok : r = .ok () ↔ ∀ v ∈ visits, v.Sound g
  error : ∀ e, r = .error e ↔ FirstDefect g visits e

section Walks
variable {g : Grammar} {v : Visit} {visits others : List Visit} {e : Error} {r r' : Result Unit}

lemma FirstDefect.exists_mem (h : FirstDefect g visits e) :
    ∃ v ∈ visits, ¬ v.Sound g ∧ e = v.error := by
  induction h with
  | here hv => exact ⟨_, List.mem_cons_self, hv, rfl⟩
  | later _ _ ih =>
    obtain ⟨v, hv, h⟩ := ih
    exact ⟨v, List.mem_cons_of_mem _ hv, h⟩

lemma firstDefect_cons_iff : FirstDefect g (v :: visits) e ↔
    (¬ v.Sound g ∧ e = v.error) ∨ (v.Sound g ∧ FirstDefect g visits e) := by
  constructor
  · intro h
    cases h with
    | here hv => exact .inl ⟨hv, rfl⟩
    | later hv h => exact .inr ⟨hv, h⟩
  · rintro (⟨hv, rfl⟩ | ⟨hv, h⟩)
    · exact .here hv
    · exact .later hv h

@[simp] lemma not_firstDefect_nil : ¬ FirstDefect g [] e := nofun

lemma firstDefect_append_iff : FirstDefect g (visits ++ others) e ↔
    FirstDefect g visits e ∨ (∀ v ∈ visits, v.Sound g) ∧ FirstDefect g others e := by
  induction visits with
  | nil => simp
  | cons v rest ih =>
    rw [List.cons_append, firstDefect_cons_iff, firstDefect_cons_iff, ih, List.forall_mem_cons]
    tauto

namespace Reports

lemma nil : Reports g [] (.ok ()) := ⟨by simp, by simp⟩

lemma sound (h : v.Sound g) : Reports g [v] (.ok ()) :=
  ⟨by simp [h], by simp [firstDefect_cons_iff, h]⟩

lemma defect (h : ¬ v.Sound g) : Reports g [v] (.error v.error) :=
  ⟨by simp [h], by simp [firstDefect_cons_iff, h, eq_comm]⟩

/-- A check after a check tells of the one walk after the other. -/
lemma append (h : Reports g visits r) (h' : Reports g others r') :
    Reports g (visits ++ others) (r >>= fun _ => r') where
  ok := by rw [Result.then_eq_ok, h.ok, h'.ok, List.forall_mem_append]
  error e := by
    rw [Result.bind_eq_error, firstDefect_append_iff, h.error, ← h.ok, ← h'.error]
    refine or_congr_right ⟨?_, fun hr => ⟨(), hr⟩⟩
    rintro ⟨⟨⟩, hr⟩
    exact hr

end Reports

end Walks

section Checks
variable {g : Grammar}

lemma Grammar.checkProduction_reports (p : Production) :
    Reports g [.node p] (g.checkProduction p) := by
  by_cases hdeclared : ∃ q ∈ g.declared, q ≈ p
  · rw [checkProduction_eq_ok.2 hdeclared]
    exact .sound hdeclared
  · have herror : g.checkProduction p = .error (.unknownConstructor p.name) := by
      rw [checkProduction]
      cases hp : g.production p.name with
      | error e =>
        rw [(production_eq_error.1 hp).2]
        rfl
      | ok q =>
        have hne : ¬ q ≈ p := fun he => hdeclared ⟨q, (production_eq_ok.1 hp).1, he⟩
        exact if_neg hne
    rw [herror]
    exact .defect hdeclared

/-- A slot that holds no more than its field allows lacks a value only if it is empty. -/
lemma Slot.isSatisfied_iff_sound (p : Production) {s : Slot Value}
    (hroom : s.field.cardinality.allowsMany = true ∨ s.values.length ≤ 1) :
    s.IsSatisfied ↔ (Visit.slot p s).Sound g := by
  refine imp_congr_right fun hsingle => ?_
  have hle : s.values.length ≤ 1 := hroom.resolve_left (by simp [hsingle])
  rw [← List.length_pos_iff]
  omega

lemma Value.check_token_reports (f : Field) (text : String) :
    Reports g [.value f (.token text)] ((Value.token text).check g f) := by
  by_cases hprimitive : g.Declares ⟨f.type.name, .primitive⟩
  · rw [check_token_eq_ok.2 hprimitive]
    exact .sound hprimitive
  · have hkind : ¬ g.isPrimitive f.type = true := mt Grammar.hasKind_eq_true.1 hprimitive
    rw [check, if_neg hkind]
    exact .defect hprimitive

/-- Where a tree does not fit its field, nothing below it is looked at. -/
lemma Value.check_tree_reports (f : Field) {t : Tree}
    (h : Reports g (Tree.walk t) (Tree.check g t)) :
    Reports g (.value f (.tree t) :: Tree.walk t) ((Value.tree t).check g f) := by
  have hcond : g.isComposite f.type = true ∧ t.production.head ≈ f.type ↔
      (Visit.value f (.tree t)).Sound g := and_congr_left' Grammar.hasKind_eq_true
  by_cases hsound : (Visit.value f (.tree t)).Sound g
  · rw [check, if_pos (hcond.2 hsound)]
    exact (Reports.sound hsound).append h
  · rw [check, if_neg (mt hcond.1 hsound)]
    exact (Reports.defect hsound).append h

namespace Tree

lemma checkValues_reports {f : Field} {values : List Value}
    (h : ∀ t, Value.tree t ∈ values → Reports g (walk t) (check g t)) :
    Reports g (valuesWalk f values) (checkValues g f values) := by
  induction values with
  | nil => exact .nil
  | cons v rest ih =>
    have hvalue : Reports g (v.walk f) (v.check g f) := by
      cases v with
      | token text => exact Value.check_token_reports f text
      | tree t => exact Value.check_tree_reports f (h t List.mem_cons_self)
    rw [valuesWalk, checkValues]
    exact hvalue.append (ih fun t ht => h t (List.mem_cons_of_mem _ ht))

lemma checkSlots_reports {p : Production} {slots : List (Slot Value)}
    (hroom : ∀ s ∈ slots, s.field.cardinality.allowsMany = true ∨ s.values.length ≤ 1)
    (h : ∀ t, Node.HasChild slots t → Reports g (walk t) (check g t)) :
    Reports g (slotsWalk p slots) (checkSlots g p.name slots) := by
  induction slots with
  | nil => exact .nil
  | cons s rest ih =>
    obtain ⟨f, values⟩ := s
    have hvalues : Reports g (valuesWalk f values) (checkValues g f values) :=
      checkValues_reports fun t ht => h t ⟨_, List.mem_cons_self, ht⟩
    have hrest := ih (fun s hs => hroom s (List.mem_cons_of_mem _ hs)) fun t ⟨s, hs, ht⟩ =>
      h t ⟨s, List.mem_cons_of_mem _ hs, ht⟩
    have hsatisfied := Slot.isSatisfied_iff_sound (g := g) p (hroom _ List.mem_cons_self)
    rw [slotsWalk, checkSlots]
    by_cases hsound : (Visit.slot p ⟨f, values⟩).Sound g
    · rw [if_pos (hsatisfied.2 hsound)]
      exact (Reports.sound hsound).append (hvalues.append hrest)
    · rw [if_neg (mt hsatisfied.1 hsound)]
      exact (Reports.defect hsound).append (hvalues.append hrest)

lemma Built.check_reports {t : Tree} (built : t.Built) : Reports g (walk t) (check g t) := by
  induction t using Tree.induction with
  | node p slots ih =>
    rw [walk, check]
    have hslots := checkSlots_reports (p := p) built.wellFilled.room fun u hchild =>
      ih u hchild (built.child hchild)
    exact (g.checkProduction_reports p).append hslots

end Tree

end Checks

/-- The check of a tree that was made by adding values fails exactly if the tree has a defect, and
its error is that of the first one: an unknown constructor, an empty slot that needs a value, or a
value that does not fit its field. -/
theorem Grammar.validate_reports_first_defect (g : Grammar) {t : Tree} (built : t.Built) :
    (g.validate t = .ok () ↔ ∀ v ∈ Tree.walk t, v.Sound g) ∧
    (∀ e, g.validate t = .error e ↔ FirstDefect g (Tree.walk t) e) ∧
    ∀ e, g.validate t = .error e →
      (∃ p, .node p ∈ Tree.walk t ∧ e = .unknownConstructor p.name) ∨
      (∃ p s, .slot p s ∈ Tree.walk t ∧ s.field.cardinality = .single ∧ s.values = [] ∧
        e = .missingValue p.name s.field.name) ∨
      ∃ f v found, .value f v ∈ Tree.walk t ∧ e = .typeMismatch f.name f.type.name found ∧
        ((∃ text, v = .token text ∧ found.message = s!"token '{text}'") ∨
          ∃ u, v = .tree u ∧ found.message = u.production.head.name) := by
  have reports : Reports g (Tree.walk t) (g.validate t) := built.check_reports
  refine ⟨reports.ok, reports.error, fun e herror => ?_⟩
  obtain ⟨v, hv, hdefect, rfl⟩ := ((reports.error e).1 herror).exists_mem
  cases v with
  | node p => exact .inl ⟨p, hv, rfl⟩
  | slot p s =>
    obtain ⟨hsingle, hempty⟩ : s.field.cardinality = .single ∧ s.values = [] := by
      simpa [Visit.Sound] using hdefect
    exact .inr (.inl ⟨p, s, hv, hsingle, hempty, rfl⟩)
  | value f v =>
    cases v with
    | token text => exact .inr (.inr ⟨f, _, _, hv, rfl, .inl ⟨text, rfl, rfl⟩⟩)
    | tree u => exact .inr (.inr ⟨f, _, _, hv, rfl, .inr ⟨u, rfl, rfl⟩⟩)

/-- A phrase without its verb, put where another phrase belongs. The misplaced phrase is reported,
and neither the verb missing below it nor the predicate missing after it. -/
theorem Grammar.validate_misplaced_phrase : ∃ g, English.grammar = .ok g ∧
    ∃ phrase sentence : Tree, phrase = Node.empty English.productions[6] ∧
      sentence = (Node.empty English.productions[0]).offer "subj" (.tree phrase) ∧
      sentence.Built ∧ g.validate phrase = .error (.missingValue "Intransitive" "verb") ∧
      FirstDefect g (Tree.walk sentence)
        (.typeMismatch "subj" "NounPhrase" (.tree "VerbPhrase")) := by
  obtain ⟨g, hg⟩ : ∃ g, English.grammar = .ok g := ⟨_, rfl⟩
  obtain ⟨phrase, hphrase⟩ : ∃ t : Tree, t = Node.empty English.productions[6] := ⟨_, rfl⟩
  obtain ⟨sentence, hsentence⟩ : ∃ t : Tree,
    t = (Node.empty English.productions[0]).offer "subj" (.tree phrase) := ⟨_, rfl⟩
  have built : sentence.Built := by
    rw [hsentence, hphrase]
    exact .offerTree "subj" (.empty _) (.empty _)
  have incomplete : English.grammar.bind (·.validate phrase) =
      .error (.missingValue "Intransitive" "verb") := by
    rw [hphrase]
    decide +kernel
  have misplaced : English.grammar.bind (·.validate sentence) =
      .error (.typeMismatch "subj" "NounPhrase" (.tree "VerbPhrase")) := by
    rw [hsentence, hphrase]
    decide +kernel
  rw [hg] at incomplete misplaced
  have first := ((g.validate_reports_first_defect built).2.1 _).1 misplaced
  exact ⟨g, hg, phrase, sentence, hphrase, hsentence, built, incomplete, first⟩

end Asdl
