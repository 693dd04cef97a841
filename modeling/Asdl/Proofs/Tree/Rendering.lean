import Asdl.Proofs.Text.Splitting
import Asdl.Proofs.Tree.Rearrangement
import Asdl.Proofs.Tree.Same

/-! The written form of trees. Over one grammar it is read in one way only: constructors and tokens
end where a blank or a bracket comes, a constructor says what the slots of its node are called, and
within a slot each value begins behind a blank. -/
namespace Asdl

/-- Whether a text has none of the characters that set off the parts of a written tree. The empty
text is a word. -/
def IsWord (text : String) : Prop := ∀ c ∈ text.toList, c ∉ [' ', '(', ')']

instance (text : String) : Decidable (IsWord text) :=
  List.decidableBAll (· ∉ [' ', '(', ')']) text.toList

/-- Whether a blank or a closing bracket comes next, as behind every word. -/
def EndsWord (rest : List Char) : Prop := ∃ c more, rest = c :: more ∧ c ∈ [' ', ')']

/-- Two words at the beginning of one text are the same, if each is at its end there. -/
lemma IsWord.append_inj {a b : String} (ha : IsWord a) (hb : IsWord b) {r r' : List Char}
    (hr : EndsWord r) (hr' : EndsWord r') (h : a.toList ++ r = b.toList ++ r') :
    a = b ∧ r = r' := by
  have hends {r : List Char} (hr : EndsWord r) : ∀ c ∈ r.head?, c ∈ [' ', '(', ')'] := by
    obtain ⟨d, more, rfl, hd⟩ := hr
    rintro c ⟨⟩
    simp only [List.mem_cons] at hd ⊢
    tauto
  obtain ⟨hsame, hrest⟩ := Text.append_inj_of_stop ha hb (hends hr) (hends hr') h
  exact ⟨String.toList_inj.1 hsame, hrest⟩

/-- Whether all tokens in a tree are words. -/
inductive Tree.OfWords : Tree → Prop
  | node {p : Production} {slots : List (Slot Value)}
    (tokens : ∀ s ∈ slots, ∀ text, Value.token text ∈ s.values → IsWord text)
    (children : ∀ u, Node.HasChild slots u → OfWords u) : OfWords ⟨p, slots⟩

/-- What can be read back: trees over a grammar that were made by adding values, with words for
tokens. -/
structure Tree.Legible (g : Grammar) (t : Tree) : Prop where
  built : t.Built
  declared : t.Over g
  words : t.OfWords

namespace Tree
variable {g : Grammar} {p : Production} {slots others : List (Slot Value)}

lemma Legible.child (h : Legible g ⟨p, slots⟩) {u : Tree} (hu : Node.HasChild slots u) :
    u.Legible g := by
  obtain ⟨hbuilt, hdeclared, hwords⟩ := h
  cases hdeclared with
  | node _ hchildren =>
    cases hwords with
    | node _ hchildren' => exact ⟨hbuilt.child hu, hchildren u hu, hchildren' u hu⟩

lemma Legible.isWord_token (h : Legible g ⟨p, slots⟩) {s : Slot Value} (hs : s ∈ slots)
    {text : String} (htext : Value.token text ∈ s.values) : IsWord text := by
  cases h.words with
  | node htokens _ => exact htokens s hs text htext

lemma Legible.exists_declared (h : Legible g ⟨p, slots⟩) : ∃ q ∈ g.declared, q ≈ p := by
  cases h.declared with
  | node hdeclared _ => exact hdeclared

lemma Legible.empty (h : ∃ q ∈ g.declared, q ≈ p) : Legible g (Node.empty p) := by
  have hnone (s : Slot Value) (hs : s ∈ (Node.empty p : Tree).slots) : s.values = [] := by
    obtain ⟨f, -, rfl⟩ := List.mem_map.1 hs
    rfl
  have hleaf (u : Tree) : ¬ Node.HasChild (Node.empty p : Tree).slots u := by
    intro hu
    obtain ⟨s, hs, hu⟩ := hu
    simp [hnone s hs] at hu
  refine ⟨.empty p, .node h fun u hu => absurd hu (hleaf u),
    .node ?_ fun u hu => absurd hu (hleaf u)⟩
  intro s hs text htext
  simp [hnone s hs] at htext

/-- An offer brings no text and no child but those of the value. -/
lemma Legible.offer {t : Tree} (h : t.Legible g) (name : String) {v : Value}
    (hbuilt : Built (t.offer name v)) (htoken : ∀ text, v = .token text → IsWord text)
    (htree : ∀ u : Tree, v = .tree u → u.Legible g) : Legible g (t.offer name v) := by
  have hproduction : ∃ q ∈ g.declared, q ≈ (t.offer name v).production := by
    rw [Node.offer_production]
    exact h.exists_declared
  have hchild (u : Tree) (hu : Node.HasChild (t.offer name v).slots u) : u.Legible g := by
    obtain ⟨s, hs, hu⟩ := hu
    obtain hnew | hold := Node.mem_values_of_offer hs hu
    · exact htree u hnew.symm
    · exact h.child hold
  refine ⟨hbuilt, .node hproduction fun u hu => (hchild u hu).declared,
    .node ?_ fun u hu => (hchild u hu).words⟩
  intro s hs text htext
  obtain hnew | ⟨r, hr, hold⟩ := Node.mem_values_of_offer hs htext
  · exact htoken text hnew.symm
  · exact h.isWord_token hr hold

lemma Legible.offerToken {t : Tree} (h : t.Legible g) (name : String) {text : String}
    (htext : IsWord text) : Legible g (t.offer name (.token text)) := by
  apply h.offer name (.offerToken name text h.built)
  · intro text' he
    cases he
    exact htext
  · exact nofun

lemma Legible.offerTree {t u : Tree} (h : t.Legible g) (name : String) (hu : u.Legible g) :
    Legible g (t.offer name (.tree u)) := by
  apply h.offer name (.offerTree name h.built hu.built)
  · exact nofun
  · intro u' he
    cases he
    exact hu

section Text
variable (p : Production) (slots : List (Slot Value)) (r : List Char)

lemma toList_render_append : (render ⟨p, slots⟩).toList ++ r =
    '(' :: (p.name.toList ++ ((renderSlots slots).toList ++ ')' :: r)) := by
  simp [render]

lemma toList_renderSlots_append (s : Slot Value) : (renderSlots (s :: slots)).toList ++ r =
    ' ' :: '(' :: (s.field.type.name.toList ++ '-' :: (s.field.name.toList ++
      ((renderValues s.values).toList ++ ')' :: ((renderSlots slots).toList ++ r)))) := by
  obtain ⟨f, values⟩ := s
  simp [renderSlots]

lemma toList_renderValues_append (v : Value) (rest : List Value) :
    (renderValues (v :: rest)).toList ++ r =
      ' ' :: (v.render.toList ++ ((renderValues rest).toList ++ r)) := by
  simp [renderValues]

/-- A closing bracket is behind the last value and the last slot, and a blank before every other. -/
lemma endsWord_renderValues (values : List Value) :
    EndsWord ((renderValues values).toList ++ ')' :: r) := by
  cases values with
  | nil => exact ⟨')', r, by simp [renderValues], by simp⟩
  | cons v rest => exact ⟨' ', _, toList_renderValues_append _ v rest, by simp⟩

lemma endsWord_renderSlots : EndsWord ((renderSlots slots).toList ++ ')' :: r) := by
  cases slots with
  | nil => exact ⟨')', r, by simp [renderSlots], by simp⟩
  | cons s rest => exact ⟨' ', _, toList_renderSlots_append rest _ s, by simp⟩

end Text

/-- Whether two values that begin one text, each at its end there, are the same. -/
def ReadAlike (v w : Value) : Prop := ∀ r r', EndsWord r → EndsWord r' →
  v.render.toList ++ r = w.render.toList ++ r' → v.same w = true ∧ r = r'

section Values
variable {values values' : List Value} {r r' : List Char}

lemma readAlike_tokens {a b : String} (ha : IsWord a) (hb : IsWord b) :
    ReadAlike (.token a) (.token b) := by
  intro r r' hr hr' h
  rw [Value.render, Value.render] at h
  obtain ⟨rfl, rfl⟩ := ha.append_inj hb hr hr' h
  exact ⟨by simp [Value.same], rfl⟩

/-- A tree begins with a bracket, and neither a word nor what is behind one does. -/
lemma token_ne_tree {text : String} (htext : IsWord text) (hr : EndsWord r) (t : Tree) :
    text.toList ++ r ≠ (render t).toList ++ r' := by
  obtain ⟨p, slots⟩ := t
  obtain ⟨c, more, rfl, hc⟩ := hr
  rw [toList_render_append]
  intro h
  cases hchars : text.toList with
  | nil =>
    rw [hchars] at h
    obtain rfl : c = '(' := (List.cons.inj h).1
    exact absurd hc (by decide)
  | cons d rest =>
    rw [hchars] at h
    obtain rfl : d = '(' := (List.cons.inj h).1
    exact htext '(' (by simp [hchars]) (by decide)

lemma renderValues_append_inj (halike : ∀ v ∈ values, ∀ w ∈ values', ReadAlike v w)
    (h : (renderValues values).toList ++ ')' :: r = (renderValues values').toList ++ ')' :: r') :
    List.Forall₂ (fun v w => v.same w = true) values values' ∧ r = r' := by
  induction values generalizing values' with
  | nil =>
    cases values' with
    | nil => exact ⟨.nil, by simpa [renderValues] using h⟩
    | cons w rest' =>
      rw [toList_renderValues_append] at h
      simp [renderValues] at h
  | cons v rest ih =>
    cases values' with
    | nil =>
      rw [toList_renderValues_append] at h
      simp [renderValues] at h
    | cons w rest' =>
      rw [toList_renderValues_append, toList_renderValues_append, List.cons.injEq] at h
      obtain ⟨hsame, hrest⟩ := halike v List.mem_cons_self w List.mem_cons_self _ _
        (endsWord_renderValues r rest) (endsWord_renderValues r' rest') h.2
      have halike' : ∀ v ∈ rest, ∀ w ∈ rest', ReadAlike v w := fun v hv w hw =>
        halike v (List.mem_cons_of_mem _ hv) w (List.mem_cons_of_mem _ hw)
      obtain ⟨hall, hr⟩ := ih halike' hrest
      exact ⟨.cons hsame hall, hr⟩

/-- Slots of the same fields are written with the same names, so that only values can differ. -/
lemma renderSlots_append_inj (hfields : List.Forall₂ (fun s s' => s.field ≈ s'.field) slots others)
    (halike : ∀ s ∈ slots, ∀ s' ∈ others, ∀ v ∈ s.values, ∀ w ∈ s'.values, ReadAlike v w)
    (h : (renderSlots slots).toList ++ ')' :: r = (renderSlots others).toList ++ ')' :: r') :
    List.Forall₂ Slot.Same slots others ∧ r = r' := by
  induction hfields with
  | nil => exact ⟨.nil, by simpa [renderSlots] using h⟩
  | @cons s s' rest rest' hfield _ ih =>
    obtain ⟨hname, htype, -⟩ := Field.equiv_iff.1 hfield
    rw [toList_renderSlots_append, toList_renderSlots_append, hname, Ty.equiv_iff.1 htype] at h
    simp only [List.cons.injEq, List.append_cancel_left_eq, true_and] at h
    obtain ⟨hvalues, hrest⟩ := renderValues_append_inj
      (halike s List.mem_cons_self s' List.mem_cons_self) h
    have halike' : ∀ s ∈ rest, ∀ s' ∈ rest', ∀ v ∈ s.values, ∀ w ∈ s'.values, ReadAlike v w :=
      fun s hs s' hs' => halike s (List.mem_cons_of_mem _ hs) s' (List.mem_cons_of_mem _ hs')
    obtain ⟨hall, hr⟩ := ih halike' hrest
    exact ⟨.cons ⟨hfield, hvalues⟩ hall, hr⟩

end Values

/-- A constructor tells which production of the grammar a node has. -/
lemma Legible.production_equiv {t u : Tree} (ht : t.Legible g) (hu : u.Legible g)
    (hname : t.production.name = u.production.name) : t.production ≈ u.production := by
  obtain ⟨p, hp, hpt⟩ := ht.exists_declared
  obtain ⟨q, hq, hqu⟩ := hu.exists_declared
  have hnames : p.name = q.name :=
    (Production.name_eq_of_equiv hpt).trans (hname.trans (Production.name_eq_of_equiv hqu).symm)
  obtain rfl : p = q := List.inj_on_of_nodup_map g.nodup_names hp hq hnames
  exact Setoid.trans (Setoid.symm hpt) hqu

lemma Legible.isWord_name (hnames : ∀ p ∈ g.declared, IsWord p.name) {t : Tree}
    (ht : t.Legible g) : IsWord t.production.name := by
  obtain ⟨p, hp, hpt⟩ := ht.exists_declared
  exact Production.name_eq_of_equiv hpt ▸ hnames p hp

lemma Legible.forall₂_fields {t u : Tree} (ht : t.Legible g) (hu : u.Legible g)
    (he : t.production ≈ u.production) :
    List.Forall₂ (fun s s' => s.field ≈ s'.field) t.slots u.slots := by
  have hfields := Production.forall₂_fields_of_equiv he
  rwa [← ht.built.wellFilled.fields, ← hu.built.wellFilled.fields, List.forall₂_map_left_iff,
    List.forall₂_map_right_iff] at hfields

/-- Values of legible trees are read alike if their children are. -/
lemma Legible.readAlike {t u : Tree} (ht : t.Legible g) (hu : u.Legible g)
    (hchildren : ∀ c, Node.HasChild t.slots c → ∀ d, Node.HasChild u.slots d → ∀ r r',
      (render c).toList ++ r = (render d).toList ++ r' → c ≈ d ∧ r = r') :
    ∀ s ∈ t.slots, ∀ s' ∈ u.slots, ∀ v ∈ s.values, ∀ w ∈ s'.values, ReadAlike v w := by
  intro s hs s' hs' v hv w hw
  cases v with
  | token a =>
    cases w with
    | token b => exact readAlike_tokens (ht.isWord_token hs hv) (hu.isWord_token hs' hw)
    | tree d =>
      intro r r' hr _ h
      exact absurd h (token_ne_tree (ht.isWord_token hs hv) hr d)
  | tree c =>
    cases w with
    | token b =>
      intro r r' _ hr' h
      exact absurd h.symm (token_ne_tree (hu.isWord_token hs' hw) hr' c)
    | tree d =>
      intro r r' _ _ h
      rw [Value.same]
      exact hchildren c ⟨s, hs, hv⟩ d ⟨s', hs', hw⟩ r r' h

/-- A written tree is known from its beginning, whatever is behind it. -/
theorem render_append_inj (hnames : ∀ p ∈ g.declared, IsWord p.name) {t u : Tree}
    (ht : t.Legible g) (hu : u.Legible g) {r r' : List Char}
    (h : (render t).toList ++ r = (render u).toList ++ r') : t ≈ u ∧ r = r' := by
  induction t using Tree.induction generalizing u r r' with
  | node p slots ih =>
    obtain ⟨q, others⟩ := u
    rw [toList_render_append, toList_render_append, List.cons.injEq] at h
    obtain ⟨hname, hslots⟩ := (ht.isWord_name hnames).append_inj (hu.isWord_name hnames)
      (endsWord_renderSlots slots r) (endsWord_renderSlots others r') h.2
    have he := ht.production_equiv hu hname
    have halike := ht.readAlike hu fun c hc d hd r r' h =>
      ih c hc (ht.child hc) (hu.child hd) h
    obtain ⟨hsame, hr⟩ := renderSlots_append_inj (ht.forall₂_fields hu he) halike hslots
    exact ⟨equiv_iff.2 ⟨he, hsame⟩, hr⟩

section Congruence
variable {values values' : List Value}

lemma renderValues_congr (h : List.Forall₂ (fun v w => v.same w = true) values values')
    (htree : ∀ t, Value.tree t ∈ values → ∀ u : Tree, t ≈ u → render t = render u) :
    renderValues values = renderValues values' := by
  induction h with
  | nil => rfl
  | @cons v w rest rest' hsame _ ih =>
    have hrender : v.render = w.render := by
      cases v with
      | token a =>
        cases w with
        | token b => simpa [Value.same, Value.render] using hsame
        | tree u => simp [Value.same] at hsame
      | tree t =>
        cases w with
        | token b => simp [Value.same] at hsame
        | tree u =>
          rw [Value.same] at hsame
          rw [Value.render, Value.render]
          exact htree t List.mem_cons_self u hsame
    rw [renderValues, renderValues, hrender, ih fun t ht => htree t (List.mem_cons_of_mem _ ht)]

lemma renderSlots_congr (h : List.Forall₂ Slot.Same slots others)
    (htree : ∀ t, Node.HasChild slots t → ∀ u : Tree, t ≈ u → render t = render u) :
    renderSlots slots = renderSlots others := by
  induction h with
  | nil => rfl
  | @cons s s' rest rest' hsame _ ih =>
    obtain ⟨f, values⟩ := s
    obtain ⟨f', values'⟩ := s'
    obtain ⟨hname, htype, -⟩ := Field.equiv_iff.1 hsame.1
    have hvalues : renderValues values = renderValues values' :=
      renderValues_congr hsame.2 fun t ht => htree t ⟨⟨f, values⟩, List.mem_cons_self, ht⟩
    have hrest : renderSlots rest = renderSlots rest' := by
      refine ih fun t ht => htree t ?_
      obtain ⟨s, hs, ht⟩ := ht
      exact ⟨s, List.mem_cons_of_mem _ hs, ht⟩
    rw [renderSlots, renderSlots, hvalues, hrest, hname, Ty.equiv_iff.1 htype]

/-- Kinds are not written. -/
lemma render_eq_of_equiv {t u : Tree} (h : t ≈ u) : render t = render u := by
  induction t using Tree.induction generalizing u with
  | node p slots ih =>
    obtain ⟨q, others⟩ := u
    obtain ⟨he, hslots⟩ := equiv_iff.1 h
    have hname : p.name = q.name := Production.name_eq_of_equiv he
    rw [render, render, hname, renderSlots_congr hslots fun t ht u he => ih t ht he]

end Congruence

/-- Trees over one grammar are the same, up to kinds, exactly if they are written in the same way,
as long as constructors and tokens are words; tokens may be empty, and types and fields may be
called anything. -/
theorem toString_eq_iff {t u : Tree} (ht : t.Built) (hu : u.Built) (hto : t.Over g) (huo : u.Over g)
    (hnames : ∀ p ∈ g.declared, IsWord p.name) (htw : t.OfWords) (huw : u.OfWords) :
    toString t = toString u ↔ t ≈ u := by
  apply Iff.intro
  · intro h
    have hchars : (render t).toList ++ [] = (render u).toList ++ [] :=
      congrArg (fun text => text.toList ++ []) h
    exact (render_append_inj hnames ⟨ht, hto, htw⟩ ⟨hu, huo, huw⟩ hchars).1
  · exact render_eq_of_equiv

/-- A production whose type and field are named with blanks and brackets. -/
def nested : Production :=
  ⟨⟨"S (", .composite⟩, ⟨"Nest", [⟨") ", ⟨"S (", .composite⟩, .multiple⟩]⟩⟩

/-- An empty token and a leaf can be told apart from the same in the other order, though there is
nothing to be seen of the token but the blank before it. -/
theorem toString_nested_ne : ∃ g, Grammar.ofProductions [nested] = .ok g ∧
    ∃ leaf t u : Tree, leaf = Node.empty nested ∧
      t = (leaf.offer ") " (.token "")).offer ") " (.tree leaf) ∧
      u = (leaf.offer ") " (.tree leaf)).offer ") " (.token "") ∧
      t.Built ∧ u.Built ∧ t.Over g ∧ u.Over g ∧ (∀ p ∈ g.declared, IsWord p.name) ∧
      t.OfWords ∧ u.OfWords ∧ ¬ t ≈ u ∧ toString t ≠ toString u := by
  obtain ⟨g, hg⟩ : ∃ g, Grammar.ofProductions [nested] = .ok g := ⟨_, rfl⟩
  have hdeclared : g.declared = [nested] := Grammar.declared_of_ofProductions hg
  have hnames : ∀ p ∈ g.declared, IsWord p.name := by
    rw [hdeclared, List.forall_mem_singleton]
    decide
  have hleaf : Legible g (Node.empty nested) :=
    .empty ⟨nested, by simp [hdeclared], Setoid.refl _⟩
  have hempty : IsWord "" := by decide
  have ht := (hleaf.offerToken ") " hempty).offerTree ") " hleaf
  have hu := (hleaf.offerTree ") " hleaf).offerToken ") " hempty
  have hne : ¬ ((Node.empty nested : Tree).offer ") " (.token "")).offer ") " (.tree (.empty nested))
      ≈ ((Node.empty nested : Tree).offer ") " (.tree (.empty nested))).offer ") " (.token "") := by
    decide +kernel
  have hiff := toString_eq_iff ht.built hu.built ht.declared hu.declared hnames ht.words hu.words
  exact ⟨g, hg, _, _, _, rfl, rfl, rfl, ht.built, hu.built, ht.declared, hu.declared, hnames,
    ht.words, hu.words, hne, fun h => hne (hiff.1 h)⟩

end Tree
end Asdl
