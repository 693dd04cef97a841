import Asdl.Grammar.Listing
import Asdl.Proofs.Equivalence
import Asdl.Proofs.Text.Splitting

/-! Written declarations. A field is known from its declaration if the name of its type ends where
the mark of the cardinality or the blank comes; its own name may be anything. A constructor is known
as well, if no name in it holds a character that sets off the parts. -/
namespace Asdl

/-- Whether a text has no blank and no mark of a cardinality at its end. The empty text is such. -/
def IsSeparable (text : String) : Prop :=
  ' ' ∉ text.toList ∧ ∀ c ∈ text.toList.getLast?, c ∉ ['?', '*']

-- The parts are named here and below, so that the characters of the text are gone through and not
-- all there are.
instance (text : String) : Decidable (IsSeparable text) :=
  @instDecidableAnd _ _ inferInstance (Option.decidableForallMem _)

/-- The characters that stand around names in a listing. -/
def separators : List Char := [' ', '\n', ',', '(', ')', '?', '*', '-']

/-- Whether a text is not empty and holds no separator. -/
def IsName (text : String) : Prop := text ≠ "" ∧ ∀ c ∈ text.toList, c ∉ separators

instance (text : String) : Decidable (IsName text) :=
  @instDecidableAnd _ _ inferInstance (List.decidableBAll _ _)

lemma IsName.not_mem {text : String} (h : IsName text) {c : Char} (hc : c ∈ separators) :
    c ∉ text.toList :=
  fun hmem => h.2 c hmem hc

lemma IsName.isSeparable {text : String} (h : IsName text) : IsSeparable text := by
  refine ⟨h.not_mem (by decide), fun c hc hmark => ?_⟩
  have hmem : c ∈ text.toList := List.mem_of_getLast? hc
  simp only [List.mem_cons, List.not_mem_nil, or_false] at hmark
  obtain rfl | rfl := hmark
  · exact h.not_mem (by decide) hmem
  · exact h.not_mem (by decide) hmem

lemma Cardinality.suffix_injective : Function.Injective suffix := by
  intro c d h
  cases c <;> cases d <;> first | rfl | exact absurd h (by decide)

/-- Read from its end, a text shows a mark that is behind another text which does not end in one. -/
lemma Cardinality.append_suffix_inj {a b : List Char} {c d : Cardinality}
    (ha : ∀ x ∈ a.getLast?, x ∉ ['?', '*']) (hb : ∀ x ∈ b.getLast?, x ∉ ['?', '*'])
    (h : a ++ c.suffix.toList = b ++ d.suffix.toList) : a = b ∧ c = d := by
  have hmarks (c : Cardinality) : ∀ x ∈ c.suffix.toList.reverse, ¬ x ∉ ['?', '*'] := by
    cases c <;> simp [suffix]
  have hreverse := congrArg List.reverse h
  rw [List.reverse_append, List.reverse_append] at hreverse
  obtain ⟨hsuffix, hrest⟩ := Text.append_inj_of_stop (hmarks c) (hmarks d)
    (by rwa [List.head?_reverse]) (by rwa [List.head?_reverse]) hreverse
  exact ⟨List.reverse_inj.1 hrest,
    suffix_injective (String.toList_inj.1 (List.reverse_inj.1 hsuffix))⟩

namespace Field
variable {e f : Field}

lemma toList_declaration (f : Field) : f.declaration.toList =
    (f.type.name.toList ++ f.cardinality.suffix.toList) ++ ' ' :: f.name.toList := by
  simp [declaration, toString]

/-- Fields with the same declaration are the same up to kinds. -/
theorem equiv_of_declaration_eq (he : IsSeparable e.type.name) (hf : IsSeparable f.type.name)
    (h : e.declaration = f.declaration) : e ≈ f := by
  have hblank {g : Field} (hg : IsSeparable g.type.name) :
      ' ' ∉ g.type.name.toList ++ g.cardinality.suffix.toList := by
    rw [List.mem_append, not_or]
    exact ⟨hg.1, by cases g.cardinality <;> decide⟩
  have hchars := congrArg String.toList h
  rw [toList_declaration, toList_declaration] at hchars
  obtain ⟨hfront, hname⟩ := Text.append_cons_inj (hblank he) (hblank hf) hchars
  obtain ⟨htype, hcardinality⟩ := Cardinality.append_suffix_inj he.2 hf.2 hfront
  exact equiv_iff.2 ⟨String.toList_inj.1 hname, String.toList_inj.1 htype, hcardinality⟩

/-- A mark at the end of a type's name is read as that of a cardinality. -/
example : declaration ⟨"n", ⟨"t?", .primitive⟩, .single⟩ =
    declaration ⟨"n", ⟨"t", .primitive⟩, .optional⟩ := rfl

end Field

/-- Fields are known, one by one, from the list of their declarations. -/
lemma Field.forall₂_of_map_declaration_eq {fields fields' : List Field}
    (h : ∀ f ∈ fields, IsSeparable f.type.name) (h' : ∀ f ∈ fields', IsSeparable f.type.name)
    (he : fields.map declaration = fields'.map declaration) :
    List.Forall₂ (· ≈ ·) fields fields' :=
  forall₂_of_map_eq (fun e hmem f hmem' => equiv_of_declaration_eq (h e hmem) (h' f hmem')) he

/-- Whether a constructor, its fields and their types are called by names. -/
def Constructor.OfNames (c : Constructor) : Prop :=
  IsName c.name ∧ ∀ f ∈ c.fields, IsName f.type.name ∧ IsName f.name

instance (c : Constructor) : Decidable c.OfNames := inferInstanceAs (Decidable (_ ∧ _))

lemma Field.declaration_ne_empty (f : Field) : f.declaration ≠ "" := by
  intro h
  have hchars := congrArg String.toList h
  simp [toList_declaration] at hchars

/-- A declaration holds the characters of its names and few others. -/
lemma Field.not_mem_declaration {f : Field} {x : Char} (hx : x ∉ [' ', '?', '*'])
    (htype : x ∉ f.type.name.toList) (hname : x ∉ f.name.toList) :
    x ∉ f.declaration.toList := by
  have hsuffix : x ∉ f.cardinality.suffix.toList := by
    cases f.cardinality <;> simp_all [Cardinality.suffix]
  rw [toList_declaration]
  simp_all

namespace Constructor
variable {c d : Constructor}

lemma toList_declaration (c : Constructor) : c.declaration.toList = c.name.toList ++
    if c.fields = [] then [] else
      '(' :: ((", ".intercalate (c.fields.map Field.declaration)).toList ++ [')']) := by
  by_cases h : c.fields = [] <;> simp [declaration, h]

lemma OfNames.intercalate_inj (hc : c.OfNames) (hd : d.OfNames)
    (h : ", ".intercalate (c.fields.map Field.declaration) =
      ", ".intercalate (d.fields.map Field.declaration)) :
    List.Forall₂ (· ≈ ·) c.fields d.fields := by
  have htexts {c : Constructor} (hc : c.OfNames) :
      ∀ t ∈ c.fields.map Field.declaration, t ≠ "" ∧ ',' ∉ t.toList := by
    intro t ht
    obtain ⟨f, hf, rfl⟩ := List.mem_map.1 ht
    obtain ⟨htype, hname⟩ := hc.2 f hf
    exact ⟨f.declaration_ne_empty, Field.not_mem_declaration (by decide)
      (htype.not_mem (by decide)) (hname.not_mem (by decide))⟩
  exact Field.forall₂_of_map_declaration_eq (fun f hf => (hc.2 f hf).1.isSeparable)
    (fun f hf => (hd.2 f hf).1.isSeparable) (Text.intercalate_inj (htexts hc) (htexts hd) h)

/-- The names in a constructor: its own, and those of its fields and of their types. -/
def names (c : Constructor) : List String :=
  c.name :: c.fields.flatMap fun f => [f.type.name, f.name]

lemma forall_mem_names {P : String → Prop} :
    (∀ name ∈ c.names, P name) ↔ P c.name ∧ ∀ f ∈ c.fields, P f.type.name ∧ P f.name := by
  rw [names, List.forall_mem_cons, List.forall_mem_flatMap]
  simp

lemma not_mem_declaration {x : Char} (hx : x ∉ [' ', ',', '(', ')', '?', '*'])
    (h : ∀ name ∈ c.names, x ∉ name.toList) : x ∉ c.declaration.toList := by
  obtain ⟨hname, hfields⟩ := forall_mem_names.1 h
  have harguments : x ∉ (", ".intercalate (c.fields.map Field.declaration)).toList := by
    refine Text.not_mem_intercalate (by simp_all) fun t ht => ?_
    obtain ⟨f, hf, rfl⟩ := List.mem_map.1 ht
    exact Field.not_mem_declaration (by simp_all) (hfields f hf).1 (hfields f hf).2
  rw [toList_declaration, List.mem_append, not_or]
  refine ⟨hname, ?_⟩
  split <;> simp_all

/-- Constructors with the same declaration are the same up to kinds. -/
theorem equiv_of_declaration_eq (hc : c.OfNames) (hd : d.OfNames)
    (h : c.declaration = d.declaration) : c ≈ d := by
  have hchars := congrArg String.toList h
  rw [toList_declaration, toList_declaration] at hchars
  have hopens (c : Constructor) : ∀ x ∈ (if c.fields = [] then [] else
      '(' :: ((", ".intercalate (c.fields.map Field.declaration)).toList ++ [')'])).head?,
      x = '(' := by
    split <;> simp
  obtain ⟨hname, hfields⟩ := Text.append_inj_of_mark (hc.1.not_mem (by decide))
    (hd.1.not_mem (by decide)) (hopens c) (hopens d) hchars
  refine equiv_iff.2 ⟨String.toList_inj.1 hname, ?_⟩
  by_cases hcf : c.fields = [] <;> by_cases hdf : d.fields = []
  · rw [hcf, hdf]
    exact .nil
  · simp [hcf, hdf] at hfields
  · simp [hcf, hdf] at hfields
  · rw [if_neg hcf, if_neg hdf, List.cons.injEq, List.append_cancel_right_eq] at hfields
    exact hc.intercalate_inj hd (String.toList_inj.1 hfields.2)

end Constructor

end Asdl
