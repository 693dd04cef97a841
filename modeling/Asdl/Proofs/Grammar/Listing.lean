import Asdl.Proofs.Declaration
import Asdl.Proofs.Grammar.Kinds
import Asdl.Proofs.Text.Lines

/-! The listing of a grammar tells its groups. Comment lines begin with a dash and further
alternatives with a blank, which no name does; so it is known where a definition begins, and the
comment tells the kinds. -/
namespace Asdl

/-- The names in a production: of its head and in its constructor. -/
def Production.names (p : Production) : List String := p.head.name :: p.constructor.names

/-- All names in a grammar, as they come in the declared productions. -/
def Grammar.names (g : Grammar) : List String := g.declared.flatMap Production.names

/-- Whether all productions, types and fields of a grammar are called by names. -/
structure Grammar.OfNames (g : Grammar) : Prop where
  productions : ∀ p ∈ g.productions, IsName p.name
  types : ∀ t ∈ g.types, IsName t.name
  fields : ∀ f ∈ g.fields, IsName f.name

namespace Group
variable {group : Group} {groups groups' : List Group} {head head' : Ty} {c d : Constructor}

/-- Whether a group can be read back: it is not empty, and its constructors and its head are called
by names. -/
structure OfNames (group : Group) : Prop where
  head : IsName group.head.name
  nonempty : group.productions ≠ []
  constructors : ∀ p ∈ group.productions, p.constructor.OfNames

/-- Whether two groups have the same head and constructors up to kinds. -/
def Same (a b : Group) : Prop :=
  a.head ≈ b.head ∧
    List.Forall₂ (fun p q => p.constructor ≈ q.constructor) a.productions b.productions

/-- The line of the first alternative. -/
def openingLine (head : Ty) (c : Constructor) : String := head.name ++ " = " ++ c.declaration

/-- The line of an alternative after the first. -/
def furtherLine (head : Ty) (c : Constructor) : String :=
  Text.spaces (head.name.utf8ByteSize + 1) ++ "| " ++ c.declaration

lemma listing_cons (head : Ty) (p : Production) (rest : List Production) :
    listing ⟨head, p :: rest⟩ =
      openingLine head p.constructor :: rest.map fun q => furtherLine head q.constructor := by
  simp [listing, openingLine, furtherLine]

lemma toList_openingLine (head : Ty) (c : Constructor) : (openingLine head c).toList =
    head.name.toList ++ ' ' :: '=' :: ' ' :: c.declaration.toList := by
  simp [openingLine]

lemma toList_furtherLine (head : Ty) (c : Constructor) : (furtherLine head c).toList =
    ' ' :: (List.replicate head.name.utf8ByteSize ' ' ++ '|' :: ' ' :: c.declaration.toList) := by
  simp [furtherLine, Text.spaces, List.replicate_succ]

lemma openingLine_inj (hhead : IsName head.name) (hhead' : IsName head'.name) (hc : c.OfNames)
    (hd : d.OfNames) (h : openingLine head c = openingLine head' d) : head ≈ head' ∧ c ≈ d := by
  have hchars := congrArg String.toList h
  rw [toList_openingLine, toList_openingLine] at hchars
  obtain ⟨hname, hrest⟩ := Text.append_cons_inj (hhead.not_mem (by decide))
    (hhead'.not_mem (by decide)) hchars
  simp only [List.cons.injEq, true_and, String.toList_inj] at hrest
  exact ⟨String.toList_inj.1 hname, Constructor.equiv_of_declaration_eq hc hd hrest⟩

lemma furtherLine_inj (hhead : head ≈ head') (hc : c.OfNames) (hd : d.OfNames)
    (h : furtherLine head c = furtherLine head' d) : c ≈ d := by
  have hchars := congrArg String.toList h
  rw [toList_furtherLine, toList_furtherLine, Ty.equiv_iff.1 hhead] at hchars
  simp only [List.cons.injEq, List.append_cancel_left_eq, true_and, String.toList_inj] at hchars
  exact Constructor.equiv_of_declaration_eq hc hd hchars

/-- A name begins with none of the characters that set it off. -/
lemma head?_openingLine_ne (hhead : IsName head.name) (c : Constructor) {x : Char}
    (hx : x ∈ separators) :
    (openingLine head c).toList.head? ≠ some x := by
  rw [toList_openingLine]
  cases hchars : head.name.toList with
  | nil => exact absurd (String.toList_eq_nil_iff.1 hchars) hhead.1
  | cons y rest =>
    rintro he
    obtain rfl : y = x := by simpa using he
    exact hhead.not_mem hx (by simp [hchars])

lemma head?_furtherLine (head : Ty) (c : Constructor) :
    (furtherLine head c).toList.head? = some ' ' := by
  rw [toList_furtherLine]
  rfl

section Characters
variable {x : Char}

lemma not_mem_openingLine (hx : x ∉ [' ', '=', ',', '(', ')', '?', '*'])
    (hhead : x ∉ head.name.toList) (hc : ∀ name ∈ c.names, x ∉ name.toList) :
    x ∉ (openingLine head c).toList := by
  have hdeclaration : x ∉ c.declaration.toList := Constructor.not_mem_declaration (by simp_all) hc
  rw [toList_openingLine]
  simp_all

lemma not_mem_furtherLine (hx : x ∉ [' ', '|', ',', '(', ')', '?', '*'])
    (hc : ∀ name ∈ c.names, x ∉ name.toList) : x ∉ (furtherLine head c).toList := by
  have hdeclaration : x ∉ c.declaration.toList := Constructor.not_mem_declaration (by simp_all) hc
  rw [toList_furtherLine]
  simp_all

lemma not_mem_listing (hx : x ∉ [' ', '=', '|', ',', '(', ')', '?', '*'])
    (hhead : x ∉ group.head.name.toList)
    (hconstructors : ∀ p ∈ group.productions, ∀ name ∈ p.constructor.names, x ∉ name.toList) :
    ∀ line ∈ group.listing, x ∉ line.toList := by
  obtain ⟨head, productions⟩ := group
  cases productions with
  | nil => simp [listing]
  | cons p ps =>
    obtain ⟨hp, hps⟩ := List.forall_mem_cons.1 hconstructors
    rw [listing_cons, List.forall_mem_cons]
    refine ⟨not_mem_openingLine (by simp_all) hhead hp, fun line hline => ?_⟩
    obtain ⟨q, hq, rfl⟩ := List.mem_map.1 hline
    exact not_mem_furtherLine (by simp_all) (hps q hq)

end Characters

/-- What follows a definition is another one, or nothing. -/
lemma head?_listings_ne (h : ∀ group ∈ groups, group.OfNames) {x : Char}
    (hx : x ∈ separators) :
    ∀ line ∈ (groups.flatMap listing).head?, line.toList.head? ≠ some x := by
  cases groups with
  | nil => simp
  | cons group rest =>
    obtain ⟨head, productions⟩ := group
    obtain ⟨hhead, hne, -⟩ := h _ List.mem_cons_self
    obtain ⟨p, others, rfl⟩ := List.exists_cons_of_ne_nil hne
    rw [List.flatMap_cons, listing_cons, List.cons_append, List.head?_cons]
    rintro line ⟨⟩
    exact head?_openingLine_ne hhead p.constructor hx

/-- A group and what is listed behind it are known from the lines. -/
lemma listing_append_inj {a b : Group} (ha : a.OfNames) (hb : b.OfNames)
    {lines lines' : List String} (hlines : ∀ line ∈ lines.head?, line.toList.head? ≠ some ' ')
    (hlines' : ∀ line ∈ lines'.head?, line.toList.head? ≠ some ' ')
    (h : a.listing ++ lines = b.listing ++ lines') : a.Same b ∧ lines = lines' := by
  obtain ⟨head, ps⟩ := a
  obtain ⟨head', qs⟩ := b
  obtain ⟨hhead, hne, hconstructors⟩ := ha
  obtain ⟨hhead', hne', hconstructors'⟩ := hb
  obtain ⟨p, ps, rfl⟩ := List.exists_cons_of_ne_nil hne
  obtain ⟨q, qs, rfl⟩ := List.exists_cons_of_ne_nil hne'
  obtain ⟨hp, hps⟩ := List.forall_mem_cons.1 hconstructors
  obtain ⟨hq, hqs⟩ := List.forall_mem_cons.1 hconstructors'
  rw [listing_cons, listing_cons, List.cons_append, List.cons_append, List.cons.injEq] at h
  obtain ⟨hsame, hfirst⟩ := openingLine_inj hhead hhead' hp hq h.1
  have hindented (head : Ty) (ps : List Production) :
      ∀ line ∈ ps.map fun p => furtherLine head p.constructor,
        ¬ line.toList.head? ≠ some ' ' := by
    simp [head?_furtherLine]
  obtain ⟨hfurther, hrest⟩ := Text.append_inj_of_stop (hindented head ps) (hindented head' qs)
    hlines hlines' h.2
  refine ⟨⟨hsame, .cons hfirst (forall₂_of_map_eq (fun p hp q hq => ?_) hfurther)⟩, hrest⟩
  exact furtherLine_inj hsame (hps p hp) (hqs q hq)

/-- Groups are known from their lines. -/
theorem forall₂_same_of_listings_eq (h : ∀ group ∈ groups, group.OfNames)
    (h' : ∀ group ∈ groups', group.OfNames)
    (he : groups.flatMap listing = groups'.flatMap listing) : List.Forall₂ Same groups groups' := by
  have hne {group : Group} (hgroup : group.OfNames) : group.listing ≠ [] := by
    obtain ⟨p, ps, hproductions⟩ := List.exists_cons_of_ne_nil hgroup.nonempty
    simp [listing, hproductions]
  induction groups generalizing groups' with
  | nil =>
    cases groups' with
    | nil => exact .nil
    | cons b rest' => simp [hne (h' b List.mem_cons_self)] at he
  | cons a rest ih =>
    cases groups' with
    | nil => simp [hne (h a List.mem_cons_self)] at he
    | cons b rest' =>
      obtain ⟨ha, hrest⟩ := List.forall_mem_cons.1 h
      obtain ⟨hb, hrest'⟩ := List.forall_mem_cons.1 h'
      obtain ⟨hsame, he⟩ := listing_append_inj ha hb (head?_listings_ne hrest (by decide))
        (head?_listings_ne hrest' (by decide)) he
      exact .cons hsame (ih hrest hrest' he)

end Group

namespace Grammar
variable {g h : Grammar}

lemma mem_primitiveTypes {t : Ty} : t ∈ g.primitiveTypes ↔ t ∈ g.types ∧ t.kind = .primitive := by
  simp [primitiveTypes, Vocabulary.typesOfKind, types]

lemma listingHeader_eq (g : Grammar) : g.listingHeader = ("-- root: " ++ g.root.name) ::
    if g.primitiveTypes = [] then []
    else ["-- primitive types: " ++ ", ".intercalate (g.primitiveTypes.map Ty.name)] := by
  simp [listingHeader]

section Characters

lemma constructor_names_subset {p : Production} (hp : p ∈ g.declared) :
    p.constructor.names ⊆ g.names :=
  fun _ hname => List.mem_flatMap.2 ⟨p, hp, List.mem_cons_of_mem _ hname⟩

lemma Occurs.name_mem_names {t : Ty} (ht : g.Occurs t) : t.name ∈ g.names := by
  obtain ⟨p, hp, ht⟩ := ht.declares
  obtain rfl | ⟨f, hf, rfl⟩ := ht
  · exact List.mem_flatMap.2 ⟨p, hp, List.mem_cons_self⟩
  · refine constructor_names_subset hp (List.mem_cons_of_mem _ ?_)
    exact List.mem_flatMap.2 ⟨f, hf, List.mem_cons_self⟩

variable {x : Char} (hnames : ∀ name ∈ g.names, x ∉ name.toList)
include hnames

/-- The comment lines hold the characters of names and few others. -/
lemma not_mem_listingHeader
    (hx : x ∉ "-- root: ".toList ++ "-- primitive types: ".toList ++ [',', ' ']) :
    ∀ line ∈ g.listingHeader, x ∉ line.toList := by
  rw [List.mem_append, List.mem_append, not_or, not_or] at hx
  obtain ⟨⟨hroot, hprimitive⟩, hcomma⟩ := hx
  have htypes : x ∉ (", ".intercalate (g.primitiveTypes.map Ty.name)).toList := by
    refine Text.not_mem_intercalate hcomma fun name hname => ?_
    obtain ⟨t, ht, rfl⟩ := List.mem_map.1 hname
    exact hnames _ (Occurs.type (mem_primitiveTypes.1 ht).1).name_mem_names
  have hrootName : x ∉ g.root.name.toList := hnames _ Occurs.root.name_mem_names
  rw [listingHeader_eq, List.forall_mem_cons, String.toList_append, List.mem_append, not_or]
  refine ⟨⟨hroot, hrootName⟩, ?_⟩
  split
  · simp
  · rw [List.forall_mem_singleton, String.toList_append, List.mem_append, not_or]
    exact ⟨hprimitive, htypes⟩

lemma not_mem_listingLines
    (hheader : x ∉ "-- root: ".toList ++ "-- primitive types: ".toList ++ [',', ' '])
    (hgroup : x ∉ [' ', '=', '|', ',', '(', ')', '?', '*']) :
    ∀ line ∈ g.listingLines, x ∉ line.toList := by
  rw [listingLines, List.forall_mem_append]
  refine ⟨not_mem_listingHeader hnames hheader, fun line hline => ?_⟩
  obtain ⟨group, hmem, hline⟩ := List.mem_flatMap.1 hline
  refine Group.not_mem_listing hgroup (hnames _ (Occurs.group hmem).name_mem_names)
    (fun p hp name hname => ?_) line hline
  exact hnames name (constructor_names_subset (mem_declared_of_mem_group hmem hp) hname)

end Characters

lemma OfNames.type (hg : g.OfNames) {t : Ty} (ht : g.Occurs t) : IsName t.name :=
  hg.types t (g.mem_types.2 ht.declares)

lemma OfNames.constructor (hg : g.OfNames) {p : Production} (hp : p ∈ g.declared) :
    p.constructor.OfNames := by
  refine ⟨hg.productions p (g.productions_perm.mem_iff.2 hp), fun f hf => ?_⟩
  have hfield : f ∈ g.fields := g.mem_fields.2 ⟨p, hp, hf⟩
  exact ⟨hg.type (.field hfield), hg.fields f hfield⟩

lemma ofNames_of_declared
    (h : ∀ p ∈ g.declared, IsName p.head.name ∧ p.constructor.OfNames) : g.OfNames := by
  refine ⟨fun p hp => ?_, fun t ht => ?_, fun f hf => ?_⟩
  · exact (h p (g.productions_perm.mem_iff.1 hp)).2.1
  · obtain ⟨p, hp, ht⟩ := g.mem_types.1 ht
    obtain rfl | ⟨f, hf, rfl⟩ := ht
    · exact (h p hp).1
    · exact ((h p hp).2.2 f hf).1
  · obtain ⟨p, hp, hf⟩ := g.mem_fields.1 hf
    exact ((h p hp).2.2 f hf).2

lemma OfNames.group (hg : g.OfNames) {group : Group} (hgroup : group ∈ g.groups) :
    group.OfNames :=
  ⟨hg.type (.group hgroup), productions_ne_nil hgroup,
    fun _ hp => hg.constructor (mem_declared_of_mem_group hgroup hp)⟩

lemma OfNames.primitiveTypes (hg : g.OfNames) {name : String}
    (hname : name ∈ g.primitiveTypes.map Ty.name) : IsName name := by
  obtain ⟨t, ht, rfl⟩ := List.mem_map.1 hname
  exact hg.types t (mem_primitiveTypes.1 ht).1

lemma head?_header (g : Grammar) : ∀ line ∈ g.listingHeader, line.toList.head? = some '-' := by
  rw [listingHeader_eq, List.forall_mem_cons]
  split <;> simp

/-- The comment enumerates the primitive types. -/
lemma primitiveTypes_of_header_eq (hg : g.OfNames) (hh : h.OfNames)
    (he : g.listingHeader = h.listingHeader) :
    g.primitiveTypes.map Ty.name = h.primitiveTypes.map Ty.name := by
  have htexts {g : Grammar} (hg : g.OfNames) :
      ∀ t ∈ g.primitiveTypes.map Ty.name, t ≠ "" ∧ ',' ∉ t.toList := by
    intro t ht
    exact ⟨(hg.primitiveTypes ht).1, (hg.primitiveTypes ht).not_mem (by decide)⟩
  rw [listingHeader_eq, listingHeader_eq] at he
  have hlines := (List.cons.inj he).2
  by_cases hgn : g.primitiveTypes = [] <;> by_cases hhn : h.primitiveTypes = []
  · rw [hgn, hhn]
  · simp [hgn, hhn] at hlines
  · simp [hgn, hhn] at hlines
  · rw [if_neg hgn, if_neg hhn] at hlines
    have htext := congrArg String.toList (List.cons.inj hlines).1
    rw [String.toList_append, String.toList_append, List.append_cancel_left_eq] at htext
    exact Text.intercalate_inj (htexts hg) (htexts hh) (String.toList_inj.1 htext)

lemma OfNames.isName (hg : g.OfNames) : ∀ name ∈ g.names, IsName name := by
  rw [names, List.forall_mem_flatMap]
  intro p hp
  rw [Production.names, List.forall_mem_cons]
  exact ⟨hg.type (.declared hp p.mentions_head),
    Constructor.forall_mem_names.2 (hg.constructor hp)⟩

/-- Line feeds stand between lines only. -/
lemma OfNames.feed_not_mem (hg : g.OfNames) : ∀ line ∈ g.listingLines, '\n' ∉ line.toList :=
  not_mem_listingLines (fun name hname => (hg.isName name hname).not_mem (by decide)) (by decide)
    (by decide)

/-- Types with the same name are equal if the primitive ones have the same names. -/
lemma type_eq_of_primitiveTypes (he : g.primitiveTypes.map Ty.name = h.primitiveTypes.map Ty.name)
    {t u : Ty} (ht : g.Occurs t) (hu : h.Occurs u) (hname : t.name = u.name) : t = u := by
  have hprimitive {g : Grammar} {t : Ty} (ht : g.Occurs t) :
      t.name ∈ g.primitiveTypes.map Ty.name ↔ t.kind = .primitive := by
    constructor
    · intro hmem
      obtain ⟨v, hv, hvname⟩ := List.mem_map.1 hmem
      obtain ⟨hv, hkind⟩ := mem_primitiveTypes.1 hv
      rwa [ht.declares.eq_of_name (g.mem_types.1 hv) hvname.symm]
    · exact fun hkind =>
        List.mem_map_of_mem (mem_primitiveTypes.2 ⟨g.mem_types.2 ht.declares, hkind⟩)
  have hkind : t.kind = .primitive ↔ u.kind = .primitive := by
    rw [← hprimitive ht, ← hprimitive hu, he, hname]
  obtain ⟨name, kind⟩ := t
  obtain ⟨name', kind'⟩ := u
  cases kind <;> cases kind' <;> simp_all

/-- Groups that are the same up to kinds are equal where no name has two kinds. -/
lemma group_eq_of_same (hkinds : ∀ t u, g.Occurs t → h.Occurs u → t.name = u.name → t = u)
    {a b : Group} (ha : a ∈ g.groups) (hb : b ∈ h.groups) (hsame : a.Same b) : a = b := by
  obtain ⟨hhead, hproductions⟩ := hsame
  have hhead' : a.head = b.head := hkinds _ _ (.group ha) (.group hb) hhead
  have hlists : a.productions = b.productions := by
    refine eq_of_forall₂ (fun p hp q hq he => ?_) hproductions
    have hequiv : p ≈ q := by
      refine Production.equiv_iff.2 ⟨?_, he⟩
      rwa [head_eq_of_mem_group ha hp, head_eq_of_mem_group hb hq]
    exact Production.eq_of_equiv hequiv fun t u ht hu hname =>
      hkinds t u (.grouped ha hp ht) (.grouped hb hq hu) hname
  cases a
  cases b
  simp_all

/-- Grammars with the same groups are listed in the same way: the root is the first head, and the
types are those of the groups. -/
lemma listing_eq_of_groups_eq (he : g.groups = h.groups) : g.listing = h.listing := by
  have hperm : g.declared.Perm h.declared :=
    g.grouping.perm.symm.trans (he ▸ h.grouping.perm)
  have hroot : g.root = h.root := by
    have hheads := g.root_eq_head_group
    rw [he, h.root_eq_head_group] at hheads
    exact (Option.some.inj hheads).symm
  have hprimitives : g.primitiveTypes = h.primitiveTypes := by
    rw [primitiveTypes, vocabulary_eq_of_perm hperm, primitiveTypes]
  rw [listing, listing, listingLines, listingLines, listingHeader, listingHeader, he, hroot,
    hprimitives]

/-- Grammars whose productions, types and fields are called by names are listed in the same way
exactly if they have the same groups: the same heads, constructors, fields and cardinalities in the
same order, and the same kinds. -/
theorem listing_eq_iff (hg : g.OfNames) (hh : h.OfNames) :
    g.listing = h.listing ↔ g.groups = h.groups := by
  refine ⟨fun he => ?_, listing_eq_of_groups_eq⟩
  have hlines : g.listingLines = h.listingLines :=
    Text.join_lines_inj hg.feed_not_mem hh.feed_not_mem he
  have hcomment (g : Grammar) : ∀ line ∈ g.listingHeader, ¬ line.toList.head? ≠ some '-' :=
    fun line hline => not_not.2 (g.head?_header line hline)
  obtain ⟨hheader, hgroups⟩ := Text.append_inj_of_stop (hcomment g) (hcomment h)
    (Group.head?_listings_ne (fun _ => hg.group) (by decide))
    (Group.head?_listings_ne (fun _ => hh.group) (by decide)) hlines
  have hprimitives := primitiveTypes_of_header_eq hg hh hheader
  have hsame := Group.forall₂_same_of_listings_eq (fun _ => hg.group) (fun _ => hh.group) hgroups
  exact eq_of_forall₂ (fun a ha b hb =>
    group_eq_of_same (fun t u ht hu => type_eq_of_primitiveTypes hprimitives ht hu) ha hb) hsame

/-- Productions called by the signs of a listing. -/
def signs (word : Kind) : List Production :=
  [⟨⟨"=", .composite⟩, ⟨"|", [⟨"=", ⟨"|", .composite⟩, .multiple⟩, ⟨"w", ⟨"w", word⟩, .optional⟩]⟩⟩,
    ⟨⟨"=", .composite⟩, ⟨"=", []⟩⟩, ⟨⟨"|", .composite⟩, ⟨"w", []⟩⟩]

/-- In what order productions of different heads are declared is not seen in the listing, but the
kind of a type is. -/
theorem listing_signs : ∃ g h k, ofProductions (signs .primitive) = .ok g ∧
    ofProductions [(signs .primitive)[0], (signs .primitive)[2], (signs .primitive)[1]] = .ok h ∧
    ofProductions (signs .composite) = .ok k ∧ g.OfNames ∧ h.OfNames ∧ k.OfNames ∧ g ≠ h ∧
    g.listing = h.listing ∧ g.listing ≠ k.listing := by
  obtain ⟨g, hg⟩ : ∃ g, ofProductions (signs .primitive) = .ok g := ⟨_, rfl⟩
  obtain ⟨h, hh⟩ : ∃ h, ofProductions
      [(signs .primitive)[0], (signs .primitive)[2], (signs .primitive)[1]] = .ok h := ⟨_, rfl⟩
  obtain ⟨k, hk⟩ : ∃ k, ofProductions (signs .composite) = .ok k := ⟨_, rfl⟩
  have hsame : (ofProductions (signs .primitive)).map (·.groups) = (ofProductions
      [(signs .primitive)[0], (signs .primitive)[2], (signs .primitive)[1]]).map (·.groups) := rfl
  have hother : (ofProductions (signs .primitive)).map (·.groups) ≠
      (ofProductions (signs .composite)).map (·.groups) := by
    decide
  simp only [hg, hh, hk, Except.map, Except.ok.injEq, ne_eq] at hsame hother
  have hgd := declared_of_ofProductions hg
  have hhd := declared_of_ofProductions hh
  have hkd := declared_of_ofProductions hk
  have hgnames : g.OfNames := ofNames_of_declared (by rw [hgd]; decide)
  have hhnames : h.OfNames := ofNames_of_declared (by rw [hhd]; decide)
  have hknames : k.OfNames := ofNames_of_declared (by rw [hkd]; decide)
  refine ⟨g, h, k, hg, hh, hk, hgnames, hhnames, hknames, ?_,
    (listing_eq_iff hgnames hhnames).2 hsame,
    fun he => hother ((listing_eq_iff hgnames hknames).1 he)⟩
  rintro rfl
  exact absurd (hgd.symm.trans hhd) (by decide)

end Grammar

end Asdl
