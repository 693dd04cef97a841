import Asdl.English
import Asdl.Proofs.Grammar.Listing

/-! How a listing is laid out. Its lines fall into the definitions of the head types, and in each of
these the lines are those of the productions that a lookup finds. The bars of a definition stand
below its equals sign if the name of the head is ASCII, and else further right. -/
namespace Asdl

/-- How a constructor is written: its name alone if it has no fields, and else its name with the
fields in their order, each as its type, the mark of its cardinality and its name. -/
def Constructor.WrittenAs (c : Constructor) (text : String) : Prop :=
  (c.fields = [] → text = c.name) ∧
  (c.fields ≠ [] → text = c.name ++ "(" ++ ", ".intercalate (c.fields.map fun f =>
    f.type.name ++ (match f.cardinality with
      | .single => ""
      | .optional => "?"
      | .multiple => "*") ++ " " ++ f.name) ++ ")")

lemma Constructor.writtenAs_declaration (c : Constructor) : c.WrittenAs c.declaration := by
  have hfields : Field.declaration = fun f =>
      f.type.name ++ (match f.cardinality with
        | .single => ""
        | .optional => "?"
        | .multiple => "*") ++ " " ++ f.name := by
    funext f
    rw [← String.toList_inj, Field.toList_declaration]
    cases f.cardinality <;> simp [Cardinality.suffix]
  constructor
  · intro hnone
    simp [declaration, hnone]
  · intro hsome
    simp [declaration, hsome, hfields]

/-- Whether lines define a head type by productions: there is one for each, with the head before the
first constructor, and blanks and a bar before each other one. -/
structure Defines (lines : List String) (head : Ty) (ps : List Production) : Prop where
  length : lines.length = ps.length
  opening : ∀ p, ps[0]? = some p →
    ∃ text, p.constructor.WrittenAs text ∧ lines[0]? = some (head.name ++ " = " ++ text)
  further : ∀ k p, ps[k + 1]? = some p →
    ∃ n text, p.constructor.WrittenAs text ∧ lines[k + 1]? = some (Text.spaces n ++ "| " ++ text)

/-- Whether a line begins with two dashes. -/
def IsComment (line : String) : Prop := "--".toList <+: line.toList

instance (line : String) : Decidable (IsComment line) := inferInstanceAs (Decidable (_ <+: _))

/-- Whether a line has an equals sign between blanks. -/
def HasSign (line : String) : Bool := (Text.before? " = " line).isSome

namespace Group
variable {group : Group} {head : Ty} {c : Constructor} {p : Production} {rest : List Production}
  {line : String}

section Columns

/-- Whether the sign after a head stands in a column of a line. Columns count characters. -/
def SignIn (head : Ty) (column : Nat) (line : String) : Prop :=
  (∃ rest, line = head.name ++ " " ++ "=" ++ rest) ∧ column = (head.name ++ " ").length

/-- Whether the bar before an alternative stands in a column of a line, behind blanks only. -/
def BarIn (column : Nat) (line : String) : Prop :=
  ∃ rest, line = Text.spaces column ++ "|" ++ rest

/-- Whether all bars in the definition of a head type stand below the sign after the head. -/
def Aligned (group : Group) : Prop :=
  ∃ column, (∀ line ∈ group.listing.head?, SignIn group.head column line) ∧
    ∀ line ∈ group.listing.tail, BarIn column line

lemma BarIn.column_eq {m n : Nat} (hm : BarIn m line) (hn : BarIn n line) : m = n := by
  obtain ⟨rest, rfl⟩ := hm
  obtain ⟨rest', he⟩ := hn
  have hchars := congrArg String.toList he
  simp only [String.toList_append, Text.spaces, String.toList_ofList, List.append_assoc] at hchars
  have hblank (n : Nat) : '|' ∉ List.replicate n ' ' := by simp
  have hsame := (Text.append_cons_inj (hblank m) (hblank n) hchars).1
  simpa using congrArg List.length hsame

lemma SignIn.column_eq {column : Nat} (h : SignIn head column line) :
    column = head.name.length + 1 := by
  rw [h.2, String.length_append]
  rfl

lemma signIn_openingLine (head : Ty) (c : Constructor) :
    SignIn head (head.name.length + 1) (openingLine head c) := by
  refine ⟨⟨" " ++ c.declaration, ?_⟩, ?_⟩
  · rw [← String.toList_inj, toList_openingLine]
    simp
  · rw [String.length_append]
    rfl

lemma barIn_furtherLine (head : Ty) (c : Constructor) :
    BarIn (head.name.utf8ByteSize + 1) (furtherLine head c) := by
  refine ⟨" " ++ c.declaration, ?_⟩
  rw [← String.toList_inj]
  simp [furtherLine]

/-- Blanks are counted by bytes of the head, so that they fill its place only if it is ASCII. -/
lemma aligned_iff : Aligned ⟨head, p :: rest⟩ ↔
    rest = [] ∨ Text.IsAscii head.name := by
  rw [← Text.utf8ByteSize_eq_length_iff, Aligned, listing_cons]
  constructor
  · rintro ⟨column, hsign, hbars⟩
    cases rest with
    | nil => exact .inl rfl
    | cons q rest =>
      have hbar := hbars (furtherLine head q.constructor) List.mem_cons_self
      have hwide := hbar.column_eq (barIn_furtherLine head q.constructor)
      have hcolumn : column = head.name.length + 1 := (hsign _ rfl).column_eq
      right
      omega
  · intro h
    refine ⟨head.name.length + 1, ?_, ?_⟩
    · rintro line ⟨⟩
      exact signIn_openingLine head p.constructor
    · intro line hline
      obtain ⟨q, hq, rfl⟩ := List.mem_map.1 hline
      obtain rfl | hascii := h
      · cases hq
      · exact hascii ▸ barIn_furtherLine head q.constructor

end Columns

section Reading

lemma before?_openingLine (hhead : '=' ∉ head.name.toList) (c : Constructor) :
    Text.before? " = " (openingLine head c) = some head.name :=
  Text.before?_append hhead c.declaration

lemma before?_furtherLine (hc : ∀ name ∈ c.names, '=' ∉ name.toList) :
    Text.before? " = " (furtherLine head c) = none :=
  Text.before?_eq_none (by decide) (not_mem_furtherLine (by decide) hc)

lemma not_isComment_openingLine (hhead : '-' ∉ head.name.toList) (c : Constructor) :
    ¬ IsComment (openingLine head c) := by
  rw [IsComment, toList_openingLine]
  cases hchars : head.name.toList with
  | nil => simp
  | cons x chars => simp_all

lemma not_isComment_listing (hhead : '-' ∉ group.head.name.toList) :
    ∀ line ∈ group.listing, ¬ IsComment line := by
  obtain ⟨head, productions⟩ := group
  cases productions with
  | nil => simp [listing]
  | cons p rest =>
    rw [listing_cons, List.forall_mem_cons]
    refine ⟨not_isComment_openingLine hhead p.constructor, fun line hline => ?_⟩
    obtain ⟨q, hq, rfl⟩ := List.mem_map.1 hline
    simp [IsComment, toList_furtherLine]

lemma length_listing (group : Group) : group.listing.length = group.productions.length := by
  obtain ⟨head, productions⟩ := group
  cases productions with
  | nil => rfl
  | cons p rest => simp [listing_cons]

lemma defines_listing (head : Ty) (p : Production) (rest : List Production) :
    Defines (listing ⟨head, p :: rest⟩) head (p :: rest) := by
  refine ⟨length_listing _, ?_, ?_⟩
  · rintro q ⟨⟩
    exact ⟨_, p.constructor.writtenAs_declaration, by rw [listing_cons]; rfl⟩
  · intro k q hq
    have hrest : rest[k]? = some q := hq
    refine ⟨head.name.utf8ByteSize + 1, _, q.constructor.writtenAs_declaration, ?_⟩
    rw [listing_cons, List.getElem?_cons_succ, List.getElem?_map, hrest]
    rfl

end Reading

end Group

namespace Grammar
variable {g : Grammar} {group : Group}

lemma exists_eq_cons (hgroup : group ∈ g.groups) : ∃ head p rest, group = ⟨head, p :: rest⟩ := by
  obtain ⟨head, productions⟩ := group
  obtain ⟨p, rest, rfl⟩ := List.exists_cons_of_ne_nil (productions_ne_nil hgroup)
  exact ⟨head, p, rest, rfl⟩

/-- The listing is read line by line. -/
lemma lines_listing (hnames : ∀ name ∈ g.names, '\n' ∉ name.toList) :
    Text.lines g.listing = g.listingHeader ++ g.groups.flatMap Group.listing :=
  Text.lines_join (not_mem_listingLines hnames (by decide) (by decide))

/-- In a listing the sign after a head stands behind as many characters as the name of the head has,
but each bar behind as many as it has bytes. So a definition of more than one alternative is aligned
exactly if its head is ASCII. -/
theorem aligned_iff_ascii (hnames : ∀ name ∈ g.names, '\n' ∉ name.toList) :
    Text.lines g.listing = g.listingHeader ++ g.groups.flatMap Group.listing ∧
    ∀ group ∈ g.groups,
      group.listing.length = group.productions.length ∧
      (∀ line ∈ group.listing.head?,
        Group.SignIn group.head (group.head.name.length + 1) line) ∧
      (∀ line ∈ group.listing.tail,
        Group.BarIn (group.head.name.utf8ByteSize + 1) line) ∧
      (group.Aligned ↔ group.productions.length = 1 ∨ Text.IsAscii group.head.name) := by
  refine ⟨lines_listing hnames, fun group hgroup => ⟨group.length_listing, ?_⟩⟩
  obtain ⟨head, p, rest, rfl⟩ := exists_eq_cons hgroup
  rw [Group.listing_cons, Group.aligned_iff]
  refine ⟨?_, ?_, by simp⟩
  · rintro line ⟨⟩
    exact Group.signIn_openingLine head p.constructor
  · intro line hline
    obtain ⟨q, hq, rfl⟩ := List.mem_map.1 hline
    exact Group.barIn_furtherLine head q.constructor

/-- The listing of the English grammar is aligned throughout. -/
theorem aligned_english : ∃ g, English.grammar = .ok g ∧
    (∀ name ∈ g.names, '\n' ∉ name.toList) ∧ ∀ group ∈ g.groups, group.Aligned := by
  obtain ⟨g, hg⟩ : ∃ g, English.grammar = .ok g := ⟨_, rfl⟩
  have hdeclared : g.declared = English.productions := declared_of_ofProductions hg
  have hnames : ∀ name ∈ g.names, '\n' ∉ name.toList := by
    rw [names, hdeclared]
    decide
  have hascii : ∀ name ∈ g.names, Text.IsAscii name := by
    rw [names, hdeclared]
    decide
  refine ⟨g, hg, hnames, fun group hgroup => ?_⟩
  obtain ⟨-, -, -, haligned⟩ := (aligned_iff_ascii hnames).2 group hgroup
  exact haligned.2 (.inr (hascii _ (Occurs.group hgroup).name_mem_names))

/-- Two sizes under a head of five characters and seven bytes. -/
def sizes : List Production :=
  [⟨⟨"Größe", .composite⟩, ⟨"klein", []⟩⟩, ⟨⟨"Größe", .composite⟩, ⟨"groß", []⟩⟩]

/-- A bar stands two columns off below a head with two letters that are not ASCII. -/
theorem not_aligned_sizes : ∃ g, ofProductions sizes = .ok g ∧
    (∀ name ∈ g.names, '\n' ∉ name.toList) ∧
    g.listing = "-- root: Größe\nGröße = klein\n        | groß\n" ∧
    ∃ group ∈ g.groups, ¬ group.Aligned := by
  obtain ⟨g, hg, hlisting, hgroups⟩ : ∃ g, ofProductions sizes = .ok g ∧
      g.listing = "-- root: Größe\nGröße = klein\n        | groß\n" ∧
      g.groups = [⟨⟨"Größe", .composite⟩, sizes⟩] := ⟨_, rfl, rfl, rfl⟩
  have hdeclared : g.declared = sizes := declared_of_ofProductions hg
  have hnames : ∀ name ∈ g.names, '\n' ∉ name.toList := by
    rw [names, hdeclared]
    decide
  have hgroup : ⟨⟨"Größe", .composite⟩, sizes⟩ ∈ g.groups := by simp [hgroups]
  refine ⟨g, hg, hnames, hlisting, _, hgroup, ?_⟩
  rw [sizes, Group.aligned_iff]
  decide

lemma isComment_listingHeader (g : Grammar) : ∀ line ∈ g.listingHeader, IsComment line := by
  have hdashes (text rest : String) (h : IsComment text) : IsComment (text ++ rest) := by
    rw [IsComment, String.toList_append]
    exact h.trans (List.prefix_append _ _)
  rw [listingHeader_eq, List.forall_mem_cons]
  refine ⟨hdashes _ _ (by decide), ?_⟩
  split
  · simp
  · rw [List.forall_mem_singleton]
    exact hdashes _ _ (by decide)

lemma length_flatMap_listing (g : Grammar) : (g.groups.flatMap Group.listing).length = g.size := by
  calc (g.groups.flatMap Group.listing).length
      = (g.groups.flatMap Group.productions).length := by
        simp [List.length_flatMap, Group.length_listing]
    _ = g.declared.length := g.grouping.perm.length_eq
    _ = g.productions.length := g.productions_perm.length_eq.symm
    _ = g.size := by simp [productions, size]

lemma countP_not_isComment_listing (hdashes : ∀ name ∈ g.names, '-' ∉ name.toList) :
    (g.listingHeader ++ g.groups.flatMap Group.listing).countP (¬ IsComment ·) = g.size := by
  have hheader : g.listingHeader.countP (¬ IsComment ·) = 0 := by
    rw [List.countP_eq_zero]
    intro line hline
    simpa using g.isComment_listingHeader line hline
  have hbody : (g.groups.flatMap Group.listing).countP (¬ IsComment ·) =
      (g.groups.flatMap Group.listing).length := by
    rw [List.countP_eq_length]
    intro line hline
    obtain ⟨group, hgroup, hline⟩ := List.mem_flatMap.1 hline
    have hhead := hdashes _ (Occurs.group hgroup).name_mem_names
    simpa using Group.not_isComment_listing hhead line hline
  rw [List.countP_append, hheader, hbody, Nat.zero_add, length_flatMap_listing]

section Signs
variable (hsigns : ∀ name ∈ g.names, '=' ∉ name.toList)
include hsigns

lemma before?_listingHeader : ∀ line ∈ g.listingHeader, Text.before? " = " line = none := by
  intro line hline
  exact Text.before?_eq_none (by decide) (not_mem_listingHeader hsigns (by decide) line hline)

/-- The first line of a definition has the head before its sign, and no other one has a sign. -/
lemma exists_listing_eq_cons (hgroup : group ∈ g.groups) :
    ∃ first others, group.listing = first :: others ∧
      Text.before? " = " first = some group.head.name ∧
      ∀ line ∈ others, Text.before? " = " line = none := by
  obtain ⟨head, p, rest, rfl⟩ := exists_eq_cons hgroup
  have hhead := hsigns head.name (Occurs.group hgroup).name_mem_names
  refine ⟨_, _, Group.listing_cons head p rest, Group.before?_openingLine hhead p.constructor,
    fun line hline => ?_⟩
  obtain ⟨q, hq, rfl⟩ := List.mem_map.1 hline
  have hdeclared := mem_declared_of_mem_group hgroup (List.mem_cons_of_mem p hq)
  refine Group.before?_furtherLine fun name hname => ?_
  exact hsigns name (constructor_names_subset hdeclared hname)

lemma filterMap_before?_listing :
    (g.listingHeader ++ g.groups.flatMap Group.listing).filterMap (Text.before? " = ") =
      g.headTypes.map Ty.name := by
  have hheader : g.listingHeader.filterMap (Text.before? " = ") = [] := by
    rw [List.filterMap_eq_nil_iff]
    exact before?_listingHeader hsigns
  have hgroup : ∀ group ∈ g.groups,
      group.listing.filterMap (Text.before? " = ") = [group.head.name] := by
    intro group hgroup
    obtain ⟨first, others, hlisting, hfirst, hothers⟩ := exists_listing_eq_cons hsigns hgroup
    rw [hlisting, List.filterMap_cons, hfirst, List.filterMap_eq_nil_iff.2 hothers]
  rw [List.filterMap_append, hheader, List.nil_append, List.filterMap_flatMap,
    List.flatMap_congr hgroup, ← List.map_eq_flatMap, headTypes, List.map_map]
  rfl

lemma sections_hasSign_listing :
    Text.sections HasSign (g.listingHeader ++ g.groups.flatMap Group.listing) =
      g.groups.map Group.listing := by
  have hheader : ∀ line ∈ g.listingHeader, HasSign line = false := by
    intro line hline
    rw [HasSign, before?_listingHeader hsigns line hline, Option.isSome_none]
  have hsections : ∀ lines ∈ g.groups.map Group.listing, Text.IsSection HasSign lines := by
    intro lines hlines
    obtain ⟨group, hgroup, rfl⟩ := List.mem_map.1 hlines
    obtain ⟨first, others, hlisting, hfirst, hothers⟩ := exists_listing_eq_cons hsigns hgroup
    rw [hlisting]
    refine ⟨by rw [HasSign, hfirst, Option.isSome_some], fun line hline => ?_⟩
    rw [HasSign, hothers line hline, Option.isSome_none]
  rw [Text.sections_append_of_none hheader, List.flatMap_def, Text.sections_flatten hsections]

end Signs

/-- The lines of a listing below its comment are as many as the productions. Those with an equals
sign between blanks have the names of the head types before it, in their order, and from each of
them up to the next one stand the productions that are found for the head. Line feeds end the lines;
if no name holds a carriage return, no line does. -/
theorem listing_definitions
    (hnames : ∀ name ∈ g.names, '\n' ∉ name.toList ∧ '=' ∉ name.toList ∧ '-' ∉ name.toList) :
    (Text.lines g.listing).countP (¬ IsComment ·) = g.size ∧
    (Text.lines g.listing).filterMap (Text.before? " = ") = g.headTypes.map Ty.name ∧
    List.Forall₂ (fun head lines => ∃ ps, g.lookup head.name = .ok ps ∧ Defines lines head ps)
      g.headTypes (Text.sections HasSign (Text.lines g.listing)) ∧
    ((∀ name ∈ g.names, '\r' ∉ name.toList) →
      ∀ line ∈ Text.lines g.listing, '\r' ∉ line.toList) := by
  have hsigns : ∀ name ∈ g.names, '=' ∉ name.toList := fun name hname => (hnames name hname).2.1
  have hdashes : ∀ name ∈ g.names, '-' ∉ name.toList := fun name hname => (hnames name hname).2.2
  rw [lines_listing fun name hname => (hnames name hname).1]
  refine ⟨countP_not_isComment_listing hdashes, filterMap_before?_listing hsigns, ?_,
    fun hreturn => not_mem_listingLines hreturn (by decide) (by decide)⟩
  rw [sections_hasSign_listing hsigns, headTypes, List.forall₂_map_left_iff,
    List.forall₂_map_right_iff, List.forall₂_same]
  intro group hgroup
  refine ⟨group.productions, lookup_head hgroup, ?_⟩
  obtain ⟨head, p, rest, rfl⟩ := exists_eq_cons hgroup
  exact Group.defines_listing head p rest

/-- Productions that are called by what stands around names, with two heads taking turns. -/
def oddments : List Production :=
  [⟨⟨"", .composite⟩, ⟨"|", [⟨"", ⟨"a, b", .primitive⟩, .multiple⟩,
      ⟨")", ⟨"", .composite⟩, .optional⟩]⟩⟩,
    ⟨⟨"| (", .composite⟩, ⟨"", []⟩⟩, ⟨⟨"", .composite⟩, ⟨" | x(y", []⟩⟩]

/-- Blanks, bars and parentheses in names do not hide where a definition begins, and its marks are
those of the cardinalities. -/
theorem listing_definitions_oddments : ∃ g, ofProductions oddments = .ok g ∧
    (∀ name ∈ g.names, '\n' ∉ name.toList ∧ '=' ∉ name.toList ∧ '-' ∉ name.toList) ∧
    (Text.lines g.listing).countP (¬ IsComment ·) = 3 ∧
    (Text.lines g.listing).filterMap (Text.before? " = ") = ["", "| ("] ∧
    ∃ lines rest ps, Text.sections HasSign (Text.lines g.listing) = lines :: rest ∧
      g.lookup "" = .ok ps ∧ Defines lines ⟨"", .composite⟩ ps ∧
      ps = [oddments[0], oddments[2]] ∧ lines[0]? = some " = |(a, b* , ? ))" := by
  obtain ⟨g, hg, hsize, hheads, hlookup⟩ : ∃ g, ofProductions oddments = .ok g ∧ g.size = 3 ∧
      g.headTypes = [⟨"", .composite⟩, ⟨"| (", .composite⟩] ∧
      g.lookup "" = .ok [oddments[0], oddments[2]] := ⟨_, rfl, rfl, rfl, rfl⟩
  have hdeclared : g.declared = oddments := declared_of_ofProductions hg
  have hnames : ∀ name ∈ g.names,
      '\n' ∉ name.toList ∧ '=' ∉ name.toList ∧ '-' ∉ name.toList := by
    rw [names, hdeclared]
    decide
  obtain ⟨hcount, hfront, hdefinitions, -⟩ := listing_definitions hnames
  rw [hheads, List.forall₂_cons_left_iff] at hdefinitions
  obtain ⟨lines, rest, ⟨ps, hps, hdefines⟩, -, hsections⟩ := hdefinitions
  have hproductions : ps = [oddments[0], oddments[2]] := Except.ok.inj (hps.symm.trans hlookup)
  obtain ⟨text, hwritten, hline⟩ := hdefines.opening oddments[0] (by rw [hproductions]; rfl)
  have htext : text = "|(a, b* , ? ))" := hwritten.2 (by decide)
  exact ⟨g, hg, hnames, hcount.trans hsize, by rw [hfront, hheads]; rfl, lines, rest, ps,
    hsections, hps, hdefines, hproductions, by rw [hline, htext]; rfl⟩

end Grammar

end Asdl
