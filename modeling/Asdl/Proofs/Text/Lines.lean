import Mathlib.Data.String.Basic
import Asdl.Proofs.Text.Splitting

/-! Texts by lines. What was written line by line is read line by line; lines fall into sections,
each with a line of its own at its beginning, and a line is cut at the first mark in it. -/
namespace Asdl.Text

/-- The lines of a text. A line feed ends a line, and after the last one no line begins unless
something stands there. -/
def lines (text : String) : List String :=
  let pieces := text.toList.splitOn '\n'
  (if pieces.getLast? = some [] then pieces.dropLast else pieces).map String.ofList

/-- Lines with a line feed behind each are read as they were written. -/
theorem lines_join {written : List String} (h : ∀ line ∈ written, '\n' ∉ line.toList) :
    lines (String.join (written.map (· ++ "\n"))) = written := by
  have hpieces : (String.join (written.map (· ++ "\n"))).toList.splitOn '\n' =
      written.map String.toList ++ [[]] := by
    induction written with
    | nil => simp
    | cons line rest ih =>
      obtain ⟨hline, hrest⟩ := List.forall_mem_cons.1 h
      have hchars : (String.join ((line :: rest).map (· ++ "\n"))).toList =
          line.toList ++ '\n' :: (String.join (rest.map (· ++ "\n"))).toList := by
        simp
      rw [hchars, List.splitOn_append_cons_self_of_not_mem hline, ih hrest]
      rfl
  rw [lines, hpieces]
  simp

/-- A blank line is a line, but none is opened by the last line feed. -/
example : lines "a\n\nb\n" = ["a", "", "b"] := by decide

/-- Lines are known from the text that they make, each with a line feed behind it. -/
theorem join_lines_inj {written written' : List String}
    (h : ∀ line ∈ written, '\n' ∉ line.toList) (h' : ∀ line ∈ written', '\n' ∉ line.toList)
    (he : String.join (written.map (· ++ "\n")) = String.join (written'.map (· ++ "\n"))) :
    written = written' := by
  rw [← lines_join h, he, lines_join h']

section Marks

/-- What stands in a text before the first occurrence of a mark, if the mark occurs. -/
def before? (mark text : String) : Option String := (go mark.toList text.toList).map String.ofList
where
  go (mark : List Char) : List Char → Option (List Char)
    | [] => if mark = [] then some [] else none
    | c :: rest => if mark <+: c :: rest then some [] else (go mark rest).map (c :: ·)

/-- A mark does not occur in a text that lacks one of its characters. -/
lemma before?_eq_none {mark text : String} {x : Char} (hmark : x ∈ mark.toList)
    (htext : x ∉ text.toList) : before? mark text = none := by
  have hgo (chars : List Char) (h : x ∉ chars) : before?.go mark.toList chars = none := by
    induction chars with
    | nil => rw [before?.go, if_neg (List.ne_nil_of_mem hmark)]
    | cons c rest ih =>
      have hprefix : ¬ mark.toList <+: c :: rest := fun hp => h (hp.subset hmark)
      rw [before?.go, if_neg hprefix, ih fun hx => h (List.mem_cons_of_mem _ hx), Option.map_none]
  rw [before?, hgo text.toList htext, Option.map_none]

/-- An equals sign between blanks is found behind a text without such signs, blanks or not. -/
lemma before?_append {front : String} (h : '=' ∉ front.toList) (rest : String) :
    before? " = " (front ++ " = " ++ rest) = some front := by
  have hgo (chars : List Char) (h : '=' ∉ chars) :
      before?.go [' ', '=', ' '] (chars ++ ' ' :: '=' :: ' ' :: rest.toList) = some chars := by
    induction chars with
    | nil => simp [before?.go]
    | cons c chars ih =>
      have hchars : '=' ∉ chars := fun hx => h (List.mem_cons_of_mem _ hx)
      -- the sign would be the character after this one, which is from the front or a blank
      have hprefix : ¬ [' ', '=', ' '] <+: c :: (chars ++ ' ' :: '=' :: ' ' :: rest.toList) := by
        cases chars <;> simp_all
      rw [List.cons_append, before?.go, if_neg hprefix, ih hchars, Option.map_some]
  have hsplit : (front ++ " = " ++ rest).toList =
      front.toList ++ ' ' :: '=' :: ' ' :: rest.toList := by
    simp
  have hmark : " = ".toList = [' ', '=', ' '] := by decide
  rw [before?, hsplit, hmark, hgo front.toList h, Option.map_some, String.ofList_toList]

end Marks

section Sections
variable {α : Type} {opens : α → Bool}

/-- The items from each that opens a section up to the next one that does. What stands before the
first section is left out. -/
def sections (opens : α → Bool) : List α → List (List α)
  | [] => []
  | a :: rest =>
    if opens a then (a :: rest.takeWhile fun b => !opens b) :: sections opens rest
    else sections opens rest

/-- Whether a list is one section: its first item opens it, and no other one opens another. -/
def IsSection (opens : α → Bool) : List α → Prop
  | [] => False
  | a :: rest => opens a = true ∧ ∀ b ∈ rest, opens b = false

lemma sections_append_of_none {front : List α} (h : ∀ a ∈ front, opens a = false) (rest : List α) :
    sections opens (front ++ rest) = sections opens rest := by
  induction front with
  | nil => rfl
  | cons a front ih =>
    obtain ⟨ha, hfront⟩ := List.forall_mem_cons.1 h
    rw [List.cons_append, sections, ha, if_neg Bool.false_ne_true, ih hfront]

/-- A section ends where the next one begins. -/
lemma takeWhile_append_flatten {body : List α} (h : ∀ a ∈ body, opens a = false)
    {rest : List (List α)} (hrest : ∀ l ∈ rest, IsSection opens l) :
    (body ++ rest.flatten).takeWhile (fun a => !opens a) = body := by
  rw [List.takeWhile_append_of_pos (by simpa using h)]
  have hstop : rest.flatten.takeWhile (fun a => !opens a) = [] := by
    cases rest with
    | nil => rfl
    | cons l rest =>
      cases l with
      | nil => exact absurd (hrest [] List.mem_cons_self) id
      | cons a l => simp [(hrest (a :: l) List.mem_cons_self).1]
  rw [hstop, List.append_nil]

/-- Sections one after the other are told apart again. -/
theorem sections_flatten {written : List (List α)} (h : ∀ l ∈ written, IsSection opens l) :
    sections opens written.flatten = written := by
  induction written with
  | nil => rfl
  | cons l rest ih =>
    obtain ⟨hl, hrest⟩ := List.forall_mem_cons.1 h
    cases l with
    | nil => exact absurd hl id
    | cons a body =>
      obtain ⟨ha, hbody⟩ := hl
      rw [List.flatten_cons, List.cons_append, sections, if_pos ha,
        takeWhile_append_flatten hbody hrest, sections_append_of_none hbody, ih hrest]

end Sections

section Bytes

/-- Whether all characters of a text are ASCII. -/
def IsAscii (text : String) : Prop := ∀ c ∈ text.toList, c.val ≤ 127

instance (text : String) : Decidable (IsAscii text) := List.decidableBAll _ _

lemma length_le_utf8Len (chars : List Char) : chars.length ≤ String.utf8Len chars := by
  induction chars with
  | nil => simp
  | cons c rest ih =>
    have hpos := c.utf8Size_pos
    rw [List.length_cons, String.utf8Len_cons]
    omega

lemma length_eq_utf8Len_iff {chars : List Char} :
    chars.length = String.utf8Len chars ↔ ∀ c ∈ chars, c.val ≤ 127 := by
  induction chars with
  | nil => simp
  | cons c rest ih =>
    have hpos := c.utf8Size_pos
    have hrest := length_le_utf8Len rest
    rw [List.forall_mem_cons, ← ih, ← Char.utf8Size_eq_one_iff, List.length_cons,
      String.utf8Len_cons]
    omega

/-- A text has as many bytes as characters exactly if it is ASCII. -/
theorem utf8ByteSize_eq_length_iff {text : String} :
    text.utf8ByteSize = text.length ↔ IsAscii text := by
  rw [IsAscii, ← length_eq_utf8Len_iff, String.length_toList, ← String.utf8ByteSize_ofList,
    String.ofList_toList, eq_comm]

end Bytes

end Asdl.Text
