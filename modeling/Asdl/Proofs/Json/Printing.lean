import Asdl.Json.Printer
import Asdl.Proofs.Json.Plain
import Asdl.Proofs.Json.Reading

/-! Printed values are read back. A plain value is read from its text wherever a value may begin, if
its brackets fit on those that are open already; the proof follows the value. -/
namespace Asdl.Json

/-- A key behind all others goes to the end. -/
lemma putMember_of_lt {key : String} {value : Json} {before : List (String × Json)}
    (h : ∀ k ∈ keys before, compare k key = .lt) :
    putMember key value before = before ++ [(key, value)] := by
  induction before with
  | nil => rfl
  | cons m rest ih =>
    obtain ⟨k, v⟩ := m
    have hk : compare key k = .gt := Std.OrientedCmp.gt_iff_lt.2 (h k (by simp [keys]))
    have hrest : ∀ l ∈ keys rest, compare l key = .lt := by
      intro l hl
      exact h l (List.mem_cons_of_mem _ hl)
    rw [putMember, hk]
    exact congrArg ((k, v) :: ·) (ih hrest)

/-- A new line and the spaces that it begins with. -/
def lineBreak (depth : ℕ) : List Char := '\n' :: List.replicate (2 * depth) ' '

lemma isBlank_of_mem_lineBreak {depth : ℕ} {c : Char} (hc : c ∈ lineBreak depth) :
    isBlank c = true := by
  obtain rfl | hc := List.mem_cons.1 hc
  · rfl
  · rw [List.eq_of_mem_replicate hc]
    rfl

/-- A member of an object after the first quotation mark. -/
def memberText (depth : ℕ) (key : String) (value : Json) : List Char :=
  key.toList.flatMap escape ++ ['"'] ++ ':' :: ' ' :: (value.render depth).toList

section Text
variable {depth : ℕ} {key : String} {item value : Json}

lemma toList_render_string {text : String} :
    ((Json.string text).render depth).toList = '"' :: (text.toList.flatMap escape ++ ['"']) := by
  simp [render, quote]

lemma toList_render_array_nil : ((Json.array []).render depth).toList = ['[', ']'] := by
  simp [render]

lemma toList_render_array {rest : List Json} : ((Json.array (item :: rest)).render depth).toList =
    '[' :: (lineBreak (depth + 1) ++ ((item.render (depth + 1)).toList ++
      ((renderItems (depth + 1) rest).toList ++ (lineBreak depth ++ [']'])))) := by
  simp [render, lineBreak, indent]

lemma toList_renderItems_cons {rest : List Json} : (renderItems depth (item :: rest)).toList =
    ',' :: (lineBreak depth ++
      ((item.render depth).toList ++ (renderItems depth rest).toList)) := by
  simp [renderItems, lineBreak, indent]

lemma toList_render_object_nil : ((Json.object []).render depth).toList = ['{', '}'] := by
  simp [render]

lemma toList_render_object {rest : List (String × Json)} :
    ((Json.object ((key, value) :: rest)).render depth).toList =
      '{' :: (lineBreak (depth + 1) ++ '"' :: (memberText (depth + 1) key value ++
        ((renderMembers (depth + 1) rest).toList ++ (lineBreak depth ++ ['}'])))) := by
  simp [render, lineBreak, indent, memberText, quote]

lemma toList_renderMembers_cons {rest : List (String × Json)} :
    (renderMembers depth ((key, value) :: rest)).toList =
      ',' :: (lineBreak depth ++ '"' :: (memberText depth key value ++
        (renderMembers depth rest).toList)) := by
  simp [renderMembers, lineBreak, indent, memberText, quote]

end Text

namespace Reading
variable {n depth : ℕ} {frames : List Frame}

/-- Whether characters are read as a value wherever one may begin with room for `n` brackets. -/
def ReadsAs (n : ℕ) (cs : List Char) (v : Json) : Prop :=
  ∀ frames : List Frame, frames.length + n ≤ maxDepth → Runs ⟨frames, .value⟩ cs (complete v frames)

lemma runs_lineBreak {r : Reading} (h : r.focus.IsBetween) (isOpen : r.IsOpen) :
    Runs r (lineBreak depth) r :=
  runs_blanks h isOpen fun _ hc => isBlank_of_mem_lineBreak hc

/-- A printed value begins with a quotation mark or a bracket that opens. -/
lemma exists_render_eq_cons {v : Json} (h : Plain n v) :
    ∃ c cs, (v.render depth).toList = c :: cs ∧ c ∈ ['"', '[', '{'] := by
  cases h with
  | string text => exact ⟨'"', _, toList_render_string, by simp⟩
  | @array n items _ =>
    cases items with
    | nil => exact ⟨'[', _, toList_render_array_nil, by simp⟩
    | cons item rest => exact ⟨'[', _, toList_render_array, by simp⟩
  | @object n members _ _ =>
    cases members with
    | nil => exact ⟨'{', _, toList_render_object_nil, by simp⟩
    | cons m rest => exact ⟨'{', _, toList_render_object, by simp⟩

lemma step_arrayStart {c : Char} (hc : c ∈ ['"', '[', '{']) :
    step ⟨frames, .arrayStart⟩ c = step ⟨.item [] :: frames, .value⟩ c := by
  obtain rfl | rfl | rfl : c = '"' ∨ c = '[' ∨ c = '{' := by simpa using hc
  all_goals rfl

/-- The first item of an array begins as any other value does. -/
lemma runs_arrayStart {v : Json} (h : Plain n v) {r : Reading}
    (hrun : Runs ⟨.item [] :: frames, .value⟩ (v.render depth).toList r) :
    Runs ⟨frames, .arrayStart⟩ (v.render depth).toList r := by
  obtain ⟨c, cs, hcs, hc⟩ : ∃ c cs, (v.render depth).toList = c :: cs ∧ c ∈ ['"', '[', '{'] :=
    exists_render_eq_cons h
  rw [hcs] at hrun ⊢
  cases hrun with
  | cons _ hstep rest => exact .cons rfl ((step_arrayStart hc).trans hstep) rest

lemma runs_renderItems {rest : List Json} (hroom : frames.length + 1 + n ≤ maxDepth)
    (hrest : ∀ v ∈ rest, ReadsAs n (v.render depth).toList v) (before : List Json) :
    Runs ⟨frames, .arrayRest before⟩ (renderItems depth rest).toList
      ⟨frames, .arrayRest (rest.reverse ++ before)⟩ := by
  induction rest generalizing before with
  | nil => exact .nil _
  | cons v rest ih =>
    have hcomma : step ⟨frames, .arrayRest before⟩ ',' = .ok ⟨.item before :: frames, .value⟩ := rfl
    have hbreak : Runs ⟨.item before :: frames, .value⟩ (lineBreak depth) _ :=
      runs_lineBreak trivial rfl
    have hv : Runs ⟨.item before :: frames, .value⟩ (v.render depth).toList
        ⟨frames, .arrayRest (v :: before)⟩ := hrest v (by simp) _ hroom
    have hlater := ih (fun w hw => hrest w (by simp [hw])) (v :: before)
    rw [toList_renderItems_cons, List.reverse_cons, List.append_assoc]
    exact .cons rfl hcomma (hbreak.append (hv.append hlater))

lemma runs_memberText {key : String} {v : Json} (hroom : frames.length + 1 + n ≤ maxDepth)
    (hv : ReadsAs n (v.render depth).toList v) (before : List (String × Json)) :
    Runs ⟨frames, .keyText before .start⟩ (memberText depth key v)
      ⟨frames, .objectRest (putMember key v before)⟩ := by
  have hcolon : step ⟨frames, .colon before key⟩ ':' =
    .ok ⟨.member before key :: frames, .value⟩ := rfl
  have hspace : step ⟨.member before key :: frames, .value⟩ ' ' =
    .ok ⟨.member before key :: frames, .value⟩ := rfl
  exact (runs_keyText frames before key).append (.cons rfl hcolon (.cons rfl hspace (hv _ hroom)))

lemma runs_renderMembers {rest : List (String × Json)} (hroom : frames.length + 1 + n ≤ maxDepth)
    (hrest : ∀ m ∈ rest, ReadsAs n (m.2.render depth).toList m.2) {before : List (String × Json)}
    (hkeys : Sorted.Increasing compare (keys (before ++ rest))) :
    Runs ⟨frames, .objectRest before⟩ (renderMembers depth rest).toList
      ⟨frames, .objectRest (before ++ rest)⟩ := by
  induction rest generalizing before with
  | nil =>
    rw [List.append_nil]
    exact .nil _
  | cons m rest ih =>
    obtain ⟨key, v⟩ := m
    have hcomma : step ⟨frames, .objectRest before⟩ ',' = .ok ⟨frames, .key before⟩ := rfl
    have hbreak : Runs ⟨frames, .key before⟩ (lineBreak depth) _ := runs_lineBreak trivial rfl
    have hquote : step ⟨frames, .key before⟩ '"' = .ok ⟨frames, .keyText before .start⟩ := rfl
    have hmember : Runs ⟨frames, .keyText before .start⟩ (memberText depth key v)
        ⟨frames, .objectRest (putMember key v before)⟩ :=
      runs_memberText hroom (hrest (key, v) (by simp)) before
    have hput : putMember key v before = before ++ [(key, v)] := by
      apply putMember_of_lt
      intro k hk
      rw [keys, List.map_append] at hkeys
      exact (List.pairwise_append.1 hkeys).2.2 k hk key (by simp)
    have happend : before ++ (key, v) :: rest = before ++ [(key, v)] ++ rest := by simp
    rw [hput] at hmember
    rw [toList_renderMembers_cons, happend]
    exact .cons rfl hcomma (hbreak.append (.cons rfl hquote (hmember.append
      (ih (fun w hw => hrest w (by simp [hw])) (happend ▸ hkeys)))))

lemma readsAs_string {text : String} :
    ReadsAs n ((Json.string text).render depth).toList (.string text) := by
  intro frames _
  have hopen : step ⟨frames, .value⟩ '"' = .ok ⟨frames, .string .start⟩ := rfl
  rw [toList_render_string]
  exact .cons rfl hopen (runs_string frames text)

lemma readsAs_array {items : List Json} (plain : ∀ v ∈ items, Plain n v)
    (h : ∀ v ∈ items, ReadsAs n (v.render (depth + 1)).toList v) :
    ReadsAs (n + 1) ((Json.array items).render depth).toList (.array items) := by
  intro frames hroom
  have hopen : step ⟨frames, .value⟩ '[' = .ok ⟨frames, .arrayStart⟩ :=
    if_pos (show frames.length < maxDepth by omega)
  cases items with
  | nil =>
    have hclose : step ⟨frames, .arrayStart⟩ ']' = .ok (complete (.array []) frames) := rfl
    rw [toList_render_array_nil]
    exact .cons rfl hopen (.cons rfl hclose (.nil _))
  | cons v rest =>
    have hbreak : Runs ⟨frames, .arrayStart⟩ (lineBreak (depth + 1)) _ := runs_lineBreak trivial rfl
    have hv : Runs ⟨frames, .arrayStart⟩ (v.render (depth + 1)).toList ⟨frames, .arrayRest [v]⟩ :=
      runs_arrayStart (plain v (by simp))
        (h v (by simp) (.item [] :: frames) (by simp only [List.length_cons]; omega))
    have hrest : Runs ⟨frames, .arrayRest [v]⟩ (renderItems (depth + 1) rest).toList
        ⟨frames, .arrayRest (rest.reverse ++ [v])⟩ :=
      runs_renderItems (by omega) (fun w hw => h w (List.mem_cons_of_mem v hw)) [v]
    have hbreak' : Runs ⟨frames, .arrayRest (rest.reverse ++ [v])⟩ (lineBreak depth) _ :=
      runs_lineBreak trivial rfl
    have hclose : step ⟨frames, .arrayRest (rest.reverse ++ [v])⟩ ']' =
        .ok (complete (.array (rest.reverse ++ [v]).reverse) frames) := rfl
    have hwhole : (rest.reverse ++ [v]).reverse = v :: rest := by simp
    rw [hwhole] at hclose
    rw [toList_render_array]
    exact .cons rfl hopen (hbreak.append (hv.append (hrest.append (hbreak'.append
      (.cons rfl hclose (.nil _))))))

lemma readsAs_object {members : List (String × Json)}
    (increasing : Sorted.Increasing compare (keys members))
    (h : ∀ m ∈ members, ReadsAs n (m.2.render (depth + 1)).toList m.2) :
    ReadsAs (n + 1) ((Json.object members).render depth).toList (.object members) := by
  intro frames hroom
  have hopen : step ⟨frames, .value⟩ '{' = .ok ⟨frames, .objectStart⟩ :=
    if_pos (show frames.length < maxDepth by omega)
  cases members with
  | nil =>
    have hclose : step ⟨frames, .objectStart⟩ '}' = .ok (complete (.object []) frames) := rfl
    rw [toList_render_object_nil]
    exact .cons rfl hopen (.cons rfl hclose (.nil _))
  | cons m rest =>
    obtain ⟨key, v⟩ := m
    have hbreak : Runs ⟨frames, .objectStart⟩ (lineBreak (depth + 1)) _ :=
      runs_lineBreak trivial rfl
    have hquote : step ⟨frames, .objectStart⟩ '"' = .ok ⟨frames, .keyText [] .start⟩ := rfl
    have hmember : Runs ⟨frames, .keyText [] .start⟩ (memberText (depth + 1) key v)
        ⟨frames, .objectRest [(key, v)]⟩ :=
      runs_memberText (by omega) (h (key, v) (by simp)) []
    have hrest : Runs ⟨frames, .objectRest [(key, v)]⟩ (renderMembers (depth + 1) rest).toList
        ⟨frames, .objectRest ((key, v) :: rest)⟩ :=
      runs_renderMembers (by omega) (fun w hw => h w (List.mem_cons_of_mem _ hw)) increasing
    have hbreak' : Runs ⟨frames, .objectRest ((key, v) :: rest)⟩ (lineBreak depth) _ :=
      runs_lineBreak trivial rfl
    have hclose : step ⟨frames, .objectRest ((key, v) :: rest)⟩ '}' =
        .ok (complete (.object ((key, v) :: rest)) frames) := rfl
    rw [toList_render_object]
    exact .cons rfl hopen (hbreak.append (.cons rfl hquote (hmember.append (hrest.append
      (hbreak'.append (.cons rfl hclose (.nil _)))))))

theorem readsAs_render {v : Json} (h : Plain n v) (depth : ℕ) :
    ReadsAs n (v.render depth).toList v := by
  induction h generalizing depth with
  | string text => exact readsAs_string
  | array plain ih => exact readsAs_array plain fun v hv => ih v hv (depth + 1)
  | object increasing _ ih => exact readsAs_object increasing fun m hm => ih m hm (depth + 1)

end Reading

lemma runs_pretty {n : ℕ} {v : Json} (h : Plain n v) (hn : n ≤ maxDepth) :
    Reading.start.Runs v.pretty.toList ⟨[], .done v⟩ :=
  Reading.readsAs_render h 0 [] (by simpa using hn)

/-- The text of a plain value is read as that value. -/
theorem read_pretty {n : ℕ} {v : Json} (h : Plain n v) (hn : n ≤ maxDepth) :
    read v.pretty = .ok v := by
  rw [read, (runs_pretty h hn).steps_eq]
  rfl

/-- A text that breaks off before its end is found to end too early. -/
theorem read_of_append_eq_pretty {n : ℕ} {v : Json} (h : Plain n v) (hn : n ≤ maxDepth)
    {s t : String} (hsplit : s ++ t = v.pretty) (ht : t ≠ "") :
    read s = .error .unexpectedEnd := by
  have hrun := runs_pretty h hn
  rw [← hsplit, String.toList_append] at hrun
  obtain ⟨r, hr, isOpen⟩ := hrun.isOpen_of_cut (by simpa using ht)
  rw [read, hr]
  exact isOpen

end Asdl.Json
