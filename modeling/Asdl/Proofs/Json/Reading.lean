import Mathlib.Data.List.Basic
import Asdl.Json.Reader
import Asdl.Proofs.Json.Quoting

/-! Runs of the reader over pieces of a text: one piece after another, blanks between the parts of a
text, and the characters of a quoted one. A run also says that the text was not over before any of
its characters, so that it tells what becomes of a text that breaks off. -/
namespace Asdl.Json

/-- Whether the next character is no part of a word, of a number or of a quoted text. -/
def Focus.IsBetween : Focus → Prop
  | .word _ _ | .number _ | .string _ | .keyText _ _ => False
  | _ => True

namespace Reading
variable {r r' r'' : Reading} {frames : List Frame} {cs ds : List Char}

/-- Whether a text that ends here has ended too early. -/
def IsOpen (r : Reading) : Prop := r.finish = .error .unexpectedEnd

/-- Some characters from one state of the reader to another, the text being open before each. -/
inductive Runs : Reading → List Char → Reading → Prop
  | nil (r : Reading) : Runs r [] r
  | cons {r r' r'' : Reading} {c : Char} {cs : List Char} (isOpen : r.IsOpen)
      (step : r.step c = .ok r') (rest : Runs r' cs r'') : Runs r (c :: cs) r''

lemma Runs.append (h : Runs r cs r') (h' : Runs r' ds r'') : Runs r (cs ++ ds) r'' := by
  induction h with
  | nil r => exact h'
  | cons isOpen step _ ih => exact .cons isOpen step (ih h')

lemma steps_cons_of_step {c : Char} (h : r.step c = .ok r') : r.steps (c :: cs) = r'.steps cs := by
  rw [steps, List.foldlM_cons, h]
  rfl

lemma Runs.steps_eq (h : Runs r cs r') : r.steps cs = .ok r' := by
  induction h with
  | nil r => rfl
  | cons _ step _ ih => rw [steps_cons_of_step step, ih]

/-- Wherever a run is broken off, the text is open. -/
lemma Runs.isOpen_of_cut (h : Runs r (cs ++ ds) r'') (hds : ds ≠ []) :
    ∃ r', r.steps cs = .ok r' ∧ r'.IsOpen := by
  induction cs generalizing r with
  | nil =>
    cases h with
    | nil r => exact absurd rfl hds
    | cons isOpen _ _ => exact ⟨r, rfl, isOpen⟩
  | cons c cs ih =>
    cases h with
    | cons _ step rest =>
      rw [steps_cons_of_step step]
      exact ih rest

lemma step_of_isBetween (h : r.focus.IsBetween) (c : Char) : r.step c = r.stepBetween c := by
  obtain ⟨frames, focus⟩ := r
  cases focus with
  | word rest meaning => cases h
  | number numeral => cases h
  | string text => cases h
  | keyText members text => cases h
  | _ => rfl

/-- Between the parts of a text, blanks change nothing. -/
lemma runs_blanks (h : r.focus.IsBetween) (isOpen : r.IsOpen) (hcs : ∀ c ∈ cs, isBlank c = true) :
    Runs r cs r := by
  induction cs with
  | nil => exact .nil r
  | cons c cs ih =>
    have hblank : isBlank c = true := hcs c (by simp)
    have hstep : r.step c = .ok r := by
      rw [step_of_isBetween h]
      unfold stepBetween
      rw [if_pos hblank]
    exact .cons isOpen hstep (ih fun d hd => hcs d (by simp [hd]))

lemma runs_of_reads {w : Quoted → Reading} (isOpen : ∀ q, (w q).IsOpen)
    (hnext : ∀ q c q', q.next c = .ok (.inl q') → (w q).step c = .ok (w q'))
    {q q' : Quoted} (h : q.Reads cs q') : Runs (w q) cs (w q') := by
  induction h with
  | nil q => exact .nil _
  | cons next _ ih => exact .cons (isOpen _) (hnext _ _ _ next) ih

/-- A quoted text is read to its end, whatever it stands for and whatever becomes of it. -/
lemma runs_quoted (w : Quoted → Reading) {text : String} (isOpen : ∀ q, (w q).IsOpen)
    (hnext : ∀ q c q', q.next c = .ok (.inl q') → (w q).step c = .ok (w q'))
    (hend : ∀ q c, q.next c = .ok (.inr text) → (w q).step c = .ok r) :
    Runs (w .start) (text.toList.flatMap escape ++ ['"']) r := by
  have htext := runs_of_reads isOpen hnext (Quoted.reads_flatMap_escape text.toList [])
  have hclose : (w ⟨text.toList.reverse ++ [], .outside⟩).step '"' = .ok r :=
    hend _ _ (by simp [Quoted.next])
  exact htext.append (.cons (isOpen _) hclose (.nil r))

theorem runs_string (frames : List Frame) (text : String) :
    Runs ⟨frames, .string .start⟩ (text.toList.flatMap escape ++ ['"'])
      (complete (.string text) frames) := by
  refine runs_quoted (fun q => ⟨frames, .string q⟩) (fun _ => rfl) ?_ ?_
  · intro q c q' next
    simp only [step, next]
    rfl
  · intro q c next
    simp only [step, next]
    rfl

theorem runs_keyText (frames : List Frame) (members : List (String × Json)) (key : String) :
    Runs ⟨frames, .keyText members .start⟩ (key.toList.flatMap escape ++ ['"'])
      ⟨frames, .colon members key⟩ := by
  refine runs_quoted (fun q => ⟨frames, .keyText members q⟩) (fun _ => rfl) ?_ ?_
  · intro q c q' next
    simp only [step, next]
    rfl
  · intro q c next
    simp only [step, next]
    rfl

end Reading

end Asdl.Json
