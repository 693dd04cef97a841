import Mathlib.Data.List.Basic
import Asdl.Json.Quoted

/-! Quoted texts are read back. What is written for one character takes the reader from outside of
an escape to outside of it again, with that character more; so does each character of a text. -/
namespace Asdl.Json

lemma hexDigit?_digitChar : ∀ {n : ℕ}, n < 16 → hexDigit? (Nat.digitChar n) = some n := by
  decide

lemma utf8Size_digitChar : ∀ {n : ℕ}, n < 16 → (Nat.digitChar n).utf8Size = 1 := by
  decide

/-- Two digits are enough for a value of one byte. -/
lemma hexUnit?_of_lt {n : ℕ} (h : n < 256) :
    hexUnit? ['0', '0', Nat.digitChar (n / 16), Nat.digitChar (n % 16)] = some n := by
  have hzero : hexDigit? '0' = some 0 := by decide
  have hhigh : hexDigit? (Nat.digitChar (n / 16)) = some (n / 16) := hexDigit?_digitChar (by omega)
  have hlow : hexDigit? (Nat.digitChar (n % 16)) = some (n % 16) := hexDigit?_digitChar (by omega)
  have hvalue : ((0 * 16 + 0) * 16 + n / 16) * 16 + n % 16 = n := by omega
  simp only [hexUnit?, hzero, hhigh, hlow, Option.bind_eq_bind, Option.bind_some, hvalue]
  rfl

namespace Quoted
variable {q q' q'' : Quoted} {decoded cs ds : List Char}

/-- Some characters inside of a quoted text, from what was read before them to what is after. -/
inductive Reads : Quoted → List Char → Quoted → Prop
  | nil (q : Quoted) : Reads q [] q
  | cons {q q' q'' : Quoted} {c : Char} {cs : List Char} (next : q.next c = .ok (.inl q'))
      (rest : Reads q' cs q'') : Reads q (c :: cs) q''

lemma Reads.append (h : Reads q cs q') (h' : Reads q' ds q'') : Reads q (cs ++ ds) q'' := by
  induction h with
  | nil q => exact h'
  | cons next _ ih => exact .cons next (ih h')

lemma reads_raw {c : Char} (hquote : c ≠ '"') (hbackslash : c ≠ '\\') (hc : ¬ c.toNat < 0x20) :
    Reads ⟨decoded, .outside⟩ [c] ⟨c :: decoded, .outside⟩ := by
  refine .cons ?_ (.nil _)
  simp only [next, if_neg hquote, if_neg hbackslash, if_neg hc]

lemma reads_unescape {c d : Char} (hu : c ≠ 'u') (h : unescape? c = some d) :
    Reads ⟨decoded, .outside⟩ ['\\', c] ⟨d :: decoded, .outside⟩ := by
  refine .cons rfl (.cons ?_ (.nil _))
  simp only [next, if_neg hu, h]

lemma takeUnit_of_lt (decoded : List Char) {n : ℕ} (h : n < 0xD800) :
    takeUnit decoded none n = .ok ⟨Char.ofNat n :: decoded, .outside⟩ := by
  have hlow : ¬ (0xDC00 ≤ n ∧ n ≤ 0xDFFF) := by omega
  have hhigh : ¬ (0xD800 ≤ n ∧ n ≤ 0xDBFF) := by omega
  simp only [takeUnit, if_neg hlow, if_neg hhigh]

lemma reads_control {c : Char} (hc : c.toNat < 0x20) :
    Reads ⟨decoded, .outside⟩
      ['\\', 'u', '0', '0', Nat.digitChar (c.toNat / 16), Nat.digitChar (c.toNat % 16)]
      ⟨c :: decoded, .outside⟩ := by
  have hhigh : (Nat.digitChar (c.toNat / 16)).utf8Size = 1 := utf8Size_digitChar (by omega)
  have hlow : (Nat.digitChar (c.toNat % 16)).utf8Size = 1 := utf8Size_digitChar (by omega)
  have hzero : ('0').utf8Size = 1 := by decide
  have hvalue := hexUnit?_of_lt (n := c.toNat) (by omega)
  have htake := takeUnit_of_lt decoded (n := c.toNat) (by omega)
  rw [Char.ofNat_toNat] at htake
  have hthird : next ⟨decoded, .unit none ['0', '0']⟩ (Nat.digitChar (c.toNat / 16)) =
      .ok (.inl ⟨decoded, .unit none [Nat.digitChar (c.toNat / 16), '0', '0']⟩) := by
    simp [next, byteSize, hzero, hhigh]
  have hfourth : next ⟨decoded, .unit none [Nat.digitChar (c.toNat / 16), '0', '0']⟩
      (Nat.digitChar (c.toNat % 16)) = .ok (.inl ⟨c :: decoded, .outside⟩) := by
    simp [next, byteSize, hzero, hhigh, hlow, hvalue, htake, Except.map]
  exact .cons rfl (.cons rfl (.cons rfl (.cons rfl (.cons hthird (.cons hfourth (.nil _))))))

lemma reads_escape (c : Char) :
    Reads ⟨decoded, .outside⟩ (Json.escape c) ⟨c :: decoded, .outside⟩ := by
  unfold Json.escape
  split
  case h_8 c hquote hbackslash _ _ _ _ _ =>
    split
    · next hc => exact reads_control hc
    · next hc => exact reads_raw hquote hbackslash hc
  all_goals exact reads_unescape (by decide) rfl

/-- The escaped form of any characters is read as these characters. -/
theorem reads_flatMap_escape (cs decoded : List Char) :
    Reads ⟨decoded, .outside⟩ (cs.flatMap Json.escape) ⟨cs.reverse ++ decoded, .outside⟩ := by
  induction cs generalizing decoded with
  | nil => exact .nil _
  | cons c cs ih =>
    have hrest := ih (c :: decoded)
    rw [List.reverse_cons, List.append_assoc]
    exact (reads_escape c).append hrest

end Quoted

end Asdl.Json
