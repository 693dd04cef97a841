import Mathlib.Data.List.Basic

/-! Texts that are read from the front: a part ends where a character comes that it does not hold.
So texts between commas are known from what they are put together to. -/
namespace Asdl.Text

/-- Two parts without a stop that begin one list are the same, if each is followed by a stop or by
nothing. -/
lemma append_inj_of_stop {α : Type} {stop : α → Prop} {a b r r' : List α} (ha : ∀ c ∈ a, ¬ stop c)
    (hb : ∀ c ∈ b, ¬ stop c) (hr : ∀ c ∈ r.head?, stop c) (hr' : ∀ c ∈ r'.head?, stop c)
    (h : a ++ r = b ++ r') : a = b ∧ r = r' := by
  induction a generalizing b with
  | nil =>
    cases b with
    | nil => exact ⟨rfl, h⟩
    | cons d b =>
      obtain rfl : r = d :: (b ++ r') := h
      exact absurd (hr d rfl) (hb d List.mem_cons_self)
  | cons c a ih =>
    cases b with
    | nil =>
      obtain rfl : c :: (a ++ r) = r' := h
      exact absurd (hr' c rfl) (ha c List.mem_cons_self)
    | cons d b =>
      obtain ⟨rfl, hrest⟩ := List.cons.inj h
      obtain ⟨rfl, rfl⟩ := ih (fun c hc => ha c (List.mem_cons_of_mem _ hc))
        (fun c hc => hb c (List.mem_cons_of_mem _ hc)) hrest
      exact ⟨rfl, rfl⟩

/-- The same where a single mark is the stop. -/
lemma append_inj_of_mark {α : Type} {mark : α} {a b r r' : List α} (ha : mark ∉ a) (hb : mark ∉ b)
    (hr : ∀ c ∈ r.head?, c = mark) (hr' : ∀ c ∈ r'.head?, c = mark) (h : a ++ r = b ++ r') :
    a = b ∧ r = r' := by
  have hnone {l : List α} (hl : mark ∉ l) : ∀ c ∈ l, ¬ c = mark := by
    rintro c hc rfl
    exact hl hc
  exact append_inj_of_stop (hnone ha) (hnone hb) hr hr' h

lemma append_cons_inj {α : Type} {mark : α} {a b r r' : List α} (ha : mark ∉ a) (hb : mark ∉ b)
    (h : a ++ mark :: r = b ++ mark :: r') : a = b ∧ r = r' := by
  obtain ⟨hsame, hrest⟩ := append_inj_of_mark ha hb (by simp) (by simp) h
  exact ⟨hsame, (List.cons.inj hrest).2⟩

section Commas
variable {texts texts' : List String}

lemma head?_flatMap_comma (rest : List String) :
    ∀ c ∈ (rest.flatMap fun t => ',' :: ' ' :: t.toList).head?, c = ',' := by
  cases rest <;> simp

lemma flatMap_comma_inj (h : ∀ t ∈ texts, ',' ∉ t.toList) (h' : ∀ t ∈ texts', ',' ∉ t.toList)
    (he : (texts.flatMap fun t => ',' :: ' ' :: t.toList) =
      texts'.flatMap fun t => ',' :: ' ' :: t.toList) : texts = texts' := by
  induction texts generalizing texts' with
  | nil =>
    cases texts' with
    | nil => rfl
    | cons t' rest' => simp at he
  | cons t rest ih =>
    cases texts' with
    | nil => simp at he
    | cons t' rest' =>
      obtain ⟨ht, hrest⟩ := List.forall_mem_cons.1 h
      obtain ⟨ht', hrest'⟩ := List.forall_mem_cons.1 h'
      simp only [List.flatMap_cons, List.cons_append, List.cons.injEq, true_and] at he
      obtain ⟨hsame, he⟩ :=
        append_inj_of_mark ht ht' (head?_flatMap_comma rest) (head?_flatMap_comma rest') he
      rw [String.toList_inj.1 hsame, ih hrest hrest' he]

lemma comma_cons_intercalate (h : texts ≠ []) : ',' :: ' ' :: (", ".intercalate texts).toList =
    texts.flatMap fun t => ',' :: ' ' :: t.toList := by
  obtain ⟨text, rest, rfl⟩ := List.exists_cons_of_ne_nil h
  induction rest generalizing text with
  | nil => simp
  | cons t rest ih =>
    rw [String.intercalate_cons_cons, String.toList_append, List.flatMap_cons,
      ← ih t (List.cons_ne_nil t rest)]
    simp

lemma intercalate_eq_empty (h : ∀ t ∈ texts, t ≠ "") :
    ", ".intercalate texts = "" ↔ texts = [] := by
  cases texts with
  | nil => simp
  | cons t rest =>
    have ht : t ≠ "" := h t List.mem_cons_self
    cases rest <;> simp [ht]

lemma not_mem_intercalate {x : Char} (hx : x ∉ [',', ' ']) (h : ∀ t ∈ texts, x ∉ t.toList) :
    x ∉ (", ".intercalate texts).toList := by
  intro hmem
  rcases eq_or_ne texts [] with rfl | hne
  · simp at hmem
  · have hall : x ∈ texts.flatMap fun t => ',' :: ' ' :: t.toList := by
      rw [← comma_cons_intercalate hne]
      exact List.mem_cons_of_mem _ (List.mem_cons_of_mem _ hmem)
    obtain ⟨t, ht, hmem⟩ := List.mem_flatMap.1 hall
    have hnot : x ∉ t.toList := h t ht
    simp_all

/-- Texts that are not empty and hold no comma are known from their enumeration. -/
theorem intercalate_inj (h : ∀ t ∈ texts, t ≠ "" ∧ ',' ∉ t.toList)
    (h' : ∀ t ∈ texts', t ≠ "" ∧ ',' ∉ t.toList)
    (he : ", ".intercalate texts = ", ".intercalate texts') : texts = texts' := by
  rcases eq_or_ne texts [] with rfl | hne
  · exact ((intercalate_eq_empty fun t ht => (h' t ht).1).1 he.symm).symm
  rcases eq_or_ne texts' [] with rfl | hne'
  · exact (intercalate_eq_empty fun t ht => (h t ht).1).1 he
  · refine flatMap_comma_inj (fun t ht => (h t ht).2) (fun t ht => (h' t ht).2) ?_
    rw [← comma_cons_intercalate hne, ← comma_cons_intercalate hne', he]

end Commas

end Asdl.Text
