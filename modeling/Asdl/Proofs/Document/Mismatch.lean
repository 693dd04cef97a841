import Mathlib.Order.Bounds.Basic
import Asdl.Proofs.Document.Defects
import Asdl.Proofs.Grammar.Rejection

/-! When the stored vocabulary is what a document is refused for, and where it is said to differ: in
the first catalog that is stored otherwise than it is rebuilt, at the length of what the stored and
the rebuilt entries begin with in common. -/
namespace Asdl

/-- The lengths of the lists that two lists both begin with. -/
def commonPrefixLengths {α : Type} (a b : List α) : Set ℕ :=
  {n | ∃ l, l <+: a ∧ l <+: b ∧ l.length = n}

section Prefixes
variable {α : Type} {a b : List α} {n : ℕ}

/-- Lists that do not begin with the same item have nothing in common. -/
lemma isGreatest_zero_commonPrefixLengths (h : ∀ x ∈ a.head?, x ∉ b.head?) :
    IsGreatest (commonPrefixLengths a b) 0 := by
  refine ⟨⟨[], List.nil_prefix, List.nil_prefix, rfl⟩, ?_⟩
  intro n hn
  obtain ⟨l, ⟨a', rfl⟩, ⟨b', rfl⟩, rfl⟩ := hn
  cases l with
  | nil => exact Nat.le_refl 0
  | cons x rest => exact absurd rfl (h x rfl)

lemma isGreatest_succ_commonPrefixLengths (x : α) (h : IsGreatest (commonPrefixLengths a b) n) :
    IsGreatest (commonPrefixLengths (x :: a) (x :: b)) (n + 1) := by
  obtain ⟨⟨l, ha, hb, rfl⟩, hlongest⟩ := h
  refine ⟨⟨x :: l, List.cons_prefix_cons.2 ⟨rfl, ha⟩, List.cons_prefix_cons.2 ⟨rfl, hb⟩, rfl⟩, ?_⟩
  intro m hm
  obtain ⟨l', ha', hb', rfl⟩ := hm
  cases l' with
  | nil => exact Nat.zero_le _
  | cons y rest =>
    have hrest : rest.length ∈ commonPrefixLengths a b :=
      ⟨rest, (List.cons_prefix_cons.1 ha').2, (List.cons_prefix_cons.1 hb').2, rfl⟩
    exact Nat.succ_le_succ (hlongest hrest)

lemma isGreatest_commonPrefixLengths_of_prefix (h : a <+: b) :
    IsGreatest (commonPrefixLengths a b) a.length := by
  refine ⟨⟨a, List.prefix_rfl, h, rfl⟩, ?_⟩
  intro n hn
  obtain ⟨l, ha, -, rfl⟩ := hn
  exact ha.length_le

lemma commonPrefixLengths_comm : commonPrefixLengths a b = commonPrefixLengths b a := by
  ext n
  exact exists_congr fun l => and_left_comm

/-- Where one list goes on after the other has ended, the shorter one is all that is common. -/
lemma isGreatest_commonPrefixLengths_min (h : a <+: b ∨ b <+: a) :
    IsGreatest (commonPrefixLengths a b) (min a.length b.length) := by
  obtain h | h := h
  · rw [min_eq_left h.length_le]
    exact isGreatest_commonPrefixLengths_of_prefix h
  · rw [min_eq_right h.length_le, commonPrefixLengths_comm]
    exact isGreatest_commonPrefixLengths_of_prefix h

end Prefixes

/-- The place of a catalog in the order in which stored catalogs are compared. -/
def Catalog.position : Catalog → ℕ
  | productions => 0
  | types => 1
  | fields => 2

namespace Document
open Json Result

/-- Whether a document has the format, the productions and the root of a grammar. -/
structure Rebuilds (doc : Json) (g : Grammar) : Prop where
  format : doc.member? "format" = some (.string format)
  productions : ∃ items ps, doc.member? "productions" = some (.array items) ∧
    List.Forall₂ (fun v p => toProduction v = .ok p) items ps ∧ Grammar.ofProductions ps = .ok g
  root : doc.member? "root" = some (.string g.root.name)

/-- Whether a catalog is the first one of a stored vocabulary that is not as it should be, and is an
array of given items. -/
structure DiffersAt (stored : Json) (v : Vocabulary) (catalog : Catalog) (items : List Json) :
    Prop where
  earlier : ∀ c : Catalog, c.position < catalog.position →
    stored.member? c.name = some (.ofStrings (v.entries c))
  array : stored.member? catalog.name = some (.array items)
  differs : items ≠ (v.entries catalog).map .string

/-- Whether two documents with a vocabulary are the same but for catalogs behind a given one, and
for what is not read. -/
structure AgreeUpTo (catalog : Catalog) (doc other : Json) : Prop where
  format : doc.member? "format" = other.member? "format"
  productions : doc.member? "productions" = other.member? "productions"
  root : doc.member? "root" = other.member? "root"
  vocabulary : ∃ stored stored', doc.member? "vocabulary" = some stored ∧
    other.member? "vocabulary" = some stored' ∧
    ∀ c : Catalog, c.position ≤ catalog.position → stored.member? c.name = stored'.member? c.name

section Catalogs
variable {stored : Json} {v : Vocabulary} {catalog c : Catalog} {id : ℕ} {e : Error}
  {items : List Json} {entries : List String}

lemma isGreatest_of_firstDifference? (h : firstDifference? items entries = some id) :
    IsGreatest (commonPrefixLengths items (entries.map .string)) id := by
  fun_induction firstDifference? items entries generalizing id with
  | case1 => cases h
  | case2 text stored entries ih =>
    obtain ⟨n, hn, rfl⟩ := Option.map_eq_some_iff.1 h
    exact isGreatest_succ_commonPrefixLengths _ (ih hn)
  | case3 text stored entry entries hne =>
    cases h
    apply isGreatest_zero_commonPrefixLengths
    simp [Ne.symm hne]
  | case4 items entries hnil hcons =>
    cases h
    apply isGreatest_zero_commonPrefixLengths
    intro v hv hentry
    cases items with
    | nil => cases hv
    | cons w items =>
      cases entries with
      | nil => cases hentry
      | cons entry entries =>
        obtain rfl : w = v := by simpa using hv
        obtain rfl : Json.string entry = w := by simpa using hentry
        exact hcons _ _ _ _ rfl rfl

/-- The position of the first difference is the number of entries before it. -/
lemma firstDifference?_eq_some : firstDifference? items entries = some id ↔
    items ≠ entries.map .string ∧
      IsGreatest (commonPrefixLengths items (entries.map .string)) id := by
  rw [ne_eq, ← firstDifference?_eq_none]
  apply Iff.intro
  · intro h
    exact ⟨by simp [h], isGreatest_of_firstDifference? h⟩
  · intro h
    obtain ⟨hdiffers, hgreatest⟩ := h
    obtain ⟨n, hn⟩ := Option.ne_none_iff_exists'.1 hdiffers
    rw [hn, (isGreatest_of_firstDifference? hn).unique hgreatest]

/-- What reports a defect of shape has nothing to say about the vocabulary. -/
lemma ReportsFirst.ne_mismatch {α : Type} {defects : List Defect} {r : Result α}
    (h : ReportsFirst defects r) : r ≠ .error (.vocabularyMismatch catalog id) := by
  intro hr
  obtain ⟨d, -, hd⟩ := Option.map_eq_some_iff.1 ((h _).1 hr)
  cases d <;> cases hd

@[simp] lemma malformed_ne_mismatch {α : Type} {cause : Malformed} :
    (malformed cause : Result α) ≠ .error (.vocabularyMismatch catalog id) := by
  simp [malformed]

lemma checkCatalog_eq_mismatch : checkCatalog stored v c = .error (.vocabularyMismatch catalog id) ↔
    c = catalog ∧ ∃ items, stored.member? c.name = some (.array items) ∧
      firstDifference? items (v.entries c) = some id := by
  have hshape : arrayAt stored c.name ≠ .error (.vocabularyMismatch catalog id) :=
    (arrayAt_reports stored c.name).ne_mismatch
  rw [checkCatalog, bind_eq_error, or_iff_right hshape]
  simp only [arrayAt_eq_ok]
  apply Iff.intro
  · intro h
    obtain ⟨items, hitems, hcompare⟩ := h
    split at hcompare
    · next n hn =>
      cases hcompare
      exact ⟨rfl, items, hitems, hn⟩
    · cases hcompare
  · intro h
    obtain ⟨rfl, items, hitems, hdifference⟩ := h
    refine ⟨items, hitems, ?_⟩
    rw [hdifference]

/-- Catalogs are compared one after the other, up to the first that fails. -/
lemma checkVocabulary_eq_error : checkVocabulary stored v = .error e ↔
    ∃ c : Catalog, (∀ c' : Catalog, c'.position < c.position →
      stored.member? c'.name = some (.ofStrings (v.entries c'))) ∧
      checkCatalog stored v c = .error e := by
  rw [checkVocabulary, then_eq_error, then_eq_error, checkCatalog_eq_ok, checkCatalog_eq_ok]
  apply Iff.intro
  · intro h
    obtain h | ⟨hproductions, h | ⟨htypes, h⟩⟩ := h
    · exact ⟨.productions, fun c' hc' => absurd hc' (Nat.not_lt_zero _), h⟩
    · refine ⟨.types, fun c' hc' => ?_, h⟩
      cases c' with
      | productions => exact hproductions
      | types => exact absurd hc' (Nat.lt_irrefl _)
      | fields => exact absurd hc' (by decide)
    · refine ⟨.fields, fun c' hc' => ?_, h⟩
      cases c' with
      | productions => exact hproductions
      | types => exact htypes
      | fields => exact absurd hc' (Nat.lt_irrefl _)
  · intro h
    obtain ⟨c, hearlier, hc⟩ := h
    cases c with
    | productions => exact .inl hc
    | types => exact .inr ⟨hearlier .productions (by decide), .inl hc⟩
    | fields =>
      exact .inr ⟨hearlier .productions (by decide), .inr ⟨hearlier .types (by decide), hc⟩⟩

/-- A vocabulary differs where it is first stored otherwise. -/
lemma checkVocabulary_eq_mismatch :
    checkVocabulary stored v = .error (.vocabularyMismatch catalog id) ↔
      ∃ items, DiffersAt stored v catalog items ∧
        IsGreatest (commonPrefixLengths items ((v.entries catalog).map .string)) id := by
  simp only [checkVocabulary_eq_error, checkCatalog_eq_mismatch, firstDifference?_eq_some]
  apply Iff.intro
  · intro h
    obtain ⟨c, hearlier, rfl, items, hitems, hdiffers, hgreatest⟩ := h
    exact ⟨items, ⟨hearlier, hitems, hdiffers⟩, hgreatest⟩
  · intro h
    obtain ⟨items, ⟨hearlier, hitems, hdiffers⟩, hgreatest⟩ := h
    exact ⟨catalog, hearlier, rfl, items, hitems, hdiffers, hgreatest⟩

end Catalogs

section Decoding
variable {doc other : Json} {catalog : Catalog} {id : ℕ} {g : Grammar}

lemma ofProductions_ne_mismatch {ps : List Production} :
    Grammar.ofProductions ps ≠ .error (.vocabularyMismatch catalog id) := by
  intro h
  obtain ⟨-, he⟩ | ⟨p, q, -, he⟩ | ⟨-, -, sorted, t, -, -, he⟩ :=
    Grammar.ofProductions_eq_error_iff.1 h <;> cases he

/-- All that comes before the vocabulary has to be in order. -/
lemma decode_eq_mismatch : decode doc = .error (.vocabularyMismatch catalog id) ↔
    ∃ g stored, Rebuilds doc g ∧ doc.member? "vocabulary" = some stored ∧
      checkVocabulary stored g.vocabulary = .error (.vocabularyMismatch catalog id) := by
  have hstring (key : String) : stringAt doc key ≠ .error (.vocabularyMismatch catalog id) :=
    (stringAt_reports doc key).ne_mismatch
  have harray (key : String) : arrayAt doc key ≠ .error (.vocabularyMismatch catalog id) :=
    (arrayAt_reports doc key).ne_mismatch
  have hread (items : List Json) :
      items.mapM toProduction ≠ .error (.vocabularyMismatch catalog id) :=
    (ReportsFirst.mapM toProduction_reports items).ne_mismatch
  have hformat (tag : String) : checkFormat tag ≠ .error (.vocabularyMismatch catalog id) := by
    rw [checkFormat]
    split <;> simp
  have hroot (root : String) (g : Grammar) :
      checkRoot root g ≠ .error (.vocabularyMismatch catalog id) := by
    rw [checkRoot]
    split <;> simp
  have hmember (key : String) (missing : Malformed) :
      valueAt doc key missing ≠ .error (.vocabularyMismatch catalog id) := by
    rw [valueAt]
    split <;> simp
  simp only [decode, bind_eq_error, hstring, harray, hread, hformat, hroot, hmember,
    ofProductions_ne_mismatch, false_or, stringAt_eq_ok, checkFormat_eq_ok, arrayAt_eq_ok,
    mapM_eq_ok, checkRoot_eq_ok, valueAt_eq_ok]
  apply Iff.intro
  · intro h
    obtain ⟨tag, htag, -, rfl, items, hitems, ps, hps, g, hg, root, hroot', -, rfl, stored,
      hstored, hdiffers | ⟨-, -, hpure⟩⟩ := h
    · exact ⟨g, stored, ⟨htag, ⟨items, ps, hitems, hps, hg⟩, hroot'⟩, hstored, hdiffers⟩
    · cases hpure
  · intro h
    obtain ⟨g, stored, ⟨htag, ⟨items, ps, hitems, hps, hg⟩, hroot'⟩, hstored, hdiffers⟩ := h
    exact ⟨_, htag, (), rfl, items, hitems, ps, hps, g, hg, _, hroot', (), rfl, stored, hstored,
      .inl hdiffers⟩

lemma AgreeUpTo.symm (h : AgreeUpTo catalog doc other) : AgreeUpTo catalog other doc := by
  obtain ⟨stored, stored', hstored, hstored', hsame⟩ := h.vocabulary
  exact ⟨h.format.symm, h.productions.symm, h.root.symm, stored', stored, hstored', hstored,
    fun c hc => (hsame c hc).symm⟩

lemma Rebuilds.of_agreeUpTo (h : Rebuilds doc g) (hagree : AgreeUpTo catalog doc other) :
    Rebuilds other g where
  format := hagree.format ▸ h.format
  productions := hagree.productions ▸ h.productions
  root := hagree.root ▸ h.root

lemma DiffersAt.congr {stored stored' : Json} {v : Vocabulary} {items : List Json}
    (h : DiffersAt stored v catalog items)
    (hsame : ∀ c : Catalog, c.position ≤ catalog.position →
      stored.member? c.name = stored'.member? c.name) : DiffersAt stored' v catalog items where
  earlier c hc := hsame c (Nat.le_of_lt hc) ▸ h.earlier c hc
  array := hsame catalog (Nat.le_refl _) ▸ h.array
  differs := h.differs

/-- Catalogs behind the one that is reported are not looked at. -/
lemma decode_eq_mismatch_of_agreeUpTo (hagree : AgreeUpTo catalog doc other)
    (h : decode doc = .error (.vocabularyMismatch catalog id)) :
    decode other = .error (.vocabularyMismatch catalog id) := by
  obtain ⟨g, stored, hg, hstored, hdiffers⟩ := decode_eq_mismatch.1 h
  obtain ⟨items, hitems, hgreatest⟩ := checkVocabulary_eq_mismatch.1 hdiffers
  obtain ⟨w, stored', hw, hstored', hsame⟩ := hagree.vocabulary
  obtain rfl : w = stored := Option.some.inj (hw.symm.trans hstored)
  refine decode_eq_mismatch.2 ⟨g, stored', hg.of_agreeUpTo hagree, hstored', ?_⟩
  exact checkVocabulary_eq_mismatch.2 ⟨items, hitems.congr hsame, hgreatest⟩

end Decoding

/-- When a document is refused for a catalog of its vocabulary, and with which id. All that comes
before the catalog has to be in order; the id is the number of entries that the stored and the
rebuilt catalog begin with in common, all of the shorter one if it is merely cut off or continued;
and catalogs behind it do not matter. -/
theorem decode_eq_vocabularyMismatch_iff (catalog : Catalog) :
    (∀ doc id, decode doc = .error (.vocabularyMismatch catalog id) ↔
      ∃ g stored items, Rebuilds doc g ∧ doc.member? "vocabulary" = some stored ∧
        stored.isObject = true ∧ DiffersAt stored g.vocabulary catalog items ∧
        IsGreatest (commonPrefixLengths items ((g.vocabulary.entries catalog).map .string)) id) ∧
    (∀ doc g stored items, Rebuilds doc g → doc.member? "vocabulary" = some stored →
      DiffersAt stored g.vocabulary catalog items →
      items <+: (g.vocabulary.entries catalog).map .string ∨
        (g.vocabulary.entries catalog).map .string <+: items →
      decode doc = .error (.vocabularyMismatch catalog
        (min items.length (g.vocabulary.entries catalog).length))) ∧
    ∀ doc other id, AgreeUpTo catalog doc other →
      (decode doc = .error (.vocabularyMismatch catalog id) ↔
        decode other = .error (.vocabularyMismatch catalog id)) := by
  refine ⟨fun doc id => ?_, ?_, fun doc other id hagree => ?_⟩
  · rw [decode_eq_mismatch]
    simp only [checkVocabulary_eq_mismatch]
    apply Iff.intro
    · intro h
      obtain ⟨g, stored, hg, hstored, items, hdiffers, hgreatest⟩ := h
      have hobject : stored.isObject = true := isObject_of_member? hdiffers.array
      exact ⟨g, stored, items, hg, hstored, hobject, hdiffers, hgreatest⟩
    · intro h
      obtain ⟨g, stored, items, hg, hstored, -, hdiffers, hgreatest⟩ := h
      exact ⟨g, stored, hg, hstored, items, hdiffers, hgreatest⟩
  · intro doc g stored items hg hstored hdiffers hprefix
    have hgreatest := isGreatest_commonPrefixLengths_min hprefix
    rw [List.length_map] at hgreatest
    refine decode_eq_mismatch.2 ⟨g, stored, hg, hstored, ?_⟩
    exact checkVocabulary_eq_mismatch.2 ⟨items, hdiffers, hgreatest⟩
  · exact Iff.intro (decode_eq_mismatch_of_agreeUpTo hagree)
      (decode_eq_mismatch_of_agreeUpTo hagree.symm)

/-- A stored vocabulary with one type too many and nothing usable behind its types: the surplus type
is reported, by the id that it would have. -/
theorem decode_surplus_type :
    let items := [.string "Clause", .string "NounPhrase", Json.null]
    let stored := Json.object [("fields", .null), ("productions", .ofStrings ["Transitive"]),
      ("types", .array items)]
    ∃ g, Grammar.ofProductions [transitive] = .ok g ∧
      Rebuilds ((encode g).withMember "vocabulary" stored) g ∧
      DiffersAt stored g.vocabulary .types items ∧
      (g.vocabulary.entries .types).map .string <+: items ∧
      decode ((encode g).withMember "vocabulary" stored) =
        .error (.vocabularyMismatch .types 2) := by
  intro items stored
  obtain ⟨g, hg, hproductions, htypes⟩ : ∃ g, Grammar.ofProductions [transitive] = .ok g ∧
      g.vocabulary.entries .productions = ["Transitive"] ∧
      g.vocabulary.entries .types = ["Clause", "NounPhrase"] := ⟨_, rfl, rfl, rfl⟩
  have hdeclared : g.declared = [transitive] := Grammar.declared_of_ofProductions hg
  have hrebuilds : Rebuilds ((encode g).withMember "vocabulary" stored) g := by
    refine ⟨rfl, ⟨[ofProduction transitive], [transitive], ?_, .cons rfl .nil, hg⟩, rfl⟩
    change some (Json.array (g.declared.map ofProduction)) = _
    rw [hdeclared]
    rfl
  have hdiffers : DiffersAt stored g.vocabulary .types items := by
    refine ⟨fun c hc => ?_, rfl, ?_⟩
    · cases c with
      | productions =>
        rw [hproductions]
        rfl
      | types => exact absurd hc (by decide)
      | fields => exact absurd hc (by decide)
    · simp [htypes, items]
  have hprefix : (g.vocabulary.entries .types).map .string <+: items :=
    htypes ▸ ⟨[Json.null], rfl⟩
  have hrefused := (decode_eq_vocabularyMismatch_iff .types).2.1 _ g stored items hrebuilds rfl
    hdiffers (.inr hprefix)
  rw [htypes] at hrefused
  exact ⟨g, hg, hrebuilds, hdiffers, hprefix, hrefused⟩

end Document
end Asdl
