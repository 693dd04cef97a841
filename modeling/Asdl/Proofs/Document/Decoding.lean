import Asdl.Document.Decode
import Asdl.Proofs.Document.Encoding
import Asdl.Proofs.Grammar.Construction
import Asdl.Proofs.Json.Embedding
import Asdl.Proofs.Result

/-! Decoding a document succeeds exactly when what it gives, encoded again, is embedded in the
document. One statement for each part of the format, from a single type up to a whole grammar. -/
namespace Asdl

lemma Kind.ofLabel?_eq_some {label : String} {k : Kind} :
    Kind.ofLabel? label = some k ↔ label = k.label := by
  constructor
  · intro h
    unfold Kind.ofLabel? at h
    split at h <;> cases h <;> rfl
  · rintro rfl
    exact Kind.ofLabel?_label k

lemma Cardinality.ofLabel_eq_ok {label : String} {c : Cardinality} :
    Cardinality.ofLabel label = .ok c ↔ label = c.label := by
  constructor
  · intro h
    unfold Cardinality.ofLabel Cardinality.ofLabel? at h
    split at h
    · next hc => split at hc <;> cases hc <;> cases h <;> rfl
    · cases h
  · rintro rfl
    exact Cardinality.ofLabel_label c

namespace Document
open Json Result

@[simp] lemma malformed_ne_ok {α : Type} {cause : Malformed} {a : α} : malformed cause ≠ .ok a :=
  nofun

lemma isObject_of_member? {key : String} {value v : Json} (h : value.member? key = some v) :
    value.isObject = true := by
  cases value with
  | object members => rfl
  | _ => cases h

lemma bind_string? {found : Option Json} {text : String} :
    found.bind string? = some text ↔ found = some (.string text) := by
  rcases found with _ | v
  · simp
  · cases v <;> simp [string?]

lemma bind_array? {found : Option Json} {items : List Json} :
    found.bind array? = some items ↔ found = some (.array items) := by
  rcases found with _ | v
  · simp
  · cases v <;> simp [array?]

lemma stringAt_eq_ok {value : Json} {key text : String} :
    stringAt value key = .ok text ↔ value.member? key = some (.string text) := by
  rw [← bind_string?, stringAt]
  split
  · split <;> simp [*]
  · next hobject =>
    simp only [malformed_ne_ok, false_iff, bind_string?]
    exact fun h => hobject (isObject_of_member? h)

lemma arrayAt_eq_ok {value : Json} {key : String} {items : List Json} :
    arrayAt value key = .ok items ↔ value.member? key = some (.array items) := by
  rw [← bind_array?, arrayAt]
  split
  · split <;> simp [*]
  · next hobject =>
    simp only [malformed_ne_ok, false_iff, bind_array?]
    exact fun h => hobject (isObject_of_member? h)

lemma valueAt_eq_ok {value v : Json} {key : String} {missing : Malformed} :
    valueAt value key missing = .ok v ↔ value.member? key = some v := by
  unfold valueAt
  cases value.member? key <;> simp

lemma ofType_embeddedIn {t : Ty} {value : Json} :
    (ofType t).EmbeddedIn value ↔ value.member? "kind" = some (.string t.kind.label) ∧
      value.member? "name" = some (.string t.name) := by
  simp [ofType, object_embeddedIn, EmbeddedMembers]

lemma toType_eq_ok {value : Json} {t : Ty} :
    toType value = .ok t ↔ (ofType t).EmbeddedIn value := by
  rw [ofType_embeddedIn, toType, bind_eq_ok]
  constructor
  · intro hread
    obtain ⟨label, hlabel, h⟩ := hread
    split at h
    · next kind hkind =>
      obtain ⟨name, hname, hok⟩ := bind_eq_ok.1 h
      cases hok
      cases Kind.ofLabel?_eq_some.1 hkind
      exact ⟨stringAt_eq_ok.1 hlabel, stringAt_eq_ok.1 hname⟩
    · cases h
  · intro hembedded
    obtain ⟨hkind, hname⟩ := hembedded
    refine ⟨_, stringAt_eq_ok.2 hkind, ?_⟩
    simp [stringAt_eq_ok.2 hname, bind, Except.bind, pure, Except.pure]

lemma ofField_embeddedIn {f : Field} {value : Json} :
    (ofField f).EmbeddedIn value ↔
      value.member? "cardinality" = some (.string f.cardinality.label) ∧
      value.member? "name" = some (.string f.name) ∧
      ∃ w, value.member? "type" = some w ∧ (ofType f.type).EmbeddedIn w := by
  simp [ofField, object_embeddedIn, EmbeddedMembers]

lemma toField_eq_ok {value : Json} {f : Field} :
    toField value = .ok f ↔ (ofField f).EmbeddedIn value := by
  simp only [toField, ofField_embeddedIn, bind_eq_ok, valueAt_eq_ok, toType_eq_ok, stringAt_eq_ok,
    Field.ofLabel, map_eq_ok, Cardinality.ofLabel_eq_ok]
  constructor
  · intro hread
    obtain ⟨w, hw, t, ht, name, hname, label, hlabel, c, rfl, rfl⟩ := hread
    exact ⟨hlabel, hname, w, hw, ht⟩
  · intro hembedded
    obtain ⟨hlabel, hname, w, hw, ht⟩ := hembedded
    exact ⟨w, hw, f.type, ht, f.name, hname, _, hlabel, f.cardinality, rfl, rfl⟩

lemma ofProduction_embeddedIn {p : Production} {value : Json} :
    (ofProduction p).EmbeddedIn value ↔
      value.member? "constructor" = some (.string p.name) ∧
      (∃ items, value.member? "fields" = some (.array items) ∧
        List.Forall₂ (fun v f => (ofField f).EmbeddedIn v) items p.fields) ∧
      ∃ w, value.member? "type" = some w ∧ (ofType p.head).EmbeddedIn w := by
  simp [ofProduction, object_embeddedIn, EmbeddedMembers, array_map_embeddedIn]

lemma toProduction_eq_ok {value : Json} {p : Production} :
    toProduction value = .ok p ↔ (ofProduction p).EmbeddedIn value := by
  simp only [toProduction, ofProduction_embeddedIn, bind_eq_ok, valueAt_eq_ok, toType_eq_ok,
    arrayAt_eq_ok, mapM_eq_ok, toField_eq_ok, stringAt_eq_ok, pure_eq_ok]
  constructor
  · intro hread
    obtain ⟨w, hw, head, hhead, items, hitems, fields, hfields, name, hname, rfl⟩ := hread
    exact ⟨hname, ⟨items, hitems, hfields⟩, w, hw, hhead⟩
  · intro hembedded
    obtain ⟨hname, ⟨items, hitems, hfields⟩, w, hw, hhead⟩ := hembedded
    exact ⟨w, hw, p.head, hhead, items, hitems, p.fields, hfields, p.name, hname, rfl⟩

lemma firstDifference?_eq_none {stored : List Json} {entries : List String} :
    firstDifference? stored entries = none ↔ stored = entries.map .string := by
  fun_induction firstDifference? stored entries with
  | case1 => simp
  | case2 text stored entries ih => simp [ih]
  | case3 text stored entry entries hne => simp [hne]
  | case4 stored entries hnil hcons =>
    simp only [reduceCtorEq, false_iff]
    rintro rfl
    cases entries with
    | nil => exact hnil rfl rfl
    | cons entry entries => exact hcons _ _ _ _ rfl rfl

lemma checkCatalog_eq_ok {stored : Json} {v : Vocabulary} {catalog : Catalog} {u : Unit} :
    checkCatalog stored v catalog = .ok u ↔
      stored.member? catalog.name = some (.ofStrings (v.entries catalog)) := by
  rw [checkCatalog, bind_eq_ok]
  constructor
  · intro hread
    obtain ⟨items, hitems, h⟩ := hread
    split at h
    · cases h
    · next hsame => rw [arrayAt_eq_ok.1 hitems, firstDifference?_eq_none.1 hsame, ofStrings]
  · intro h
    refine ⟨_, arrayAt_eq_ok.2 h, ?_⟩
    rw [firstDifference?_eq_none.2 rfl]

lemma checkVocabulary_eq_ok {stored : Json} {v : Vocabulary} {u : Unit} :
    checkVocabulary stored v = .ok u ↔ (ofVocabulary v).EmbeddedIn stored := by
  simp only [checkVocabulary, bind_eq_ok, checkCatalog_eq_ok, ofVocabulary, object_embeddedIn,
    EmbeddedMembers, ofStrings_embeddedIn, exists_eq_right, and_true, Catalog.name]
  constructor
  · intro hread
    obtain ⟨-, hproductions, -, htypes, hfields⟩ := hread
    exact ⟨hfields, hproductions, htypes⟩
  · intro hembedded
    obtain ⟨hfields, hproductions, htypes⟩ := hembedded
    exact ⟨(), hproductions, (), htypes, hfields⟩

lemma encode_embeddedIn {g : Grammar} {doc : Json} :
    (encode g).EmbeddedIn doc ↔ doc.member? "format" = some (.string format) ∧
      (∃ items, doc.member? "productions" = some (.array items) ∧
        List.Forall₂ (fun v p => (ofProduction p).EmbeddedIn v) items g.declared) ∧
      doc.member? "root" = some (.string g.root.name) ∧
      ∃ w, doc.member? "vocabulary" = some w ∧ (ofVocabulary g.vocabulary).EmbeddedIn w := by
  simp [encode, object_embeddedIn, EmbeddedMembers, array_map_embeddedIn]

lemma checkFormat_eq_ok {tag : String} {u : Unit} :
    checkFormat tag = .ok u ↔ tag = format := by
  unfold checkFormat
  split <;> simp [*]

lemma checkRoot_eq_ok {root : String} {g : Grammar} {u : Unit} :
    checkRoot root g = .ok u ↔ root = g.root.name := by
  unfold checkRoot
  split <;> simp [*]

/-- The checks of a document, each by what it finds there. -/
lemma decode_eq_ok {doc : Json} {g : Grammar} :
    decode doc = .ok g ↔ doc.member? "format" = some (.string format) ∧
      (∃ items, doc.member? "productions" = some (.array items) ∧
        ∃ ps, List.Forall₂ (fun v p => (ofProduction p).EmbeddedIn v) items ps ∧
          Grammar.ofProductions ps = .ok g) ∧
      doc.member? "root" = some (.string g.root.name) ∧
      ∃ w, doc.member? "vocabulary" = some w ∧ (ofVocabulary g.vocabulary).EmbeddedIn w := by
  simp only [decode, bind_eq_ok, stringAt_eq_ok, checkFormat_eq_ok, arrayAt_eq_ok, mapM_eq_ok,
    toProduction_eq_ok, checkRoot_eq_ok, valueAt_eq_ok, checkVocabulary_eq_ok, pure_eq_ok]
  constructor
  · intro hread
    obtain ⟨tag, htag, -, rfl, items, hitems, ps, hps, g', hg, root, hroot, -, rfl, w, hw, -, hv,
      rfl⟩ := hread
    exact ⟨htag, ⟨items, hitems, ps, hps, hg⟩, hroot, w, hw, hv⟩
  · intro hembedded
    obtain ⟨htag, ⟨items, hitems, ps, hps, hg⟩, hroot, w, hw, hv⟩ := hembedded
    exact ⟨format, htag, (), rfl, items, hitems, ps, hps, g, hg, _, hroot, (), rfl, w, hw, (), hv,
      rfl⟩

lemma decode_encode (g : Grammar) : decode (encode g) = .ok g := by
  have hself := (plain_encode g).embeddedIn_self
  obtain ⟨hformat, ⟨items, hitems, hproductions⟩, hroot, w, hw, hv⟩ := encode_embeddedIn.1 hself
  have hg := Grammar.ofProductions_declared g
  exact decode_eq_ok.2 ⟨hformat, ⟨items, hitems, _, hproductions, hg⟩, hroot, w, hw, hv⟩

/-- The decoder accepts the image of the encoder, up to members the format does not know: a
document decodes to a grammar exactly when the encoding of that grammar is embedded in it. -/
theorem decode_eq_ok_iff_embeddedIn (g : Grammar) :
    (∀ doc, decode doc = .ok g ↔ (encode g).EmbeddedIn doc) ∧ decode (encode g) = .ok g := by
  refine ⟨fun doc => ?_, decode_encode g⟩
  rw [decode_eq_ok, encode_embeddedIn]
  simp only [Grammar.ofProductions_eq_ok, exists_eq_right]

end Document
end Asdl
