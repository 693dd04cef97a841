import Asdl.Proofs.Document.Reload

/-! Defects of a stored production and the order in which they count. All defects of a value are
listed, whether or not a reader gets as far as each; a reader reports the first of its list, and the
first production with a defect comes before everything that is checked after the productions. -/
namespace Asdl.Document
open Json Result

/-- What can be wrong with a stored production: a part that is missing or of the wrong shape, or a
cardinality that there is not. -/
inductive Defect where
  | shape (cause : Malformed)
  | cardinality (label : String)
  deriving DecidableEq

def Defect.error : Defect → Error
  | shape cause => .malformedDocument cause
  | cardinality label => .invalidCardinality label

/-- Defects of what is to be an object with a member of some shape at a key. -/
def memberDefects {α : Type} (shape? : Json → Option α) (missing : String → Malformed)
    (value : Json) (key : String) : List Defect :=
  if value.isObject then
    match (value.member? key).bind shape? with
    | some _ => []
    | none => [.shape (missing key)]
  else [.shape .notAnObject]

def stringDefects (value : Json) (key : String) : List Defect :=
  memberDefects string? .missingString value key

def arrayDefects (value : Json) (key : String) : List Defect :=
  memberDefects array? .missingArray value key

/-- The defect of a string that is none of the labels which may stand at a key. -/
def labelDefects (value : Json) (key : String) (labels : List String) (unknown : String → Defect) :
    List Defect :=
  match (value.member? key).bind string? with
  | some label => if label ∈ labels then [] else [unknown label]
  | none => []

/-- Defects of a type: its kind, then its name. -/
def typeDefects (value : Json) : List Defect :=
  stringDefects value "kind" ++
    (labelDefects value "kind" ["primitive", "composite"] (.shape <| .unknownKind ·) ++
      stringDefects value "name")

/-- Defects of the type that a production or a field has. -/
def typeMemberDefects (value : Json) (missing : Malformed) : List Defect :=
  match value.member? "type" with
  | some type => typeDefects type
  | none => [.shape missing]

/-- Defects of a field: its type, its name, then its cardinality. -/
def fieldDefects (value : Json) : List Defect :=
  typeMemberDefects value .fieldWithoutType ++ (stringDefects value "name" ++
    (stringDefects value "cardinality" ++
      labelDefects value "cardinality" ["single", "optional", "multiple"] .cardinality))

/-- Defects of the fields of a production: that they are no array, or those of each field from left
to right. -/
def fieldsDefects (value : Json) : List Defect :=
  arrayDefects value "fields" ++
    (((value.member? "fields").bind array?).getD []).flatMap fieldDefects

/-- Defects of a production: its head, its fields, then its constructor. -/
def productionDefects (value : Json) : List Defect :=
  typeMemberDefects value .productionWithoutType ++
    (fieldsDefects value ++ stringDefects value "constructor")

/-- Whether a result tells of a list of defects: of the first of them, or that there is none. -/
def ReportsFirst {α : Type} (defects : List Defect) (r : Result α) : Prop :=
  ∀ e, r = .error e ↔ defects.head?.map Defect.error = some e

namespace ReportsFirst
variable {α β : Type} {defects others : List Defect} {r : Result α} {f : α → Result β}

lemma ok (a : α) : ReportsFirst [] (.ok a) := by
  intro e
  simp

/-- Behind the defect that is reported there may be others. -/
lemma error (d : Defect) (others : List Defect) :
    ReportsFirst (d :: others) (.error d.error : Result α) := by
  intro e
  simp

lemma eq_nil_iff (h : ReportsFirst defects r) : defects = [] ↔ ∃ a, r = .ok a := by
  cases r with
  | ok a =>
    refine iff_of_true ?_ ⟨a, rfl⟩
    cases defects with
    | nil => rfl
    | cons d rest => cases (h d.error).2 rfl
  | error e =>
    refine iff_of_false ?_ nofun
    intro hnil
    rw [hnil] at h
    cases (h e).1 rfl

/-- A step after a step adds its defects behind those of the step before. -/
lemma bind (h : ReportsFirst defects r) (hf : ∀ a, r = .ok a → ReportsFirst others (f a)) :
    ReportsFirst (defects ++ others) (r >>= f) := by
  cases r with
  | ok a =>
    obtain rfl := h.eq_nil_iff.2 ⟨a, rfl⟩
    exact hf a rfl
  | error e =>
    intro e'
    obtain ⟨d, hd, rfl⟩ := Option.map_eq_some_iff.1 ((h e).1 rfl)
    rw [List.head?_append, hd, Option.some_or]
    exact (error d (α := β) [] e')

/-- A last step that cannot fail adds no defect. -/
lemma map (h : ReportsFirst defects r) (g : α → β) : ReportsFirst defects (r.map g) := by
  intro e
  rw [← h e]
  cases r with
  | ok a => exact Iff.intro nofun nofun
  | error e' => simp [Except.map]

lemma mapM {f : α → Result β} {d : α → List Defect} (h : ∀ a, ReportsFirst (d a) (f a))
    (items : List α) : ReportsFirst (items.flatMap d) (items.mapM f) := by
  induction items with
  | nil => exact ok []
  | cons a rest ih =>
    rw [List.mapM_cons, List.flatMap_cons]
    refine (h a).bind fun b _ => ?_
    exact ih.map (b :: ·)

end ReportsFirst

section Readers
variable {value : Json} {label : String}

/-- The member of some shape at a key, which both strings and arrays are read as. -/
def memberAt {α : Type} (shape? : Json → Option α) (missing : String → Malformed) (value : Json)
    (key : String) : Result α :=
  if value.isObject then
    match (value.member? key).bind shape? with
    | some a => .ok a
    | none => malformed (missing key)
  else malformed .notAnObject

lemma memberAt_reports {α : Type} (shape? : Json → Option α) (missing : String → Malformed)
    (value : Json) (key : String) :
    ReportsFirst (memberDefects shape? missing value key) (memberAt shape? missing value key) := by
  rw [memberDefects, memberAt]
  split
  · cases (value.member? key).bind shape? with
    | some a => exact .ok a
    | none => exact .error (.shape _) []
  · exact .error (.shape _) []

lemma stringAt_reports (value : Json) (key : String) :
    ReportsFirst (stringDefects value key) (stringAt value key) := by
  have hread : stringAt value key = memberAt string? .missingString value key := by
    rw [stringAt, memberAt]
    cases (value.member? key).bind string? <;> rfl
  rw [hread]
  exact memberAt_reports string? .missingString value key

lemma arrayAt_reports (value : Json) (key : String) :
    ReportsFirst (arrayDefects value key) (arrayAt value key) := by
  have hread : arrayAt value key = memberAt array? .missingArray value key := by
    rw [arrayAt, memberAt]
    cases (value.member? key).bind array? <;> rfl
  rw [hread]
  exact memberAt_reports array? .missingArray value key

lemma labelDefects_eq {key : String} (h : stringAt value key = .ok label) (labels : List String)
    (unknown : String → Defect) :
    labelDefects value key labels unknown = if label ∈ labels then [] else [unknown label] := by
  rw [labelDefects, bind_string?.2 (stringAt_eq_ok.1 h)]

lemma mem_kindLabels_iff :
    label ∈ ["primitive", "composite"] ↔ ∃ kind, Kind.ofLabel? label = some kind := by
  simp only [Kind.ofLabel?_eq_some]
  apply Iff.intro
  · intro h
    obtain rfl | rfl : label = "primitive" ∨ label = "composite" := by simpa using h
    · exact ⟨.primitive, rfl⟩
    · exact ⟨.composite, rfl⟩
  · intro h
    obtain ⟨kind, rfl⟩ := h
    cases kind <;> simp [Kind.label]

lemma mem_cardinalityLabels_iff :
    label ∈ ["single", "optional", "multiple"] ↔ ∃ c, Cardinality.ofLabel label = .ok c := by
  simp only [Cardinality.ofLabel_eq_ok]
  apply Iff.intro
  · intro h
    obtain rfl | rfl | rfl : label = "single" ∨ label = "optional" ∨ label = "multiple" := by
      simpa using h
    · exact ⟨.single, rfl⟩
    · exact ⟨.optional, rfl⟩
    · exact ⟨.multiple, rfl⟩
  · intro h
    obtain ⟨c, rfl⟩ := h
    cases c <;> simp [Cardinality.label]

lemma toType_reports (value : Json) : ReportsFirst (typeDefects value) (toType value) := by
  refine (stringAt_reports value "kind").bind fun label hlabel => ?_
  rw [labelDefects_eq hlabel]
  cases hkind : Kind.ofLabel? label with
  | some kind =>
    rw [if_pos (mem_kindLabels_iff.2 ⟨kind, hkind⟩)]
    exact (stringAt_reports value "name").map fun name => (⟨name, kind⟩ : Ty)
  | none =>
    have hunknown : label ∉ ["primitive", "composite"] := by
      rw [mem_kindLabels_iff, hkind]
      exact nofun
    rw [if_neg hunknown]
    exact .error (.shape _) _

lemma typeMember_reports (value : Json) (missing : Malformed) :
    ReportsFirst (typeMemberDefects value missing) (valueAt value "type" missing >>= toType) := by
  rw [typeMemberDefects, valueAt]
  cases value.member? "type" with
  | some type => exact toType_reports type
  | none => exact .error (.shape _) []

lemma ofLabel_reports (label : String) :
    ReportsFirst (if label ∈ ["single", "optional", "multiple"] then [] else [.cardinality label])
      (Cardinality.ofLabel label) := by
  cases hlabel : Cardinality.ofLabel label with
  | ok c =>
    rw [if_pos (mem_cardinalityLabels_iff.2 ⟨c, hlabel⟩)]
    exact .ok c
  | error e =>
    have hunknown : label ∉ ["single", "optional", "multiple"] := by
      rw [mem_cardinalityLabels_iff, hlabel]
      exact nofun
    have he : e = (Defect.cardinality label).error := by
      rw [Cardinality.ofLabel] at hlabel
      split at hlabel
      · cases hlabel
      · exact (Except.error.inj hlabel).symm
    rw [if_neg hunknown, he]
    exact .error _ []

lemma toField_reports (value : Json) : ReportsFirst (fieldDefects value) (toField value) := by
  have hsteps : toField value = (valueAt value "type" .fieldWithoutType >>= toType) >>= fun type =>
      stringAt value "name" >>= fun name => stringAt value "cardinality" >>= fun label =>
        Field.ofLabel name type label := by
    rw [toField, bind_assoc]
  rw [hsteps]
  refine (typeMember_reports value _).bind fun type _ => ?_
  refine (stringAt_reports value "name").bind fun name _ => ?_
  refine (stringAt_reports value "cardinality").bind fun label hlabel => ?_
  rw [labelDefects_eq hlabel]
  exact (ofLabel_reports label).map _

lemma fields_reports (value : Json) :
    ReportsFirst (fieldsDefects value) (arrayAt value "fields" >>= (·.mapM toField)) := by
  refine (arrayAt_reports value "fields").bind fun items hitems => ?_
  rw [bind_array?.2 (arrayAt_eq_ok.1 hitems), Option.getD_some]
  exact .mapM toField_reports items

/-- The reader of a production reports the first of its defects. -/
lemma toProduction_reports (value : Json) :
    ReportsFirst (productionDefects value) (toProduction value) := by
  have hsteps : toProduction value =
      (valueAt value "type" .productionWithoutType >>= toType) >>= fun head =>
        (arrayAt value "fields" >>= (·.mapM toField)) >>= fun fields =>
          (stringAt value "constructor").map fun name => ⟨head, ⟨name, fields⟩⟩ := by
    rw [toProduction, bind_assoc]
    simp only [bind_assoc]
    rfl
  rw [hsteps]
  refine (typeMember_reports value _).bind fun head _ => ?_
  refine (fields_reports value).bind fun fields _ => ?_
  exact (stringAt_reports value "constructor").map _

/-- What is not a defect of a stored production cannot be the error of reading it. -/
lemma exists_defect_of_toProduction {e : Error} (h : toProduction value = .error e) :
    ∃ d : Defect, e = d.error := by
  obtain ⟨d, -, he⟩ := Option.map_eq_some_iff.1 ((toProduction_reports value e).1 h)
  exact ⟨d, he.symm⟩

end Readers

/-- What is compared with a document once its grammar is built: the root, then the vocabulary. -/
def checkStored (doc : Json) (g : Grammar) : Result Unit := do
  checkRoot (← stringAt doc "root") g
  checkVocabulary (← valueAt doc "vocabulary" .missingVocabulary) g.vocabulary

section Stages
variable {doc : Json} {items : List Json} {ps : List Production} {g : Grammar} {e : Error}

/-- The stages behind the format: reading the productions, building the grammar, comparing. -/
lemma decode_eq (hformat : doc.member? "format" = some (.string format))
    (hitems : doc.member? "productions" = some (.array items)) :
    decode doc = items.mapM toProduction >>= fun ps => Grammar.ofProductions ps >>= fun g =>
      checkStored doc g >>= fun _ => pure g := by
  have htag : stringAt doc "format" = .ok format := stringAt_eq_ok.2 hformat
  have harray : arrayAt doc "productions" = .ok items := arrayAt_eq_ok.2 hitems
  rw [decode, htag, harray]
  simp only [checkStored, bind_assoc]
  rfl

lemma decode_eq_error_of_rejected (hformat : doc.member? "format" = some (.string format))
    (hitems : doc.member? "productions" = some (.array items))
    (hps : List.Forall₂ (fun v p => toProduction v = .ok p) items ps)
    (he : Grammar.ofProductions ps = .error e) : decode doc = .error e := by
  rw [decode_eq hformat hitems, bind_eq_error]
  exact .inr ⟨ps, mapM_eq_ok.2 hps, bind_eq_error.2 (.inl he)⟩

lemma decode_eq_error_of_accepted (hformat : doc.member? "format" = some (.string format))
    (hitems : doc.member? "productions" = some (.array items))
    (hps : List.Forall₂ (fun v p => toProduction v = .ok p) items ps)
    (hg : Grammar.ofProductions ps = .ok g) (he : checkStored doc g = .error e) :
    decode doc = .error e := by
  have hlast : (checkStored doc g >>= fun _ => pure g) = .error e := bind_eq_error.2 (.inl he)
  rw [decode_eq hformat hitems, bind_eq_error]
  exact .inr ⟨ps, mapM_eq_ok.2 hps, bind_eq_error.2 (.inr ⟨g, hg, hlast⟩)⟩

lemma checkStored_of_missingRoot (hobject : doc.isObject = true)
    (hroot : ∀ text, doc.member? "root" ≠ some (.string text)) :
    checkStored doc g = .error (.malformedDocument (.missingString "root")) := by
  have hnone : (doc.member? "root").bind string? = none := by
    by_contra h
    obtain ⟨text, htext⟩ := Option.ne_none_iff_exists'.1 h
    exact hroot text (bind_string?.1 htext)
  rw [checkStored, stringAt, if_pos hobject, hnone]
  rfl

lemma checkStored_of_foreignRoot {text : String} (hroot : doc.member? "root" = some (.string text))
    (hforeign : text ≠ g.root.name) :
    checkStored doc g = .error (.malformedDocument (.foreignRoot text)) := by
  have hcheck : checkRoot text g = .error (.malformedDocument (.foreignRoot text)) :=
    if_neg hforeign
  rw [checkStored, bind_eq_error]
  exact .inr ⟨text, stringAt_eq_ok.2 hroot, bind_eq_error.2 (.inl hcheck)⟩

/-- The order in which a document is judged. The first production that cannot be read decides alone;
then what is wrong with the productions as a grammar; then the root, before the vocabulary. Within a
production it is the first of its defects. -/
theorem decode_reports_first_defect (hformat : doc.member? "format" = some (.string format))
    (hitems : doc.member? "productions" = some (.array items)) :
    (∀ before value after e, items = before ++ value :: after →
      (∀ v ∈ before, ∃ p, toProduction v = .ok p) → toProduction value = .error e →
      decode doc = .error e) ∧
    (∀ ps, List.Forall₂ (fun v p => toProduction v = .ok p) items ps →
      (∀ e, Grammar.ofProductions ps = .error e → decode doc = .error e) ∧
      ∀ g, Grammar.ofProductions ps = .ok g →
        ((∀ text, doc.member? "root" ≠ some (.string text)) →
          decode doc = .error (.malformedDocument (.missingString "root"))) ∧
        ∀ text, doc.member? "root" = some (.string text) → text ≠ g.root.name →
          decode doc = .error (.malformedDocument (.foreignRoot text))) ∧
    ∀ value, ((∃ p, toProduction value = .ok p) ↔ productionDefects value = []) ∧
      (∀ e, toProduction value = .error e ↔
        (productionDefects value).head?.map Defect.error = some e) ∧
      ∀ e, toProduction value = .error e →
        (∃ cause, e = .malformedDocument cause) ∨ ∃ label, e = .invalidCardinality label := by
  refine ⟨?_, fun ps hps => ⟨?_, fun g hg => ⟨?_, ?_⟩⟩, fun value => ⟨?_, ?_, ?_⟩⟩
  · intro before value after e hsplit hbefore hvalue
    have hread : items.mapM toProduction = .error e :=
      mapM_eq_error.2 ⟨before, value, after, hsplit, hbefore, hvalue⟩
    rw [decode_eq hformat hitems, hread]
    rfl
  · intro e he
    exact decode_eq_error_of_rejected hformat hitems hps he
  · intro hroot
    have hobject : doc.isObject = true := isObject_of_member? hformat
    apply decode_eq_error_of_accepted hformat hitems hps hg
    exact checkStored_of_missingRoot hobject hroot
  · intro text hroot hforeign
    apply decode_eq_error_of_accepted hformat hitems hps hg
    exact checkStored_of_foreignRoot hroot hforeign
  · exact (toProduction_reports value).eq_nil_iff.symm
  · exact toProduction_reports value
  · intro e he
    obtain ⟨d, rfl⟩ := exists_defect_of_toProduction he
    cases d with
    | shape cause => exact .inl ⟨cause, rfl⟩
    | cardinality label => exact .inr ⟨label, rfl⟩

/-- A production of which nothing is right but that it has a head, whose kind is unknown. -/
def shapeless : Json :=
  .object [("constructor", .null), ("fields", .null), ("type", .object [("kind", .string "verb")])]

/-- A document with a shapeless production between a good one and none at all, and with neither root
nor vocabulary: of all this the kind is reported. -/
theorem decode_shapeless :
    let items := [ofProduction transitive, shapeless, .null]
    let doc := Json.object [("format", .string format), ("productions", .array items)]
    doc.member? "format" = some (.string format) ∧
    doc.member? "productions" = some (.array items) ∧
    productionDefects shapeless = [.shape (.unknownKind "verb"), .shape (.missingString "name"),
      .shape (.missingArray "fields"), .shape (.missingString "constructor")] ∧
    decode doc = .error (.malformedDocument (.unknownKind "verb")) := by
  intro items doc
  have hformat : doc.member? "format" = some (.string format) := rfl
  have hitems : doc.member? "productions" = some (.array items) := rfl
  have hdefects : productionDefects shapeless =
      [.shape (.unknownKind "verb"), .shape (.missingString "name"),
        .shape (.missingArray "fields"), .shape (.missingString "constructor")] := by decide
  obtain ⟨hfirst, -, hdefective⟩ := decode_reports_first_defect hformat hitems
  refine ⟨hformat, hitems, hdefects, ?_⟩
  refine hfirst [ofProduction transitive] shapeless [.null] _ rfl ?_ ?_
  · intro v hv
    obtain rfl := List.mem_singleton.1 hv
    exact ⟨transitive, rfl⟩
  · exact ((hdefective shapeless).2.1 _).2 (by rw [hdefects]; rfl)

end Stages
end Asdl.Document
