import Asdl.Grammar.Lookup
import Asdl.Proofs.Document.Decoding
import Asdl.Proofs.Equivalence
import Asdl.Proofs.Grammar.Catalogs

/-! Reloading a document whose productions were edited. The stored vocabulary keeps the names of
productions and types and the declarations of fields, and it is these that have to stay; what the
ids denote stays only if the productions are merely rearranged. -/
namespace Asdl

namespace Json

/-- A value with another value at one key. Only an object has keys. -/
def withMember : Json → String → Json → Json
  | .object members, key, value => .object (putMember key value members)
  | other, _, _ => other

lemma member?_putMember {key k : String} {value : Json} {members : List (String × Json)} :
    member? k (.object (putMember key value members)) =
      if key = k then some value else member? k (.object members) := by
  simp only [member?]
  fun_induction putMember key value members with
  | case1 => by_cases h : key = k <;> simp [h]
  | case2 l v rest hlt => by_cases h : key = k <;> simp [h]
  | case3 l v rest heq =>
    obtain rfl := Std.LawfulEqOrd.eq_of_compare heq
    by_cases h : key = k <;> simp [h]
  | case4 l v rest hgt ih =>
    have hne : l ≠ key := fun he => by simp [he] at hgt
    by_cases hl : l = k
    · subst hl
      simp [hne.symm]
    · simpa [hl] using ih

end Json

namespace Grammar
variable {g h : Grammar}

/-- Grammars whose ids denote the same: the same productions and fields up to kinds, and the same
types with their kinds. -/
structure SameIds (g h : Grammar) : Prop where
  production : ∀ id, Option.Rel (· ≈ ·) (g.productionOfId? id) (h.productionOfId? id)
  type : ∀ id, g.typeOfId? id = h.typeOfId? id
  field : ∀ id, Option.Rel (· ≈ ·) (g.fieldOfId? id) (h.fieldOfId? id)

lemma eq_of_equiv_of_types (ht : g.types = h.types) {p q : Production} (hp : p ∈ g.productions)
    (hq : q ∈ h.productions) (he : p ≈ q) : p = q := by
  refine Production.eq_of_equiv he fun t u htp huq hname => ?_
  have htg : g.Declares t := ⟨p, g.productions_perm.mem_iff.1 hp, htp⟩
  have huh : h.Declares u := ⟨q, h.productions_perm.mem_iff.1 hq, huq⟩
  exact htg.eq_of_name (g.mem_types.1 (ht ▸ h.mem_types.2 huh)) hname

lemma SameIds.perm (hsame : g.SameIds h) : g.declared.Perm h.declared := by
  have htypes : g.types = h.types := by
    refine List.ext_getElem? fun id => ?_
    simpa [types, typeOfId?] using hsame.type id
  have hproductions : g.productions = h.productions := by
    refine List.ext_getElem? fun id => ?_
    have hrel : Option.Rel (· ≈ ·) g.productions[id]? h.productions[id]? := by
      simpa [productions, productionOfId?] using hsame.production id
    cases hp : g.productions[id]? with
    | none => cases hq : h.productions[id]? <;> simp_all
    | some p =>
      cases hq : h.productions[id]? with
      | none => simp_all
      | some q =>
        rw [hp, hq, Option.rel_some_some] at hrel
        rw [eq_of_equiv_of_types htypes (List.mem_of_getElem? hp) (List.mem_of_getElem? hq) hrel]
  exact g.productions_perm.symm.trans (hproductions ▸ h.productions_perm)

lemma sameIds_of_vocabulary (hv : g.vocabulary = h.vocabulary) : g.SameIds h := by
  have hrefl {α : Type} [Setoid α] (o : Option α) : Option.Rel (· ≈ ·) o o := by
    cases o <;> simp [Setoid.refl]
  exact {
    production := fun id => by
      rw [productionOfId?, hv]
      exact hrefl _
    type := fun id => by rw [typeOfId?, hv, typeOfId?]
    field := fun id => by
      rw [fieldOfId?, hv]
      exact hrefl _ }

/-- The ids of two grammars denote the same exactly if the grammars declare the same productions, in
whatever order. -/
theorem sameIds_iff_perm : g.SameIds h ↔ g.declared.Perm h.declared :=
  ⟨SameIds.perm, fun hp => sameIds_of_vocabulary (vocabulary_eq_of_perm hp)⟩

end Grammar

namespace Document
open Json
variable {g g' : Grammar} {stored : Json}

lemma ofStrings_inj {a b : List String} : ofStrings a = ofStrings b ↔ a = b := by
  simp [ofStrings, List.map_inj_right]

lemma ofVocabulary_embeddedIn_ofVocabulary {v w : Vocabulary} :
    (ofVocabulary v).EmbeddedIn (ofVocabulary w) ↔
      ∀ catalog, w.entries catalog = v.entries catalog := by
  simp only [ofVocabulary, object_embeddedIn, EmbeddedMembers, ofStrings_embeddedIn]
  constructor
  · intro hembedded catalog
    cases catalog <;> simp_all [member?, ofStrings_inj]
  · intro hentries
    simp [member?, hentries]

/-- What a document still has to say after its productions were replaced. -/
theorem decode_withMember_productions :
    decode ((encode g).withMember "productions" stored) = .ok g' ↔
      (Json.array (g'.declared.map ofProduction)).EmbeddedIn stored ∧
      g.root.name = g'.root.name ∧
      ∀ catalog, g.vocabulary.entries catalog = g'.vocabulary.entries catalog := by
  have hmember (key : String) : ((encode g).withMember "productions" stored).member? key =
      if "productions" = key then some stored else (encode g).member? key := member?_putMember
  have hformat : (encode g).member? "format" = some (.string format) := rfl
  have hroot : (encode g).member? "root" = some (.string g.root.name) := rfl
  have hvocabulary : (encode g).member? "vocabulary" = some (ofVocabulary g.vocabulary) := rfl
  simp [decode_eq_ok, hmember, hformat, hroot, hvocabulary, array_map_embeddedIn,
    Grammar.ofProductions_eq_ok, ofVocabulary_embeddedIn_ofVocabulary]

/-- A document whose productions were replaced is accepted as long as what is written of its ids
stays. It is accepted with ids that denote the same exactly if the new productions are the old ones
in some order, under the same root. -/
theorem reload_productions (g : Grammar) (stored : Json) (g' : Grammar) :
    (decode ((encode g).withMember "productions" stored) = .ok g' ↔
      (Json.array (g'.declared.map ofProduction)).EmbeddedIn stored ∧
      g.root.name = g'.root.name ∧
      ∀ catalog, g.vocabulary.entries catalog = g'.vocabulary.entries catalog) ∧
    (decode ((encode g).withMember "productions" stored) = .ok g' ∧ g.SameIds g' ↔
      (Json.array (g'.declared.map ofProduction)).EmbeddedIn stored ∧
      g.root.name = g'.root.name ∧ g.declared.Perm g'.declared) := by
  refine ⟨decode_withMember_productions, ?_⟩
  rw [decode_withMember_productions, Grammar.sameIds_iff_perm]
  constructor
  · intro haccepted
    obtain ⟨⟨hembedded, hroot, -⟩, hperm⟩ := haccepted
    exact ⟨hembedded, hroot, hperm⟩
  · intro hrearranged
    obtain ⟨hembedded, hroot, hperm⟩ := hrearranged
    have hv := Grammar.vocabulary_eq_of_perm hperm
    exact ⟨⟨hembedded, hroot, fun catalog => by rw [hv]⟩, hperm⟩

/-- A clause of a subject and an object. -/
def transitive : Production :=
  ⟨⟨"Clause", .composite⟩, ⟨"Transitive", [⟨"subj", ⟨"NounPhrase", .composite⟩, .single⟩,
    ⟨"obj", ⟨"NounPhrase", .composite⟩, .single⟩]⟩⟩

/-- The same with the two exchanged. -/
def transitiveInverted : Production :=
  ⟨transitive.head, ⟨transitive.name, transitive.fields.reverse⟩⟩

/-- Nothing in the vocabulary tells in which order a constructor has its fields, so that an exchange
of two fields is accepted: the production with the first id has become another one. -/
theorem reload_transitiveInverted : ∃ g g',
    Grammar.ofProductions [transitive] = .ok g ∧
    decode ((encode g).withMember "productions" (.array [ofProduction transitiveInverted])) =
      .ok g' ∧
    g.productionOfId? 0 = some transitive ∧ g'.productionOfId? 0 = some transitiveInverted ∧
    ¬ transitive ≈ transitiveInverted ∧ ¬ g.SameIds g' := by
  have hother : ¬ transitive ≈ transitiveInverted := by decide
  refine ⟨_, _, rfl, rfl, rfl, rfl, hother, fun hsame => hother ?_⟩
  have hfirst : Option.Rel (· ≈ ·) (some transitive) (some transitiveInverted) :=
    hsame.production 0
  exact Option.rel_some_some.1 hfirst

end Document

end Asdl
