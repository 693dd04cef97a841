import Asdl.Document.Encode
import Asdl.Proofs.Json.Plain

/-! The document of every grammar is a plain value: strings, arrays and objects with increasing
keys, in no more than six brackets. -/
namespace Asdl.Document
open Json

lemma plain_ofType (n : ℕ) (t : Ty) : Plain (n + 1) (ofType t) := by
  have hkeys : Sorted.Increasing compare ["kind", "name"] := by decide
  refine .object hkeys ?_
  simp [Plain.string]

lemma plain_ofField (n : ℕ) (f : Field) : Plain (n + 2) (ofField f) := by
  have hkeys : Sorted.Increasing compare ["cardinality", "name", "type"] := by decide
  refine .object hkeys ?_
  simp [Plain.string, plain_ofType]

lemma plain_ofProduction (n : ℕ) (p : Production) : Plain (n + 4) (ofProduction p) := by
  have hkeys : Sorted.Increasing compare ["constructor", "fields", "type"] := by decide
  have hfields : Plain (n + 3) (.array (p.fields.map ofField)) := by
    apply Plain.array
    intro v hv
    obtain ⟨f, -, rfl⟩ := List.mem_map.1 hv
    exact plain_ofField n f
  refine .object hkeys ?_
  simp [Plain.string, hfields, plain_ofType]

lemma plain_ofVocabulary (n : ℕ) (v : Vocabulary) : Plain (n + 2) (ofVocabulary v) := by
  have hkeys : Sorted.Increasing compare ["fields", "productions", "types"] := by decide
  refine .object hkeys ?_
  simp [plain_ofStrings]

theorem plain_encode (g : Grammar) : Plain 6 (encode g) := by
  have hkeys : Sorted.Increasing compare ["format", "productions", "root", "vocabulary"] := by
    decide
  have hproductions : Plain 5 (.array (g.declared.map ofProduction)) := by
    apply Plain.array
    intro v hv
    obtain ⟨p, -, rfl⟩ := List.mem_map.1 hv
    exact plain_ofProduction 0 p
  refine .object hkeys ?_
  simp [Plain.string, hproductions, plain_ofVocabulary]

end Asdl.Document
