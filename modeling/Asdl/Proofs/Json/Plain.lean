import Asdl.Json.Basic
import Asdl.Proofs.Sorted

/-! Plain values: those made of strings, arrays and objects alone, whose objects have increasing
keys. A bound on the number of nested brackets goes with them. -/
namespace Asdl.Json

/-- The keys of an object. -/
def keys (members : List (String × Json)) : List String := members.map Prod.fst

/-- A value of strings, arrays and objects with at most `n` brackets around any part of it, where
the keys of every object increase. -/
inductive Plain : ℕ → Json → Prop
  | string {n : ℕ} (text : String) : Plain n (.string text)
  | array {n : ℕ} {items : List Json} (inner : ∀ v ∈ items, Plain n v) :
      Plain (n + 1) (.array items)
  | object {n : ℕ} {members : List (String × Json)}
      (increasing : Sorted.Increasing compare (keys members))
      (inner : ∀ m ∈ members, Plain n m.2) : Plain (n + 1) (.object members)

lemma plain_ofStrings (n : ℕ) (texts : List String) : Plain (n + 1) (ofStrings texts) := by
  apply Plain.array
  intro v hv
  obtain ⟨text, -, rfl⟩ := List.mem_map.1 hv
  exact .string text

/-- Every member of an object with increasing keys is what a search for its key finds. -/
lemma member?_of_mem {members : List (String × Json)}
    (h : Sorted.Increasing compare (keys members)) {key : String} {value : Json}
    (hm : (key, value) ∈ members) : member? key (.object members) = some value := by
  induction members with
  | nil => cases hm
  | cons m rest ih =>
    obtain ⟨hfirst, hrest⟩ := List.pairwise_cons.1 h
    rcases List.mem_cons.1 hm with rfl | hm
    · simp [member?]
    · have hne : m.1 ≠ key := fun he => by
        simpa [he] using hfirst key (List.mem_map_of_mem hm)
      simpa [member?, hne] using ih hrest hm

end Asdl.Json
