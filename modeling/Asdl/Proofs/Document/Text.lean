import Asdl.Proofs.Document.Decoding
import Asdl.Proofs.Json.Printing

/-! The text of a grammar. Its brackets nest less deeply than the reader allows, so that it is read
as the document that was printed; and what is left of it after a cut is no document any more. -/
namespace Asdl.Document

/-- Writing loses nothing, whatever the names are made of: the same grammar is read back, with its
declared list, root, groups, catalogs and ids, and it is written as the same text again. -/
theorem read_write (g : Grammar) : read (write g) = .ok g := by
  have hread : Json.read (write g) = .ok (encode g) :=
    Json.read_pretty (plain_encode g) (by decide)
  rw [read, hread]
  exact decode_encode g

/-- A text that was cut short is noticed wherever the cut is, and for what it is: the error says that
the text ends too early, not that it is no JSON or no document of a grammar. -/
theorem read_truncated {g : Grammar} {s t : String} (hcut : s ++ t = write g) (ht : t ≠ "") :
    read s = .error (.json .unexpectedEnd) := by
  have hread : Json.read s = .error .unexpectedEnd :=
    Json.read_of_append_eq_pretty (plain_encode g) (by decide) hcut ht
  rw [read, hread]

/-- The text of a constructor whose name is a control character, cut within the escape. -/
theorem read_truncated_escape :
    let stop : Production := ⟨⟨"Stop", .composite⟩, ⟨"\x01", []⟩⟩
    let s := "\x7b\n  \"format\": \"asdl-grammar/1\",\n  \"productions\": [\n    \x7b\n" ++
      "      \"constructor\": \"\\u00"
    ∃ g t, Grammar.ofProductions [stop] = .ok g ∧ s ++ t = write g ∧ t ≠ "" ∧
      read s = .error (.json .unexpectedEnd) := by
  intro stop s
  obtain ⟨g, hg⟩ : ∃ g, Grammar.ofProductions [stop] = .ok g := ⟨_, rfl⟩
  have hdeclared : g.declared = [stop] := (Grammar.ofProductions_eq_ok.1 hg).symm
  obtain ⟨rest, hrest, hne⟩ : ∃ rest, (write g).toList = s.toList ++ rest ∧ rest ≠ [] := by
    simp [s, stop, write, Json.pretty, encode, format, hdeclared, ofProduction, Production.name,
      Json.toList_render_object, Json.toList_renderMembers_cons, Json.toList_render_array,
      Json.toList_render_string, Json.memberText, Json.lineBreak, Json.escape, Nat.digitChar]
  have hcut : s ++ String.ofList rest = write g := by
    rw [← String.toList_inj, String.toList_append, String.toList_ofList, hrest]
  have hleft : String.ofList rest ≠ "" := by
    rwa [Ne, String.ofList_eq_empty_iff]
  exact ⟨g, _, hg, hcut, hleft, read_truncated hcut hleft⟩

end Asdl.Document
