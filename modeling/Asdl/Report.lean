import Asdl.Document.Encode
import Asdl.Grammar.Listing

/-!
A report on a grammar: its sizes, the id tables as a decoder sees them, the listing, and the length
of the stored form.
-/
namespace Asdl.Report

def idColumn : Text.Padding := { width := 3, align := .right }

def nameColumn : Text.Padding := { width := 12 }

/-- One line for each entry of a table: a title, the id, a name and what the entry says. -/
def table (title : String) (rows : List (String × String)) : List String :=
  rows.zipIdx.map fun ((name, text), id) =>
    title ++ idColumn.apply (toString id) ++ "  " ++ nameColumn.apply name ++ " " ++ text

def summary (g : Grammar) : List String :=
  [s!"ASDL grammar rooted at {g.root}", s!"  Productions:  {g.size}",
    s!"  Types:        {g.types.length}", s!"  Fields:       {g.fields.length}"]

def lines (g : Grammar) : List String :=
  summary g ++ [""] ++
    table "  prod  " (g.productions.map fun p => (p.head.name, toString p.constructor)) ++
    table "  type  " (g.types.map fun t => (t.name, "[" ++ t.kind.label ++ "]")) ++
    table "  field " (g.fields.map fun f => (f.name, toString f)) ++
    [""] ++ g.listingLines ++ ["", s!"JSON output ({(Document.write g).utf8ByteSize} bytes)"]

/-- The report: every line ends with a line feed. -/
def render (g : Grammar) : String := String.join ((lines g).map (· ++ "\n"))

end Asdl.Report
