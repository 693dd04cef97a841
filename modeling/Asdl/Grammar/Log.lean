import Asdl.Grammar.Basic

/-!
What is noted while a grammar is built. A failure notes nothing.
-/
namespace Asdl

inductive LogLevel where
  | trace
  | debug
  deriving DecidableEq, Repr

structure LogRecord where
  level : LogLevel
  text : String
  deriving DecidableEq, Repr

namespace Grammar

/-- One detailed note on each group, then one on the whole grammar. -/
def buildLog (g : Grammar) : List LogRecord :=
  g.groups.map (fun group =>
    ⟨.trace, s!"head type {group.head}: {group.productions.length} production(s)"⟩) ++
  [⟨.debug, s!"built grammar rooted at {g.root}: {g.size} productions, " ++
    s!"{g.types.length} types ({g.primitiveTypes.length} primitive), {g.fields.length} fields"⟩]

/-- Builds a grammar and gives the notes that were made. -/
def ofProductionsLogged (declared : List Production) : List LogRecord × Result Grammar :=
  match ofProductions declared with
  | .ok g => (g.buildLog, .ok g)
  | .error e => ([], .error e)

end Grammar

end Asdl
