import Asdl.English
import Asdl.Report

/-!
The command: prints the report on the English grammar.
-/

def main : IO UInt32 := do
  match Asdl.English.grammar with
  | .ok g =>
    IO.print (Asdl.Report.render g)
    return 0
  | .error e =>
    IO.eprintln ("invalid grammar: " ++ e.message reprStr)
    return 1
