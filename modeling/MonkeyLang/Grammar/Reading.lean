import MonkeyLang.Grammar.Reader

/-! Programs read from text, with what was wrong in it. -/
namespace MonkeyLang

/-- The statements that could be read, and the report on the others. -/
structure Reading where
  program : Program
  report : Report

namespace Reading

def ofTokens (ts : List Token) : Reading :=
  let all := Grammar.statements false ts
  ⟨all.value, all.report⟩

def ofText (source : String) : Reading := ofTokens (Token.scan source)

/-- The errors in the order of their places. -/
def errors (r : Reading) : List SyntaxError := r.report.diagnostics.map (·.error)

end Reading

/-- One line for each error. -/
def SyntaxError.lines (errors : List SyntaxError) : String :=
  String.join (errors.map fun e => "\t" ++ e.message ++ "\n")

/-- The message for a text that cannot be read. -/
def SyntaxError.summary (errors : List SyntaxError) : String :=
  "Found " ++ errors.length.repr ++ " errors during parsing\n" ++ lines errors

/-- The program of a text, unless the text has errors. -/
def Program.ofText? (source : String) : Except (List SyntaxError) Program :=
  let reading := Reading.ofText source
  if reading.errors.isEmpty then .ok reading.program else .error reading.errors

end MonkeyLang
