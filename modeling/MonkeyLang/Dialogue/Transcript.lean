import MonkeyLang.Dialogue.Line
import MonkeyLang.Grammar.Reading
import MonkeyLang.Session

/-! The dialogue of a session with its user: each line is answered before the next is read. -/
namespace MonkeyLang

/-- Why an input could not be read. -/
inductive ReadError
  | notFound
  | invalidText
  deriving DecidableEq

def ReadError.message : ReadError → String
  | notFound => "No such file or directory (os error 2)"
  | invalidText => "stream did not contain valid UTF-8"

namespace Dialogue

def prompt : String := ">> "

/-- The answer to a line. A line with errors is reported and not run, and one without statements
is passed over. -/
def answer? (depth : Nat) (s : Session) (line : String) : Option (String × Session) :=
  let reading := Reading.ofText line
  if reading.errors.isEmpty then
    (s.run? depth reading.program).map fun (v, t) =>
      (if reading.program.isEmpty then "" else v.inspect ++ "\n", t)
  else some ("parser errors:\n" ++ SyntaxError.lines reading.errors, s)

/-- What a dialogue wrote, and what ended it before its input did. -/
structure Transcript where
  output : String
  failure : Option ReadError

/-- The dialogue over some lines: a prompt before each line and before the end of the input. -/
def transcript? (depth : Nat) (s : Session) : List Line → Option Transcript
  | [] => some ⟨prompt, none⟩
  | line :: lines =>
    match line.decode? with
    | none => some ⟨prompt, some .invalidText⟩
    | some text =>
      (answer? depth s text).bind fun (out, t) =>
      (transcript? depth t lines).map fun later =>
      { later with output := prompt ++ out ++ later.output }

end Dialogue
end MonkeyLang
