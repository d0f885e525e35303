import MonkeyLang.Dialogue.Transcript

/-! The commands of the program, as functions of what they read. -/
namespace MonkeyLang

/-- What to do with a source file. -/
inductive Command
  | run | tokens | ast
  deriving DecidableEq

/-- How a command ends: its exit status and what it wrote. -/
structure Exit where
  status : Nat
  stdout : String
  stderr : String
  deriving DecidableEq

namespace Exit

def success (stdout : String) : Exit := ⟨0, stdout, ""⟩

/-- Ends with an error, after some output. -/
def failure (stdout message : String) : Exit := ⟨1, stdout, "Error: " ++ message ++ "\n"⟩

def unreadable (stdout : String) (e : ReadError) : Exit :=
  failure stdout ("could not read source file: " ++ e.message)

end Exit

/-- A line of the token listing. Kinds are padded to a common width. -/
def Kind.listing (k : Kind) (lexeme : String) : String :=
  k.label ++ String.ofList (List.replicate (10 - k.label.length) ' ') ++ " " ++ lexeme ++ "\n"

/-- The listing of the tokens of a text. Its last line stands for the end of the input. -/
def Token.listing (source : String) : String :=
  String.join ((scan source).map fun t => t.kind.listing t.lexeme) ++ Kind.endOfInput.listing ""

/-- The statements of a program, one on each line. -/
def Program.listing (p : Program) : String :=
  String.join (p.map fun s => s.render ++ "\n")

namespace Command

/-- Runs a program in a session of its own and prints its value, unless that is null. -/
def runProgram? (depth : Nat) (p : Program) : Option Exit :=
  (Session.start.run? depth p).map fun (v, _) =>
    match v with
    | .error e => .failure "" e.message
    | .null => .success ""
    | v => .success (v.inspect ++ "\n")

/-- The effect of a command on the text of its file. -/
def onText? (depth : Nat) (c : Command) (source : String) : Option Exit :=
  match c with
  | tokens => some (.success (Token.listing source))
  | run =>
    match Program.ofText? source with
    | .error errors => some (.failure "" (SyntaxError.summary errors))
    | .ok p => runProgram? depth p
  | ast =>
    match Program.ofText? source with
    | .error errors => some (.failure "" (SyntaxError.summary errors))
    | .ok p => some (.success p.listing)

/-- The effect of a command on its file, which holds some bytes or could not be read. -/
def onFile? (depth : Nat) (c : Command) (file : Except ReadError ByteArray) : Option Exit :=
  match file with
  | .error e => some (.unreadable "" e)
  | .ok bytes =>
    match String.fromUTF8? bytes with
    | none => some (.unreadable "" .invalidText)
    | some source => c.onText? depth source

end Command

namespace Dialogue

def greeting : String :=
  "Welcome to the Monkey REPL!\nEOF to exit. (Ctrl+D on *nix, Ctrl+Z on Windows)\n"

/-- The whole interactive command on a given input. -/
def exit? (depth : Nat) (input : List UInt8) : Option Exit :=
  (transcript? depth .start (Line.split input)).map fun t =>
    match t.failure with
    | none => .success (greeting ++ t.output)
    | some e => .unreadable (greeting ++ t.output) e

end Dialogue
end MonkeyLang
