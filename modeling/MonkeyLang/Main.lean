import MonkeyLang.Command

/-! The command line. -/
namespace MonkeyLang

/-- Calls may nest this deep. -/
def callDepth : Nat := 1000000

def outOfDepth : Exit := .failure "" "calls nest too deep"

/-- Reads a file; only a missing one has a message of its own. -/
def readFile (path : String) : IO (Except ReadError ByteArray) := do
  try
    return .ok (← IO.FS.readBinFile path)
  catch
    | .noFileOrDirectory .. => return .error .notFound
    | e => throw e

def report (exit : Exit) : IO UInt32 := do
  IO.print exit.stdout
  IO.eprint exit.stderr
  return exit.status.toUInt32

/-- The bytes up to the next newline, with it; nothing at the end of the input. -/
partial def readLine (input : IO.FS.Stream) (line : List UInt8) : IO (List UInt8) := do
  let chunk ← input.read 1
  match chunk.toList with
  | [] => return line.reverse
  | b :: _ => if b = Line.newline then return (b :: line).reverse else readLine input (b :: line)

/-- Answers lines until the input ends. -/
partial def converse (input output : IO.FS.Stream) (s : Session) : IO UInt32 := do
  output.putStr Dialogue.prompt
  output.flush
  match Line.split (← readLine input []) with
  | [] => return 0
  | line :: _ =>
    match line.decode? with
    | none => report (.unreadable "" .invalidText)
    | some text =>
      match Dialogue.answer? callDepth s text with
      | none => report outOfDepth
      | some (out, t) =>
        output.putStr out
        converse input output t

def interact : IO UInt32 := do
  let output ← IO.getStdout
  output.putStr Dialogue.greeting
  converse (← IO.getStdin) output .start

def perform (c : Command) (path : String) : IO UInt32 := do
  report ((c.onFile? callDepth (← readFile path)).getD outOfDepth)

end MonkeyLang

open MonkeyLang in
def main (args : List String) : IO UInt32 :=
  match args with
  | [] | ["repl"] => interact
  | ["run", path] => perform .run path
  | ["tokens", path] => perform .tokens path
  | ["ast", path] => perform .ast path
  | _ => do
    IO.eprintln "usage: repl | run FILE | tokens FILE | ast FILE"
    return 2
