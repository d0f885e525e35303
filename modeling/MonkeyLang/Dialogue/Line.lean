/-! Input lines as bytes, and the text they encode. -/
namespace MonkeyLang

/-- A line of input, without its end. -/
abbrev Line := List UInt8

namespace Line

def newline : UInt8 := 10

def carriageReturn : UInt8 := 13

/-- Drops a carriage return from the front. -/
def dropReturn : Line → Line
  | [] => []
  | b :: bs => if b = carriageReturn then bs else b :: bs

/-- Lines of the remaining input, where `read` is the current line backwards. -/
def splitFrom (read : Line) : List UInt8 → List Line
  | [] => if read.isEmpty then [] else [read.reverse]
  | b :: bs =>
    if b = newline then (dropReturn read).reverse :: splitFrom [] bs else splitFrom (b :: read) bs

/-- The lines of an input. A newline ends a line, together with one carriage return before it,
and a last line may lack its end. -/
def split (input : List UInt8) : List Line := splitFrom [] input

/-- The text of a line in UTF-8. -/
def decode? (line : Line) : Option String := String.fromUTF8? ⟨line.toArray⟩

end Line
end MonkeyLang
