import MonkeyLang.Token.Scan

/-! Cutting a text into tokens by its bytes. A cursor stands on one byte of the text and sees the one
behind it. What it cuts out of the text must start and end between two characters. -/
namespace MonkeyLang

/-- A place in the bytes of a text, with the byte that stands there and the place of the next one.
At the end of the text there is no byte, and the place of the next one is the end as well. -/
structure Cursor where
  source : String
  position : Nat
  readPosition : Nat
  current : Option UInt8

namespace Cursor

/-- The byte at a place in a text. -/
def byte? (source : String) (i : Nat) : Option UInt8 := source.toByteArray.data[i]?

theorem byte?_eq_none {source : String} {i : Nat} (h : source.utf8ByteSize ≤ i) :
    byte? source i = none :=
  Array.getElem?_eq_none h

/-- The text from one place to another, unless one of them is outside of the text or inside a
character. -/
def slice? (source : String) (start stop : Nat) : Option String :=
  if start ≤ stop ∧ String.Pos.Raw.IsValid source ⟨start⟩ ∧ String.Pos.Raw.IsValid source ⟨stop⟩ then
    String.fromUTF8? (source.toByteArray.extract start stop)
  else none

/-- Goes on to the next byte. -/
def advance (c : Cursor) : Cursor :=
  { c with
    position := min c.readPosition c.source.utf8ByteSize
    readPosition :=
      if c.readPosition < c.source.utf8ByteSize then c.readPosition + 1 else c.readPosition
    current := byte? c.source c.readPosition }

def advanceBy : Nat → Cursor → Cursor
  | 0, c => c
  | n + 1, c => advanceBy n c.advance

/-- A cursor on the first byte. -/
def start (source : String) : Cursor := advance ⟨source, 0, 0, none⟩

/-- The byte behind the current one. -/
def peek? (c : Cursor) : Option UInt8 := byte? c.source c.readPosition

/-- A bound for the number of times that a cursor can go on. -/
def ahead (c : Cursor) : Nat :=
  2 * (c.source.utf8ByteSize - c.readPosition) + c.current.toList.length

theorem ahead_advance_lt {c : Cursor} (h : c.current.isSome) : c.advance.ahead < c.ahead := by
  obtain ⟨b, hb⟩ := Option.isSome_iff_exists.mp h
  by_cases hr : c.readPosition < c.source.utf8ByteSize
  · have hle := Option.length_toList_le (o := byte? c.source c.readPosition)
    simp [ahead, advance, hb, hr]
    omega
  · simp [ahead, advance, hb, hr, byte?_eq_none (Nat.le_of_not_lt hr)]

/-- Goes on as long as the current byte is one of these characters. -/
def skipWhile (p : Char → Bool) (c : Cursor) : Cursor :=
  match _h : c.current with
  | none => c
  | some b => if p (.ofUInt8 b) then skipWhile p c.advance else c
termination_by c.ahead
decreasing_by exact ahead_advance_lt (_h ▸ rfl)

/-- What lies between the cursor and a later one, as a token of some kind. -/
def cut? (c later : Cursor) (kind : String → Kind) : Option ((Kind × String) × Cursor) :=
  (slice? c.source c.position later.position).map fun lexeme => ((kind lexeme, lexeme), later)

/-- Takes a symbol of a single byte, or the longer one with an equals sign behind it. -/
def symbol? (c : Cursor) (one two : Symbol) : Option ((Kind × String) × Cursor) :=
  if c.peek?.map Char.ofUInt8 = some '=' then c.cut? c.advance.advance fun _ => .symbol two
  else c.cut? c.advance fun _ => .symbol one

/-- Takes the symbol that starts as the given one. -/
def symbolOf? (c : Cursor) : Symbol → Option ((Kind × String) × Cursor)
  | .bang => c.symbol? .bang .bangEqual
  | .equal => c.symbol? .equal .equalEqual
  | s => c.cut? c.advance fun _ => .symbol s

/-- Takes one whole character that starts no token. -/
def illegal? (c : Cursor) : Option ((Kind × String) × Cursor) :=
  (slice? c.source c.position c.source.utf8ByteSize).bind fun rest =>
  let width := (rest.toList.head?.map Char.utf8Size).getD 1
  (slice? c.source c.position (c.position + width)).map fun lexeme =>
    ((.illegal, lexeme), c.advanceBy width)

/-- Takes the token that starts with the current byte, with its kind and its lexeme. -/
def lexeme? (c : Cursor) : Option ((Kind × String) × Cursor) :=
  match c.current with
  | none => some ((.endOfInput, ""), c)
  | some b =>
    match Symbol.ofChar? (.ofUInt8 b) with
    | some s => c.symbolOf? s
    | none =>
      if isLetter (.ofUInt8 b) then
        c.cut? (c.skipWhile isLetter) fun word => ((Keyword.ofText? word).map Kind.keyword).getD .name
      else if (Char.ofUInt8 b).isDigit then c.cut? (c.skipWhile Char.isDigit) fun _ => .int
      else c.illegal?

/-- Takes the next token. At the end of the text that is the end itself, however often it is
taken. -/
def token? (c : Cursor) : Option ((Kind × String) × Cursor) := (c.skipWhile isBlank).lexeme?

/-- What is listed when tokens are taken up to the end of the text, which is listed as well. -/
inductive Lists : Cursor → List (Kind × String) → Prop
  | last {c later e} : token? c = some (e, later) → e.1 = .endOfInput → Lists c [e]
  | more {c later e es} : token? c = some (e, later) → e.1 ≠ .endOfInput → Lists later es →
      Lists c (e :: es)

/-- The two ways to ask for a token: by the second one the end of the text is no token. -/
inductive Request
  | token | next

def Request.answer (r : Request) (e : Kind × String) : Option (Kind × String) :=
  match r with
  | token => some e
  | next => if e.1 = .endOfInput then none else some e

def request? (r : Request) (c : Cursor) : Option (Option (Kind × String) × Cursor) :=
  c.token?.map fun (e, c) => (r.answer e, c)

/-- The cursor behind some requests. -/
def requests? : List Request → Cursor → Option Cursor
  | [], c => some c
  | r :: rs, c => (request? r c).bind fun (_, c) => requests? rs c

end Cursor
end MonkeyLang
