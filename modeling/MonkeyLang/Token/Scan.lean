import MonkeyLang.Token.Basic

/-! Cutting a text into tokens: blanks are skipped, and each token is the longest that the
remaining text starts with. -/
namespace MonkeyLang

/-- The characters of names: ASCII letters and the underscore. -/
def isLetter (c : Char) : Bool := c.isAlpha || c == '_'

/-- The characters between tokens. -/
def isBlank (c : Char) : Bool := c == ' ' || c == '\t' || c == '\n' || c == '\r'

/-- The symbol written as a single character. -/
def Symbol.ofChar? : Char → Option Symbol
  | '(' => some leftParen
  | ')' => some rightParen
  | '\x7b' => some leftBrace
  | '\x7d' => some rightBrace
  | ',' => some comma
  | ';' => some semicolon
  | '-' => some minus
  | '+' => some plus
  | '/' => some slash
  | '*' => some star
  | '>' => some greater
  | '<' => some less
  | '!' => some bang
  | '=' => some equal
  | _ => none

/-- The longest symbol at the front of `c :: cs`, and the text after it. -/
def Symbol.split? : Char → List Char → Option (Symbol × List Char)
  | '!', '=' :: cs => some (bangEqual, cs)
  | '=', '=' :: cs => some (equalEqual, cs)
  | c, cs => (ofChar? c).map (·, cs)

namespace Token

/-- A run of letters is a keyword only as a whole. -/
def ofWord (word : List Char) : Token :=
  match Keyword.ofText? (String.ofList word) with
  | some k => keyword k
  | none => name (String.ofList word)

/-- The token at the front of `c :: cs`, where `c` is not blank, and the text after it. -/
def split (c : Char) (cs : List Char) : Token × List Char :=
  if isLetter c then (ofWord (c :: cs.takeWhile isLetter), cs.dropWhile isLetter)
  else if c.isDigit then
    (int (String.ofList (c :: cs.takeWhile Char.isDigit)), cs.dropWhile Char.isDigit)
  else match Symbol.split? c cs with
    | some (s, rest) => (symbol s, rest)
    | none => (illegal c, cs)

/-- The next token of a text and the text after it, unless only blanks are left. -/
def next? (cs : List Char) : Option (Token × List Char) :=
  match cs.dropWhile isBlank with
  | [] => none
  | c :: cs => some (split c cs)

/-- Takes the next token off a text. At the end of the text nothing is left to take, however
often it is tried. -/
def pull (cs : List Char) : Option Token × List Char :=
  match next? cs with
  | none => (none, [])
  | some (t, rest) => (some t, rest)

theorem length_split_le (c : Char) (cs : List Char) : (split c cs).2.length ≤ cs.length := by
  unfold split
  split
  · exact (List.dropWhile_suffix isLetter).length_le
  split
  · exact (List.dropWhile_suffix Char.isDigit).length_le
  unfold Symbol.split?
  split <;> rename_i h
  · split at h <;> simp at h <;> grind
  · simp

theorem length_of_next? {cs rest : List Char} {t : Token} (h : next? cs = some (t, rest)) :
    rest.length < cs.length := by
  unfold next? at h
  split at h
  · simp at h
  · rename_i c ds hd
    have hs := (List.dropWhile_suffix (l := cs) isBlank).length_le
    have hr := length_split_le c ds
    simp only [Option.some.injEq] at h
    simp only [h] at hr
    simp only [hd, List.length_cons] at hs
    omega

/-- All tokens of a sequence of characters. -/
def scanChars (cs : List Char) : List Token :=
  match _h : next? cs with
  | none => []
  | some (t, rest) => t :: scanChars rest
termination_by cs.length
decreasing_by exact length_of_next? _h

/-- All tokens of a text. -/
def scan (source : String) : List Token := scanChars source.toList

theorem scanChars_of_none {cs : List Char} (h : next? cs = none) : scanChars cs = [] := by
  rw [scanChars]; split <;> simp_all

theorem scanChars_of_some {cs rest : List Char} {t : Token} (h : next? cs = some (t, rest)) :
    scanChars cs = t :: scanChars rest := by
  rw [scanChars]; split <;> simp_all

end Token
end MonkeyLang
