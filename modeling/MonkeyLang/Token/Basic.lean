/-! The tokens of the language, how each is written, and the names that messages give to kinds. -/
namespace MonkeyLang

/-- Operators and punctuation. -/
inductive Symbol
  | leftParen | rightParen | leftBrace | rightBrace | comma | semicolon
  | minus | plus | slash | star | greater | less
  | bang | bangEqual | equal | equalEqual
  deriving DecidableEq

/-- The characters of a symbol. -/
def Symbol.text : Symbol → String
  | leftParen => "("
  | rightParen => ")"
  | leftBrace => "\x7b"
  | rightBrace => "\x7d"
  | comma => ","
  | semicolon => ";"
  | minus => "-"
  | plus => "+"
  | slash => "/"
  | star => "*"
  | greater => ">"
  | less => "<"
  | bang => "!"
  | bangEqual => "!="
  | equal => "="
  | equalEqual => "=="

/-- Words that are never names. -/
inductive Keyword
  | fnKw | letKw | trueKw | falseKw | ifKw | elseKw | returnKw
  deriving DecidableEq

/-- The spelling of a keyword in a program. -/
def Keyword.text : Keyword → String
  | fnKw => "fn"
  | letKw => "let"
  | trueKw => "true"
  | falseKw => "false"
  | ifKw => "if"
  | elseKw => "else"
  | returnKw => "return"

/-- The name of a keyword in a message. -/
def Keyword.label : Keyword → String
  | fnKw => "FUNCTION"
  | letKw => "LET"
  | trueKw => "TRUE"
  | falseKw => "FALSE"
  | ifKw => "IF"
  | elseKw => "ELSE"
  | returnKw => "RETURN"

def Keyword.all : List Keyword := [fnKw, letKw, trueKw, falseKw, ifKw, elseKw, returnKw]

/-- The keyword with a given spelling. -/
def Keyword.ofText? (word : String) : Option Keyword := all.find? (·.text == word)

@[simp] theorem Keyword.ofText?_text (k : Keyword) : ofText? k.text = some k := by
  cases k <;> rfl

theorem Keyword.text_of_ofText? {word : String} {k : Keyword} (h : ofText? word = some k) :
    k.text = word := by
  simpa using List.find?_some h

/-- A lexical unit. Numerals keep their digits as written, leading zeros included, and a
character that starts no token is a token of its own. -/
inductive Token
  | symbol (s : Symbol)
  | keyword (k : Keyword)
  | name (x : String)
  | int (digits : String)
  | illegal (c : Char)
  deriving DecidableEq

/-- What a message can say of the place where a token was looked for. -/
inductive Kind
  | symbol (s : Symbol)
  | keyword (k : Keyword)
  | name
  | int
  | illegal
  | endOfInput
  deriving DecidableEq

/-- The text of a token in the source. -/
def Token.lexeme : Token → String
  | symbol s => s.text
  | keyword k => k.text
  | name x => x
  | int digits => digits
  | illegal c => c.toString

def Token.kind : Token → Kind
  | symbol s => .symbol s
  | keyword k => .keyword k
  | name _ => .name
  | int _ => .int
  | illegal _ => .illegal

/-- The name of a kind in a message: a symbol stands for itself. -/
def Kind.label : Kind → String
  | symbol s => s.text
  | keyword k => k.label
  | name => "IDENT"
  | int => "INT"
  | illegal => "ILLEGAL"
  | endOfInput => "EOF"

end MonkeyLang
