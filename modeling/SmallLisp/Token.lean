/-! # Tokens

A text is a sequence of tokens with blanks between them. A scan keeps for each token the characters
it was read from and the place of the first one, and says how the text ended. -/

namespace SmallLisp

/-- A place in a text. Lines and columns count from one, columns in characters. -/
structure Position where
  line : Nat
  column : Nat
  deriving DecidableEq, Repr

namespace Position

def start : Position := ⟨1, 1⟩

/-- The place after one character. Only a line feed starts a new line. -/
def advance (p : Position) (c : Char) : Position :=
  if c = '\n' then ⟨p.line + 1, 1⟩ else ⟨p.line, p.column + 1⟩

def after (p : Position) (text : List Char) : Position :=
  text.foldl advance p

def toText (p : Position) : String :=
  toString p.line ++ ":" ++ toString p.column

end Position

/-- A mark that stands for a list of a symbol and the datum after the mark. -/
inductive Sigil where
  /-- `'x` stands for `(quote x)`. -/
  | quote
  /-- `$x` stands for `(sigval x)`. -/
  | sigval
  deriving DecidableEq, Repr

namespace Sigil

def mark : Sigil → Char
  | .quote => '\''
  | .sigval => '$'

def text (s : Sigil) : String := s.mark.toString

/-- The symbol that heads the list. -/
def head : Sigil → String
  | .quote => "quote"
  | .sigval => "sigval"

/-- The sigil whose list is headed by this symbol. -/
def named? (name : String) : Option Sigil :=
  if name = "quote" then some .quote
  else if name = "sigval" then some .sigval
  else none

end Sigil

/-- The smallest unit with a meaning. -/
inductive Token where
  | sigil (s : Sigil)
  | leftParen
  | rightParen
  /-- A point that stands alone. -/
  | dot
  | number (x : Float)
  | symbol (name : String)
  /-- A text between double quotes, which it cannot contain. -/
  | string (text : String)
  deriving DecidableEq

/-- A token as it stands in a text. -/
structure Lexeme where
  token : Token
  source : List Char
  position : Position
  deriving DecidableEq

/-- How a text ends. -/
inductive Ending where
  /-- After its last token. -/
  | complete
  /-- Inside a string whose closing quote never comes. -/
  | openString
  deriving DecidableEq, Repr

/-- A text split into tokens. -/
structure Scan where
  lexemes : List Lexeme
  ending : Ending
  /-- The end of the text, or the opening quote of a string left open. -/
  stop : Position
  deriving DecidableEq

def Scan.tokens (s : Scan) : List Token :=
  s.lexemes.map Lexeme.token

end SmallLisp
