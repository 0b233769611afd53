import SmallLisp.Kind
import SmallLisp.Token

/-! # Data

A datum is what a text stands for and what is printed: a binary tree whose leaves are atoms. Lists
are chains of pairs that end in `nil`, or in another atom after a dot. -/

namespace SmallLisp

/-- An indivisible datum. -/
inductive Atom where
  | nil
  | bool (b : Bool)
  | number (x : Float)
  | string (text : String)
  | symbol (name : String)
  /-- A function of the machine. It has no written form. -/
  | native
  /-- A dictionary. It has no written form. -/
  | dictionary
  /-- What stands for an unfinished text. -/
  | eof
  deriving DecidableEq

def Atom.kind : Atom → Kind
  | .nil => .nil
  | .bool _ => .boolean
  | .number _ => .number
  | .string _ => .string
  | .symbol _ => .symbol
  | .native => .native
  | .dictionary => .dictionary
  | .eof => .eof

/-- A tree of pairs. -/
inductive Datum where
  | atom (a : Atom)
  | cons (car cdr : Datum)
  deriving DecidableEq

namespace Datum

@[match_pattern] abbrev nil : Datum := .atom .nil

/-- What stands for an unfinished text. -/
@[match_pattern] abbrev eof : Datum := .atom .eof

@[match_pattern] abbrev symbol (name : String) : Datum := .atom (.symbol name)

def kind : Datum → Kind
  | .atom a => a.kind
  | .cons _ _ => .cons

def listWithTail (items : List Datum) (tail : Datum) : Datum :=
  items.foldr cons tail

def list (items : List Datum) : Datum :=
  listWithTail items nil

/-- The datum that a word which is not a number stands for. -/
def ofName (name : String) : Datum :=
  if name = "nil" then .nil
  else if name = "true" then .atom (.bool true)
  else if name = "false" then .atom (.bool false)
  else .symbol name

/-- The datum marked by a sigil. -/
def marked (s : Sigil) (d : Datum) : Datum :=
  list [.symbol s.head, d]

/-- The sigil whose list this symbol heads. -/
def sigil? : Datum → Option Sigil
  | .symbol name => Sigil.named? name
  | _ => none

/-- The datum is the symbol that heads function literals. -/
def isLambda : Datum → Bool
  | .symbol name => name == "lambda"
  | _ => false

end Datum

end SmallLisp
