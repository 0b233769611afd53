import SmallLisp.Datum
import SmallLisp.Double.Shortest

/-! # Data on one line

A list of exactly two elements whose head is `quote` or `sigval` is written with its sigil. -/

namespace SmallLisp

/-- The text of an atom. Strings stand between quotes, with nothing escaped. -/
def Atom.text : Atom → String
  | .nil => "nil"
  | .bool true => "true"
  | .bool false => "false"
  | .number x => Double.toText x
  | .string text => "\"" ++ text ++ "\""
  | .symbol name => name
  | .native => "<CFunction>"
  | .dictionary => "<Dictionary>"
  | .eof => "<Eof>"

namespace Datum

mutual
/-- The datum on one line. -/
def display : Datum → String
  | .atom a => a.text
  | .cons head rest =>
      match head.sigil?, rest with
      | some s, .cons d .nil => s.text ++ display d
      | _, rest => "(" ++ display head ++ displayTail rest ++ ")"

/-- What follows the first element of a list, up to its closing parenthesis. -/
def displayTail : Datum → String
  | .nil => ""
  | .atom a => " . " ++ a.text
  | .cons d rest => " " ++ display d ++ displayTail rest
end

end Datum

end SmallLisp
