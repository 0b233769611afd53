import SmallLisp.Datum
import SmallLisp.Double.Shortest

/-! # Outlines

An outline shows each pair of a value and the kind and content of each leaf, also where the printed
text would leave it open, as it does between a symbol and a string or between `'a` and `(quote a)`.
Pairs may be left out where a value is too large to show. -/

namespace SmallLisp

/-- The pairs and leaves of a value as far as they are shown. -/
inductive Outline where
  | leaf (a : Atom)
  | pair (car cdr : Outline)
  /-- A pair that is not shown. -/
  | elided

/-- The kind of an atom, and its content. A text is preceded by its length in characters. -/
def Atom.label : Atom → String
  | .nil => "nil"
  | .bool true => "#t"
  | .bool false => "#f"
  | .number x => "n:" ++ Double.toText x
  | .string text => "s:" ++ toString text.length ++ ":" ++ text
  | .symbol name => "y:" ++ toString name.length ++ ":" ++ name
  | .native => "#native"
  | .dictionary => "#dict"
  | .eof => "#eof"

def Outline.toText : Outline → String
  | .leaf a => a.label
  | .pair car cdr => "[" ++ car.toText ++ "|" ++ cdr.toText ++ "]"
  | .elided => "..."

def Datum.outline : Datum → Outline
  | .atom a => .leaf a
  | .cons car cdr => .pair car.outline cdr.outline

end SmallLisp
