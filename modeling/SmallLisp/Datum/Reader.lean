import SmallLisp.Datum
import SmallLisp.Token.Lexer

/-! # Reading data

Tokens are read one at a time against a stack of unfinished data. A datum that is complete goes to
the frame on top of the stack, or is a form of its own when the stack is empty. Reading never fails
on the shape of a text: a closing parenthesis without a list reads as `nil`, a dot that follows no
element is a symbol, and what stands between the tail of a dotted list and its closing parenthesis
is dropped. A text that ends inside a datum has no datum there, and one that ends inside a string
is an error.

Symbols are met in the order in which their data are complete, so that of `'a` the symbol `a` is met
before `quote`. -/

namespace SmallLisp

/-- An unfinished datum. Items stand in reverse order. -/
inductive Frame where
  /-- A list that may go on. -/
  | items (done : List Datum)
  /-- A list after its dot. -/
  | dotted (done : List Datum)
  /-- A list after the datum that follows its dot. -/
  | closing (done : List Datum) (tail : Datum)
  /-- A sigil before its datum. -/
  | marked (s : Sigil)

/-- What one token adds to a reading. -/
structure Progress where
  /-- The unfinished data, innermost first. -/
  stack : List Frame
  /-- The datum that the token completed outside all lists. -/
  form : Option Datum
  /-- The names of the symbols that the token completed. -/
  names : List String

/-- The names met with a datum of one token. -/
def Datum.ownNames : Datum → List String
  | .symbol name => [name]
  | _ => []

/-- The unfinished data around a place in a text, innermost first. -/
abbrev Stack := List Frame

namespace Stack

/-- Hand a complete datum to the innermost frame. A sigil is completed by its datum, which then goes
    to the next frame. -/
def accept (d : Datum) : Stack → Progress
  | [] => ⟨[], some d, []⟩
  | .items done :: outer => ⟨.items (d :: done) :: outer, none, []⟩
  | .dotted done :: outer => ⟨.closing done d :: outer, none, []⟩
  | .closing done tail :: outer => ⟨.closing done tail :: outer, none, []⟩
  | .marked s :: outer =>
      let step := accept (.marked s d) outer
      { step with names := s.head :: step.names }

/-- Hand the datum of one token to the innermost frame. -/
def acceptAtom (stack : Stack) (d : Datum) : Progress :=
  let step := accept d stack
  { step with names := d.ownNames ++ step.names }

/-- Take a closing parenthesis. Where no list is open it reads as `nil`. -/
def close : Stack → Progress
  | .items done :: outer => accept (.list done.reverse) outer
  | .dotted done :: outer => accept (.list done.reverse) outer
  | .closing done tail :: outer => accept (.listWithTail done.reverse tail) outer
  | stack => accept .nil stack

/-- Take a dot. It asks for the tail of a list that has an element, and is a symbol elsewhere. -/
def dot : Stack → Progress
  | .items (d :: done) :: outer => ⟨.dotted (d :: done) :: outer, none, []⟩
  | stack => acceptAtom stack (.symbol ".")

def next (stack : Stack) : Token → Progress
  | .sigil s => ⟨.marked s :: stack, none, []⟩
  | .leftParen => ⟨.items [] :: stack, none, []⟩
  | .rightParen => close stack
  | .dot => dot stack
  | .number x => acceptAtom stack (.atom (.number x))
  | .symbol name => acceptAtom stack (.ofName name)
  | .string text => acceptAtom stack (.atom (.string text))

/-- What tokens give up to the first form that they complete. -/
structure First where
  /-- The form; none if the tokens end before it. -/
  form : Option Datum
  names : List String
  rest : List Token

/-- Take tokens up to the first form that they complete. -/
def first (stack : Stack) : List Token → First
  | [] => ⟨none, [], []⟩
  | t :: rest =>
      let step := next stack t
      match step.form with
      | some d => ⟨some d, step.names, rest⟩
      | none =>
          let later := first step.stack rest
          { later with names := step.names ++ later.names }

/-- What tokens give in all. -/
structure Forms where
  forms : List Datum
  names : List String
  left : Stack

/-- Take all tokens. -/
def all (stack : Stack) : List Token → Forms
  | [] => ⟨[], [], stack⟩
  | t :: rest =>
      let step := next stack t
      let later := all step.stack rest
      { later with forms := step.form.toList ++ later.forms, names := step.names ++ later.names }

end Stack

inductive ReadError where
  /-- The closing quote of a string never comes. The place is that of the opening quote. -/
  | unterminatedString (place : Position)
  deriving DecidableEq, Repr

def ReadError.message : ReadError → String
  | .unterminatedString place =>
      "Reader error at " ++ place.toText ++ ": unterminated string literal"

/-- A result of reading, with the names of the symbols that were met on the way, in order. -/
structure Reading (α : Type) where
  result : Except ReadError α
  names : List String

/-- What the end of a text gives where nothing is wrong with it, or else the error. -/
def Scan.atEnd {α : Type} (s : Scan) (result : α) : Except ReadError α :=
  match s.ending with
  | .complete => .ok result
  | .openString => .error (.unterminatedString s.stop)

/-- Read the first datum of a scanned text. An unfinished one gives `eof`. -/
def Scan.read (s : Scan) : Reading Datum :=
  let first := Stack.first [] s.tokens
  match first.form with
  | some d => ⟨.ok d, first.names⟩
  | none => ⟨s.atEnd .eof, first.names⟩

/-- Read all data of a scanned text. An unfinished one at the end gives a last form `eof`. -/
def Scan.readMany (s : Scan) : Reading (List Datum) :=
  let all := Stack.all [] s.tokens
  ⟨s.atEnd (if all.left.isEmpty then all.forms else all.forms ++ [.eof]), all.names⟩

def read (text : String) : Reading Datum :=
  (scan text).read

def readMany (text : String) : Reading (List Datum) :=
  (scan text).readMany

end SmallLisp
