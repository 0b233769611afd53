import SmallLisp.Datum.Outline
import SmallLisp.Store

/-! # Values and data

A value that contains no cycle is the root of a finite tree, which is the datum that is printed for
it; and a datum that was read is put into the store as fresh pairs. A path without a cycle passes each
pair once, so the number of pairs bounds the depth of the tree. -/

namespace SmallLisp.Store

variable {F : Type}

/-- The atom that a value other than a pair is printed as. -/
def leaf? (s : Store F) : Value F → Option Atom
  | .nil => some .nil
  | .bool b => some (.bool b)
  | .number x => some (.number x)
  | .string text => some (.string text)
  | .symbol id => some (.symbol (s.symbolName (.symbol id)))
  | .pair _ => none
  | .native _ => some .native
  | .dictionary _ => some .dictionary
  | .eof => some .eof

/-- The tree under a value, if it is no deeper than the bound. -/
def datumWithin (s : Store F) (bound : Nat) (v : Value F) : Option Datum :=
  match s.leaf? v with
  | some a => some (.atom a)
  | none =>
      match bound with
      | 0 => none
      | bound + 1 => do
          let car ← s.datumWithin bound (s.car v)
          let cdr ← s.datumWithin bound (s.cdr v)
          return .cons car cdr

/-- The tree under a value; none if the value contains a cycle. -/
def datum? (s : Store F) (v : Value F) : Option Datum :=
  s.datumWithin (s.pairs.size + 1) v

/-- Show at most `budget` pairs of a value, each before its two halves and the first half before the
    second; the second result is what is left of the budget. The bound on the depth is never reached
    when it is at least the budget. -/
def outlineWithin (s : Store F) (bound budget : Nat) (v : Value F) : Outline × Nat :=
  match s.leaf? v with
  | some a => (.leaf a, budget)
  | none =>
      match bound, budget with
      | bound + 1, budget + 1 =>
          let (car, budget) := s.outlineWithin bound budget (s.car v)
          let (cdr, budget) := s.outlineWithin bound budget (s.cdr v)
          (.pair car cdr, budget)
      | _, _ => (.elided, budget)

def outline (s : Store F) (budget : Nat) (v : Value F) : Outline :=
  (s.outlineWithin budget budget v).1

/-- The value of an atom that was read. Natives and dictionaries cannot be read; they give `nil`. -/
def loadAtom (s : Store F) : Atom → Value F × Store F
  | .nil => (.nil, s)
  | .bool b => (.bool b, s)
  | .number x => (.number x, s)
  | .string text => (.string text, s)
  | .symbol name => s.intern name
  | .native => (.nil, s)
  | .dictionary => (.nil, s)
  | .eof => (.eof, s)

def load (s : Store F) : Datum → Value F × Store F
  | .atom a => s.loadAtom a
  | .cons car cdr =>
      let (first, s) := s.load car
      let (second, s) := s.load cdr
      s.cons first second

def loadAll (s : Store F) : List Datum → List (Value F) × Store F
  | [] => ([], s)
  | d :: rest =>
      let (v, s) := s.load d
      let (vs, s) := s.loadAll rest
      (v :: vs, s)

/-- Whether two values are the same tree: pairs half by half, other values by sameness. None if the
    comparison goes deeper than the bound. -/
def equalWithin [DecidableEq F] (s : Store F) (bound : Nat) (a b : Value F) : Option Bool :=
  if a.isPair && b.isPair then
    match bound with
    | 0 => none
    | bound + 1 => do
        if ← s.equalWithin bound (s.car a) (s.car b) then s.equalWithin bound (s.cdr a) (s.cdr b)
        else return false
  else some (a.same b)

/-- Whether two values are the same tree; none if the comparison never ends. A path that passes no
    two pairs twice is no longer than the number of pairs of pairs. -/
def equal? [DecidableEq F] (s : Store F) (a b : Value F) : Option Bool :=
  s.equalWithin (s.pairs.size * s.pairs.size + 1) a b

def isSymbolNamed (s : Store F) (name : String) : Value F → Bool
  | .symbol id => s.symbolName (.symbol id) == name
  | _ => false

/-- The sigil that a list is written with. -/
def sigil? (s : Store F) (v : Value F) : Option Sigil :=
  let rest := s.cdr v
  if rest.isPair && (s.cdr rest).isNil then
    match s.car v with
    | .symbol id => Sigil.named? (s.symbolName (.symbol id))
    | _ => none
  else none

end SmallLisp.Store
