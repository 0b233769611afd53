import SmallLisp.Store

/-! # Lists and environments

A list is walked along the second halves of its pairs up to the first value that is no pair. A walk
that passes more pairs than the store holds has met one twice and never ends; it has no result.

An environment is a list of pairs of a symbol and its value, searched from the front; a symbol
without a pair has its global slot. An element that is not a pair counts as a pair with both halves
`nil`. -/

namespace SmallLisp.Store

variable {F : Type}

/-- The number of pairs that a walk which ends can pass. -/
def walkBound (s : Store F) : Nat := s.pairs.size + 1

/-- The elements of a list of at most `bound` pairs. -/
def elementsWithin (s : Store F) (bound : Nat) (v : Value F) : Option (List (Value F)) :=
  match v with
  | .pair _ =>
      match bound with
      | 0 => none
      | bound + 1 => (s.elementsWithin bound (s.cdr v)).map (s.car v :: ·)
  | _ => some []

/-- The elements of a list; none if it never ends. -/
def elements? (s : Store F) (v : Value F) : Option (List (Value F)) :=
  s.elementsWithin s.walkBound v

/-- The first elements of a list, at most `count`. -/
def firstElements (s : Store F) (count : Nat) (v : Value F) : List (Value F) :=
  match count, v with
  | count + 1, .pair _ => s.car v :: s.firstElements count (s.cdr v)
  | _, _ => []

inductive Search (F : Type) where
  /-- The first element whose first half is the key. -/
  | found (element : Value F)
  /-- No element has the key. A list that is not empty has a last pair. -/
  | missing (last : Value F)

variable [DecidableEq F]

/-- Search at most `bound` pairs of a list for a key; `last` is the pair before them. -/
def searchWithin (s : Store F) (key : Value F) (bound : Nat) (last v : Value F) :
    Option (Search F) :=
  match v with
  | .pair _ =>
      match bound with
      | 0 => none
      | bound + 1 =>
          if (s.car (s.car v)).same key then some (.found (s.car v))
          else s.searchWithin key bound v (s.cdr v)
  | _ => some (.missing last)

/-- Search a list for a key; none if the search never ends. -/
def search? (s : Store F) (key alist : Value F) : Option (Search F) :=
  s.searchWithin key s.walkBound alist alist

/-- The first element whose first half is the key, or `nil`. -/
def assoc? (s : Store F) (key alist : Value F) : Option (Value F) := do
  match ← s.search? key alist with
  | .found element => return element
  | .missing _ => return .nil

/-- Replace the second half of the first element that has the key, or else append a pair of the key
    and the value. Nothing can be appended to what is no pair. -/
def putassoc? (key value alist : Value F) (s : Store F) : Option (Store F) := do
  if !alist.isPair then return s
  match ← s.search? key alist with
  | .found element => return s.setCdr element value
  | .missing last =>
      let (entry, s) := s.cons key value
      let (cell, s) := s.list [entry]
      return s.setCdr last cell

/-- Some element among at most `bound` pairs of a list is the same as the object. -/
def membWithin (s : Store F) (object : Value F) (bound : Nat) (v : Value F) : Option Bool :=
  match v with
  | .pair _ =>
      match bound with
      | 0 => none
      | bound + 1 =>
          if (s.car v).same object then some true else s.membWithin object bound (s.cdr v)
  | _ => some false

/-- Some element of a list is the same as the object; none if the search never ends. -/
def memb? (s : Store F) (object list : Value F) : Option Bool :=
  s.membWithin object s.walkBound list

omit [DecidableEq F] in
/-- Put a pair in front of the environment for each parameter. Parameters beyond the arguments are
    bound to `nil`. -/
def bindEach (s : Store F) (args env : Value F) : List (Value F) → Value F × Store F
  | [] => (env, s)
  | param :: params =>
      let (binding, s₁) := s.cons param (s.car args)
      let (extended, s₂) := s₁.cons binding env
      s₂.bindEach (s₂.cdr args) extended params

omit [DecidableEq F] in
/-- The environment with a pair in front for each element of the parameter list. -/
def bind? (params args env : Value F) (s : Store F) : Option (Value F × Store F) := do
  return s.bindEach args env (← s.elements? params)

/-- The value of a symbol: that of its first pair, or else its global slot. -/
def value? (s : Store F) (symbol env : Value F) : Option (Value F) := do
  match ← s.assoc? symbol env with
  | .nil => return s.symbolValue symbol
  | binding => return s.cdr binding

/-- Assign a symbol where `value?` finds it. -/
def assign? (symbol value env : Value F) (s : Store F) : Option (Store F) := do
  match ← s.assoc? symbol env with
  | .nil => return s.setSymbolValue symbol value
  | binding => return s.setCdr binding value

end SmallLisp.Store
