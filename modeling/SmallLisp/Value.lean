import SmallLisp.Kind

/-! # Values

A value is what the machine computes with. Pairs, symbols and dictionaries are objects: a value only
names one, and the store holds its content. The functions that a host adds to the built-in ones are
the elements of a type `F`. -/

namespace SmallLisp

/-- The functions that every full machine has. -/
inductive Builtin where
  | multiply
  | add
  | subtract
  | divide
  | apply
  | assoc
  | car
  | cdr
  | cons
  | eq
  | functionp
  | memb
  | not
  | putassoc
  | clear
  | get
  | keys
  | makeDict
  | put
  | lerp
  | mapRange
  | norm
  | wrap
  deriving DecidableEq, Repr

namespace Builtin

/-- All built-in functions, in the order in which their symbols are interned. -/
def all : List Builtin :=
  [.multiply, .add, .subtract, .divide, .apply, .assoc, .car, .cdr, .cons, .eq, .functionp, .memb,
    .not, .putassoc, .clear, .get, .keys, .makeDict, .put, .lerp, .mapRange, .norm, .wrap]

/-- The symbol that a built-in function is bound to. -/
def name : Builtin → String
  | .multiply => "*"
  | .add => "+"
  | .subtract => "-"
  | .divide => "/"
  | .apply => "apply"
  | .assoc => "assoc"
  | .car => "car"
  | .cdr => "cdr"
  | .cons => "cons"
  | .eq => "eq"
  | .functionp => "functionp"
  | .memb => "memb"
  | .not => "not"
  | .putassoc => "putassoc"
  | .clear => "clear"
  | .get => "get"
  | .keys => "keys"
  | .makeDict => "make-dict"
  | .put => "put"
  | .lerp => "lerp"
  | .mapRange => "map-range"
  | .norm => "norm"
  | .wrap => "wrap"

end Builtin

inductive Native (F : Type) where
  | builtin (b : Builtin)
  | host (f : F)
  deriving DecidableEq

/-- A symbol: one of the symbol table, or one that was made apart from it. -/
inductive SymbolId where
  | interned (index : Nat)
  | loose (index : Nat)
  deriving DecidableEq, Repr

inductive Value (F : Type) where
  | nil
  | bool (b : Bool)
  | number (x : Float)
  | string (text : String)
  | symbol (id : SymbolId)
  | pair (id : Nat)
  | native (f : Native F)
  | dictionary (id : Nat)
  /-- What an unfinished text evaluates to. -/
  | eof
  deriving DecidableEq

namespace Value

variable {F : Type}

instance : Inhabited (Value F) := ⟨.nil⟩

def kind : Value F → Kind
  | .nil => .nil
  | .bool _ => .boolean
  | .number _ => .number
  | .string _ => .string
  | .symbol _ => .symbol
  | .pair _ => .cons
  | .native _ => .native
  | .dictionary _ => .dictionary
  | .eof => .eof

/-- The sameness of `eq` and of dictionary keys. Numbers are compared as numbers, so that a zero is
    the same whatever its sign and what is not a number is not the same as itself. Texts are compared
    by content and objects by identity. -/
def same [DecidableEq F] : Value F → Value F → Bool
  | .number x, .number y => x == y
  | a, b => decide (a = b)

/-- What of a key is hashed: all of it, except that zeros are not told apart by their sign. -/
def digest : Value F → Value F
  | .number x => .number (if x == 0 then 0 else x)
  | v => v

/-- The number, or not-a-number for other values. -/
def toNumber : Value F → Float
  | .number x => x
  | _ => 0 / 0

/-- Only `nil` and `false` are not true. -/
def isTrue : Value F → Bool
  | .nil => false
  | .bool b => b
  | _ => true

/-- The text of a string, empty for other values. -/
def toText : Value F → String
  | .string text => text
  | _ => ""

def isNil : Value F → Bool
  | .nil => true
  | _ => false

def isPair : Value F → Bool
  | .pair _ => true
  | _ => false

end Value

end SmallLisp
