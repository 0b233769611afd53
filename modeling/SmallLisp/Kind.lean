/-! # Kinds

Every datum and every value of the machine is of one kind. -/

namespace SmallLisp

inductive Kind where
  | nil
  | boolean
  | number
  | string
  | symbol
  | cons
  | native
  | dictionary
  | eof
  deriving DecidableEq, Repr

namespace Kind

def name : Kind → String
  | .nil => "nil"
  | .boolean => "boolean"
  | .number => "number"
  | .string => "string"
  | .symbol => "symbol"
  | .cons => "cons"
  | .native => "native-fn"
  | .dictionary => "dictionary"
  | .eof => "eof"

def tag : Kind → String
  | .nil => "Null"
  | .boolean => "Boolean"
  | .number => "Number"
  | .string => "String"
  | .symbol => "Symbol"
  | .cons => "Cons"
  | .native => "NativeFn"
  | .dictionary => "Dictionary"
  | .eof => "Eof"

end Kind

end SmallLisp
