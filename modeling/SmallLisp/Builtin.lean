import SmallLisp.Machine

/-! # Built-in functions

Arithmetic, lists, application, dictionaries and ranges. Arguments that are missing are `nil`, and
what is not a number counts as not-a-number. -/

namespace SmallLisp

namespace Arithmetic

/-- The sum starts from a negative zero, so that it is the neutral element also for negative zero. -/
def sum (xs : List Float) : Float := xs.foldl (· + ·) (-0)

def product (xs : List Float) : Float := xs.foldl (· * ·) 1

/-- The point at the fraction `v` of the way from `start` to `stop`. -/
def lerp (start stop v : Float) : Float := (1 - v) * start + v * stop

/-- The fraction of the way from `start` to `stop` at which `v` lies. -/
def norm (start stop v : Float) : Float := (v - start) / (stop - start)

/-- The point of the second range that lies as `v` does in the first. -/
def mapRange (start₁ stop₁ start₂ stop₂ v : Float) : Float :=
  start₂ + ((v - start₁) * (stop₂ - start₂)) / (stop₁ - start₁)

/-- The point of the range from `start` up to `stop` that is whole ranges away from `v`. -/
def wrap (start stop v : Float) : Float :=
  v - ((v - start) / (stop - start)).floor * (stop - start)

end Arithmetic

namespace Store

variable {F : Type}

/-- Function literals and functions of the machine. -/
def isFunction [DecidableEq F] (s : Store F) : Value F → Bool
  | .native _ => true
  | .pair p => (s.car (.pair p)).same Special.lambda.symbol
  | _ => false

def numbers? (s : Store F) (args : Value F) : Option (List Float) :=
  (s.elements? args).map (·.map Value.toNumber)

/-- The argument at a place, counted from zero, as a number; a missing one is not-a-number. -/
def numberAt (s : Store F) (args : Value F) (i : Nat) : Float :=
  ((s.firstElements (i + 1) args)[i]?.getD .nil).toNumber

/-- Fold an operation over a list of numbers from the left. A list of one pair that ends in `nil` is
    the case of a single number. -/
def reduce? (s : Store F) (none : Float) (one : Float → Float) (more : Float → Float → Float)
    (args : Value F) : Option Float := do
  match ← s.numbers? args with
  | [] => return none
  | x :: xs => return if (s.cdr args).isNil then one x else xs.foldl more x

end Store

def Builtin.call {F σ : Type} [DecidableEq F] (calls : Calls F σ) (b : Builtin)
    (args env : Value F) : Action F σ (Value F) := do
  let first ← Action.ask (·.car args)
  let second ← Action.ask (·.cadr args)
  let third ← Action.ask (·.caddr args)
  match b with
  | .multiply => return .number (Arithmetic.product (← Action.walk (·.numbers? args)))
  | .add => return .number (Arithmetic.sum (← Action.walk (·.numbers? args)))
  | .subtract => return .number (← Action.walk (·.reduce? 0 (-·) (· - ·) args))
  | .divide => return .number (← Action.walk (·.reduce? 1 (1 / ·) (· / ·) args))
  | .apply => calls.apply first second env
  | .assoc => Action.walk (·.assoc? first second)
  | .car => Action.ask (·.car first)
  | .cdr => Action.ask (·.cdr first)
  | .cons => Action.alter (·.cons first second)
  | .eq => return .bool (first.same second)
  | .functionp => return .bool (← Action.ask (·.isFunction first))
  | .memb => return .bool (← Action.walk (·.memb? first second))
  | .not => return .bool !first.isTrue
  | .putassoc =>
      Action.updateWalk (·.putassoc? first second third)
      return second
  | .clear => Action.alter (·.clear first)
  | .get => Action.ask (·.get first second)
  | .keys => Action.alter (·.keys first)
  | .makeDict => Action.alter (·.makeDictionary)
  | .put => Action.alter (·.put first second third)
  | .lerp =>
      let x ← Action.ask (·.numberAt args)
      return .number (Arithmetic.lerp (x 0) (x 1) (x 2))
  | .mapRange =>
      let x ← Action.ask (·.numberAt args)
      return .number (Arithmetic.mapRange (x 0) (x 1) (x 2) (x 3) (x 4))
  | .norm =>
      let x ← Action.ask (·.numberAt args)
      return .number (Arithmetic.norm (x 0) (x 1) (x 2))
  | .wrap =>
      let x ← Action.ask (·.numberAt args)
      return .number (Arithmetic.wrap (x 0) (x 1) (x 2))

end SmallLisp
