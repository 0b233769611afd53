import SmallLisp.Builtin

/-! # Evaluation

Symbols have the value of their first pair in the environment or else their global slot. A function
literal is its own value and keeps no environment: its body is evaluated where it is called, in the
environment of the call extended by its parameters. Nothing is an error: what cannot be applied gives
`nil`.

Each definition takes a bound on the depth of evaluation, and has no result where the evaluation goes
deeper. -/

namespace SmallLisp

variable {F σ : Type} [DecidableEq F]

mutual
def evalWithin (host : Host F σ) (depth : Nat) (expr env : Value F) : Action F σ (Value F) :=
  match depth with
  | 0 => Action.never
  | depth + 1 =>
      match expr with
      | .pair _ => evalForm host depth expr env
      | .symbol _ | .native _ | .dictionary _ => Action.walk (·.value? expr env)
      | _ => return expr

def evalForm (host : Host F σ) (depth : Nat) (form env : Value F) : Action F σ (Value F) :=
  match depth with
  | 0 => Action.never
  | depth + 1 => do
      let head ← Action.ask (·.car form)
      match Special.ofHead? head with
      | some .define =>
          let name ← Action.ask (·.cadr form)
          let literal ← Action.alter fun s => s.cons Special.lambda.symbol (s.cddr form)
          Action.updateWalk (·.assign? name literal env)
          return literal
      | some .conditional => evalIf host depth (← Action.ask (·.cdr form)) env
      | some .lambda => return form
      | some .sequence => evalSequence host depth .nil (← Action.ask (·.cdr form)) env
      | some .quote => Action.ask (·.cadr form)
      | some .assign =>
          let value ← evalWithin host depth (← Action.ask (·.caddr form)) env
          let name ← Action.ask (·.cadr form)
          Action.updateWalk (·.assign? name value env)
          return value
      | none =>
          let fn ← evalWithin host depth head env
          let args ← evalList host depth (← Action.ask (·.cdr form)) env
          applyWithin host depth fn args env

/-- The value of the second or third element of a list, chosen by the value of the first. -/
def evalIf (host : Host F σ) (depth : Nat) (list env : Value F) : Action F σ (Value F) :=
  match depth with
  | 0 => Action.never
  | depth + 1 => do
      let test ← evalWithin host depth (← Action.ask (·.car list)) env
      let branch ← Action.ask fun s => if test.isTrue then s.cadr list else s.caddr list
      evalWithin host depth branch env

/-- A fresh list of the values of the elements of a list, evaluated from left to right. The next
    pair is found before an element is evaluated. -/
def evalList (host : Host F σ) (depth : Nat) (list env : Value F) : Action F σ (Value F) :=
  match depth with
  | 0 => Action.never
  | depth + 1 =>
      match list with
      | .pair _ => do
          let rest ← Action.ask (·.cdr list)
          let value ← evalWithin host depth (← Action.ask (·.car list)) env
          let values ← evalList host depth rest env
          Action.alter (·.cons value values)
      | _ => return .nil

/-- The value of the last element of a list, after all elements before it were evaluated; `last` for
    an empty one. The next pair is found before an element is evaluated. -/
def evalSequence (host : Host F σ) (depth : Nat) (last list env : Value F) :
    Action F σ (Value F) :=
  match depth with
  | 0 => Action.never
  | depth + 1 =>
      match list with
      | .pair _ => do
          let rest ← Action.ask (·.cdr list)
          let value ← evalWithin host depth (← Action.ask (·.car list)) env
          evalSequence host depth value rest env
      | _ => return last

/-- The result of a function for an argument list. -/
def applyWithin (host : Host F σ) (depth : Nat) (fn args env : Value F) : Action F σ (Value F) :=
  match depth with
  | 0 => Action.never
  | depth + 1 =>
      let calls : Calls F σ := ⟨evalWithin host depth, applyWithin host depth⟩
      match fn with
      | .native (.builtin b) => b.call calls args env
      | .native (.host f) => host.call calls f args env
      | .pair _ => do
          if (← Action.ask (·.car fn)).same Special.lambda.symbol then
            let inner ← Action.alterWalk fun s => s.bind? (s.cadr fn) args env
            evalSequence host depth .nil (← Action.ask (·.cddr fn)) inner
          else return .nil
      | _ => return .nil
end

end SmallLisp
