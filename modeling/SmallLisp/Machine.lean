import SmallLisp.Environment
import SmallLisp.Layout.Pretty
import SmallLisp.Store.View

/-! # Machines

A machine is a store together with the state `σ` of its host. An action of the machine gives a value
and changes the machine, or never ends and then has no result. -/

namespace SmallLisp

structure Machine (F σ : Type) where
  store : Store F
  host : σ

/-- An action of a machine; it has no result when it never ends. -/
abbrev Action (F σ : Type) := StateT (Machine F σ) Option

namespace Action

variable {F σ α : Type}

def never : Action F σ α := fun _ => none

def ask (f : Store F → α) : Action F σ α := do
  return f (← get).store

/-- Ask the store a question whose answer may never come. -/
def walk (f : Store F → Option α) : Action F σ α := do
  match f (← get).store with
  | some a => return a
  | none => never

def alter (f : Store F → α × Store F) : Action F σ α :=
  modifyGet fun m =>
    let (a, store) := f m.store
    (a, { m with store := store })

def update (f : Store F → Store F) : Action F σ Unit :=
  alter fun s => ((), f s)

/-- Change the store by a walk that may never end. -/
def updateWalk (f : Store F → Option (Store F)) : Action F σ Unit := do
  match f (← get).store with
  | some store => modify fun m => { m with store := store }
  | none => never

/-- Change the store by a walk that may never end, and give a result. -/
def alterWalk (f : Store F → Option (α × Store F)) : Action F σ α := do
  match f (← get).store with
  | some (a, store) =>
      modify fun m => { m with store := store }
      return a
  | none => never

def onHost (f : σ → α × σ) : Action F σ α :=
  modifyGet fun m =>
    let (a, host) := f m.host
    (a, { m with host := host })

/-- A value within a margin. A value that contains a cycle never ends. -/
def pretty (margin : Layout.Margin) (v : Value F) : Action F σ String := do
  return (← walk (·.datum? v)).pretty margin

def flat (v : Value F) : Action F σ String := pretty .unbounded v

end Action

/-- What a function of the machine may ask of the evaluator. -/
structure Calls (F σ : Type) where
  /-- The value of an expression in an environment. -/
  eval : (expr env : Value F) → Action F σ (Value F)
  /-- The result of a function, applied to an argument list in an environment. -/
  apply : (fn args env : Value F) → Action F σ (Value F)

/-- The functions that a host adds to a machine. -/
structure Host (F σ : Type) where
  /-- The functions, in the order in which their symbols are interned. -/
  functions : List F
  /-- The symbol that a function is bound to. -/
  name : F → String
  /-- The result of a function for an argument list and the environment of the call. -/
  call : Calls F σ → F → (args env : Value F) → Action F σ (Value F)

/-- The host that adds nothing. -/
def Host.none : Host Empty Unit where
  functions := []
  name := nofun
  call := fun _ => nofun

/-- The forms that are not function calls. -/
inductive Special where
  | define
  | conditional
  | lambda
  | sequence
  | quote
  | assign
  deriving DecidableEq, Repr

namespace Special

/-- All special forms, in the order in which their symbols are interned, before any other. -/
def all : List Special := [.define, .conditional, .lambda, .sequence, .quote, .assign]

def name : Special → String
  | .define => "def"
  | .conditional => "if"
  | .lambda => "lambda"
  | .sequence => "progn"
  | .quote => "quote"
  | .assign => "setq"

/-- The place of the symbol in the symbol table. -/
def index : Special → Nat
  | .define => 0
  | .conditional => 1
  | .lambda => 2
  | .sequence => 3
  | .quote => 4
  | .assign => 5

def symbol {F : Type} (form : Special) : Value F := .symbol (.interned form.index)

/-- The special form that a head stands for. -/
def ofHead? {F : Type} : Value F → Option Special
  | .symbol (.interned i) => all[i]?
  | _ => Option.none

end Special

end SmallLisp
