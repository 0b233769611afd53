import SmallLisp.Datum.Reader
import SmallLisp.Evaluator

/-! # Interpreters

A machine starts with the special forms in its symbol table and, unless it is bare, with the built-in
functions and `pi`; the functions of the host follow. Texts are read into it and evaluated there.
Reading interns the symbols that it meets even if it fails. -/

namespace SmallLisp

namespace Store

variable {F : Type}

def setGlobal (name : String) (value : Value F) (s : Store F) : Store F :=
  let (symbol, s) := s.intern name
  s.setSymbolValue symbol value

/-- A store that knows the special forms. -/
def bare : Store F := empty.internAll (Special.all.map Special.name)

/-- A store that knows the special forms, the built-in functions and `pi`. -/
def standard : Store F :=
  let s := Builtin.all.foldl (fun s b => s.setGlobal b.name (.native (.builtin b))) bare
  s.setGlobal "pi" (.number 3.141592653589793)

/-- The store with the functions of a host. -/
def withHost {σ : Type} (host : Host F σ) (s : Store F) : Store F :=
  host.functions.foldl (fun s f => s.setGlobal (host.name f) (.native (.host f))) s

/-- Enter the symbols that a reading met, then put what it read into the store. -/
def loadReading {α β : Type} (load : Store F → α → β × Store F) (r : Reading α) (s : Store F) :
    Except ReadError β × Store F :=
  let s := s.internAll r.names
  match r.result with
  | .error e => (.error e, s)
  | .ok a =>
      let (b, s) := load s a
      (.ok b, s)

def read (text : String) (s : Store F) : Except ReadError (Value F) × Store F :=
  s.loadReading load (SmallLisp.read text)

def readMany (text : String) (s : Store F) : Except ReadError (List (Value F)) × Store F :=
  s.loadReading loadAll (SmallLisp.readMany text)

end Store

/-- A bound on the depth of evaluation that is far beyond what any memory holds. -/
def depthBound : Nat := 1000000000000000

namespace Host

variable {F σ : Type} [DecidableEq F]

def eval (host : Host F σ) (expr env : Value F) : Action F σ (Value F) :=
  evalWithin host depthBound expr env

def evalGlobal (host : Host F σ) (expr : Value F) : Action F σ (Value F) :=
  host.eval expr .nil

/-- The value of a list of a test and two branches. -/
def evalIf (host : Host F σ) (list env : Value F) : Action F σ (Value F) :=
  SmallLisp.evalIf host depthBound list env

def evalList (host : Host F σ) (list env : Value F) : Action F σ (Value F) :=
  SmallLisp.evalList host depthBound list env

/-- The value of the last element of a list. -/
def evalSequence (host : Host F σ) (list env : Value F) : Action F σ (Value F) :=
  SmallLisp.evalSequence host depthBound .nil list env

def apply (host : Host F σ) (fn args env : Value F) : Action F σ (Value F) :=
  applyWithin host depthBound fn args env

/-- The result of the global function of this name without arguments. -/
def callGlobal (host : Host F σ) (name : String) : Action F σ (Value F) := do
  let symbol ← Action.alter (·.intern name)
  host.apply (← Action.walk (·.value? symbol .nil)) .nil .nil

def evalText (host : Host F σ) (text : String) : Action F σ (Except ReadError (Value F)) := do
  match ← Action.alter (·.read text) with
  | .error e => return .error e
  | .ok expr => return .ok (← host.evalGlobal expr)

end Host

end SmallLisp
