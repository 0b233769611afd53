import SmallLisp.Console
import SmallLisp.Text.Sorted

/-! # The toolkit

A host that opens the machine to its programs: they can print, count, evaluate in a chosen
environment, make and change symbols and pairs, ask for the kind and the text of a value, and work
on environments as lists. -/

namespace SmallLisp

inductive Tool where
  | print
  | tick
  | evalHere
  | evalIn
  | callerEnv
  | twice
  | intern
  | makeSymbol
  | equal
  | rplaca
  | rplacd
  | caar
  | cadr
  | cdar
  | cddr
  | caddr
  | cadddr
  | caddddr
  | list
  | copyList
  | length
  | typeOf
  | typeTag
  | atom
  | numVal
  | boolVal
  | stringVal
  | symbolName
  | symbolValue
  | setSymbolValue
  | symbolNamed
  | sigilText
  | getOr
  | sortedKeys
  | flatText
  | pretty
  | eof
  | eofp
  | bind
  | envValue
  | envSet
  deriving DecidableEq, Repr

namespace Tool

/-- All functions, in the order in which their symbols are interned. -/
def all : List Tool :=
  [.print, .tick, .evalHere, .evalIn, .callerEnv, .twice, .intern, .makeSymbol, .equal, .rplaca,
    .rplacd, .caar, .cadr, .cdar, .cddr, .caddr, .cadddr, .caddddr, .list, .copyList, .length,
    .typeOf, .typeTag, .atom, .numVal, .boolVal, .stringVal, .symbolName, .symbolValue,
    .setSymbolValue, .symbolNamed, .sigilText, .getOr, .sortedKeys, .flatText, .pretty, .eof, .eofp,
    .bind, .envValue, .envSet]

/-- The symbol that a function is bound to. -/
def name : Tool → String
  | .print => "print"
  | .tick => "tick"
  | .evalHere => "eval-here"
  | .evalIn => "eval-in"
  | .callerEnv => "caller-env"
  | .twice => "twice"
  | .intern => "intern"
  | .makeSymbol => "make-symbol"
  | .equal => "equal"
  | .rplaca => "rplaca"
  | .rplacd => "rplacd"
  | .caar => "caar"
  | .cadr => "cadr"
  | .cdar => "cdar"
  | .cddr => "cddr"
  | .caddr => "caddr"
  | .cadddr => "cadddr"
  | .caddddr => "caddddr"
  | .list => "list"
  | .copyList => "copy-list"
  | .length => "length"
  | .typeOf => "type-of"
  | .typeTag => "type-tag"
  | .atom => "atom"
  | .numVal => "num-val"
  | .boolVal => "bool-val"
  | .stringVal => "string-val"
  | .symbolName => "symbol-name"
  | .symbolValue => "symbol-value"
  | .setSymbolValue => "set-symbol-value"
  | .symbolNamed => "symbol-named"
  | .sigilText => "reader-prefix"
  | .getOr => "get-or"
  | .sortedKeys => "sorted-keys"
  | .flatText => "to-string"
  | .pretty => "pretty"
  | .eof => "eof"
  | .eofp => "eofp"
  | .bind => "bind"
  | .envValue => "env-value"
  | .envSet => "env-set"

end Tool

/-- The state of the toolkit: a counter and the printed lines. -/
structure Workshop where
  ticks : Nat
  console : Console

namespace Toolkit

abbrev Val := Value Tool

abbrev Act := Action Tool Workshop

def printLine (line : String) : Act Unit :=
  Action.onHost fun w => ((), { w with console := w.console.printLine line })

def tick : Act Nat :=
  Action.onHost fun w => (w.ticks + 1, { w with ticks := w.ticks + 1 })

/-- The keys of a dictionary in the order of their texts. -/
def sortedKeys (target : Val) : Act (List Val) := do
  let keys ← Action.ask fun s => (s.entries target).map Prod.fst
  let named ← keys.mapM fun key => do return (← Action.flat key, key)
  return (sortByText named).map Prod.snd

def call (calls : Calls Tool Workshop) (tool : Tool) (args env : Val) : Act Val := do
  let a ← Action.ask (·.car args)
  let b ← Action.ask (·.cadr args)
  let c ← Action.ask (·.caddr args)
  match tool with
  | .print =>
      printLine (← Console.lineOf (← get).host.console.margin args)
      return .nil
  | .tick => return .number (Float.ofNat (← tick))
  | .evalHere => calls.eval a env
  | .evalIn => calls.eval a b
  | .callerEnv => return env
  | .twice =>
      let once ← calls.apply a (← Action.ask (·.cdr args)) env
      calls.apply a (← Action.alter (·.list [once])) env
  | .intern => Action.alter (·.intern a.toText)
  | .makeSymbol => Action.alter (·.makeSymbol a.toText)
  | .equal => return .bool (← Action.walk (·.equal? a b))
  | .rplaca =>
      Action.update (·.setCar a b)
      return a
  | .rplacd =>
      Action.update (·.setCdr a b)
      return a
  | .caar => Action.ask fun s => s.car (s.car a)
  | .cadr => Action.ask (·.cadr a)
  | .cdar => Action.ask fun s => s.cdr (s.car a)
  | .cddr => Action.ask (·.cddr a)
  | .caddr => Action.ask (·.caddr a)
  | .cadddr => Action.ask fun s => s.cadr (s.cddr a)
  | .caddddr => Action.ask fun s => s.caddr (s.cddr a)
  | .list => return args
  | .copyList =>
      let items ← Action.walk (·.elements? a)
      Action.alter (·.list items)
  | .length => return .number (Float.ofNat (← Action.walk (·.elements? a)).length)
  | .typeOf => return .string a.kind.name
  | .typeTag => return .string a.kind.tag
  | .atom => return .bool !a.isPair
  | .numVal => return .number a.toNumber
  | .boolVal => return .bool a.isTrue
  | .stringVal => return .string a.toText
  | .symbolName => return .string (← Action.ask (·.symbolName a))
  | .symbolValue => Action.ask (·.symbolValue a)
  | .setSymbolValue =>
      Action.update (·.setSymbolValue a b)
      return if a.kind = .symbol then b else .nil
  | .symbolNamed => return .bool (← Action.ask (·.isSymbolNamed b.toText a))
  | .sigilText =>
      match ← Action.ask (·.sigil? a) with
      | some s => return .string s.text
      | none => return .nil
  | .getOr => Action.ask (·.getOr a b c)
  | .sortedKeys =>
      let keys ← sortedKeys a
      Action.alter (·.list keys)
  | .flatText => return .string (← Action.flat a)
  | .pretty => return .string (← Action.pretty (.columns b.toNumber.toUInt64.toNat) a)
  | .eof => return .eof
  | .eofp => return .bool (a.kind = .eof)
  | .bind => Action.alterWalk (·.bind? a b c)
  | .envValue => Action.walk (·.value? a b)
  | .envSet =>
      Action.updateWalk (·.assign? a b c)
      return b

def host : Host Tool Workshop where
  functions := Tool.all
  name := Tool.name
  call := call

end Toolkit

end SmallLisp
