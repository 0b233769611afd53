import SmallLisp.CommandLine
import SmallLisp.Console
import SmallLisp.Dialogue
import SmallLisp.Interpreter
import SmallLisp.Text.Sorted

/-! # The program

An expression is evaluated and its value shown; a file is read whole and then evaluated in silence; a
dialogue shows the value of each form. A value `nil` is not shown. -/

namespace SmallLisp

/-- Why a file cannot be read. -/
inductive FileError where
  | notFound
  | notDirectory
  | isDirectory
  | notText
  | other (reason : String)
  deriving DecidableEq, Repr

def FileError.message : FileError → String
  | .notFound => "No such file or directory (os error 2)"
  | .notDirectory => "Not a directory (os error 20)"
  | .isDirectory => "Is a directory (os error 21)"
  | .notText => "stream did not contain valid UTF-8"
  | .other reason => reason

/-- Why a file cannot be run. -/
inductive RunError where
  | file (e : FileError)
  | reader (e : ReadError)
  deriving DecidableEq, Repr

def RunError.message : RunError → String
  | .file e => "IO error: " ++ e.message
  | .reader e => e.message

namespace Program

abbrev Val := Value ConsoleFunction

abbrev Act := Action ConsoleFunction Console

def machine (margin : Nat) : Machine ConsoleFunction Console :=
  ⟨Store.standard.withHost Console.host, .empty (.columns margin)⟩

def printLine (line : String) : Act Unit :=
  Action.onHost fun c => ((), c.printLine line)

def complain (line : String) : Act Unit :=
  Action.onHost fun c => ((), c.complain ("Error" ++ line))

def pretty (v : Val) : Act String := do
  Action.pretty (← get).host.margin v

/-- Show a value that is not `nil`. -/
def showResult (v : Val) : Act Unit := do
  if v.isNil then return
  printLine (← pretty v)

/-- Evaluate an expression and show its value. The result tells whether it could be read. -/
def runExpression (text : String) : Act Bool := do
  match ← Console.host.evalText text with
  | .ok v =>
      showResult v
      return true
  | .error e =>
      complain (": " ++ e.message)
      return false

/-- Evaluate forms up to the first unfinished one. -/
def evalForms : List Val → Act Unit
  | [] => return
  | .eof :: _ => return
  | form :: rest => do
      let _ ← Console.host.evalGlobal form
      evalForms rest

/-- Complain of a file. -/
def complainOf (path : String) (e : RunError) : Act Bool := do
  complain (" in " ++ path ++ ": " ++ e.message)
  return false

/-- Evaluate a file, if all of it can be read. The result tells whether it could. -/
def runFile (path : String) (content : Except FileError String) : Act Bool := do
  match content with
  | .error e => complainOf path (.file e)
  | .ok text =>
      match ← Action.alter (·.readMany text) with
      | .error e => complainOf path (.reader e)
      | .ok forms =>
          evalForms forms
          return true

def versionText : String := "procdraw 0.1.0"

/-- The lines that open a dialogue. -/
def greeting : List String :=
  ["procdraw v0.1.0", "Type ,help for help, ,quit to exit", ""]

/-- The lines of the help in a dialogue. -/
def dialogueHelp : List String :=
  ["procdraw REPL Commands:",
    "  ,quit / ,q    Exit the REPL",
    "  ,help / ,h    Show this help",
    "  ,env          Show global bindings",
    "",
    "Special Forms:",
    "  def, if, lambda, progn, quote, setq",
    "",
    "Syntax:",
    "  'x is (quote x), $x is (sigval x), (a . b) is a pair"]

/-- The lines of the help on the command line. -/
def usage : List String :=
  ["procdraw: a small Lisp for live coding",
    "",
    "Usage: procdraw [OPTIONS] [FILE]",
    "",
    "Arguments:",
    "  [FILE]  File to execute",
    "",
    "Options:",
    "  -e, --eval <EVAL>      Evaluate an expression",
    "  -m, --margin <MARGIN>  Right margin for printed results [env: PROCDRAW_MARGIN=] [default: 80]",
    "  -h, --help             Print help",
    "  -V, --version          Print version"]

def printLines : List String → Act Unit
  | [] => return
  | line :: rest => do
      printLine line
      printLines rest

/-- The global bindings that are not functions of the machine, by name. -/
def bindings (s : Store ConsoleFunction) : List (String × Val) :=
  sortByText (s.globals.filter (·.2.kind ≠ .native))

def showBindings : Act Unit := do
  match ← Action.ask bindings with
  | [] => printLine "(no global bindings)"
  | found => found.forM fun (name, value) => do
      printLine ("  " ++ name ++ " = " ++ (← pretty value))

def evalShowing : List Val → Act Unit
  | [] => return
  | form :: rest => do
      showResult (← Console.host.evalGlobal form)
      evalShowing rest

/-- Do what a line calls for. The result tells whether the dialogue goes on. -/
def carryOut : Dialogue.Reply → Act Bool
  | .command .quit => return false
  | .command .help => do
      printLines dialogueHelp
      return true
  | .command .bindings => do
      showBindings
      return true
  | .nothing => return true
  | .wait => return true
  | .overclosed => do
      complain ": too many closing parentheses"
      return true
  | .evaluate r => do
      match ← Action.alter (·.loadReading Store.loadAll r) with
      | .error e => complain (": " ++ e.message)
      | .ok forms => evalShowing forms
      return true

/-- Take a line. The result is the buffer, unless the dialogue is over. -/
def turn (buffer line : String) : Act (Option String) := do
  let next := Dialogue.feed buffer line
  if ← carryOut next.reply then return some next.buffer else return none

/-- Take lines until there are no more or the dialogue is over. -/
def converse (buffer : String) : List String → Act Unit
  | [] => return
  | line :: rest => do
      match ← turn buffer line with
      | some buffer => converse buffer rest
      | none => return

/-- What the program leaves behind. -/
structure Report where
  /-- Zero for success. -/
  exit : Nat
  output : String
  complaints : List String

namespace Report

/-- The report of a command line that cannot be taken. -/
def refusal : Report := ⟨2, "", []⟩

def version : Report := ⟨0, versionText ++ "\n", []⟩

/-- The report that explains the command line. -/
def help : Report := ⟨0, String.join (usage.map (· ++ "\n")), []⟩

end Report

/-- Carry out what the command line asks for. An expression goes before a file, and a file before a
    dialogue. -/
def perform (g : Given) (file : String → Except FileError String) (input : String) : Act Bool :=
  match g.expression, g.file with
  | some text, _ => runExpression text
  | none, some path => runFile path (file path)
  | none, none => do
      printLines greeting
      converse "" (Dialogue.lines input)
      return true

/-- The whole program: arguments, the margin of the environment, the files and the input give a
    report; none if the program never ends. -/
def run (args : List String) (environment : Option String)
    (file : String → Except FileError String) (input : String) : Option Report :=
  match Request.ofArguments args with
  | .refuse => some .refusal
  | .version => some .version
  | .help => some .help
  | .run g =>
      match g.resolveMargin? environment with
      | none => some .refusal
      | some margin => do
          let (done, m) ← perform g file input (machine margin)
          return ⟨if done then 0 else 1, m.host.toText, m.host.complaints⟩

end Program

end SmallLisp
