/-! # Command lines

The arguments name a file, an expression and a margin. An option takes its value from the same
argument or from the next one, which must then not look like an option. Options may be given once.
Arguments are taken from left to right, and the first one that asks for the version or cannot be
taken decides. -/

namespace SmallLisp

/-- An option with a value. -/
inductive Setting where
  /-- `-e`, `--eval`: the expression to evaluate. -/
  | expression
  /-- `-m`, `--margin`: the margin for printing. -/
  | margin
  deriving DecidableEq, Repr

namespace Setting

def ofLetter? : Char → Option Setting
  | 'e' => some .expression
  | 'm' => some .margin
  | _ => none

def ofWord? (word : String) : Option Setting :=
  if word = "eval" then some .expression
  else if word = "margin" then some .margin
  else none

end Setting

inductive Argument where
  /-- `--`: all arguments after it are plain. -/
  | endOfOptions
  | version
  | help
  /-- An option, with the value that stands in the same argument. -/
  | setting (s : Setting) (attached : Option String)
  /-- What does not look like an option. -/
  | plain (text : String)
  | unknown
  deriving DecidableEq, Repr

namespace Argument

/-- An argument that starts with one hyphen and a letter. -/
def ofShort (letter : Char) (rest : List Char) : Argument :=
  match Setting.ofLetter? letter with
  | some s =>
      match rest with
      | [] => .setting s none
      | '=' :: value => .setting s (some (String.ofList value))
      | value => .setting s (some (String.ofList value))
  | none =>
      if letter = 'V' then .version
      else if letter = 'h' then .help
      else .unknown

/-- An argument that starts with two hyphens. -/
def ofLong (text : List Char) : Argument :=
  let word := String.ofList (text.takeWhile (· != '='))
  let attached := (text.dropWhile (· != '=')).tail
  if text.contains '=' then
    match Setting.ofWord? word with
    | some s => .setting s (some (String.ofList attached))
    | none => .unknown
  else if word = "version" then .version
  else if word = "help" then .help
  else
    match Setting.ofWord? word with
    | some s => .setting s none
    | none => .unknown

/-- Tell what an argument is. A single hyphen is plain. -/
def ofText (arg : String) : Argument :=
  match arg.toList with
  | ['-', '-'] => .endOfOptions
  | '-' :: '-' :: rest => ofLong rest
  | '-' :: letter :: rest => ofShort letter rest
  | _ => .plain arg

end Argument

/-- Widest margin that can be asked for. -/
def largestMargin : Nat := 0xFFFFFFFFFFFFFFFF

/-- A margin: digits, with or without a plus sign. -/
def parseMargin? (text : String) : Option Nat :=
  let digits := match text.toList with
    | '+' :: rest => rest
    | rest => rest
  let n := Nat.ofDigitChars 10 digits 0
  if !digits.isEmpty && digits.all Char.isDigit && n ≤ largestMargin then some n else none

/-- What the arguments so far have given. -/
structure Given where
  file : Option String
  expression : Option String
  margin : Option Nat
  deriving DecidableEq, Repr

namespace Given

def nothing : Given := ⟨none, none, none⟩

/-- Name the file. A file can be named once and has a name. -/
def setFile? (g : Given) (name : String) : Option Given :=
  if g.file.isSome || name.isEmpty then none else some { g with file := some name }

def set? (g : Given) (s : Setting) (value : String) : Option Given :=
  match s with
  | .expression =>
      if g.expression.isSome then none else some { g with expression := some value }
  | .margin =>
      if g.margin.isSome then none
      else (parseMargin? value).map fun n => { g with margin := some n }

end Given

/-- What a command line asks for. -/
inductive Request where
  /-- It cannot be taken. -/
  | refuse
  | version
  | help
  | run (g : Given)
  deriving DecidableEq, Repr

def Given.takePlain (g : Given) : List String → Request
  | [] => .run g
  | arg :: rest =>
      match g.setFile? arg with
      | some g => g.takePlain rest
      | none => .refuse

def Given.take (g : Given) : List String → Request
  | [] => .run g
  | arg :: rest =>
      match Argument.ofText arg with
      | .endOfOptions => g.takePlain rest
      | .version => .version
      | .help => .help
      | .unknown => .refuse
      | .plain name =>
          match g.setFile? name with
          | some g => g.take rest
          | none => .refuse
      | .setting s (some value) =>
          match g.set? s value with
          | some g => g.take rest
          | none => .refuse
      | .setting s none =>
          match rest with
          | [] => .refuse
          | next :: rest =>
              match Argument.ofText next with
              | .plain value =>
                  match g.set? s value with
                  | some g => g.take rest
                  | none => .refuse
              | _ => .refuse

def Request.ofArguments (args : List String) : Request :=
  Given.nothing.take args

def defaultMargin : Nat := 80

/-- The margin to print in: the one of the arguments, or else that of the environment, or else the
    default. None if the environment has to decide and its margin is malformed. -/
def Given.resolveMargin? (g : Given) (environment : Option String) : Option Nat :=
  match g.margin, environment with
  | some n, _ => some n
  | none, some text => parseMargin? text
  | none, none => some defaultMargin

end SmallLisp
