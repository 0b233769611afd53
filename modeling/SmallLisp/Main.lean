import SmallLisp.Program

/-! # The command line

Files, standard input and standard output around the program. A dialogue is carried on line by line,
and what each line prints is shown at once. -/

namespace SmallLisp.Terminal

open Program

/-- The code that a system gives for a path that goes through a plain file. -/
def notDirectoryCode : UInt32 := 20

def readContent (path : String) : IO (Except FileError String) := do
  try
    let bytes ← IO.FS.readBinFile path
    match String.fromUTF8? bytes with
    | some text => return .ok text
    | none => return .error .notText
  catch
    | .noFileOrDirectory .. => return .error .notFound
    | .inappropriateType _ code _ =>
        return .error (if code = notDirectoryCode then .notDirectory else .isDirectory)
    | e => return .error (.other (toString e))

/-- Show what was printed, and forget it. -/
def flush (m : Machine ConsoleFunction Console) : IO (Machine ConsoleFunction Console) := do
  IO.print m.host.toText
  (← IO.getStdout).flush
  m.host.complaints.forM fun line => IO.eprintln line
  return { m with host := .empty m.host.margin }

def stripLine (line : String) : String :=
  (Dialogue.lines line).headD ""

partial def converse (buffer : String) (m : Machine ConsoleFunction Console) : IO Unit := do
  let line ← (← IO.getStdin).getLine
  if line.isEmpty then return
  match turn buffer (stripLine line) m with
  | some (some buffer, m) => converse buffer (← flush m)
  | some (none, m) => let _ ← flush m
  | none => return

def finish (action : Act Bool) (m : Machine ConsoleFunction Console) : IO UInt32 := do
  match action m with
  | some (done, m) =>
      let _ ← flush m
      return if done then 0 else 1
  | none => return 1

def showReport (report : Report) : IO UInt32 := do
  IO.print report.output
  return report.exit.toUInt32

/-- Explain the command line to someone whose arguments cannot be taken. -/
def refuse : IO UInt32 := do
  IO.eprint Report.help.output
  showReport .refusal

end SmallLisp.Terminal

open SmallLisp in
def main (args : List String) : IO UInt32 := do
  let environment ← IO.getEnv "PROCDRAW_MARGIN"
  match Request.ofArguments args with
  | .run g =>
      match g.resolveMargin? environment, g.expression, g.file with
      | some margin, some text, _ =>
          Terminal.finish (Program.runExpression text) (Program.machine margin)
      | some margin, none, some path =>
          let content ← Terminal.readContent path
          Terminal.finish (Program.runFile path content) (Program.machine margin)
      | some margin, none, none =>
          (Program.greeting.map (· ++ "\n")).forM fun line => IO.print line
          Terminal.converse "" (Program.machine margin)
          return 0
      | none, _, _ => Terminal.refuse
  | .refuse => Terminal.refuse
  | .version => Terminal.showReport .version
  | .help => Terminal.showReport .help
