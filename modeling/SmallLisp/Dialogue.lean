import SmallLisp.Balance
import SmallLisp.Datum.Reader

/-! # Dialogue

A dialogue takes lines. Lines are gathered in a buffer until they make a balanced text, whose data
are then evaluated; a text that closes too much is thrown away. On an empty buffer a line may be a
command. -/

namespace SmallLisp

/-- A line that is about the dialogue itself. -/
inductive Command where
  | quit
  | help
  /-- Show the global bindings. -/
  | bindings
  deriving DecidableEq, Repr

/-- The command that a line gives. Blanks around it do not count. -/
def Command.ofLine? (line : String) : Option Command :=
  match String.ofList (trimBlanks line.toList) with
  | ",quit" | ",exit" | ",q" => some .quit
  | ",help" | ",h" => some .help
  | ",env" => some .bindings
  | _ => none

namespace Dialogue

/-- What a line calls for. -/
inductive Reply where
  | command (c : Command)
  /-- Nothing, for nothing but blanks was typed. -/
  | nothing
  /-- Wait for the rest of the text. -/
  | wait
  /-- Complain of a closing parenthesis too many. -/
  | overclosed
  /-- Evaluate what was read. -/
  | evaluate (r : Reading (List Datum))

/-- The reply to a line, and the buffer after it. -/
structure Turn where
  reply : Reply
  buffer : String

/-- Take a text that was typed since the buffer was empty. -/
def judge (text : String) : Turn :=
  if text.toList.all isBlank then ⟨.nothing, ""⟩
  else
    match balance text with
    | .unclosed => ⟨.wait, text⟩
    | .overclosed => ⟨.overclosed, ""⟩
    | .balanced => ⟨.evaluate (readMany text), ""⟩

def feed (buffer line : String) : Turn :=
  if buffer.isEmpty then
    match Command.ofLine? line with
    | some c => ⟨.command c, ""⟩
    | none => judge line
  else judge (buffer ++ "\n" ++ line)

/-- The line typed so far, in reverse, without a carriage return at its end. -/
def dropReturn : List Char → List Char
  | '\r' :: typed => typed
  | typed => typed

/-- The lines of a text that goes on a line whose beginning is given in reverse. A last line needs no
    line feed, and a carriage return before a line feed belongs to no line. -/
def linesFrom (typed : List Char) : List Char → List String
  | [] => if typed.isEmpty then [] else [String.ofList typed.reverse]
  | '\n' :: rest => String.ofList (dropReturn typed).reverse :: linesFrom [] rest
  | c :: rest => linesFrom (c :: typed) rest

def lines (text : String) : List String :=
  linesFrom [] text.toList

end Dialogue

end SmallLisp
