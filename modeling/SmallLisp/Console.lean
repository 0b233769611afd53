import SmallLisp.Machine

/-! # The console

The host of a command line keeps the lines that were printed, the complaints, and the margin that
values are laid out in. -/

namespace SmallLisp

/-- What was printed, line by line, and the margin for printing. A line may itself hold line
    breaks. -/
structure Console where
  margin : Layout.Margin
  lines : List String
  /-- Complaints, which do not belong to the output. -/
  complaints : List String

namespace Console

def empty (margin : Layout.Margin) : Console := ⟨margin, [], []⟩

def printLine (line : String) (c : Console) : Console :=
  { c with lines := c.lines ++ [line] }

def complain (line : String) (c : Console) : Console :=
  { c with complaints := c.complaints ++ [line] }

def toText (c : Console) : String :=
  String.join (c.lines.map (· ++ "\n"))

/-- The values of a list within a margin, side by side. -/
def lineOf {F σ : Type} (margin : Layout.Margin) (list : Value F) : Action F σ String := do
  let values ← Action.walk (·.elements? list)
  return " ".intercalate (← values.mapM (Action.pretty margin))

end Console

/-- The one function that a command line adds to a machine. -/
inductive ConsoleFunction where
  | print
  deriving DecidableEq, Repr

def Console.host : Host ConsoleFunction Console where
  functions := [.print]
  name := fun | .print => "print"
  call := fun _ f args _ =>
    match f with
    | .print => do
        let line ← Console.lineOf (← get).host.margin args
        Action.onHost fun c => (.nil, c.printLine line)

end SmallLisp
