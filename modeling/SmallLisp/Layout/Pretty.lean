import SmallLisp.Layout.Piece

/-! # Data within a margin

The second pass walks the measured pieces once. A block that fits in what is left of the line is
written on one line; the blanks of any other block become line breaks. -/

namespace SmallLisp.Layout

/-- The column that lines should not pass. -/
inductive Margin where
  | columns (n : Nat)
  | unbounded
  deriving DecidableEq, Repr

/-- A block of this width fits behind the column. -/
def Margin.fits : Margin → (column width : Nat) → Bool
  | .columns n, column, width => width ≤ n - column
  | .unbounded, _, _ => true

/-- How a block is laid out. -/
inductive Mode where
  /-- Its blanks are spaces. -/
  | flat
  /-- Its blanks are line breaks, and the lines after them start at this column. -/
  | broken (column : Nat)
  deriving DecidableEq, Repr

/-- A piece as it is written. -/
inductive Mark where
  | text (s : String)
  | space
  /-- A line break and the spaces that set the next line in. -/
  | lineBreak (column : Nat)
  deriving DecidableEq, Repr

def Mark.toText : Mark → String
  | .text s => s
  | .space => " "
  | .lineBreak column => String.ofList ('\n' :: List.replicate column ' ')

/-- Lay out the pieces left. The column and the modes of the blocks around, innermost first, say
    what came before. -/
def marksFrom (margin : Margin) (column : Nat) (modes : List Mode) : List Piece → List Mark
  | [] => []
  | .text s :: rest => .text s :: marksFrom margin (column + s.length) modes rest
  | .blank :: rest =>
      match modes.head? with
      | some (.broken start) => .lineBreak start :: marksFrom margin start modes rest
      | _ => .space :: marksFrom margin (column + 1) modes rest
  | .enter indent width :: rest =>
      let mode := if margin.fits column width then .flat else .broken (column + indent)
      marksFrom margin column (mode :: modes) rest
  | .leave :: rest => marksFrom margin column modes.tail rest

def marks (margin : Margin) (d : Datum) : List Mark :=
  marksFrom margin 0 [] (pieces d)

end SmallLisp.Layout

namespace SmallLisp.Datum

/-- The datum, with line breaks where it passes the margin. -/
def pretty (margin : Layout.Margin) (d : Datum) : String :=
  String.join ((Layout.marks margin d).map Layout.Mark.toText)

/-- The datum on a single line. -/
def flat (d : Datum) : String := d.pretty .unbounded

end SmallLisp.Datum
