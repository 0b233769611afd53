import SmallLisp.Datum.Display

/-! # Measured pieces

A datum is laid out in two passes. The first one, here, writes it as a sequence of pieces: texts,
blanks that may become line breaks, and blocks around lists. Each block is given the width that it
takes on one line, together with the text that is glued to its end: the characters up to the next
blank after the block. It is known only once that blank or the end is reached, so the measure keeps
the blocks that are still open and those that were closed since the last blank. -/

namespace SmallLisp.Layout

/-- A part of a datum to lay out. -/
inductive Piece where
  | text (s : String)
  /-- A space that may become a line break. -/
  | blank
  /-- The start of a block, how far its broken lines are set in, and its width. -/
  | enter (indent width : Nat)
  | leave
  deriving DecidableEq, Repr

/-- How far the elements of a broken list are set in. -/
def listIndent : Nat := 1

/-- How far the body of a broken function literal is set in. -/
def lambdaIndent : Nat := 2

def Piece.widen (extra : Nat) : Piece → Piece
  | .enter indent width => .enter indent (width + extra)
  | piece => piece

/-- The pieces written so far, and what is needed to measure the blocks among them. -/
structure Measure where
  pieces : Array Piece
  /-- The width of all pieces on one line. -/
  width : Nat
  /-- The open blocks, innermost first: where the block starts among the pieces, and the width
      before it. -/
  opened : List (Nat × Nat)
  /-- Where the blocks start that ended after the last blank. -/
  ended : List Nat

namespace Measure

def empty : Measure := ⟨#[], 0, [], []⟩

/-- Write a text. It is glued to the blocks that ended after the last blank. -/
def text (s : String) (m : Measure) : Measure :=
  { m with
    pieces := (m.ended.foldl (fun ps i => ps.modify i (Piece.widen s.length)) m.pieces).push (.text s)
    width := m.width + s.length }

def blank (m : Measure) : Measure :=
  { m with pieces := m.pieces.push .blank, width := m.width + 1, ended := [] }

def enter (indent : Nat) (m : Measure) : Measure :=
  let start := m.pieces.size
  { m with pieces := m.pieces.push (.enter indent 0), opened := (start, m.width) :: m.opened }

/-- End the innermost block and give it the width written since its start. -/
def leave (m : Measure) : Measure :=
  match m.opened with
  | [] => { m with pieces := m.pieces.push .leave }
  | (start, before) :: opened =>
      { m with
        pieces := (m.pieces.push .leave).modify start (Piece.widen (m.width - before))
        opened := opened
        ended := start :: m.ended }

mutual
def datum (m : Measure) : Datum → Measure
  | .atom a => m.text a.text
  | .cons head rest =>
      match head.sigil?, rest with
      | some s, .cons d .nil => datum (m.text s.text) d
      | _, rest =>
          match head.isLambda, rest with
          | true, .cons params body =>
              ((tail (datum ((m.enter lambdaIndent).text "(lambda ") params) body).text ")").leave
          | _, rest =>
              ((tail (datum ((m.enter listIndent).text "(") head) rest).text ")").leave

/-- Write the elements that follow the first one of a list, each after a blank. -/
def tail (m : Measure) : Datum → Measure
  | .nil => m
  | .atom a => (m.text " . ").text a.text
  | .cons d rest => tail (datum m.blank d) rest
end

end Measure

def pieces (d : Datum) : List Piece :=
  (Measure.empty.datum d).pieces.toList

end SmallLisp.Layout
