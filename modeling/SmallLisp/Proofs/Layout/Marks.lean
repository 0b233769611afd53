import Mathlib.Data.List.Forall2
import SmallLisp.Proofs.Layout.Direct

/-! # Layouts mark by mark

The second pass writes one mark for each text and each blank, whatever the margin, so two layouts of a
datum differ only in which of their blanks are line breaks. A datum that fits has none.

The pieces of a datum are nested: every block that starts among them ends among them. The second pass
therefore comes out of a datum in the blocks in which it went into it, and the marks of a list that is
broken are put together from those of its elements.
-/

namespace SmallLisp.Layout

open Datum (Bare opening)

/-- The piece is written as a mark. -/
def Piece.isShown : Piece → Bool
  | .text _ | .blank => true
  | .enter _ _ | .leave => false

/-- The piece that the mark was written for. -/
def Mark.piece : Mark → Piece
  | .text s => .text s
  | .space | .lineBreak _ => .blank

def Mark.isBreak : Mark → Bool
  | .lineBreak _ => true
  | .text _ | .space => false

variable {margin : Margin} {column glued : Nat} {modes : List Mode} {pieces : List Piece}

theorem map_piece_marksFrom (margin : Margin) (column : Nat) (modes : List Mode)
    (pieces : List Piece) :
    (marksFrom margin column modes pieces).map Mark.piece = pieces.filter Piece.isShown := by
  fun_induction marksFrom margin column modes pieces with
  | case1 => rfl
  | case2 column modes s rest ih =>
      rw [List.map_cons, ih, List.filter_cons_of_pos rfl]
      rfl
  | case3 column modes rest start broken ih =>
      rw [List.map_cons, ih, List.filter_cons_of_pos rfl]
      rfl
  | case4 column modes rest flat ih =>
      rw [List.map_cons, ih, List.filter_cons_of_pos rfl]
      rfl
  | case5 column modes indent width rest mode ih => exact ih
  | case6 column modes rest ih => exact ih

/-- The marks were written for the same pieces. -/
def Aligned (marks others : List Mark) : Prop :=
  List.Forall₂ (fun mark other => mark.piece = other.piece) marks others

theorem aligned_marksFrom (margin other : Margin) (column column' : Nat) (modes modes' : List Mode)
    (pieces : List Piece) :
    Aligned (marksFrom margin column modes pieces) (marksFrom other column' modes' pieces) := by
  have same : (marksFrom margin column modes pieces).map Mark.piece =
      (marksFrom other column' modes' pieces).map Mark.piece := by
    rw [map_piece_marksFrom, map_piece_marksFrom]
  rw [← List.forall₂_eq_eq_eq, List.forall₂_map_left_iff, List.forall₂_map_right_iff] at same
  exact same

theorem piece_of_isBreak {mark : Mark} (isBreak : mark.isBreak = true) : mark.piece = .blank := by
  cases mark with
  | text s => cases isBreak
  | space | lineBreak => rfl

/-- The text of marks. -/
def textOf (marks : List Mark) : String := String.join (marks.map Mark.toText)

theorem textOf_cons (mark : Mark) (marks : List Mark) :
    textOf (mark :: marks) = mark.toText ++ textOf marks := by
  simp [textOf]

theorem textOf_append (first second : List Mark) :
    textOf (first ++ second) = textOf first ++ textOf second := by
  induction first with
  | nil => simp [textOf]
  | cons mark first ih => rw [List.cons_append, textOf_cons, textOf_cons, ih, String.append_assoc]

theorem Mark.eq_of_piece_eq {mark other : Mark} (same : mark.piece = other.piece)
    (plain : mark.isBreak = false) (plainOther : other.isBreak = false) : mark = other := by
  cases mark with
  | lineBreak => cases plain
  | text s =>
      cases other with
      | text t => rw [Piece.text.inj same]
      | space | lineBreak => cases same
  | space =>
      cases other with
      | text => cases same
      | space => rfl
      | lineBreak => cases plainOther

/-- Without line breaks there is one way to write pieces. -/
theorem eq_of_plain {marks others : List Mark} (aligned : Aligned marks others)
    (plain : ∀ mark ∈ marks, mark.isBreak = false)
    (plainOthers : ∀ mark ∈ others, mark.isBreak = false) : marks = others := by
  induction aligned with
  | nil => rfl
  | cons first _ ih =>
      obtain ⟨here, later⟩ := List.forall_mem_cons.mp plain
      obtain ⟨hereOther, laterOthers⟩ := List.forall_mem_cons.mp plainOthers
      rw [Mark.eq_of_piece_eq first here hereOther, ih later laterOthers]

/-- A line break is not written as a space is, so marks with the text of marks for the same pieces
    that have no line break have none either. -/
theorem plain_of_textOf_eq {marks others : List Mark} (aligned : Aligned marks others)
    (plain : ∀ mark ∈ others, mark.isBreak = false) (same : textOf marks = textOf others) :
    ∀ mark ∈ marks, mark.isBreak = false := by
  induction aligned with
  | nil => simp
  | @cons mark other marks others first _ ih =>
      obtain ⟨here, later⟩ := List.forall_mem_cons.mp plain
      rw [textOf_cons, textOf_cons] at same
      have flat : mark.isBreak = false := by
        cases mark with
        | text | space => rfl
        | lineBreak column =>
            cases other with
            | text => cases first
            | lineBreak => cases here
            | space =>
                have chars := congrArg (·.toList.head?) same
                simp [Mark.toText] at chars
      obtain rfl := Mark.eq_of_piece_eq first flat here
      exact List.forall_mem_cons.mpr ⟨flat, ih later ((String.append_right_inj _).mp same)⟩

theorem isBreak_marksFrom_unbounded (flat : ∀ mode ∈ modes, mode = .flat) :
    ∀ mark ∈ marksFrom .unbounded column modes pieces, mark.isBreak = false := by
  induction pieces generalizing column modes with
  | nil => simp [marksFrom]
  | cons piece rest ih =>
      cases piece with
      | text s => exact List.forall_mem_cons.mpr ⟨rfl, ih flat⟩
      | blank =>
          cases modes with
          | nil => exact List.forall_mem_cons.mpr ⟨rfl, ih flat⟩
          | cons mode modes =>
              obtain rfl := flat mode List.mem_cons_self
              exact List.forall_mem_cons.mpr ⟨rfl, ih flat⟩
      | enter indent width => exact ih (List.forall_mem_cons.mpr ⟨rfl, flat⟩)
      | leave => exact ih fun mode among => flat mode (List.mem_of_mem_tail among)

theorem textOf_of_fits {d : Datum} (modes : List Mode)
    (fits : margin.fits column (d.display.length + glued) = true) :
    textOf (marksFrom margin column modes (measured glued d)) = d.display := by
  have written := (@writes_line margin d).1 column glued modes [] fits
  rw [List.append_nil] at written
  exact written.trans String.append_empty

/-- Where there is room for a datum and what is glued to it, none of its blanks is a line break. -/
theorem isBreak_of_fits {d : Datum} (modes : List Mode)
    (fits : margin.fits column (d.display.length + glued) = true) :
    ∀ mark ∈ marksFrom margin column modes (measured glued d), mark.isBreak = false := by
  have flat : ∀ mark ∈ marksFrom .unbounded column [] (measured glued d), mark.isBreak = false :=
    isBreak_marksFrom_unbounded (by simp)
  apply plain_of_textOf_eq (aligned_marksFrom ..) flat
  rw [textOf_of_fits modes fits]
  exact (@textOf_of_fits .unbounded column glued d [] rfl).symm

/-- Every block that starts among the pieces ends among them, and none ends that has not started. -/
inductive Nested : List Piece → Prop where
  | nil : Nested []
  | text (s : String) {rest : List Piece} : Nested rest → Nested (.text s :: rest)
  | blank {rest : List Piece} : Nested rest → Nested (.blank :: rest)
  | block (indent width : Nat) {inner rest : List Piece} : Nested inner → Nested rest →
      Nested (.enter indent width :: (inner ++ .leave :: rest))

theorem Nested.append {first second : List Piece} (nested : Nested first)
    (others : Nested second) : Nested (first ++ second) := by
  induction nested with
  | nil => exact others
  | text s _ ih => exact .text s ih
  | blank _ ih => exact .blank ih
  | block indent width inner _ _ ih =>
      simpa using Nested.block indent width inner ih

theorem measured_nested (d : Datum) :
    (∀ glued, Nested (measured glued d)) ∧ ∀ glued, Nested (measuredTail glued d) := by
  refine @Datum.written_induction (fun d => ∀ glued, Nested (measured glued d))
    (fun d => ∀ glued, Nested (measuredTail glued d)) ?atom ?marked ?list ?tailNil ?tailAtom
    ?tailCons d
  case atom => exact fun a glued => .text a.text .nil
  case marked =>
    intro s d ih glued
    rw [measured_marked]
    exact .text s.text (ih glued)
  case list =>
    intro head rest bare _ _ first others glued
    rw [measured_list glued bare]
    have inner := (first (glueAfter glued (opening head rest).others)).append
      ((others glued).append (.text ")" .nil))
    simpa using Nested.block (opening head rest).indent _ (inner.text (opening head rest).text) .nil
  case tailNil => exact fun glued => .nil
  case tailAtom =>
    intro a solid glued
    rw [measuredTail]
    · exact .text " . " (.text a.text .nil)
    · exact solid
  case tailCons => exact fun d rest datum tail glued => .blank ((datum _).append (tail glued))

/-- Nested pieces leave the blocks around them as they were. Only the column after them is a matter
    of the pieces. -/
theorem Nested.marksFrom_append (nested : Nested pieces) (margin : Margin) (column : Nat)
    (modes : List Mode) :
    ∃ after, ∀ rest, marksFrom margin column modes (pieces ++ rest) =
      marksFrom margin column modes pieces ++ marksFrom margin after modes rest := by
  induction nested generalizing column modes with
  | nil => exact ⟨column, fun rest => rfl⟩
  | text s _ ih =>
      obtain ⟨after, split⟩ := ih (column + s.length) modes
      exact ⟨after, fun rest => by simp [marksFrom, split]⟩
  | blank _ ih =>
      rcases modes with _ | ⟨_ | start, modes⟩
      · obtain ⟨after, split⟩ := ih (column + 1) []
        exact ⟨after, fun rest => by simp [marksFrom, split]⟩
      · obtain ⟨after, split⟩ := ih (column + 1) (.flat :: modes)
        exact ⟨after, fun rest => by simp [marksFrom, split]⟩
      · obtain ⟨after, split⟩ := ih start (.broken start :: modes)
        exact ⟨after, fun rest => by simp [marksFrom, split]⟩
  | block indent width _ _ ihInner ih =>
      let mode := if margin.fits column width then Mode.flat else .broken (column + indent)
      obtain ⟨between, splitInner⟩ := ihInner column (mode :: modes)
      obtain ⟨after, split⟩ := ih between modes
      refine ⟨after, fun rest => ?_⟩
      simp [marksFrom, mode, splitInner, split]

theorem marksFrom_marked (column glued : Nat) (modes : List Mode) (s : Sigil) (d : Datum) :
    marksFrom margin column modes (measured glued (.marked s d)) =
      .text s.text :: marksFrom margin (column + s.text.length) modes (measured glued d) := by
  rw [measured_marked, marksFrom]

/-- The marks of a list that is broken: its opening, its first element behind that, and what follows
    in the block that starts new lines. -/
theorem marksFrom_broken {head rest : Datum} (bare : Bare head rest) (modes : List Mode)
    (wide : margin.fits column ((Datum.cons head rest).display.length + glued) = false) :
    ∃ after, marksFrom margin column modes (measured glued (.cons head rest)) =
      .text (opening head rest).text ::
        (marksFrom margin (column + (opening head rest).text.length)
          (.broken (column + (opening head rest).indent) :: modes)
          (measured (glueAfter glued (opening head rest).others) (opening head rest).first) ++
        (marksFrom margin after (.broken (column + (opening head rest).indent) :: modes)
          (measuredTail glued (opening head rest).others) ++ [.text ")"])) := by
  rw [measured_list glued bare]
  generalize opening head rest = o
  obtain ⟨after, splitFirst⟩ := ((measured_nested o.first).1 (glueAfter glued o.others)).marksFrom_append
    margin (column + o.text.length) (.broken (column + o.indent) :: modes)
  obtain ⟨last, splitOthers⟩ := ((measured_nested o.others).2 glued).marksFrom_append
    margin after (.broken (column + o.indent) :: modes)
  refine ⟨after, ?_⟩
  simp [marksFrom, wide, splitFirst, splitOthers]

theorem marksFrom_tailCons (column start glued : Nat) (modes : List Mode) (d rest : Datum) :
    ∃ after, marksFrom margin column (.broken start :: modes) (measuredTail glued (.cons d rest)) =
      .lineBreak start ::
        (marksFrom margin start (.broken start :: modes) (measured (glueAfter glued rest) d) ++
          marksFrom margin after (.broken start :: modes) (measuredTail glued rest)) := by
  obtain ⟨after, split⟩ := ((measured_nested d).1 (glueAfter glued rest)).marksFrom_append
    margin start (.broken start :: modes)
  exact ⟨after, by simp [measuredTail, marksFrom, split]⟩

theorem marksFrom_tailAtom {a : Atom} (solid : a ≠ .nil) (column glued : Nat) (modes : List Mode) :
    marksFrom margin column modes (measuredTail glued (.atom a)) = [.text " . ", .text a.text] := by
  rw [measuredTail]
  · rfl
  · exact solid

theorem marks_eq_marksFrom (margin : Margin) (d : Datum) :
    marks margin d = marksFrom margin 0 [] (measured 0 d) := by
  rw [marks, pieces_eq_measured]

end SmallLisp.Layout
