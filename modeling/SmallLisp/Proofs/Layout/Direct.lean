import SmallLisp.Proofs.Layout.Measured

/-! # Layout by recursion on the datum

A datum can be laid out without pieces: it only has to know the column where it starts and how many
characters are glued to it. Where it fits together with these it is written on one line. Otherwise
the elements after the first one get lines of their own, and only the last of them has something
glued to it. Laying out the pieces in two passes gives the same text.
-/

namespace SmallLisp.Layout

mutual
/-- The text of a datum that starts at the column, when `glued` characters follow it before the
    next blank. -/
def direct (margin : Margin) (column glued : Nat) : Datum → String
  | .atom a => a.text
  | .cons head rest =>
      match head.sigil?, rest with
      | some s, .cons d .nil => s.text ++ direct margin (column + 1) glued d
      | _, rest =>
          let line := (Datum.cons head rest).display
          if margin.fits column (line.length + glued) then line
          else
            match head.isLambda, rest with
            | true, .cons params body =>
                "(lambda " ++ direct margin (column + "(lambda ".length) (glueAfter glued body) params ++
                  directTail margin (column + lambdaIndent) glued body ++ ")"
            | _, rest =>
                "(" ++ direct margin (column + "(".length) (glueAfter glued rest) head ++
                  directTail margin (column + listIndent) glued rest ++ ")"

/-- The text of what follows the first element of a list, each element on a line that starts at
    the column. -/
def directTail (margin : Margin) (column glued : Nat) : Datum → String
  | .nil => ""
  | .atom a => " . " ++ a.text
  | .cons d rest =>
      (Mark.lineBreak column).toText ++ direct margin column (glueAfter glued rest) d ++
        directTail margin column glued rest
end

open Datum (Bare opening)

variable {margin : Margin}

theorem direct_marked (column glued : Nat) (s : Sigil) (d : Datum) :
    direct margin column glued (.marked s d) = s.text ++ direct margin (column + 1) glued d := by
  cases s <;> rfl

theorem direct_list (column glued : Nat) {head rest : Datum} (bare : Bare head rest) :
    direct margin column glued (.cons head rest) =
      if margin.fits column ((Datum.cons head rest).display.length + glued) then
        (Datum.cons head rest).display
      else
        (opening head rest).text ++
          direct margin (column + (opening head rest).text.length)
            (glueAfter glued (opening head rest).others) (opening head rest).first ++
          directTail margin (column + (opening head rest).indent) glued
            (opening head rest).others ++ ")" := by
  rcases Datum.opening_cases head rest with ⟨params, body, lambda, rfl, found⟩ | ⟨plain, found⟩
  · rw [found, direct]
    · exact lambda
    · exact bare
  · rw [found, direct]
    · exact plain
    · exact bare

theorem fits_add {column a b : Nat} (fits : margin.fits column (a + b) = true) :
    margin.fits (column + a) b = true := by
  cases margin with
  | unbounded => rfl
  | columns n =>
      simp only [Margin.fits, decide_eq_true_eq] at fits ⊢
      omega

theorem fits_of_le {column small large : Nat} (fits : margin.fits column large = true)
    (le : small ≤ large) : margin.fits column small = true := by
  cases margin with
  | unbounded => rfl
  | columns n =>
      simp only [Margin.fits, decide_eq_true_eq] at fits ⊢
      omega

theorem glueAfter_le (glued : Nat) (rest : Datum) :
    glueAfter glued rest ≤ rest.displayTail.length + (1 + glued) := by
  unfold glueAfter
  split
  · omega
  · next a solid =>
      rw [Datum.displayTail_atom fun same => solid (by rw [same])]
      omega
  · omega

/-- The text of the pieces left. -/
def textFrom (margin : Margin) (column : Nat) (modes : List Mode) (pieces : List Piece) : String :=
  String.join ((marksFrom margin column modes pieces).map Mark.toText)

variable {column : Nat} {modes : List Mode} {rest : List Piece}

theorem textFrom_text (s : String) :
    textFrom margin column modes (.text s :: rest) =
      s ++ textFrom margin (column + s.length) modes rest := by
  simp [textFrom, marksFrom, Mark.toText]

theorem textFrom_blank_flat :
    textFrom margin column (.flat :: modes) (.blank :: rest) =
      " " ++ textFrom margin (column + 1) (.flat :: modes) rest := by
  simp [textFrom, marksFrom, Mark.toText]

theorem textFrom_blank_broken (start : Nat) :
    textFrom margin column (.broken start :: modes) (.blank :: rest) =
      (Mark.lineBreak start).toText ++ textFrom margin start (.broken start :: modes) rest := by
  simp [textFrom, marksFrom]

theorem textFrom_enter_fits {indent width : Nat} (fits : margin.fits column width = true) :
    textFrom margin column modes (.enter indent width :: rest) =
      textFrom margin column (.flat :: modes) rest := by
  simp [textFrom, marksFrom, fits]

theorem textFrom_enter_broken {indent width : Nat} (wide : margin.fits column width = false) :
    textFrom margin column modes (.enter indent width :: rest) =
      textFrom margin column (.broken (column + indent) :: modes) rest := by
  simp [textFrom, marksFrom, wide]

theorem textFrom_leave (mode : Mode) :
    textFrom margin column (mode :: modes) (.leave :: rest) =
      textFrom margin column modes rest := by
  simp [textFrom, marksFrom]

/-- Where there is room for the datum and what is glued to it, the second pass writes its line. -/
def WritesLine (margin : Margin) (d : Datum) : Prop :=
  ∀ column glued modes rest, margin.fits column (d.display.length + glued) = true →
    textFrom margin column modes (measured glued d ++ rest) =
      d.display ++ textFrom margin (column + d.display.length) modes rest

/-- The same for what follows the first element of a list on one line. -/
def WritesTailLine (margin : Margin) (others : Datum) : Prop :=
  ∀ column glued modes rest, margin.fits column (others.displayTail.length + (1 + glued)) = true →
    textFrom margin column (.flat :: modes) (measuredTail glued others ++ rest) =
      others.displayTail ++
        textFrom margin (column + others.displayTail.length) (.flat :: modes) rest

theorem writes_line (d : Datum) : WritesLine margin d ∧ WritesTailLine margin d := by
  refine Datum.written_induction ?atom ?marked ?list ?tailNil ?tailAtom ?tailCons d
  case atom =>
    intro a column glued modes rest _
    exact textFrom_text a.text
  case marked =>
    intro s d ih column glued modes rest fits
    rw [Datum.display_marked, String.length_append, Nat.add_assoc] at fits
    rw [measured_marked, List.cons_append, textFrom_text, ih _ glued _ _ (fits_add fits),
      Datum.display_marked, String.length_append, String.append_assoc, Nat.add_assoc]
  case list =>
    intro head rest bare _ _ first others column glued modes more fits
    rw [measured_list glued bare, List.cons_append, textFrom_enter_fits fits]
    rw [Datum.display_list bare] at fits ⊢
    generalize opening head rest = o at first others fits ⊢
    have closing : ")".length = 1 := rfl
    have room : margin.fits (column + o.text.length)
        (o.first.display.length + (o.others.displayTail.length + (1 + glued))) = true := by
      apply fits_add
      simpa [closing, String.length_append, Nat.add_assoc] using fits
    have roomFirst : margin.fits (column + o.text.length)
        (o.first.display.length + glueAfter glued o.others) = true :=
      fits_of_le room (Nat.add_le_add_left (glueAfter_le glued o.others) _)
    have roomOthers := fits_add room
    simp only [List.cons_append, List.append_assoc, List.nil_append]
    rw [textFrom_text, first _ _ _ _ roomFirst, others _ _ _ _ roomOthers, textFrom_text,
      textFrom_leave]
    simp [String.length_append, String.append_assoc, Nat.add_assoc]
  case tailNil =>
    intro column glued modes rest _
    simp [measuredTail, Datum.displayTail]
  case tailAtom =>
    intro a solid column glued modes rest _
    have pieces : measuredTail glued (.atom a) = [.text " . ", .text a.text] := by
      rw [measuredTail]
      exact solid
    rw [pieces, Datum.displayTail_atom solid, List.cons_append, textFrom_text, List.cons_append,
      textFrom_text, String.length_append, String.append_assoc, Nat.add_assoc]
    rfl
  case tailCons =>
    intro d others datum tail column glued modes rest fits
    have line : (Datum.cons d others).displayTail = " " ++ d.display ++ others.displayTail := rfl
    have blank : " ".length = 1 := rfl
    have room : margin.fits (column + 1)
        (d.display.length + (others.displayTail.length + (1 + glued))) = true := by
      apply fits_add
      simpa [line, blank, String.length_append, Nat.add_assoc] using fits
    have roomDatum : margin.fits (column + 1)
        (d.display.length + glueAfter glued others) = true :=
      fits_of_le room (Nat.add_le_add_left (glueAfter_le glued others) _)
    have roomOthers := fits_add room
    rw [measuredTail, List.cons_append, textFrom_blank_flat, List.append_assoc,
      datum _ _ _ _ roomDatum, tail _ _ _ _ roomOthers, line]
    simp [blank, String.length_append, String.append_assoc, Nat.add_assoc]

/-- The second pass writes the text that is laid out directly. The column after it plays no part:
    either all was on one line or the next blank starts a new one. -/
def WritesDirect (margin : Margin) (d : Datum) : Prop :=
  ∀ column glued modes, ∃ after, ∀ rest,
    textFrom margin column modes (measured glued d ++ rest) =
      direct margin column glued d ++ textFrom margin after modes rest

/-- The same for what follows the first element of a broken list. -/
def WritesTailDirect (margin : Margin) (others : Datum) : Prop :=
  ∀ column start glued modes, ∃ after, ∀ rest,
    textFrom margin column (.broken start :: modes) (measuredTail glued others ++ rest) =
      directTail margin start glued others ++ textFrom margin after (.broken start :: modes) rest

theorem writes_direct (d : Datum) : WritesDirect margin d ∧ WritesTailDirect margin d := by
  refine Datum.written_induction ?atom ?marked ?list ?tailNil ?tailAtom ?tailCons d
  case atom =>
    intro a column glued modes
    exact ⟨_, fun rest => textFrom_text a.text⟩
  case marked =>
    intro s d ih column glued modes
    obtain ⟨after, written⟩ := ih (column + s.text.length) glued modes
    refine ⟨after, fun rest => ?_⟩
    have one : s.text.length = 1 := by cases s <;> rfl
    rw [measured_marked, List.cons_append, textFrom_text, written, direct_marked, one,
      String.append_assoc]
  case list =>
    intro head rest bare _ _ first others column glued modes
    cases fits : margin.fits column ((Datum.cons head rest).display.length + glued) with
    | true =>
        refine ⟨column + (Datum.cons head rest).display.length, fun more => ?_⟩
        rw [direct_list column glued bare, if_pos fits]
        exact (writes_line (.cons head rest)).1 column glued modes more fits
    | false =>
        have pieces := measured_list glued bare
        have text := @direct_list margin column glued _ _ bare
        rw [fits] at text
        generalize opening head rest = o at first others pieces text
        obtain ⟨afterFirst, writtenFirst⟩ := first (column + o.text.length)
          (glueAfter glued o.others) (.broken (column + o.indent) :: modes)
        obtain ⟨afterOthers, writtenOthers⟩ := others afterFirst (column + o.indent) glued modes
        refine ⟨afterOthers + ")".length, fun more => ?_⟩
        rw [pieces, text, List.cons_append, textFrom_enter_broken fits]
        simp only [List.cons_append, List.append_assoc, List.nil_append]
        rw [textFrom_text, writtenFirst, writtenOthers, textFrom_text, textFrom_leave]
        simp [String.append_assoc]
  case tailNil =>
    intro column start glued modes
    exact ⟨column, fun rest => by simp [measuredTail, directTail]⟩
  case tailAtom =>
    intro a solid column start glued modes
    refine ⟨column + " . ".length + a.text.length, fun rest => ?_⟩
    rw [measuredTail, directTail, List.cons_append, textFrom_text, List.cons_append, textFrom_text,
      String.append_assoc]
    · rfl
    all_goals exact solid
  case tailCons =>
    intro d others datum tail column start glued modes
    obtain ⟨afterDatum, writtenDatum⟩ :=
      datum start (glueAfter glued others) (.broken start :: modes)
    obtain ⟨afterTail, writtenTail⟩ := tail afterDatum start glued modes
    refine ⟨afterTail, fun rest => ?_⟩
    rw [measuredTail, directTail, List.cons_append, textFrom_blank_broken, List.append_assoc,
      writtenDatum, writtenTail, String.append_assoc, String.append_assoc]

theorem pretty_eq_textFrom (margin : Margin) (d : Datum) :
    d.pretty margin = textFrom margin 0 [] (measured 0 d) := by
  rw [← pieces_eq_measured]
  rfl

theorem textFrom_measured (margin : Margin) (d : Datum) :
    textFrom margin 0 [] (measured 0 d) = direct margin 0 0 d := by
  obtain ⟨_, written⟩ := (@writes_direct margin d).1 0 0 []
  have whole := written []
  rw [List.append_nil] at whole
  exact whole.trans String.append_empty

/-- The two passes of the printer give the text that is laid out directly, from column zero and
    with nothing glued to it. -/
theorem pretty_eq_direct (margin : Margin) (d : Datum) : d.pretty margin = direct margin 0 0 d :=
  (pretty_eq_textFrom margin d).trans (textFrom_measured margin d)

end SmallLisp.Layout
