import SmallLisp.Proofs.Layout.Marks

/-! # A narrow and a wide margin

A datum is laid out within two margins. Where both layouts break all lists around an element, the
element starts at the same column in both. A list that the wide margin breaks there is then broken by
the narrow one too, with its lines set in as far; and a list that fits within the wide margin has no
line break in that layout, whatever becomes of it in the other. So every line break of the wide layout
stands in the narrow one.
-/

namespace SmallLisp.Layout

open Datum (Bare opening)

def Margin.le : Margin → Margin → Prop
  | _, .unbounded => True
  | .unbounded, .columns _ => False
  | .columns a, .columns b => a ≤ b

instance : LE Margin := ⟨Margin.le⟩

variable {narrow wide : Margin}

/-- What fits within a margin fits within a wider one. -/
theorem Margin.fits_of_le {column width : Nat} (le : narrow ≤ wide)
    (fits : narrow.fits column width = true) : wide.fits column width = true := by
  cases wide with
  | unbounded => rfl
  | columns b =>
      cases narrow with
      | unbounded => cases le
      | columns a =>
          have wider : a ≤ b := le
          simp only [Margin.fits, decide_eq_true_eq] at fits ⊢
          omega

/-- Both marks were written for the same piece, and if the first is a line break, so is the second, to
    the same column. -/
def Mark.Follows (mark other : Mark) : Prop :=
  mark.piece = other.piece ∧ (mark.isBreak = true → other = mark)

theorem Mark.Follows.refl (mark : Mark) : mark.Follows mark := ⟨rfl, fun _ => rfl⟩

section

variable {marks others : List Mark}

theorem follows_of_plain (aligned : Aligned marks others)
    (plain : ∀ mark ∈ marks, mark.isBreak = false) : List.Forall₂ Mark.Follows marks others := by
  induction aligned with
  | nil => exact .nil
  | cons first _ ih =>
      obtain ⟨here, later⟩ := List.forall_mem_cons.mp plain
      exact .cons ⟨first, fun broken => by rw [here] at broken; cases broken⟩ (ih later)

theorem lineBreak_of_follows (follows : List.Forall₂ Mark.Follows marks others) {i column : Nat}
    (broken : marks[i]? = some (.lineBreak column)) : others[i]? = some (.lineBreak column) := by
  induction follows generalizing i with
  | nil => cases broken
  | cons first rest ih =>
      cases i with
      | zero =>
          obtain rfl := Option.some.inj broken
          exact congrArg some (first.2 rfl)
      | succ i => exact ih broken

theorem countP_isBreak_of_follows (follows : List.Forall₂ Mark.Follows marks others) :
    marks.countP Mark.isBreak ≤ others.countP Mark.isBreak := by
  induction follows with
  | nil => exact Nat.le_refl 0
  | @cons mark other marks others first rest ih =>
      cases broken : mark.isBreak with
      | false =>
          rw [List.countP_cons_of_neg (by simp [broken])]
          exact Nat.le_trans ih (by simp [List.countP_cons])
      | true =>
          rw [first.2 broken, List.countP_cons_of_pos broken, List.countP_cons_of_pos broken]
          exact Nat.succ_le_succ ih

end

/-- From the same column on, every line break of the wide layout stands in the narrow one. -/
def BreaksToo (narrow wide : Margin) (d : Datum) : Prop :=
  ∀ (column glued : Nat) (modes modes' : List Mode),
    List.Forall₂ Mark.Follows (marksFrom wide column modes (measured glued d))
      (marksFrom narrow column modes' (measured glued d))

/-- The same for what follows the first element of a list that both layouts break. The columns after
    the first element play no part, since a line break is the next thing to come. -/
def BreaksTailToo (narrow wide : Margin) (others : Datum) : Prop :=
  ∀ (column column' start glued : Nat) (modes modes' : List Mode),
    List.Forall₂ Mark.Follows
      (marksFrom wide column (.broken start :: modes) (measuredTail glued others))
      (marksFrom narrow column' (.broken start :: modes') (measuredTail glued others))

theorem breaksToo_list {head rest : Datum} (le : narrow ≤ wide) (bare : Bare head rest)
    (first : BreaksToo narrow wide (opening head rest).first)
    (others : BreaksTailToo narrow wide (opening head rest).others) :
    BreaksToo narrow wide (.cons head rest) := by
  intro column glued modes modes'
  cases fits : wide.fits column ((Datum.cons head rest).display.length + glued) with
  | true =>
      -- The narrow layout may break the list or what is in it. Only the wide one has to have no break.
      exact follows_of_plain (aligned_marksFrom ..) (isBreak_of_fits modes fits)
  | false =>
      have fitsNot : narrow.fits column ((Datum.cons head rest).display.length + glued) = false :=
        Bool.eq_false_iff.mpr fun fitsNarrow => by simp [Margin.fits_of_le le fitsNarrow] at fits
      obtain ⟨after, broken⟩ := marksFrom_broken bare modes fits
      obtain ⟨after', broken'⟩ := marksFrom_broken bare modes' fitsNot
      rw [broken, broken']
      refine .cons (.refl _) (List.rel_append (first _ _ _ _) ?_)
      exact List.rel_append (others _ _ _ _ _ _) (.cons (.refl _) .nil)

theorem breaksToo (le : narrow ≤ wide) (d : Datum) :
    BreaksToo narrow wide d ∧ BreaksTailToo narrow wide d := by
  refine Datum.written_induction ?atom ?marked (fun _ _ bare _ _ => breaksToo_list le bare) ?tailNil
    ?tailAtom ?tailCons d
  case atom => exact fun a column glued modes modes' => .cons (.refl _) .nil
  case marked =>
    intro s d ih column glued modes modes'
    rw [marksFrom_marked, marksFrom_marked]
    exact .cons (.refl _) (ih _ glued modes modes')
  case tailNil => exact fun column column' start glued modes modes' => .nil
  case tailAtom =>
    intro a solid column column' start glued modes modes'
    rw [marksFrom_tailAtom solid, marksFrom_tailAtom solid]
    exact .cons (.refl _) (.cons (.refl _) .nil)
  case tailCons =>
    intro d rest datum tail column column' start glued modes modes'
    obtain ⟨after, broken⟩ := @marksFrom_tailCons wide column start glued modes d rest
    obtain ⟨after', broken'⟩ := @marksFrom_tailCons narrow column' start glued modes' d rest
    rw [broken, broken']
    exact .cons (.refl _) (List.rel_append (datum _ _ _ _) (tail _ _ _ _ _ _))

/-- Whatever the margin, a layout has one mark for each text and each blank of the datum, in their
    order. Each of them that is a line break within the wide margin is a line break within the narrow
    one, to the same column; so there are at least as many there. -/
theorem wide_lineBreaks_are_narrow (le : narrow ≤ wide) (d : Datum) :
    (∀ margin, (marks margin d).map Mark.piece = (pieces d).filter Piece.isShown) ∧
      (∀ i column : Nat, (marks wide d)[i]? = some (.lineBreak column) →
        (marks narrow d)[i]? = some (.lineBreak column)) ∧
      (marks wide d).countP Mark.isBreak ≤ (marks narrow d).countP Mark.isBreak := by
  have follows := (breaksToo le d).1 0 0 [] []
  rw [← marks_eq_marksFrom, ← marks_eq_marksFrom] at follows
  refine ⟨fun margin => map_piece_marksFrom margin 0 [] (pieces d), fun i column => ?_, ?_⟩
  · exact lineBreak_of_follows follows
  · exact countP_isBreak_of_follows follows

/-- Within ten columns the list in front is on one line, within five it is broken as well. -/
theorem wide_lineBreaks_are_narrow_nested :
    let d := Datum.list [.list [.symbol "ab", .symbol "cd"], .symbol "efgh"]
    Margin.columns 5 ≤ .columns 10 ∧ d.pretty (.columns 10) = "((ab cd)\n efgh)" ∧
      d.pretty (.columns 5) = "((ab\n  cd)\n efgh)" ∧
      (marks (.columns 10) d)[6]? = some (.lineBreak 1) ∧
      (marks (.columns 5) d)[6]? = some (.lineBreak 1) := by
  intro d
  have le : Margin.columns 5 ≤ .columns 10 := by
    change 5 ≤ 10
    decide
  have broken : (marks (.columns 10) d)[6]? = some (.lineBreak 1) := by decide +kernel
  exact ⟨le, by decide +kernel, by decide +kernel, broken,
    (wide_lineBreaks_are_narrow le d).2.1 6 1 broken⟩

end SmallLisp.Layout
