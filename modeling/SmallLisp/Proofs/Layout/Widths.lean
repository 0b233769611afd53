import SmallLisp.Proofs.Layout.Marks

/-! # The widths of blocks

Once a datum is measured, each block has the width of all that stands in it and of the text that is
glued to its end, up to the next blank. No block is left open, and none is ended that was not started
before: the measure comes through also if it refuses to end a block where none is open, or where the
width has become less than at the start of the block.
-/

namespace SmallLisp.Layout

open Datum (Bare opening)

/-- The characters of a piece on one line. -/
def Piece.width : Piece → Nat
  | .text s => s.length
  | .blank => 1
  | .enter _ _ | .leave => 0

def widthOf : List Piece → Nat
  | [] => 0
  | piece :: pieces => piece.width + widthOf pieces

/-- The width up to the first blank. -/
def leadOf (pieces : List Piece) : Nat := widthOf (pieces.takeWhile (· ≠ .blank))

@[simp] theorem widthOf_nil : widthOf [] = 0 := rfl

@[simp] theorem widthOf_cons (piece : Piece) (pieces : List Piece) :
    widthOf (piece :: pieces) = piece.width + widthOf pieces := rfl

@[simp] theorem widthOf_append (first second : List Piece) :
    widthOf (first ++ second) = widthOf first + widthOf second := by
  induction first with
  | nil => simp
  | cons piece first ih => simp [ih, Nat.add_assoc]

@[simp] theorem leadOf_blank (pieces : List Piece) : leadOf (.blank :: pieces) = 0 := rfl

@[simp] theorem leadOf_leave (pieces : List Piece) : leadOf (.leave :: pieces) = leadOf pieces := by
  simp [leadOf, Piece.width]

@[simp] theorem leadOf_text (s : String) (pieces : List Piece) :
    leadOf (.text s :: pieces) = s.length + leadOf pieces := by
  simp [leadOf, Piece.width]

/-- On one line a datum is as wide as its pieces. -/
theorem widthOf_measured (d : Datum) :
    (∀ glued, widthOf (measured glued d) = d.display.length) ∧
      ∀ glued, widthOf (measuredTail glued d) = d.displayTail.length := by
  refine @Datum.written_induction (fun d => ∀ glued, widthOf (measured glued d) = d.display.length)
    (fun d => ∀ glued, widthOf (measuredTail glued d) = d.displayTail.length) ?atom ?marked ?list
    ?tailNil ?tailAtom ?tailCons d
  case atom => exact fun a glued => by simp [measured, Datum.display, Piece.width]
  case marked =>
    intro s d ih glued
    simp [measured_marked, Datum.display_marked, ih, Piece.width]
  case list =>
    intro head rest bare _ _ first others glued
    simp [measured_list glued bare, Datum.display_list bare, first, others, Piece.width, Nat.add_assoc]
  case tailNil => exact fun glued => rfl
  case tailAtom =>
    intro a solid glued
    rw [Datum.displayTail_atom solid, measuredTail]
    · simp [Piece.width]
    · exact solid
  case tailCons =>
    intro d rest datum tail glued
    have space : " ".length = 1 := rfl
    simp [measuredTail, Datum.displayTail, datum, tail, Piece.width, space, Nat.add_assoc]

/-- Every block that starts among the pieces ends among them, and has the width of what stands in it and
    of what follows it up to the next blank. -/
def Exact (pieces : List Piece) : Prop :=
  ∀ before indent width after, pieces = before ++ .enter indent width :: after →
    ∃ inner rest, after = inner ++ .leave :: rest ∧ Nested inner ∧
      width = widthOf inner + leadOf rest

theorem exact_nil : Exact [] := by
  intro before indent width after split
  simp at split

theorem Exact.cons {piece : Piece} {pieces : List Piece} (others : Exact pieces)
    (first : ∀ indent width, piece = .enter indent width →
      ∃ inner rest, pieces = inner ++ .leave :: rest ∧ Nested inner ∧
        width = widthOf inner + leadOf rest) : Exact (piece :: pieces) := by
  intro before indent width after split
  cases before with
  | nil =>
      obtain ⟨rfl, rfl⟩ := List.cons.inj split
      exact first indent width rfl
  | cons _ before =>
      obtain ⟨-, rfl⟩ := List.cons.inj split
      exact others before indent width after rfl

theorem Exact.text {pieces : List Piece} (others : Exact pieces) (s : String) :
    Exact (.text s :: pieces) :=
  others.cons (by simp)

theorem Exact.blank {pieces : List Piece} (others : Exact pieces) : Exact (.blank :: pieces) :=
  others.cons (by simp)

theorem Exact.leave {pieces : List Piece} (others : Exact pieces) : Exact (.leave :: pieces) :=
  others.cons (by simp)

theorem Exact.enter {inner rest : List Piece} (others : Exact (inner ++ .leave :: rest))
    (nested : Nested inner) (indent : Nat) :
    Exact (.enter indent (widthOf inner + leadOf rest) :: (inner ++ .leave :: rest)) := by
  refine others.cons fun _ _ same => ⟨inner, rest, rfl, nested, ?_⟩
  cases same
  rfl

/-- The pieces of a datum are exact in front of others that are, if as many characters are glued to the
    datum as it was measured for. -/
def ExactDatum (d : Datum) : Prop :=
  ∀ rest, Exact rest → Exact (measured (leadOf rest) d ++ rest)

/-- The same for what follows the first element of a list, in front of the closing parenthesis. -/
def ExactTail (d : Datum) : Prop :=
  ∀ glued rest, Exact rest → leadOf rest = glued + 1 →
    Exact (measuredTail glued d ++ rest) ∧ leadOf (measuredTail glued d ++ rest) = glueAfter glued d

theorem exact_list {head rest : Datum} (bare : Bare head rest)
    (first : ExactDatum (opening head rest).first) (others : ExactTail (opening head rest).others) :
    ExactDatum (.cons head rest) := by
  intro behind exact
  let o := opening head rest
  let glued := leadOf behind
  let inner := .text o.text ::
    (measured (glueAfter glued o.others) o.first ++ measuredTail glued o.others ++ [.text ")"])
  have split : measured glued (.cons head rest) ++ behind =
      .enter o.indent ((Datum.cons head rest).display.length + glued) ::
        (inner ++ .leave :: behind) := by
    simp [measured_list glued bare, inner, o]
  have nested : Nested inner := by
    have first := (measured_nested o.first).1 (glueAfter glued o.others)
    have others := (measured_nested o.others).2 glued
    exact ((first.append others).append (.text ")" .nil)).text o.text
  have width : widthOf inner = (Datum.cons head rest).display.length := by
    have first := (widthOf_measured o.first).1 (glueAfter glued o.others)
    have others := (widthOf_measured o.others).2 glued
    simp [Datum.display_list bare, inner, first, others, Piece.width, o, Nat.add_assoc]
  have closing : Exact (.text ")" :: .leave :: behind) := exact.leave.text ")"
  have lead : leadOf (.text ")" :: .leave :: behind) = glued + 1 := by
    rw [leadOf_text, leadOf_leave]
    exact Nat.add_comm 1 glued
  obtain ⟨afterFirst, glue⟩ := others glued _ closing lead
  have inside : Exact (inner ++ .leave :: behind) := by
    have whole := (first _ afterFirst).text o.text
    rw [glue] at whole
    simpa [inner, o] using whole
  rw [split, ← width]
  exact inside.enter nested o.indent

theorem exact_measured (d : Datum) : ExactDatum d ∧ ExactTail d := by
  refine Datum.written_induction ?atom ?marked (fun _ _ bare _ _ => exact_list bare) ?tailNil
    ?tailAtom ?tailCons d
  case atom => exact fun a rest exact => exact.text a.text
  case marked =>
    intro s d ih rest exact
    rw [measured_marked]
    exact (ih rest exact).text s.text
  case tailNil =>
    intro glued rest exact lead
    exact ⟨exact, lead⟩
  case tailAtom =>
    intro a solid glued rest exact lead
    rw [measuredTail, glueAfter]
    · refine ⟨(exact.text a.text).text " . ", ?_⟩
      simp [lead, Nat.add_assoc]
    all_goals exact solid
  case tailCons =>
    intro d rest datum tail glued behind exact lead
    obtain ⟨others, glue⟩ := tail glued behind exact lead
    have first := datum _ others
    rw [glue, ← List.append_assoc] at first
    exact ⟨first.blank, rfl⟩

namespace Measure

/-- End the innermost block, if there is one and no less has been written than at its start. -/
def leave? (m : Measure) : Option Measure :=
  match m.opened with
  | [] => none
  | (_, before) :: _ => if before ≤ m.width then some m.leave else none

/-- Write a piece. The width of a block is not known yet. -/
def write? (m : Measure) : Piece → Option Measure
  | .text s => some (m.text s)
  | .blank => some m.blank
  | .enter indent _ => some (m.enter indent)
  | .leave => m.leave?

def CarefulDatum (d : Datum) : Prop :=
  ∀ m : Measure, m.Inside → ∀ glued, (measured glued d).foldlM write? m = some (m.datum d)

def CarefulTail (d : Datum) : Prop :=
  ∀ m : Measure, m.Inside → ∀ glued, (measuredTail glued d).foldlM write? m = some (m.tail d)

theorem leave?_of_opened {m : Measure} {start before : Nat} {outer : List (Nat × Nat)}
    (opened : m.opened = (start, before) :: outer) (wider : before ≤ m.width) :
    m.leave? = some m.leave := by
  simp only [leave?, opened, if_pos wider]

theorem careful_list {head rest : Datum} (bare : Bare head rest)
    (first : CarefulDatum (opening head rest).first)
    (others : CarefulTail (opening head rest).others) : CarefulDatum (.cons head rest) := by
  intro m inside glued
  rw [measured_list glued bare, datum_list m bare]
  generalize opening head rest = o at first others
  have wrote₁ := wrote_text (inside_enter inside o.indent) o.text
  have wrote₂ := ((writes o.first).1 _ wrote₁.inside).1
  have wrote₃ := ((writes o.others).2 _ wrote₂.inside).1
  have wrote := ((wrote₁.trans wrote₂).trans wrote₃).trans (wrote_text wrote₃.inside ")")
  have ended := leave?_of_opened wrote.opened (by rw [wrote.width]; exact Nat.le_add_right _ _)
  simp only [List.foldlM_cons, List.foldlM_append, List.foldlM_nil, write?, Option.bind_eq_bind,
    Option.bind_some, first _ wrote₁.inside, others _ wrote₂.inside, ended, Option.pure_def]

theorem careful (d : Datum) : CarefulDatum d ∧ CarefulTail d := by
  refine Datum.written_induction ?atom ?marked (fun _ _ bare _ _ => careful_list bare) ?tailNil
    ?tailAtom ?tailCons d
  case atom => exact fun a m inside glued => rfl
  case marked =>
    intro s d ih m inside glued
    rw [measured_marked, datum_marked]
    exact ih _ (inside_text inside s.text) glued
  case tailNil => exact fun m inside glued => rfl
  case tailAtom =>
    intro a solid m inside glued
    rw [measuredTail, tail]
    · rfl
    all_goals exact solid
  case tailCons =>
    intro d rest datum others m inside glued
    have wrote := ((writes d).1 _ (inside_blank inside)).1
    simp only [measuredTail, tail, List.foldlM_cons, List.foldlM_append, write?,
      Option.bind_eq_bind, Option.bind_some, datum _ (inside_blank inside), others _ wrote.inside]

end Measure

/-- The measured widths are exact. The blocks of a datum are nested and all ended, and each has the width
    of its pieces and of those that follow up to the next blank or the end. Whenever a block was ended
    on the way, it was open and no less had been written than at its start. -/
theorem block_widths_exact (d : Datum) :
    Nested (pieces d) ∧ (Measure.empty.datum d).opened = [] ∧
    (∀ before indent width after, pieces d = before ++ .enter indent width :: after →
      ∃ inner rest, after = inner ++ .leave :: rest ∧ Nested inner ∧
        width = widthOf inner + leadOf rest) ∧
    (pieces d).foldlM Measure.write? .empty = some (Measure.empty.datum d) := by
  have inside : Measure.empty.Inside := ⟨nofun, nofun⟩
  have exact := (exact_measured d).1 [] exact_nil
  rw [List.append_nil] at exact
  rw [pieces_eq_measured]
  exact ⟨(measured_nested d).1 0, ((Measure.writes d).1 _ inside).1.opened, exact,
    (Measure.careful d).1 _ inside 0⟩

-- The inner block is as wide as its text and the parenthesis that follows it.
example : pieces (.cons (.cons (.atom (.symbol "a")) (.cons (.atom (.symbol "b")) .nil)) .nil) =
    [.enter 1 7, .text "(", .enter 1 6, .text "(", .text "a", .blank, .text "b", .text ")", .leave,
      .text ")", .leave] := by
  decide +kernel

end SmallLisp.Layout
