import SmallLisp.Proofs.Layout.Marks
import SmallLisp.Proofs.Machine.Actions
import SmallLisp.Proofs.Store.Tree

/-! # The lines of a layout

A layout is cut into lines where a blank became a line break; line feeds in the text of an atom cut
nothing. A line on which some blank stayed a space ends within the margin. That space stands in a block
that fits, and up to the next line break nothing follows the block but the text that was counted with
it. So a line passes the margin only where it could not be broken, and a datum is laid out on one line
exactly if that line ends within the margin or has no place to break it. The line is the text that the
datum is displayed as, so there is one way to print a value on one line.
-/

namespace SmallLisp.Layout

open Datum (Bare opening)

variable {margin : Margin}

/-- A line that ends at this column does not pass the margin. -/
def Margin.Admits : Margin → Nat → Prop
  | .columns n, column => column ≤ n
  | .unbounded, _ => True

theorem Margin.admits_iff_fits {column : Nat} :
    margin.Admits column ↔ margin.fits 0 column = true := by
  cases margin <;> simp [Admits, fits]

theorem Margin.admits_of_fits {column width : Nat} (solid : 0 < width)
    (fits : margin.fits column width = true) : margin.Admits (column + width) := by
  cases margin with
  | unbounded => trivial
  | columns n =>
      simp only [Margin.fits, decide_eq_true_eq] at fits
      simp only [Admits]
      omega

/-- What stands between two line breaks. -/
structure Line where
  /-- How many spaces the line break before the line has set it in. -/
  indent : Nat
  marks : List Mark
  deriving DecidableEq, Repr

namespace Line

def text (line : Line) : String :=
  String.ofList (List.replicate line.indent ' ') ++ textOf line.marks

/-- The column at which the line ends. -/
def width (line : Line) : Nat := line.text.length

/-- The line with more marks at its end. -/
def extend (line : Line) (marks : List Mark) : Line :=
  { line with marks := line.marks ++ marks }

theorem text_extend (line : Line) (marks : List Mark) :
    (line.extend marks).text = line.text ++ textOf marks := by
  simp [text, extend, textOf_append, String.append_assoc]

theorem width_extend (line : Line) (marks : List Mark) :
    (line.extend marks).width = line.width + (textOf marks).length := by
  simp [width, text_extend]

theorem width_extend_text (line : Line) (s : String) :
    (line.extend [.text s]).width = line.width + s.length := by
  have single : textOf [.text s] = s := by simp [textOf, Mark.toText]
  rw [width_extend, single]

end Line

/-- The lines of marks that go on a line. -/
def linesFrom (line : Line) : List Mark → List Line
  | [] => [line]
  | .lineBreak column :: rest => line :: linesFrom ⟨column, []⟩ rest
  | mark :: rest => linesFrom (line.extend [mark]) rest

/-- The lines of marks, from the first column on. -/
def lines (marks : List Mark) : List Line :=
  linesFrom ⟨0, []⟩ marks

theorem linesFrom_ne_nil (line : Line) (marks : List Mark) : linesFrom line marks ≠ [] := by
  fun_induction linesFrom line marks with
  | case1 | case2 => exact List.cons_ne_nil _ _
  | case3 line mark rest plain ih => exact ih

/-- Put together again, the lines are the text. -/
theorem intercalate_linesFrom (line : Line) (marks : List Mark) :
    "\n".intercalate ((linesFrom line marks).map Line.text) = line.text ++ textOf marks := by
  fun_induction linesFrom line marks with
  | case1 line => simp [textOf]
  | case2 line column rest ih =>
      obtain ⟨next, others, found⟩ :=
        List.exists_cons_of_ne_nil (linesFrom_ne_nil ⟨column, []⟩ rest)
      rw [found, List.map_cons] at ih ⊢
      rw [List.map_cons, String.intercalate_cons_cons, ih, textOf_cons]
      simp [Line.text, Mark.toText, textOf, ← String.toList_inj]
  | case3 line mark rest plain ih =>
      rw [ih, Line.text_extend, String.append_assoc, ← textOf_append]
      rfl

/-- Marks that go on a line end only lines of the one kind and leave a line of the other kind. -/
def Runs (ended left : Line → Prop) (line : Line) : List Mark → Prop
  | [] => left line
  | .lineBreak column :: rest => ended line ∧ Runs ended left ⟨column, []⟩ rest
  | mark :: rest => Runs ended left (line.extend [mark]) rest

variable {ended left between : Line → Prop} {line : Line}

theorem forall_linesFrom {marks : List Mark} (runs : Runs ended ended line marks) :
    ∀ other ∈ linesFrom line marks, ended other := by
  fun_induction linesFrom line marks with
  | case1 line => exact List.forall_mem_singleton.mpr runs
  | case2 line column rest ih => exact List.forall_mem_cons.mpr ⟨runs.1, ih runs.2⟩
  | case3 line mark rest plain ih =>
      rw [Runs] at runs
      · exact ih runs
      · exact plain

theorem Runs.append {first second : List Mark} (runs : Runs ended between line first)
    (rest : ∀ other, between other → Runs ended left other second) :
    Runs ended left line (first ++ second) := by
  fun_induction linesFrom line first with
  | case1 line => exact rest line runs
  | case2 line column marks ih => exact ⟨runs.1, ih runs.2⟩
  | case3 line mark marks plain ih =>
      rw [Runs] at runs
      · rw [List.cons_append, Runs]
        · exact ih runs
        · exact plain
      · exact plain

theorem runs_of_plain {marks : List Mark} (plain : ∀ mark ∈ marks, mark.isBreak = false) :
    Runs ended left line marks ↔ left (line.extend marks) := by
  induction marks generalizing line with
  | nil => simp [Runs, Line.extend]
  | cons mark marks ih =>
      obtain ⟨here, later⟩ := List.forall_mem_cons.mp plain
      have longer : (line.extend [mark]).extend marks = line.extend (mark :: marks) := by
        simp [Line.extend]
      cases mark with
      | lineBreak => cases here
      | text | space =>
          rw [Runs, ih later, longer]
          intro column same
          cases same

/-! ### Room on a line -/

/-- Where a blank of the line stayed a space, there is room for this many more characters. -/
def Line.Leaves (margin : Margin) (more : Nat) (line : Line) : Prop :=
  .space ∈ line.marks → margin.Admits (line.width + more)

theorem Line.Leaves.text {more : Nat} {s : String} (leaves : line.Leaves margin (s.length + more)) :
    (line.extend [.text s]).Leaves margin more := by
  intro spaced
  rw [width_extend_text, Nat.add_assoc]
  exact leaves (by simpa [extend] using spaced)

theorem Line.leaves_of_unspaced {more : Nat} (unspaced : .space ∉ line.marks) :
    line.Leaves margin more :=
  fun spaced => absurd spaced unspaced

/-- The datum ends only lines within the margin, and leaves room for what is glued to it. -/
def KeepsRoom (margin : Margin) (d : Datum) : Prop :=
  ∀ (line : Line) (glued : Nat) (modes : List Mode), .space ∉ line.marks →
    Runs (Line.Leaves margin 0) (Line.Leaves margin glued) line
      (marksFrom margin line.width modes (measured glued d))

/-- The same for what follows the first element of a broken list, where there was room for what is
    glued to that. -/
def KeepsRoomTail (margin : Margin) (others : Datum) : Prop :=
  ∀ (line : Line) (column start glued : Nat) (modes : List Mode),
    line.Leaves margin (glueAfter glued others) →
    Runs (Line.Leaves margin 0) (Line.Leaves margin (glued + 1)) line
      (marksFrom margin column (.broken start :: modes) (measuredTail glued others))

theorem display_length_pos {head rest : Datum} (bare : Bare head rest) :
    0 < (Datum.cons head rest).display.length := by
  simp only [Datum.display_bare bare, String.length_append]
  exact Nat.succ_pos _

theorem keepsRoom_list {head rest : Datum} (bare : Bare head rest)
    (first : KeepsRoom margin (opening head rest).first)
    (others : KeepsRoomTail margin (opening head rest).others) :
    KeepsRoom margin (.cons head rest) := by
  intro line glued modes unspaced
  cases fits : margin.fits line.width ((Datum.cons head rest).display.length + glued) with
  | true =>
      -- The whole list is on the line, and its block was measured with what is glued to it.
      rw [runs_of_plain (isBreak_of_fits modes fits)]
      intro _
      rw [Line.width_extend, textOf_of_fits modes fits, Nat.add_assoc]
      exact Margin.admits_of_fits (Nat.add_pos_left (display_length_pos bare) glued) fits
  | false =>
      obtain ⟨after, broken⟩ := marksFrom_broken bare modes fits
      rw [broken]
      generalize opening head rest = o at first others
      have opened := first (line.extend [.text o.text]) (glueAfter glued o.others)
        (.broken (line.width + o.indent) :: modes) (by simpa [Line.extend] using unspaced)
      rw [Line.width_extend_text] at opened
      change Runs _ _ (line.extend [.text o.text]) _
      apply opened.append
      intro behind room
      apply (others behind after (line.width + o.indent) glued modes room).append
      intro last room
      exact Line.Leaves.text (by rwa [Nat.add_comm] at room)

theorem keepsRoom (d : Datum) : KeepsRoom margin d ∧ KeepsRoomTail margin d := by
  refine Datum.written_induction ?atom ?marked (fun _ _ bare _ _ => keepsRoom_list bare) ?tailNil
    ?tailAtom ?tailCons d
  case atom =>
    intro a line glued modes unspaced
    exact Line.leaves_of_unspaced (by simpa [Line.extend] using unspaced)
  case marked =>
    intro s d ih line glued modes unspaced
    rw [marksFrom_marked, ← Line.width_extend_text]
    exact ih (line.extend [.text s.text]) glued modes (by simpa [Line.extend] using unspaced)
  case tailNil =>
    intro line column start glued modes room
    exact room
  case tailAtom =>
    intro a solid line column start glued modes room
    rw [glueAfter, String.length_append, Nat.add_assoc] at room
    · rw [marksFrom_tailAtom solid]
      exact room.text.text
    · exact solid
  case tailCons =>
    intro d rest datum tail line column start glued modes room
    obtain ⟨after, broken⟩ := @marksFrom_tailCons margin column start glued modes d rest
    have fresh : (⟨start, []⟩ : Line).width = start := by simp [Line.width, Line.text, textOf]
    have element := datum ⟨start, []⟩ (glueAfter glued rest) (.broken start :: modes) (by simp)
    rw [fresh] at element
    rw [broken]
    exact ⟨room, element.append fun last room => tail last after start glued modes room⟩

theorem keepsRoom_marks (margin : Margin) (d : Datum) :
    Runs (Line.Leaves margin 0) (Line.Leaves margin 0) ⟨0, []⟩ (marks margin d) := by
  have fresh : (⟨0, []⟩ : Line).width = 0 := rfl
  have runs := (@keepsRoom margin d).1 ⟨0, []⟩ 0 [] (by simp)
  rw [fresh, ← marks_eq_marksFrom] at runs
  exact runs

/-- The lines of a laid out datum, put together again, are its text. Each of them on which a blank
    stayed a space ends at a column that the margin admits, the spaces that set it in included. -/
theorem spaced_lines_within_margin (margin : Margin) (d : Datum) :
    d.pretty margin = "\n".intercalate ((lines (marks margin d)).map Line.text) ∧
      ∀ line ∈ lines (marks margin d), .space ∈ line.marks → margin.Admits line.text.length := by
  refine ⟨?_, fun line among spaced => ?_⟩
  · exact ((intercalate_linesFrom ⟨0, []⟩ (marks margin d)).trans String.empty_append).symm
  · exact forall_linesFrom (keepsRoom_marks margin d) line among spaced

/-- The head passes the margin, and there is no blank before it. The line after it has a space, and
    its parentheses end at the last column. -/
theorem spaced_lines_within_margin_long_head :
    let d := Datum.list [.symbol "long-head", .list [.symbol "a", .symbol "b"]]
    let line : Line :=
      ⟨1, [.text "(", .text "a", .space, .text "b", .text ")", .text ")"]⟩
    d.pretty (.columns 7) = "(long-head\n (a b))" ∧ line ∈ lines (marks (.columns 7) d) ∧
      .space ∈ line.marks ∧ (Margin.columns 7).Admits line.text.length := by
  intro d line
  have among : line ∈ lines (marks (.columns 7) d) := by decide +kernel
  have spaced : .space ∈ line.marks := by decide
  exact ⟨by decide +kernel, among, spaced, (spaced_lines_within_margin _ d).2 line among spaced⟩

theorem textOf_marks (margin : Margin) (d : Datum) : textOf (marks margin d) = d.pretty margin := rfl

/-- Where the line of a datum ends within the margin, the datum is laid out as that line. -/
theorem pretty_of_admits {d : Datum} (admitted : margin.Admits d.display.length) :
    d.pretty margin = d.display := by
  rw [← textOf_marks, marks_eq_marksFrom]
  exact textOf_of_fits [] (Margin.admits_iff_fits.mp admitted)

theorem textOf_marks_unbounded (d : Datum) : textOf (marks .unbounded d) = d.display :=
  @pretty_of_admits .unbounded d trivial

/-- The text of a datum is its line exactly if no blank became a line break. -/
theorem pretty_eq_flat_iff_plain {d : Datum} :
    d.pretty margin = d.flat ↔ ∀ mark ∈ marks margin d, mark.isBreak = false := by
  have aligned : Aligned (marks margin d) (marks .unbounded d) := aligned_marksFrom ..
  have flat : ∀ mark ∈ marks .unbounded d, mark.isBreak = false :=
    isBreak_marksFrom_unbounded (by simp)
  constructor
  · exact plain_of_textOf_eq aligned flat
  · intro plain
    rw [← textOf_marks, eq_of_plain aligned plain flat]
    rfl

theorem blank_mem_pieces_iff (margin : Margin) {d : Datum} :
    .blank ∈ pieces d ↔ ∃ mark ∈ marks margin d, mark.piece = .blank := by
  have shown : .blank ∈ (pieces d).filter Piece.isShown ↔ .blank ∈ pieces d := by
    simp [Piece.isShown]
  rw [← shown, ← map_piece_marksFrom margin 0 [] (pieces d), List.mem_map]
  rfl

/-- A datum is laid out as its line exactly if the line ends at a column that the margin admits, or
    there is no blank at which it could be broken. -/
theorem pretty_eq_flat_iff (margin : Margin) (d : Datum) :
    d.pretty margin = d.flat ↔ margin.Admits d.flat.length ∨ .blank ∉ pieces d := by
  have line : d.flat = d.display := textOf_marks_unbounded d
  rw [pretty_eq_flat_iff_plain, line]
  constructor
  · intro plain
    by_cases blank : .blank ∈ pieces d
    · -- The blank is a space on the only line, which is therefore within the margin.
      obtain ⟨mark, among, written⟩ := (blank_mem_pieces_iff margin).mp blank
      obtain rfl : mark = .space := Mark.eq_of_piece_eq written (plain mark among) rfl
      have room := (runs_of_plain plain).mp (keepsRoom_marks margin d)
      have admitted := room (by simpa [Line.extend] using among)
      have width : ((⟨0, []⟩ : Line).extend (marks margin d)).width = d.display.length := by
        rw [Line.width_extend, textOf_marks, pretty_eq_flat_iff_plain.mpr plain, line]
        exact Nat.zero_add _
      rw [width] at admitted
      exact .inl admitted
    · exact .inr blank
  · rintro (admitted | unbreakable)
    · rw [marks_eq_marksFrom]
      exact isBreak_of_fits [] (Margin.admits_iff_fits.mp admitted)
    · intro mark among
      cases broken : mark.isBreak with
      | false => rfl
      | true =>
          have blank := (blank_mem_pieces_iff margin).mpr ⟨mark, among, piece_of_isBreak broken⟩
          exact absurd blank unbreakable

-- One column less than the line takes breaks it at its only blank, two blocks inside the datum.
example :
    let d := Datum.marked .quote (.cons (.list [.symbol "a", .symbol "b"]) (.symbol "c"))
    d.pretty (.columns 12) = "'((a b) . c)" ∧ d.pretty (.columns 11) = "'((a\n   b) . c)" := by
  decide +kernel

end SmallLisp.Layout

namespace SmallLisp.Action

open Layout (Margin pretty_of_admits)

variable {F σ : Type} {m : Machine F σ} {v : Value F} {d : Datum}

theorem pretty_of_shows (tree : m.store.Shows v d) (margin : Margin) :
    pretty margin v m = some (d.pretty margin, m) := by
  rw [pretty, run_bind, run_walk, tree.datum?]
  rfl

/-- A value that is the root of a finite tree is printed on one line as the text that the tree is
    displayed as, whatever its leaves are. It is printed so without a margin, and also at every margin
    that the text does not pass. Printing always ends and changes nothing. -/
theorem flat_eq_display (tree : m.store.Shows v d) :
    flat v m = some (d.display, m) ∧
      ∀ n, d.display.length ≤ n → pretty (.columns n) v m = some (d.display, m) := by
  refine ⟨?_, fun n short => ?_⟩
  · have admitted : Margin.unbounded.Admits d.display.length := trivial
    rw [flat, pretty_of_shows tree, pretty_of_admits admitted]
  · have admitted : (Margin.columns n).Admits d.display.length := short
    rw [pretty_of_shows tree, pretty_of_admits admitted]

/-- A function literal whose head, and the head of a quoted symbol in it, are symbols outside the table
    and whose other leaves are of the kinds that cannot be read. -/
def unreadableStore : Store Empty where
  pairs := #[⟨.symbol (.interned 0), .dictionary 0⟩, ⟨.symbol (.interned 1), .nil⟩,
    ⟨.symbol (.loose 1), .pair 1⟩, ⟨.native (.builtin .car), .eof⟩, ⟨.pair 2, .pair 3⟩,
    ⟨.pair 0, .pair 4⟩, ⟨.symbol (.loose 0), .pair 5⟩]
  interned := #[⟨"x", .nil⟩, ⟨"y", .nil⟩]
  loose := #[⟨"lambda", .nil⟩, ⟨"quote", .nil⟩]
  dictionaries := #[.empty .oldestFirst]

/-- At the width of its line the value is printed as it is without a margin. -/
theorem flat_eq_display_unreadable :
    let text := "(lambda (x . <Dictionary>) 'y <CFunction> . <Eof>)"
    ∃ d, unreadableStore.Shows (.pair 6) d ∧
      flat (.pair 6) (⟨unreadableStore, ()⟩ : Machine Empty Unit) =
        some (text, ⟨unreadableStore, ()⟩) ∧
      pretty (.columns 50) (.pair 6) (⟨unreadableStore, ()⟩ : Machine Empty Unit) =
        some (text, ⟨unreadableStore, ()⟩) := by
  intro text
  have params : unreadableStore.Shows (.pair 0) _ := .pair rfl (.leaf rfl) (.leaf rfl)
  have quoted : unreadableStore.Shows (.pair 2) _ :=
    .pair rfl (.leaf rfl) (.pair rfl (.leaf rfl) (.leaf rfl))
  have last : unreadableStore.Shows (.pair 3) _ := .pair rfl (.leaf rfl) (.leaf rfl)
  obtain ⟨d, whole, displayed⟩ : ∃ d, unreadableStore.Shows (.pair 6) d ∧ d.display = text :=
    ⟨_, .pair rfl (.leaf rfl) (.pair rfl params (.pair rfl quoted last)), by decide +kernel⟩
  obtain ⟨line, within⟩ := flat_eq_display (m := (⟨unreadableStore, ()⟩ : Machine Empty Unit)) whole
  rw [displayed] at line within
  exact ⟨d, whole, line, within 50 (by decide +kernel)⟩

end SmallLisp.Action
