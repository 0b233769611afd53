import SmallLisp.Proofs.Layout.Shape

/-! # Widths measured from outside in

The measure finds the width of a block late: it adds the glued text piece by piece to blocks that
have long been written. Here the pieces are written with their final widths at once, because the
number of characters that will be glued to a datum is passed down to it. The two agree. The
invariant speaks of a measure *settled* by a number of characters, in which all blocks that still
grow have been given that many; settling before a datum is written or after it then differs only in
how many characters the datum puts before its first blank.
-/

namespace SmallLisp.Layout

/-- How many characters are glued to an element of a list: the next ones up to a blank, when this
    tail follows the element and `glued` characters follow the list. -/
def glueAfter (glued : Nat) : Datum → Nat
  | .nil => glued + 1
  | .atom a => (" . " ++ a.text).length + (glued + 1)
  | .cons _ _ => 0

mutual
/-- The pieces of a datum to which `glued` characters are glued. -/
def measured (glued : Nat) : Datum → List Piece
  | .atom a => [.text a.text]
  | .cons head rest =>
      match head.sigil?, rest with
      | some s, .cons d .nil => .text s.text :: measured glued d
      | _, rest =>
          let width := (Datum.cons head rest).display.length + glued
          match head.isLambda, rest with
          | true, .cons params body =>
              .enter lambdaIndent width :: .text "(lambda " ::
                (measured (glueAfter glued body) params ++ measuredTail glued body ++
                  [.text ")", .leave])
          | _, rest =>
              .enter listIndent width :: .text "(" ::
                (measured (glueAfter glued rest) head ++ measuredTail glued rest ++
                  [.text ")", .leave])

/-- The pieces of what follows the first element of a list, up to its closing parenthesis. -/
def measuredTail (glued : Nat) : Datum → List Piece
  | .nil => []
  | .atom a => [.text " . ", .text a.text]
  | .cons d rest => .blank :: (measured (glueAfter glued rest) d ++ measuredTail glued rest)
end

open Datum (Bare opening)

theorem measured_marked (glued : Nat) (s : Sigil) (d : Datum) :
    measured glued (.marked s d) = .text s.text :: measured glued d := by
  cases s <;> rfl

theorem measured_list (glued : Nat) {head rest : Datum} (bare : Bare head rest) :
    measured glued (.cons head rest) =
      .enter (opening head rest).indent ((Datum.cons head rest).display.length + glued) ::
        .text (opening head rest).text ::
          (measured (glueAfter glued (opening head rest).others) (opening head rest).first ++
            measuredTail glued (opening head rest).others ++ [.text ")", .leave]) := by
  rcases Datum.opening_cases head rest with ⟨params, body, lambda, rfl, found⟩ | ⟨plain, found⟩
  · rw [found, measured]
    · exact lambda
    · exact bare
  · rw [found, measured]
    · exact plain
    · exact bare

namespace Measure

theorem datum_marked (m : Measure) (s : Sigil) (d : Datum) :
    m.datum (.marked s d) = (m.text s.text).datum d := by
  cases s <;> rfl

theorem datum_list (m : Measure) {head rest : Datum} (bare : Bare head rest) :
    m.datum (.cons head rest) =
      (((((m.enter (opening head rest).indent).text (opening head rest).text).datum
        (opening head rest).first).tail (opening head rest).others).text ")").leave := by
  rcases Datum.opening_cases head rest with ⟨params, body, lambda, rfl, found⟩ | ⟨plain, found⟩
  · rw [found, datum]
    · exact lambda
    · exact bare
  · rw [found, datum]
    · exact plain
    · exact bare

/-- Widen the blocks that start at these places. -/
def widenAll (places : List Nat) (extra : Nat) (pieces : Array Piece) : Array Piece :=
  places.foldl (fun ps i => ps.modify i (Piece.widen extra)) pieces

theorem widen_widen (a b : Nat) (piece : Piece) :
    (piece.widen a).widen b = piece.widen (a + b) := by
  cases piece <;> simp [Piece.widen, Nat.add_assoc]

theorem widen_zero (piece : Piece) : piece.widen 0 = piece := by
  cases piece <;> rfl

theorem modify_widen_comm (pieces : Array Piece) (i j a b : Nat) :
    (pieces.modify i (Piece.widen a)).modify j (Piece.widen b) =
      (pieces.modify j (Piece.widen b)).modify i (Piece.widen a) := by
  ext k
  · simp
  · simp only [Array.getElem_modify]
    split <;> split <;> simp [widen_widen, Nat.add_comm]

theorem modify_widen_widen (pieces : Array Piece) (i a b : Nat) :
    (pieces.modify i (Piece.widen a)).modify i (Piece.widen b) =
      pieces.modify i (Piece.widen (a + b)) := by
  ext k
  · simp
  · simp only [Array.getElem_modify]
    split <;> simp [widen_widen]

theorem size_widenAll (places : List Nat) (extra : Nat) (pieces : Array Piece) :
    (widenAll places extra pieces).size = pieces.size := by
  induction places generalizing pieces with
  | nil => rfl
  | cons i places ih => simpa [widenAll] using ih (pieces.modify i (Piece.widen extra))

theorem widenAll_modify (places : List Nat) (extra j b : Nat) (pieces : Array Piece) :
    widenAll places extra (pieces.modify j (Piece.widen b)) =
      (widenAll places extra pieces).modify j (Piece.widen b) := by
  induction places generalizing pieces with
  | nil => rfl
  | cons i places ih =>
      simp only [widenAll, List.foldl_cons] at ih ⊢
      rw [modify_widen_comm, ih]

theorem widenAll_widenAll (places : List Nat) (a b : Nat) (pieces : Array Piece) :
    widenAll places b (widenAll places a pieces) = widenAll places (a + b) pieces := by
  induction places generalizing pieces with
  | nil => rfl
  | cons i places ih =>
      calc widenAll (i :: places) b (widenAll (i :: places) a pieces)
          = widenAll places b ((widenAll places a (pieces.modify i (Piece.widen a))).modify i
              (Piece.widen b)) := rfl
        _ = widenAll places b (widenAll places a (pieces.modify i (Piece.widen (a + b)))) := by
            rw [← widenAll_modify, modify_widen_widen]
        _ = widenAll (i :: places) (a + b) pieces := ih _

theorem widenAll_zero (places : List Nat) (pieces : Array Piece) :
    widenAll places 0 pieces = pieces := by
  induction places generalizing pieces with
  | nil => rfl
  | cons i places ih =>
      have same : pieces.modify i (Piece.widen 0) = pieces := by
        ext k
        · simp
        · simp [Array.getElem_modify, widen_zero]
      simpa only [widenAll, List.foldl_cons, same] using ih pieces

theorem modify_push_of_lt {pieces : Array Piece} {i : Nat} (inside : i < pieces.size)
    (f : Piece → Piece) (last : Piece) :
    (pieces.push last).modify i f = (pieces.modify i f).push last := by
  ext k
  · simp
  · simp only [Array.getElem_modify, Array.getElem_push, Array.size_modify]
    grind

theorem widenAll_push {places : List Nat} {pieces : Array Piece}
    (inside : ∀ i ∈ places, i < pieces.size) (extra : Nat) (last : Piece) :
    widenAll places extra (pieces.push last) = (widenAll places extra pieces).push last := by
  induction places generalizing pieces with
  | nil => rfl
  | cons i places ih =>
      obtain ⟨here, others⟩ := List.forall_mem_cons.mp inside
      simp only [widenAll, List.foldl_cons] at ih ⊢
      rw [modify_push_of_lt here, ih (by simpa using others)]

theorem modify_middle (before : Array Piece) (piece : Piece) (after : Array Piece)
    (f : Piece → Piece) :
    (before.push piece ++ after).modify before.size f = before.push (f piece) ++ after := by
  ext k
  · simp
  · simp only [Array.getElem_modify, Array.getElem_append, Array.getElem_push, Array.size_push]
    grind

/-- All places that the measure keeps are places of pieces. -/
structure Inside (m : Measure) : Prop where
  ended : ∀ i ∈ m.ended, i < m.pieces.size
  opened : ∀ block ∈ m.opened, block.1 < m.pieces.size

/-- The pieces once `extra` more characters are glued to what has been written. -/
def settled (extra : Nat) (m : Measure) : Array Piece :=
  widenAll m.ended extra m.pieces

theorem size_settled (extra : Nat) (m : Measure) : (m.settled extra).size = m.pieces.size :=
  size_widenAll m.ended extra m.pieces

theorem settled_zero (m : Measure) : m.settled 0 = m.pieces :=
  widenAll_zero m.ended m.pieces

variable {m : Measure}

theorem settled_text (inside : m.Inside) (s : String) (extra : Nat) :
    (m.text s).settled extra = (m.settled (s.length + extra)).push (.text s) := by
  have grown : ∀ i ∈ m.ended, i < (widenAll m.ended s.length m.pieces).size := by
    simpa only [size_widenAll] using inside.ended
  calc (m.text s).settled extra
      = widenAll m.ended extra ((widenAll m.ended s.length m.pieces).push (.text s)) := rfl
    _ = (widenAll m.ended extra (widenAll m.ended s.length m.pieces)).push (.text s) :=
        widenAll_push grown extra _
    _ = (m.settled (s.length + extra)).push (.text s) := by rw [widenAll_widenAll]; rfl

theorem inside_text (inside : m.Inside) (s : String) : (m.text s).Inside := by
  have size : (m.text s).pieces.size = m.pieces.size + 1 := by
    rw [← size_widenAll m.ended s.length m.pieces]
    exact Array.size_push _
  refine ⟨fun i member => ?_, fun block member => ?_⟩
  · have := inside.ended i member
    omega
  · have := inside.opened block member
    omega

theorem settled_blank (m : Measure) (extra : Nat) :
    m.blank.settled extra = (m.settled 0).push .blank := by
  rw [settled_zero]
  rfl

theorem inside_blank (inside : m.Inside) : m.blank.Inside := by
  refine ⟨nofun, fun block member => ?_⟩
  have := inside.opened block member
  simp only [blank, Array.size_push]
  omega

theorem settled_enter (inside : m.Inside) (indent extra : Nat) :
    (m.enter indent).settled extra = (m.settled extra).push (.enter indent 0) :=
  widenAll_push inside.ended extra _

theorem inside_enter (inside : m.Inside) (indent : Nat) : (m.enter indent).Inside := by
  refine ⟨fun i member => ?_, fun block member => ?_⟩
  · have := inside.ended i member
    simp only [enter, Array.size_push]
    omega
  · simp only [enter, List.mem_cons, Array.size_push] at member ⊢
    rcases member with rfl | member
    · exact Nat.lt_succ_self _
    · have := inside.opened block member
      omega

theorem settled_leave (inside : m.Inside) {start before : Nat} {outer : List (Nat × Nat)}
    (opened : m.opened = (start, before) :: outer) (extra : Nat) :
    m.leave.settled extra =
      ((m.settled extra).push .leave).modify start (Piece.widen (m.width - before + extra)) := by
  calc m.leave.settled extra
      = widenAll m.ended extra (((m.pieces.push .leave).modify start
          (Piece.widen (m.width - before))).modify start (Piece.widen extra)) := by
        simp only [leave, opened, settled, widenAll, List.foldl_cons]
    _ = (widenAll m.ended extra (m.pieces.push .leave)).modify start
          (Piece.widen (m.width - before + extra)) := by
        rw [modify_widen_widen, widenAll_modify]
    _ = ((m.settled extra).push .leave).modify start
          (Piece.widen (m.width - before + extra)) := by
        rw [widenAll_push inside.ended]
        rfl

theorem inside_leave (inside : m.Inside) {start before : Nat} {outer : List (Nat × Nat)}
    (opened : m.opened = (start, before) :: outer) : m.leave.Inside := by
  have top := inside.opened (start, before) (by simp [opened])
  refine ⟨fun i member => ?_, fun block member => ?_⟩
  · simp only [leave, opened, List.mem_cons, Array.size_modify, Array.size_push] at member ⊢
    rcases member with rfl | member
    · exact Nat.lt_succ_of_lt top
    · exact Nat.lt_succ_of_lt (inside.ended i member)
  · simp only [leave, opened, Array.size_modify, Array.size_push] at member ⊢
    exact Nat.lt_succ_of_lt (inside.opened block (by simp [opened, member]))

/-- What writing a line does to everything but the pieces. -/
structure Wrote (line : String) (m m' : Measure) : Prop where
  inside : m'.Inside
  opened : m'.opened = m.opened
  width : m'.width = m.width + line.length

theorem wrote_text (inside : m.Inside) (s : String) : Wrote s m (m.text s) :=
  ⟨inside_text inside s, rfl, rfl⟩

theorem Wrote.trans {a b : String} {m₁ m₂ m₃ : Measure} (first : Wrote a m₁ m₂)
    (second : Wrote b m₂ m₃) : Wrote (a ++ b) m₁ m₃ := by
  refine ⟨second.inside, second.opened.trans first.opened, ?_⟩
  rw [second.width, first.width, String.length_append, Nat.add_assoc]

/-- The datum is written with the widths that are measured from outside in. How many characters it
    glues to what stands before it depends on the datum. -/
def WritesDatum (d : Datum) : Prop :=
  ∀ m : Measure, m.Inside → Wrote d.display m (m.datum d) ∧
    ∀ glued, ∃ lead,
      (m.datum d).settled glued = m.settled lead ++ (measured glued d).toArray

/-- The same for what follows the first element of a list. -/
def WritesTail (rest : Datum) : Prop :=
  ∀ m : Measure, m.Inside → Wrote rest.displayTail m (m.tail rest) ∧
    ∀ glued, (m.tail rest).settled (glued + 1) =
      m.settled (glueAfter glued rest) ++ (measuredTail glued rest).toArray

theorem writes_list {head rest : Datum} (bare : Bare head rest)
    (first : WritesDatum (opening head rest).first)
    (others : WritesTail (opening head rest).others) : WritesDatum (.cons head rest) := by
  intro m inside
  let o := opening head rest
  let m₁ := (m.enter o.indent).text o.text
  let m₂ := m₁.datum o.first
  let m₃ := m₂.tail o.others
  let m₄ := m₃.text ")"
  have written : m.datum (.cons head rest) = m₄.leave := datum_list m bare
  have entered := inside_enter inside o.indent
  have wrote₁ : Wrote o.text (m.enter o.indent) m₁ := wrote_text entered o.text
  obtain ⟨wrote₂, settled₂⟩ := first m₁ wrote₁.inside
  obtain ⟨wrote₃, settled₃⟩ := others m₂ wrote₂.inside
  have wrote₄ : Wrote ")" m₃ m₄ := wrote_text wrote₃.inside ")"
  have wrote : Wrote (Datum.cons head rest).display (m.enter o.indent) m₄ := by
    rw [Datum.display_list bare]
    exact ((wrote₁.trans wrote₂).trans wrote₃).trans wrote₄
  have opened : m₄.opened = (m.pieces.size, m.width) :: m.opened := wrote.opened
  have width : m₄.width = m.width + (Datum.cons head rest).display.length := wrote.width
  rw [written]
  refine ⟨⟨inside_leave wrote.inside opened, ?_, ?_⟩, fun glued => ?_⟩
  · simp only [leave, opened]
  · simp only [leave, opened, width]
  · obtain ⟨lead, settled₂⟩ := settled₂ (glueAfter glued o.others)
    refine ⟨o.text.length + lead, ?_⟩
    have settled₄ : m₄.settled glued =
        (m.settled (o.text.length + lead)).push (.enter o.indent 0) ++
          (.text o.text :: (measured (glueAfter glued o.others) o.first ++
            measuredTail glued o.others ++ [.text ")"])).toArray := by
      rw [settled_text wrote₃.inside, show ")".length + glued = glued + 1 from Nat.add_comm 1 glued,
        settled₃, settled₂, settled_text entered, settled_enter inside]
      simp [o]
    have start : m.pieces.size = (m.settled (o.text.length + lead)).size :=
      (size_settled _ m).symm
    rw [settled_leave wrote.inside opened, settled₄, measured_list glued bare, width,
      Nat.add_sub_cancel_left, start, Array.push_eq_append, Array.append_assoc, modify_middle]
    simp [Piece.widen, o]

theorem writes_tailAtom {a : Atom} (solid : a ≠ .nil) : WritesTail (.atom a) := by
  intro m inside
  have written : m.tail (.atom a) = (m.text " . ").text a.text := by
    rw [tail]
    exact solid
  have wrote := wrote_text inside " . "
  rw [Datum.displayTail_atom solid, written]
  refine ⟨wrote.trans (wrote_text wrote.inside a.text), fun glued => ?_⟩
  rw [settled_text wrote.inside, settled_text inside, glueAfter, measuredTail]
  · rw [String.length_append, Nat.add_assoc]
    rfl
  all_goals exact solid

theorem writes (d : Datum) : WritesDatum d ∧ WritesTail d := by
  refine Datum.written_induction ?atom ?marked (fun _ _ bare _ _ => writes_list bare) ?tailNil
    (fun _ => writes_tailAtom) ?tailCons d
  case atom =>
    intro a m inside
    refine ⟨wrote_text inside a.text, fun glued => ⟨_, settled_text inside a.text glued⟩⟩
  case marked =>
    intro s d ih m inside
    have wrote := wrote_text inside s.text
    obtain ⟨wrote', settled'⟩ := ih (m.text s.text) wrote.inside
    rw [datum_marked, Datum.display_marked]
    refine ⟨wrote.trans wrote', fun glued => ?_⟩
    obtain ⟨lead, settled'⟩ := settled' glued
    refine ⟨s.text.length + lead, ?_⟩
    rw [settled', settled_text inside, measured_marked]
    simp
  case tailNil =>
    intro m inside
    exact ⟨⟨inside, rfl, rfl⟩, fun glued => by simp [tail, glueAfter, measuredTail]⟩
  case tailCons =>
    intro d rest datum others m inside
    have blank : Wrote " " m m.blank := ⟨inside_blank inside, rfl, rfl⟩
    obtain ⟨wrote, settled₁⟩ := datum m.blank blank.inside
    obtain ⟨wrote', settled₂⟩ := others (m.blank.datum d) wrote.inside
    refine ⟨(blank.trans wrote).trans wrote', fun glued => ?_⟩
    obtain ⟨lead, settled₁⟩ := settled₁ (glueAfter glued rest)
    rw [tail, settled₂, settled₁, settled_blank, glueAfter, measuredTail]
    simp

end Measure

/-- The two ways to measure a datum give the same pieces. -/
theorem pieces_eq_measured (d : Datum) : pieces d = measured 0 d := by
  have inside : Measure.empty.Inside := ⟨nofun, nofun⟩
  obtain ⟨lead, settled⟩ := ((Measure.writes d).1 .empty inside).2 0
  rw [Measure.settled_zero] at settled
  have nothing : Measure.empty.settled lead = #[] := rfl
  rw [pieces, settled, nothing]
  simp

end SmallLisp.Layout
