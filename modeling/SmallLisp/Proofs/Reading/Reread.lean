import SmallLisp.Proofs.Layout.Shape
import SmallLisp.Proofs.Reading.Leaves
import SmallLisp.Proofs.Token.Spelling

/-! # What the tokens of a datum are read as

The tokens that a datum is written with are read as one datum. It is the datum itself, with one
exception: the symbol `.` as a later element of a list looks like the dot before a tail, so that the
element after it becomes the tail and the rest of the list is dropped.
-/

namespace SmallLisp

namespace Datum

mutual
/-- The tokens that a datum is written with. -/
def tokens : Datum → List Token
  | .atom a => [a.token]
  | .cons head rest =>
      match head.sigil?, rest with
      | some s, .cons d .nil => .sigil s :: tokens d
      | _, rest => .leftParen :: (tokens head ++ (tokensTail rest ++ [.rightParen]))

/-- The tokens of what follows the first element of a list. -/
def tokensTail : Datum → List Token
  | .nil => []
  | .atom a => [.dot, a.token]
  | .cons d rest => tokens d ++ tokensTail rest
end

theorem tokens_marked (s : Sigil) (d : Datum) : (marked s d).tokens = .sigil s :: d.tokens := by
  cases s <;> rfl

theorem tokens_bare {head rest : Datum} (bare : Bare head rest) :
    (Datum.cons head rest).tokens =
      .leftParen :: (head.tokens ++ (rest.tokensTail ++ [.rightParen])) := by
  rw [tokens]
  exact bare

theorem tokensTail_atom {a : Atom} (solid : a ≠ .nil) :
    tokensTail (.atom a) = [.dot, a.token] := by
  rw [tokensTail]
  exact solid

mutual
/-- The datum that is read where this one was written. -/
def reread : Datum → Datum
  | .atom a => .atom a
  | .cons head rest =>
      match head.sigil?, rest with
      | some s, .cons d .nil => .marked s (reread d)
      | _, rest => .cons (reread head) (rereadTail rest)

/-- What is read after the first element of a list. -/
def rereadTail : Datum → Datum
  | .atom a => .atom a
  | .cons d rest => if d = .symbol "." then rereadAfterDot rest else .cons (reread d) (rereadTail rest)

/-- The tail that is read after a dot. -/
def rereadAfterDot : Datum → Datum
  | .nil => .nil
  | .atom _ => .symbol "."
  | .cons d _ => reread d
end

theorem reread_marked (s : Sigil) (d : Datum) : (marked s d).reread = .marked s d.reread := by
  cases s <;> rfl

theorem reread_bare {head rest : Datum} (bare : Bare head rest) :
    (Datum.cons head rest).reread = .cons head.reread rest.rereadTail := by
  rw [reread]
  exact bare

theorem rereadAfterDot_atom {a : Atom} (solid : a ≠ .nil) :
    rereadAfterDot (.atom a) = .symbol "." := by
  rw [rereadAfterDot]
  exact solid

end Datum

namespace Stack

/-- The tokens complete at most one form, and leave the stack and the form of the step. -/
def Takes (stack : Stack) (tokens : List Token) (step : Progress) : Prop :=
  ∀ rest, (all stack (tokens ++ rest)).forms = step.form.toList ++ (all step.stack rest).forms ∧
    (all stack (tokens ++ rest)).left = (all step.stack rest).left

variable {stack : Stack} {tokens others : List Token} {later : Progress}

theorem takes_next (stack : Stack) (t : Token) : Takes stack [t] (next stack t) :=
  fun _ => ⟨rfl, rfl⟩

theorem Takes.append {middle : Stack} {names : List String}
    (taken : Takes stack tokens ⟨middle, none, names⟩) (more : Takes middle others later) :
    Takes stack (tokens ++ others) later := by
  intro rest
  obtain ⟨forms, left⟩ := taken (others ++ rest)
  obtain ⟨laterForms, laterLeft⟩ := more rest
  rw [List.append_assoc, forms, left, laterForms, laterLeft]
  exact ⟨rfl, rfl⟩

theorem Takes.cons {t : Token} (unfinished : (next stack t).form = none)
    (more : Takes (next stack t).stack others later) : Takes stack (t :: others) later := by
  intro rest
  obtain ⟨forms, left⟩ := more rest
  simp only [List.cons_append, all, unfinished, Option.toList_none, List.nil_append]
  exact ⟨forms, left⟩

/-- A dot asks for the tail of the innermost list. -/
def asksTail : Stack → Bool
  | .items (_ :: _) :: _ => true
  | _ => false

theorem takes_dot (free : asksTail stack = false) : Takes stack [.dot] (accept (.symbol ".") stack) := by
  have same : next stack .dot = acceptAtom stack (.symbol ".") := by
    simp only [next, dot]
    split
    · cases free
    · rfl
  have taken := takes_next stack .dot
  rw [same] at taken
  exact taken

theorem takes_name {name : String} (isName : IsName name) :
    Takes stack [.symbol name] (accept (.symbol name) stack) := by
  have constant := isName.2
  simp only [List.mem_cons, List.not_mem_nil, or_false, not_or] at constant
  have same : Datum.ofName name = .symbol name := by
    simp only [Datum.ofName, constant, if_false]
  exact same ▸ takes_next stack (.symbol name)

/-- The token of an atom hands over the atom, unless it is a dot that asks for a tail. -/
theorem takes_atom {a : Atom} (readable : a.Readable)
    (free : a = .symbol "." → asksTail stack = false) :
    Takes stack [a.token] (accept (.atom a) stack) := by
  rcases readable with written | rfl
  · cases a with
    | nil => exact takes_next stack (.symbol "nil")
    | bool b =>
        cases b with
        | true => exact takes_next stack (.symbol "true")
        | false => exact takes_next stack (.symbol "false")
    | number x => exact takes_next stack (.number x)
    | string text => exact takes_next stack (.string text)
    | symbol name =>
        have solid : name ≠ "." := by
          rintro rfl
          exact written.1.notDot rfl
        have token : (Atom.symbol name).token = .symbol name := if_neg solid
        rw [token]
        exact takes_name written
    | native | dictionary | eof => cases written
  · exact takes_dot (free rfl)

/-- The tokens of the datum hand over the datum that is read for it. -/
def TakesDatum (d : Datum) : Prop :=
  d.Leaves Atom.Readable → ∀ stack, (d = .symbol "." → asksTail stack = false) →
    Takes stack d.tokens (accept d.reread stack)

/-- The tokens of what follows the first element close the list, in each of its three phases. -/
def TakesTail (rest : Datum) : Prop :=
  rest.Leaves Atom.Readable → ∀ done outer,
    (done ≠ [] → Takes (.items done :: outer) (rest.tokensTail ++ [.rightParen])
      (accept (.listWithTail done.reverse rest.rereadTail) outer)) ∧
    Takes (.dotted done :: outer) (rest.tokensTail ++ [.rightParen])
      (accept (.listWithTail done.reverse rest.rereadAfterDot) outer) ∧
    ∀ tail, Takes (.closing done tail :: outer) (rest.tokensTail ++ [.rightParen])
      (accept (.listWithTail done.reverse tail) outer)

theorem listWithTail_reverse_cons (done : List Datum) (d tail : Datum) :
    Datum.listWithTail (d :: done).reverse tail = .listWithTail done.reverse (.cons d tail) := by
  simp [Datum.listWithTail]

theorem takes_tokens (d : Datum) : TakesDatum d ∧ TakesTail d := by
  refine Datum.written_induction ?atom ?marked ?list ?tailNil ?tailAtom ?tailCons d
  case atom =>
    intro a readable stack free
    exact takes_atom readable fun same => free (by rw [same])
  case marked =>
    intro s d ih leaves stack _
    have inner := ih ((Datum.leaves_marked (.inl trivial)).mp leaves).2 (.marked s :: stack)
      (fun _ => rfl)
    rw [Datum.tokens_marked, Datum.reread_marked]
    exact Takes.cons rfl inner
  case list =>
    intro head rest bare onHead onRest _ _ leaves stack _
    have first := onHead leaves.1 (.items [] :: stack) (fun _ => rfl)
    have others := (onRest leaves.2 [head.reread] stack).1 (List.cons_ne_nil _ _)
    rw [Datum.tokens_bare bare, Datum.reread_bare bare]
    exact Takes.cons rfl (first.append others)
  case tailNil =>
    intro _ done outer
    exact ⟨fun _ => takes_next _ .rightParen, takes_next _ .rightParen,
      fun _ => takes_next _ .rightParen⟩
  case tailAtom =>
    intro a solid readable done outer
    have closed : ∀ tail, Takes (.closing done tail :: outer) [.rightParen]
        (accept (.listWithTail done.reverse tail) outer) := fun _ => takes_next _ .rightParen
    have dropped : ∀ tail, Takes (.closing done tail :: outer) ([a.token] ++ [.rightParen])
        (accept (.listWithTail done.reverse tail) outer) := fun tail =>
      (takes_atom readable (fun _ => rfl)).append (closed tail)
    rw [Datum.tokensTail_atom solid, Datum.rereadAfterDot_atom solid]
    refine ⟨fun some => ?_, ?_, fun tail => ?_⟩
    · obtain ⟨d, before, rfl⟩ := List.exists_cons_of_ne_nil some
      have tail : Takes (.dotted (d :: before) :: outer) [a.token]
          (accept (.atom a) (.dotted (d :: before) :: outer)) := takes_atom readable fun _ => rfl
      exact Takes.cons rfl (tail.append (closed (.atom a)))
    · exact Takes.cons rfl (dropped (.symbol "."))
    · exact Takes.cons rfl (dropped tail)
  case tailCons =>
    intro d rest onDatum onTail leaves done outer
    obtain ⟨-, -, afterTail⟩ := onTail leaves.2 done outer
    simp only [Datum.tokensTail, List.append_assoc]
    refine ⟨fun some => ?_, ?_, fun tail => ?_⟩
    · unfold Datum.rereadTail
      split
      · next isDot =>
          subst isDot
          obtain ⟨e, before, rfl⟩ := List.exists_cons_of_ne_nil some
          exact Takes.cons rfl (onTail leaves.2 (e :: before) outer).2.1
      · next solid =>
          have here := onDatum leaves.1 (.items done :: outer) (fun isDot => absurd isDot solid)
          have others := (onTail leaves.2 (d.reread :: done) outer).1 (List.cons_ne_nil _ _)
          rw [listWithTail_reverse_cons] at others
          exact here.append others
    · exact (onDatum leaves.1 (.dotted done :: outer) (fun _ => rfl)).append (afterTail d.reread)
    · exact (onDatum leaves.1 (.closing done tail :: outer) (fun _ => rfl)).append (afterTail tail)

/-- The tokens of a datum are one form, and nothing is left over. -/
theorem all_tokens {d : Datum} (leaves : d.Leaves Atom.Readable) :
    (all [] d.tokens).forms = [d.reread] ∧ (all [] d.tokens).left = [] := by
  have taken := (takes_tokens d).1 leaves [] (fun _ => rfl) []
  rw [List.append_nil] at taken
  exact taken

theorem first_of_all {tokens : List Token} {d : Datum} (forms : (all [] tokens).forms = [d])
    (left : (all [] tokens).left = []) :
    (first [] tokens).form = some d ∧ (first [] tokens).rest = [] := by
  cases found : (first [] tokens).form with
  | none =>
      rw [(all_of_first_none found).1] at forms
      cases forms
  | some e =>
      rw [all_of_first found] at forms left
      obtain ⟨rfl, noMore⟩ := List.cons.inj forms
      refine ⟨rfl, ?_⟩
      cases again : (first [] (first [] tokens).rest).form with
      | none => exact ((all_of_first_none again).2.2 left).2
      | some f =>
          rw [all_of_first again] at noMore
          cases noMore

end Stack

namespace Datum

mutual
/-- No list has the symbol `.` as an element after its first one. What is written with a sigil does
    not count as a list. -/
def noLaterDot : Datum → Bool
  | .atom _ => true
  | .cons head rest =>
      match head.sigil?, rest with
      | some _, .cons d .nil => noLaterDot d
      | _, rest => noLaterDot head && noLaterDotTail rest

/-- The same for what follows the first element of a list. -/
def noLaterDotTail : Datum → Bool
  | .atom _ => true
  | .cons d rest => d != .symbol "." && (noLaterDot d && noLaterDotTail rest)
end

theorem noLaterDot_marked (s : Sigil) (d : Datum) : (marked s d).noLaterDot = d.noLaterDot := by
  cases s <;> rfl

theorem noLaterDot_bare {head rest : Datum} (bare : Bare head rest) :
    (Datum.cons head rest).noLaterDot = (head.noLaterDot && rest.noLaterDotTail) := by
  rw [noLaterDot]
  exact bare

theorem noLaterDot_of_leaves {d : Datum} (leaves : d.Leaves (· ≠ .symbol ".")) :
    d.noLaterDot = true := by
  refine (@written_induction (fun d => d.Leaves (· ≠ .symbol ".") → d.noLaterDot = true)
    (fun rest => rest.Leaves (· ≠ .symbol ".") → rest.noLaterDotTail = true)
    ?atom ?marked ?list ?tailNil ?tailAtom ?tailCons d).1 leaves
  case atom =>
    intro a _
    rfl
  case marked =>
    intro s d ih leaves
    rw [noLaterDot_marked]
    exact ih ((leaves_marked (by simp)).mp leaves).2
  case list =>
    intro head rest bare onHead onRest _ _ leaves
    rw [noLaterDot_bare bare, onHead leaves.1, onRest leaves.2]
    rfl
  case tailNil =>
    intro _
    rfl
  case tailAtom =>
    intro a _ _
    rfl
  case tailCons =>
    intro d rest onDatum onTail leaves
    have solid : d ≠ .symbol "." := by
      rintro rfl
      exact leaves.1 rfl
    rw [noLaterDotTail, bne_iff_ne.mpr solid, onDatum leaves.1, onTail leaves.2]
    rfl

/-- The number of pairs. -/
def pairs : Datum → Nat
  | .atom _ => 0
  | .cons car cdr => car.pairs + cdr.pairs + 1

/-- The datum is read back as itself, or else as a smaller one. -/
def KeptOrSmaller (kept : Bool) (after before : Datum) : Prop :=
  (kept = true ∧ after = before) ∨ (kept = false ∧ after.pairs < before.pairs)

theorem KeptOrSmaller.le {kept : Bool} {after before : Datum} (h : KeptOrSmaller kept after before) :
    after.pairs ≤ before.pairs := by
  rcases h with ⟨-, rfl⟩ | ⟨-, less⟩
  · exact Nat.le_refl _
  · exact Nat.le_of_lt less

theorem KeptOrSmaller.cons {a b : Bool} {car cdr car' cdr' : Datum} (left : KeptOrSmaller a car' car)
    (right : KeptOrSmaller b cdr' cdr) : KeptOrSmaller (a && b) (.cons car' cdr') (.cons car cdr) := by
  have leftLe := left.le
  have rightLe := right.le
  simp only [KeptOrSmaller, pairs] at *
  rcases left with ⟨rfl, rfl⟩ | ⟨rfl, less⟩
  · rcases right with ⟨rfl, rfl⟩ | ⟨rfl, less⟩
    · exact .inl ⟨rfl, rfl⟩
    · exact .inr ⟨rfl, by omega⟩
  · exact .inr ⟨rfl, by omega⟩

def Shrinks (d : Datum) : Prop :=
  KeptOrSmaller d.noLaterDot d.reread d

def ShrinksTail (rest : Datum) : Prop :=
  KeptOrSmaller rest.noLaterDotTail rest.rereadTail rest ∧ rest.rereadAfterDot.pairs ≤ rest.pairs

theorem reread_shrinks (d : Datum) : Shrinks d ∧ ShrinksTail d := by
  refine written_induction ?atom ?marked ?list ?tailNil ?tailAtom ?tailCons d
  case atom =>
    intro a
    exact .inl ⟨rfl, rfl⟩
  case marked =>
    intro s d ih
    rw [Shrinks, noLaterDot_marked, reread_marked]
    rcases ih with ⟨kept, same⟩ | ⟨lost, less⟩
    · exact .inl ⟨kept, by rw [same]⟩
    · refine .inr ⟨lost, ?_⟩
      simp only [Datum.marked, list, listWithTail, List.foldr_cons, List.foldr_nil, pairs]
      omega
  case list =>
    intro head rest bare onHead onRest _ _
    rw [Shrinks, noLaterDot_bare bare, reread_bare bare]
    exact KeptOrSmaller.cons onHead onRest.1
  case tailNil => exact ⟨.inl ⟨rfl, rfl⟩, Nat.le_refl _⟩
  case tailAtom =>
    intro a solid
    rw [ShrinksTail, rereadAfterDot_atom solid]
    exact ⟨.inl ⟨rfl, rfl⟩, Nat.le_refl _⟩
  case tailCons =>
    intro d rest onDatum onTail
    obtain ⟨onTail, afterLe⟩ := onTail
    have firstLe := KeptOrSmaller.le onDatum
    refine ⟨?_, ?_⟩
    · unfold noLaterDotTail rereadTail
      split
      · next isDot =>
          subst isDot
          refine .inr ⟨rfl, ?_⟩
          simp only [pairs]
          omega
      · next solid =>
          rw [bne_iff_ne.mpr solid, Bool.true_and]
          exact KeptOrSmaller.cons onDatum onTail
    · simp only [rereadAfterDot, pairs]
      omega

theorem reread_of_noLaterDot {d : Datum} (kept : d.noLaterDot = true) : d.reread = d := by
  rcases (reread_shrinks d).1 with ⟨-, same⟩ | ⟨lost, -⟩
  · exact same
  · rw [kept] at lost
    cases lost

theorem pairs_reread_lt {d : Datum} (lost : d.noLaterDot = false) : d.reread.pairs < d.pairs := by
  rcases (reread_shrinks d).1 with ⟨kept, -⟩ | ⟨-, less⟩
  · rw [lost] at kept
    cases kept
  · exact less

end Datum

end SmallLisp
