import SmallLisp.Layout.Pretty

/-! # How a datum is written

A datum is written in one of three ways: as an atom, as a sigil before another datum, or as a list
that opens with a text, has a first element, and goes on with a tail. A function literal opens with
its head as well, so that its parameters count as the first element. Every way of writing follows
these three, so the equations below and one induction replace the case analyses on heads and rests.
-/

namespace SmallLisp

namespace Datum

/-- How a list is opened: the text, how far its broken lines are set in, the first element, and
    what follows that. -/
structure Opening where
  text : String
  indent : Nat
  first : Datum
  others : Datum

/-- The opening of the list with this head and rest. -/
def opening (head rest : Datum) : Opening :=
  match head.isLambda, rest with
  | true, .cons params body => ⟨"(lambda ", Layout.lambdaIndent, params, body⟩
  | _, rest => ⟨"(", Layout.listIndent, head, rest⟩

theorem opening_cases (head rest : Datum) :
    (∃ params body, head.isLambda = true ∧ rest = .cons params body ∧
      opening head rest = ⟨"(lambda ", Layout.lambdaIndent, params, body⟩) ∨
    ((∀ params body, head.isLambda = true → rest = .cons params body → False) ∧
      opening head rest = ⟨"(", Layout.listIndent, head, rest⟩) := by
  unfold opening
  split
  · next params body found => exact .inl ⟨params, body, found, rfl, rfl⟩
  · next plain => exact .inr ⟨plain, rfl⟩

/-- The pair is not written with a sigil. -/
def Bare (head rest : Datum) : Prop :=
  ∀ s d, head.sigil? = some s → rest ≠ .cons d .nil

theorem head_of_named {name : String} {s : Sigil} (named : Sigil.named? name = some s) :
    name = s.head := by
  unfold Sigil.named? at named
  split at named
  · cases named
    assumption
  · split at named
    · cases named
      assumption
    · cases named

theorem eq_symbol_of_sigil {head : Datum} {s : Sigil} (found : head.sigil? = some s) :
    head = .symbol s.head := by
  unfold sigil? at found
  split at found
  · rw [head_of_named found]
  · cases found

theorem bare_or_marked (head rest : Datum) :
    Bare head rest ∨ ∃ s d, Datum.cons head rest = marked s d := by
  by_cases found : ∃ s d, head.sigil? = some s ∧ rest = .cons d .nil
  · obtain ⟨s, d, named, rfl⟩ := found
    exact .inr ⟨s, d, by rw [eq_symbol_of_sigil named]; rfl⟩
  · exact .inl fun s d named same => found ⟨s, d, named, same⟩

theorem opening_first_lt (head rest : Datum) :
    sizeOf (opening head rest).first < sizeOf (Datum.cons head rest) := by
  rcases opening_cases head rest with ⟨params, body, _, rfl, found⟩ | ⟨_, found⟩
  · simp only [found, cons.sizeOf_spec]
    omega
  · simp only [found, cons.sizeOf_spec]
    omega

theorem opening_others_lt (head rest : Datum) :
    sizeOf (opening head rest).others < sizeOf (Datum.cons head rest) := by
  rcases opening_cases head rest with ⟨params, body, _, rfl, found⟩ | ⟨_, found⟩
  · simp only [found, cons.sizeOf_spec]
    omega
  · simp only [found, cons.sizeOf_spec]
    omega

/-- Induction on the way a datum is written, with a statement on data and one on tails. A list may
    be taken apart into its head and rest or into what its opening leaves. -/
theorem written_induction {onDatum onTail : Datum → Prop}
    (atom : ∀ a, onDatum (.atom a))
    (marked : ∀ s d, onDatum d → onDatum (.marked s d))
    (list : ∀ head rest, Bare head rest → onDatum head → onTail rest →
      onDatum (opening head rest).first → onTail (opening head rest).others →
      onDatum (.cons head rest))
    (tailNil : onTail .nil)
    (tailAtom : ∀ a, a ≠ .nil → onTail (.atom a))
    (tailCons : ∀ d rest, onDatum d → onTail rest → onTail (.cons d rest))
    (d : Datum) : onDatum d ∧ onTail d := by
  induction size : sizeOf d using Nat.strongRecOn generalizing d with
  | ind n ih =>
      subst size
      cases d with
      | atom a =>
          refine ⟨atom a, ?_⟩
          by_cases empty : a = .nil
          · exact empty ▸ tailNil
          · exact tailAtom a empty
      | cons head rest =>
          have onHead := ih _ (by rw [cons.sizeOf_spec]; omega) head rfl
          have onRest := ih _ (by rw [cons.sizeOf_spec]; omega) rest rfl
          refine ⟨?_, tailCons head rest onHead.1 onRest.2⟩
          rcases bare_or_marked head rest with bare | ⟨s, d, same⟩
          · exact list head rest bare onHead.1 onRest.2
              (ih _ (opening_first_lt head rest) _ rfl).1
              (ih _ (opening_others_lt head rest) _ rfl).2
          · have smaller : sizeOf d < sizeOf (Datum.cons head rest) := by
              rw [same]
              simp [Datum.marked, Datum.list, listWithTail]
              omega
            exact same ▸ marked s d (ih _ smaller d rfl).1

theorem display_marked (s : Sigil) (d : Datum) :
    (marked s d).display = s.text ++ d.display := by
  cases s <;> rfl

theorem display_bare {head rest : Datum} (bare : Bare head rest) :
    (Datum.cons head rest).display = "(" ++ head.display ++ rest.displayTail ++ ")" := by
  rw [display]
  exact bare

theorem displayTail_atom {a : Atom} (solid : a ≠ .nil) :
    displayTail (.atom a) = " . " ++ a.text := by
  rw [displayTail]
  exact solid

theorem eq_symbol_of_isLambda {head : Datum} (found : head.isLambda = true) :
    head = .symbol "lambda" := by
  unfold isLambda at found
  split at found
  · rw [beq_iff_eq.mp found]
  · cases found

theorem display_list {head rest : Datum} (bare : Bare head rest) :
    (Datum.cons head rest).display =
      (opening head rest).text ++ (opening head rest).first.display ++
        (opening head rest).others.displayTail ++ ")" := by
  rw [display_bare bare]
  rcases opening_cases head rest with ⟨params, body, lambda, rfl, found⟩ | ⟨_, found⟩
  · rw [found, eq_symbol_of_isLambda lambda, displayTail]
    simp only [display, Atom.text, ← String.append_assoc]
    rfl
  · rw [found]

end Datum

end SmallLisp
