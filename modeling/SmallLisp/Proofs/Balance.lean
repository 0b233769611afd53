import SmallLisp.Balance
import SmallLisp.Proofs.Reading.Loading

/-! # Balance and reading agree

The judge of a text keeps a number and a flag where the reader keeps a stack of unfinished data.
Both are views of that stack: the number counts its lists, the flag says whether a sigil is on top.
A token changes the views as it changes the stack, except for a closing parenthesis that finds no
stack at all, where the judge stops and the reader goes on. So the judge follows the reader through
each form, and differs from it only at the start of a turn.
-/

namespace SmallLisp

/-- The frame belongs to a list. -/
def Frame.isList : Frame → Bool
  | .marked _ => false
  | _ => true

namespace Stack

/-- The number of lists that are open. -/
def depth (stack : Stack) : Nat := stack.countP Frame.isList

/-- A sigil waits for its datum. -/
def waiting : Stack → Bool
  | .marked _ :: _ => true
  | _ => false

@[simp] theorem depth_nil : depth [] = 0 := rfl

theorem depth_cons (frame : Frame) (outer : Stack) :
    depth (frame :: outer) = depth outer + if frame.isList then 1 else 0 :=
  List.countP_cons

theorem accept_depth (d : Datum) (stack : Stack) : depth (accept d stack).stack = stack.depth := by
  induction stack generalizing d with
  | nil => rfl
  | cons frame outer ih =>
      cases frame with
      | items | dotted | closing => simp only [accept, depth_cons, Frame.isList]
      | marked s => simpa [accept, depth_cons, Frame.isList] using ih (.marked s d)

/-- A datum ends the waiting of all sigils before it. -/
theorem accept_waiting (d : Datum) (stack : Stack) : waiting (accept d stack).stack = false := by
  induction stack generalizing d with
  | nil => rfl
  | cons frame outer ih =>
      cases frame with
      | items | dotted | closing => rfl
      | marked s => exact ih (.marked s d)

theorem dot_depth (stack : Stack) : depth (dot stack).stack = stack.depth := by
  unfold dot
  split
  · simp only [depth_cons, Frame.isList]
  · exact accept_depth _ stack

theorem dot_waiting (stack : Stack) : waiting (dot stack).stack = false := by
  unfold dot
  split
  · rfl
  · exact accept_waiting _ stack

/-- Something is unfinished exactly when the two views show it. -/
theorem views_of_ne_nil {stack : Stack} (unfinished : stack ≠ []) :
    (decide (0 < stack.depth) || stack.waiting) = true := by
  cases stack with
  | nil => exact absurd rfl unfinished
  | cons frame outer =>
      cases frame with
      | items | dotted | closing => simp [depth_cons, Frame.isList]
      | marked s => simp [waiting]

end Stack

namespace Balance

open Stack

/-- The judge follows the stack over a token, unless the token is a closing parenthesis outside
    everything. -/
theorem judge_next (ending : Ending) (stack : Stack) (t : Token) (rest : List Token)
    (inside : stack ≠ [] ∨ t ≠ .rightParen) :
    judge ending stack.depth stack.waiting (t :: rest) =
      judge ending (depth (next stack t).stack) (waiting (next stack t).stack) rest := by
  cases t with
  | sigil s => simp [judge, next, depth_cons, Frame.isList, waiting]
  | leftParen => simp [judge, next, depth_cons, Frame.isList, waiting]
  | dot => simp only [judge, next, dot_depth, dot_waiting]
  | number x => simp only [judge, next, acceptAtom, accept_depth, accept_waiting]
  | symbol name => simp only [judge, next, acceptAtom, accept_depth, accept_waiting]
  | string text => simp only [judge, next, acceptAtom, accept_depth, accept_waiting]
  | rightParen =>
      cases stack with
      | nil => simp at inside
      | cons frame outer =>
          cases frame with
          | items done | dotted done | closing done tail =>
              simp only [next, close, accept_depth, accept_waiting]
              simp [judge, depth_cons, Frame.isList, waiting]
          | marked s =>
              simp only [next, close, accept_depth, accept_waiting]
              simp [judge, depth_cons, Frame.isList, waiting]

/-- The judge follows the reader up to the end of a form. -/
theorem judge_first (ending : Ending) (stack : Stack) (tokens : List Token)
    (inside : stack ≠ [] ∨ ∃ t rest, tokens = t :: rest ∧ t ≠ .rightParen) :
    judge ending stack.depth stack.waiting tokens =
      match (first stack tokens).form with
      | some _ => judge ending 0 false (first stack tokens).rest
      | none => .unclosed := by
  induction tokens generalizing stack with
  | nil =>
      have unfinished : stack ≠ [] := by simpa using inside
      cases ending with
      | openString => rfl
      | complete => simp only [judge, first, views_of_ne_nil unfinished, if_true]
  | cons t rest ih =>
      have allowed : stack ≠ [] ∨ t ≠ .rightParen := by
        rcases inside with unfinished | ⟨u, others, same, solid⟩
        · exact .inl unfinished
        · cases same
          exact .inr solid
      rw [judge_next ending stack t rest allowed]
      cases complete : (next stack t).form with
      | some d =>
          rw [first_cons_of_form rest complete, next_stack_of_form complete]
          rfl
      | none =>
          rw [first_cons_of_none rest complete]
          exact ih _ (.inl (next_stack_ne_nil complete))

/-- A turn starts at a closing parenthesis. -/
def TurnAtClose (tokens : List Token) : Prop :=
  ∃ left ∈ turns tokens, left.head? = some .rightParen

/-- A turn has no form. -/
def Unfinished (tokens : List Token) : Prop :=
  ∃ left ∈ turns tokens, (first [] left).form = none

theorem turnAtClose_of_form {t : Token} {rest : List Token} {d : Datum}
    (found : (first [] (t :: rest)).form = some d) :
    TurnAtClose (t :: rest) ↔ t = .rightParen ∨ TurnAtClose (first [] (t :: rest)).rest := by
  simp [TurnAtClose, turns_of_form found]

theorem unfinished_of_form {t : Token} {rest : List Token} {d : Datum}
    (found : (first [] (t :: rest)).form = some d) :
    Unfinished (t :: rest) ↔ Unfinished (first [] (t :: rest)).rest := by
  simp [Unfinished, turns_of_form found, found]

theorem first_rightParen (rest : List Token) :
    first [] (.rightParen :: rest) = ⟨some .nil, [], rest⟩ := rfl

/-- The judgement of a whole text in terms of its turns. -/
theorem judge_eq_turns (ending : Ending) (tokens : List Token) :
    (judge ending 0 false tokens = .overclosed ↔ TurnAtClose tokens) ∧
      (¬ TurnAtClose tokens → (judge ending 0 false tokens = .unclosed ↔
        ending = .openString ∨ Unfinished tokens)) := by
  induction tokens using turns.induct with
  | case1 => cases ending <;> simp [judge, TurnAtClose, Unfinished, turns]
  | case2 t rest d found ih =>
      by_cases stray : t = .rightParen
      · subst stray
        have stopped : TurnAtClose (.rightParen :: rest) := (turnAtClose_of_form found).mpr (.inl rfl)
        exact ⟨⟨fun _ => stopped, fun _ => by simp [judge]⟩, fun fine => absurd stopped fine⟩
      · have follow := judge_first ending [] (t :: rest) (.inr ⟨t, rest, rfl, stray⟩)
        rw [found] at follow
        simp only [depth_nil, waiting] at follow
        rw [follow, turnAtClose_of_form found, unfinished_of_form found]
        simpa only [stray, false_or] using ih
  | case3 t rest unfinished =>
      have solid : t ≠ .rightParen := by
        rintro rfl
        rw [first_rightParen] at unfinished
        cases unfinished
      have follow := judge_first ending [] (t :: rest) (.inr ⟨t, rest, rfl, solid⟩)
      rw [unfinished] at follow
      simp only [depth_nil, waiting] at follow
      rw [follow]
      simp [TurnAtClose, Unfinished, turns_of_none unfinished, unfinished, solid]

/-- The last turn is the only one that can be unfinished, and then it gives `eof`. -/
theorem getLast_eq_eof_iff (tokens : List Token) :
    ((turns tokens).map fun left => (first [] left).form.getD .eof).getLast? = some .eof ↔
      Unfinished tokens := by
  induction tokens using turns.induct with
  | case1 => simp [Unfinished, turns]
  | case2 t rest d found ih =>
      rw [unfinished_of_form found, ← ih, turns_of_form found, List.map_cons, List.getLast?_cons,
        found]
      cases List.getLast? _ with
      | some e => rfl
      | none => simpa using first_form_ne_eof found
  | case3 t rest unfinished => simp [Unfinished, turns_of_none unfinished, unfinished]

/-- No turn gives `eof` but an unfinished one. -/
theorem eof_mem_iff (tokens : List Token) :
    (.eof ∈ (turns tokens).map fun left => (first [] left).form.getD .eof) ↔
      Unfinished tokens := by
  simp only [List.mem_map, Unfinished]
  refine exists_congr fun left => and_congr_right fun _ => ?_
  cases found : (first [] left).form with
  | none => simp
  | some d => simpa using first_form_ne_eof found

end Balance

/-- The verdict on a text and the result of reading it into any store agree. A text closes too much
    exactly when a turn of the reader starts at a closing parenthesis. Any other text is balanced
    exactly when it is read without an `eof`, and unclosed exactly when reading it fails or ends
    with `eof`. -/
theorem balance_iff_readMany {F : Type} (text : String) (s : Store F) :
    (balance text = .overclosed ↔ Balance.TurnAtClose (scan text).tokens) ∧
      (¬ Balance.TurnAtClose (scan text).tokens →
        (balance text = .balanced ↔
          ∃ forms, (s.readMany text).1 = .ok forms ∧ .eof ∉ forms) ∧
        (balance text = .unclosed ↔
          (∃ e, (s.readMany text).1 = .error e) ∨
            ∃ forms, (s.readMany text).1 = .ok forms ∧ forms.getLast? = some .eof)) := by
  obtain ⟨overclosed, fine⟩ := Balance.judge_eq_turns (scan text).ending (scan text).tokens
  refine ⟨overclosed, fun inside => ?_⟩
  have notOver : balance text ≠ .overclosed := mt overclosed.mp inside
  have unclosed : balance text = .unclosed ↔
      (scan text).ending = .openString ∨ Balance.Unfinished (scan text).tokens := fine inside
  have balanced : balance text = .balanced ↔ ¬ balance text = .unclosed := by
    cases verdict : balance text <;> simp_all
  rw [balanced, unclosed]
  cases ending : (scan text).ending with
  | openString => simp [s.readMany_of_openString ending]
  | complete =>
      simp [s.readMany_of_complete ending, Store.eof_mem_loadAll, Store.getLast_loadAll,
        Balance.eof_mem_iff, Balance.getLast_eq_eof_iff, -List.getLast?_map]

/-- A sigil takes the parenthesis after it, so this text needs one more, and reading it ends with
    `eof`. -/
theorem balance_iff_readMany_sigil_close :
    ¬ Balance.TurnAtClose (scan "(')").tokens ∧
      (balance "(')" = .unclosed ↔
        (∃ e, ((Store.empty : Store Empty).readMany "(')").1 = .error e) ∨
          ∃ forms, ((Store.empty : Store Empty).readMany "(')").1 = .ok forms ∧
            forms.getLast? = some .eof) := by
  have inside : ¬ Balance.TurnAtClose (scan "(')").tokens :=
    mt (balance_iff_readMany "(')" (Store.empty : Store Empty)).1.mpr (by decide +kernel)
  exact ⟨inside, ((balance_iff_readMany "(')" Store.empty).2 inside).2⟩

end SmallLisp
