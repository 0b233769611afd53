import SmallLisp.Datum.Reader

/-! # Reading turn by turn

Taking all tokens at once is the same as a loop in which each turn reads the first form of the
tokens that the turns before it have left. The loop ends when no tokens are left, or with a turn
whose form is unfinished. What a loop over turns shows and one pass over the tokens hides is where
each form starts.
-/

namespace SmallLisp.Stack

theorem accept_form_isSome (d : Datum) (stack : Stack) :
    (accept d stack).form.isSome = (accept d stack).stack.isEmpty := by
  induction stack generalizing d with
  | nil => rfl
  | cons frame outer ih =>
      cases frame with
      | items | dotted | closing => rfl
      | marked s => exact ih (.marked s d)

theorem acceptAtom_form_isSome (stack : Stack) (d : Datum) :
    (acceptAtom stack d).form.isSome = (acceptAtom stack d).stack.isEmpty :=
  accept_form_isSome d stack

theorem close_form_isSome (stack : Stack) :
    (close stack).form.isSome = (close stack).stack.isEmpty := by
  cases stack with
  | nil => rfl
  | cons frame outer => cases frame <;> exact accept_form_isSome _ _

theorem dot_form_isSome (stack : Stack) : (dot stack).form.isSome = (dot stack).stack.isEmpty := by
  unfold dot
  split
  · rfl
  · exact acceptAtom_form_isSome stack _

/-- A token completes a form exactly when it leaves nothing unfinished. -/
theorem next_form_isSome (stack : Stack) (t : Token) :
    (next stack t).form.isSome = (next stack t).stack.isEmpty := by
  cases t with
  | sigil | leftParen => rfl
  | rightParen => exact close_form_isSome stack
  | dot => exact dot_form_isSome stack
  | number | symbol | string => exact acceptAtom_form_isSome stack _

theorem next_stack_of_form {stack : Stack} {t : Token} {d : Datum}
    (complete : (next stack t).form = some d) : (next stack t).stack = [] := by
  have emptied := next_form_isSome stack t
  rw [complete] at emptied
  exact List.isEmpty_iff.mp emptied.symm

theorem next_stack_ne_nil {stack : Stack} {t : Token} (unfinished : (next stack t).form = none) :
    (next stack t).stack ≠ [] := by
  have kept := next_form_isSome stack t
  rw [unfinished] at kept
  exact List.isEmpty_eq_false_iff.mp kept.symm

/-- Tokens are taken on from where the tokens before them have left off. -/
theorem all_append (stack : Stack) (tokens others : List Token) :
    all stack (tokens ++ others) =
      { all (all stack tokens).left others with
        forms := (all stack tokens).forms ++ (all (all stack tokens).left others).forms
        names := (all stack tokens).names ++ (all (all stack tokens).left others).names } := by
  induction tokens generalizing stack with
  | nil => rfl
  | cons t tokens ih => simp only [List.cons_append, all, ih, List.append_assoc]

theorem first_cons_of_form {stack : Stack} {t : Token} {d : Datum} (rest : List Token)
    (complete : (next stack t).form = some d) :
    first stack (t :: rest) = ⟨some d, (next stack t).names, rest⟩ := by
  simp only [first, complete]

theorem first_cons_of_none {stack : Stack} {t : Token} (rest : List Token)
    (unfinished : (next stack t).form = none) :
    first stack (t :: rest) =
      { first (next stack t).stack rest with
        names := (next stack t).names ++ (first (next stack t).stack rest).names } := by
  simp only [first, unfinished]

/-- A form takes a token at least. -/
theorem first_rest_length_lt {stack : Stack} {tokens : List Token} {d : Datum}
    (found : (first stack tokens).form = some d) :
    (first stack tokens).rest.length < tokens.length := by
  induction tokens generalizing stack with
  | nil => cases found
  | cons t rest ih =>
      cases complete : (next stack t).form with
      | some e =>
          rw [first_cons_of_form rest complete]
          exact Nat.lt_succ_self _
      | none =>
          rw [first_cons_of_none rest complete] at found ⊢
          exact Nat.lt_succ_of_lt (ih found)

/-- All tokens give the first form and then what the tokens after it give. -/
theorem all_of_first {stack : Stack} {tokens : List Token} {d : Datum}
    (found : (first stack tokens).form = some d) :
    all stack tokens =
      { all [] (first stack tokens).rest with
        forms := d :: (all [] (first stack tokens).rest).forms
        names := (first stack tokens).names ++ (all [] (first stack tokens).rest).names } := by
  induction tokens generalizing stack with
  | nil => cases found
  | cons t rest ih =>
      cases complete : (next stack t).form with
      | some e =>
          rw [first_cons_of_form rest complete] at found ⊢
          cases found
          simp only [all, complete, next_stack_of_form complete, Option.toList_some,
            List.singleton_append]
      | none =>
          rw [first_cons_of_none rest complete] at found ⊢
          simp only [all, complete, ih found, Option.toList_none, List.nil_append,
            List.append_assoc]

/-- Tokens without a form leave something unfinished, unless there was nothing at all. -/
theorem all_of_first_none {stack : Stack} {tokens : List Token}
    (unfinished : (first stack tokens).form = none) :
    (all stack tokens).forms = [] ∧ (all stack tokens).names = (first stack tokens).names ∧
      ((all stack tokens).left = [] → stack = [] ∧ tokens = []) := by
  induction tokens generalizing stack with
  | nil => exact ⟨rfl, rfl, fun empty => ⟨empty, rfl⟩⟩
  | cons t rest ih =>
      cases complete : (next stack t).form with
      | some e =>
          rw [first_cons_of_form rest complete] at unfinished
          cases unfinished
      | none =>
          rw [first_cons_of_none rest complete] at unfinished
          obtain ⟨forms, names, left⟩ := ih unfinished
          rw [first_cons_of_none rest complete]
          refine ⟨?_, ?_, fun empty => ?_⟩
          · simp only [all, complete, forms, Option.toList_none, List.append_nil]
          · simp only [all, names]
          · exact absurd (left empty).1 (next_stack_ne_nil complete)

/-- The tokens that are left at the start of each turn. A turn whose form is unfinished is the
    last one. -/
def turns : List Token → List (List Token)
  | [] => []
  | t :: rest =>
      match _found : (first [] (t :: rest)).form with
      | some _ => (t :: rest) :: turns (first [] (t :: rest)).rest
      | none => [t :: rest]
termination_by tokens => tokens.length
decreasing_by exact first_rest_length_lt _found

theorem turns_of_form {t : Token} {rest : List Token} {d : Datum}
    (found : (first [] (t :: rest)).form = some d) :
    turns (t :: rest) = (t :: rest) :: turns (first [] (t :: rest)).rest := by
  rw [turns]
  split
  · rfl
  · next unfinished => simp [found] at unfinished

theorem turns_of_none {t : Token} {rest : List Token}
    (unfinished : (first [] (t :: rest)).form = none) : turns (t :: rest) = [t :: rest] := by
  rw [turns]
  split
  · next found => simp [unfinished] at found
  · rfl

/-- Each turn gives its form, or `eof` where it is unfinished. -/
theorem forms_eq_turns (tokens : List Token) :
    (if (all [] tokens).left.isEmpty then (all [] tokens).forms
      else (all [] tokens).forms ++ [.eof]) =
      (turns tokens).map fun left => (first [] left).form.getD .eof := by
  induction tokens using turns.induct with
  | case1 => simp [all, turns]
  | case2 t rest d found ih =>
      rw [turns_of_form found, all_of_first found, List.map_cons, ← ih, found]
      split <;> rfl
  | case3 t rest unfinished =>
      obtain ⟨forms, -, left⟩ := all_of_first_none unfinished
      have open_ : (all [] (t :: rest)).left.isEmpty = false := by
        rw [List.isEmpty_eq_false_iff]
        exact fun empty => List.cons_ne_nil _ _ (left empty).2
      rw [turns_of_none unfinished, open_, forms]
      simp [unfinished]

end SmallLisp.Stack

namespace SmallLisp

/-- Reading all data of a text is the loop over its turns. -/
theorem readMany_eq_turns (text : String) :
    (readMany text).result = (scan text).atEnd
      ((Stack.turns (scan text).tokens).map fun left => (Stack.first [] left).form.getD .eof) := by
  rw [← Stack.forms_eq_turns]
  rfl

end SmallLisp
