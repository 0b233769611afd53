import SmallLisp.Proofs.Reading.Turns

/-! # Where the leaves of a form come from

Reading only puts together what the tokens bring: the leaves of every form are `nil` or come from a
token. A property of atoms that `nil` and all tokens have is therefore one of all leaves. The
invariant is that it holds of the leaves of all unfinished data.
-/

namespace SmallLisp

namespace Datum

/-- All leaves have the property. -/
def Leaves (P : Atom → Prop) : Datum → Prop
  | .atom a => P a
  | .cons car cdr => car.Leaves P ∧ cdr.Leaves P

theorem Leaves.mono {P Q : Atom → Prop} {d : Datum} (imp : ∀ a, P a → Q a) (leaves : d.Leaves P) :
    d.Leaves Q := by
  induction d with
  | atom a => exact imp a leaves
  | cons car cdr carLeaves cdrLeaves => exact ⟨carLeaves leaves.1, cdrLeaves leaves.2⟩

theorem leaves_listWithTail {P : Atom → Prop} {items : List Datum} {tail : Datum} :
    (listWithTail items tail).Leaves P ↔ (∀ d ∈ items, d.Leaves P) ∧ tail.Leaves P := by
  induction items with
  | nil => simp [listWithTail]
  | cons d items ih =>
      simp only [listWithTail, List.foldr_cons, Leaves, List.forall_mem_cons, and_assoc] at ih ⊢
      rw [ih]

theorem leaves_list {P : Atom → Prop} {items : List Datum} (base : P .nil) :
    (list items).Leaves P ↔ ∀ d ∈ items, d.Leaves P := by
  simp [list, leaves_listWithTail, Leaves, base]

theorem leaves_marked {P : Atom → Prop} {s : Sigil} {d : Datum} (base : P .nil) :
    (marked s d).Leaves P ↔ P (.symbol s.head) ∧ d.Leaves P := by
  simp [marked, leaves_list base, Leaves]

end Datum

/-- What a token brings into the datum around it. A parenthesis brings the end of a list. -/
def Token.datum : Token → Datum
  | .sigil s => .symbol s.head
  | .leftParen | .rightParen => .nil
  | .dot => .symbol "."
  | .number x => .atom (.number x)
  | .symbol name => .ofName name
  | .string text => .atom (.string text)

/-- All leaves of an unfinished datum have the property. -/
def Frame.Leaves (P : Atom → Prop) : Frame → Prop
  | .items done | .dotted done => ∀ d ∈ done, d.Leaves P
  | .closing done tail => (∀ d ∈ done, d.Leaves P) ∧ tail.Leaves P
  | .marked s => P (.symbol s.head)

/-- All leaves of a form and of the data that are still unfinished have the property. -/
structure Progress.Leaves (P : Atom → Prop) (step : Progress) : Prop where
  stack : ∀ frame ∈ step.stack, frame.Leaves P
  form : ∀ d ∈ step.form, d.Leaves P

namespace Stack

variable {P : Atom → Prop}

theorem accept_leaves (base : P .nil) {d : Datum} {stack : Stack} (new : d.Leaves P)
    (old : ∀ frame ∈ stack, frame.Leaves P) : (accept d stack).Leaves P := by
  induction stack generalizing d with
  | nil => exact ⟨nofun, by simpa [accept] using new⟩
  | cons frame outer ih =>
      obtain ⟨top, others⟩ := List.forall_mem_cons.mp old
      cases frame with
      | items done =>
          refine ⟨List.forall_mem_cons.mpr ⟨?_, others⟩, nofun⟩
          exact List.forall_mem_cons.mpr ⟨new, top⟩
      | dotted done => exact ⟨List.forall_mem_cons.mpr ⟨⟨top, new⟩, others⟩, nofun⟩
      | closing done tail => exact ⟨List.forall_mem_cons.mpr ⟨top, others⟩, nofun⟩
      | marked s =>
          have inner := ih ((Datum.leaves_marked base).mpr ⟨top, new⟩) others
          exact ⟨inner.stack, inner.form⟩

theorem acceptAtom_leaves (base : P .nil) {d : Datum} {stack : Stack} (new : d.Leaves P)
    (old : ∀ frame ∈ stack, frame.Leaves P) : (acceptAtom stack d).Leaves P :=
  have inner := accept_leaves base new old
  ⟨inner.stack, inner.form⟩

theorem close_leaves (base : P .nil) {stack : Stack} (old : ∀ frame ∈ stack, frame.Leaves P) :
    (close stack).Leaves P := by
  cases stack with
  | nil => exact accept_leaves (d := .nil) base base old
  | cons frame outer =>
      obtain ⟨top, others⟩ := List.forall_mem_cons.mp old
      cases frame with
      | items done | dotted done =>
          refine accept_leaves base ((Datum.leaves_list base).mpr ?_) others
          simpa [Frame.Leaves] using top
      | closing done tail =>
          refine accept_leaves base (Datum.leaves_listWithTail.mpr ?_) others
          simpa [Frame.Leaves] using top
      | marked s => exact accept_leaves (d := .nil) base base old

/-- A token adds no leaf but its own. -/
theorem next_leaves (base : P .nil) {stack : Stack} {t : Token} (new : t.datum.Leaves P)
    (old : ∀ frame ∈ stack, frame.Leaves P) : (next stack t).Leaves P := by
  cases t with
  | sigil s => exact ⟨List.forall_mem_cons.mpr ⟨new, old⟩, nofun⟩
  | leftParen => exact ⟨List.forall_mem_cons.mpr ⟨nofun, old⟩, nofun⟩
  | rightParen => exact close_leaves base old
  | dot =>
      simp only [next, dot]
      split
      · obtain ⟨top, others⟩ := List.forall_mem_cons.mp old
        exact ⟨List.forall_mem_cons.mpr ⟨top, others⟩, nofun⟩
      · exact acceptAtom_leaves base new old
  | number | symbol | string => exact acceptAtom_leaves base new old

/-- The leaves of the first form come from the tokens. -/
theorem first_leaves (base : P .nil) {stack : Stack} {tokens : List Token} {d : Datum}
    (brought : ∀ t ∈ tokens, t.datum.Leaves P) (old : ∀ frame ∈ stack, frame.Leaves P)
    (found : (first stack tokens).form = some d) : d.Leaves P := by
  induction tokens generalizing stack with
  | nil => cases found
  | cons t rest ih =>
      obtain ⟨new, others⟩ := List.forall_mem_cons.mp brought
      have step := next_leaves base new old
      cases complete : (next stack t).form with
      | some e =>
          rw [first_cons_of_form rest complete] at found
          cases found
          exact step.form d complete
      | none =>
          rw [first_cons_of_none rest complete] at found
          exact ih others step.stack found

/-- The leaves of all forms come from the tokens. -/
theorem all_leaves (base : P .nil) {stack : Stack} {tokens : List Token}
    (brought : ∀ t ∈ tokens, t.datum.Leaves P) (old : ∀ frame ∈ stack, frame.Leaves P) :
    ∀ d ∈ (all stack tokens).forms, d.Leaves P := by
  induction tokens generalizing stack with
  | nil => nofun
  | cons t rest ih =>
      obtain ⟨new, others⟩ := List.forall_mem_cons.mp brought
      have step := next_leaves base new old
      intro d among
      rcases List.mem_append.mp among with here | later
      · exact step.form d (Option.mem_toList.mp here)
      · exact ih others step.stack d later

end Stack

theorem Datum.ofName_leaves {P : Atom → Prop} {name : String} (base : P .nil)
    (bools : ∀ b, P (.bool b))
    (symbol : name ≠ "nil" → name ≠ "true" → name ≠ "false" → P (.symbol name)) :
    (Datum.ofName name).Leaves P := by
  unfold Datum.ofName
  split
  · exact base
  · split
    · exact bools true
    · split
      · exact bools false
      · exact symbol ‹_› ‹_› ‹_›

/-- A token can bring the atom. -/
def Atom.Literal : Atom → Prop
  | .native | .dictionary | .eof => False
  | _ => True

theorem Token.datum_literal (t : Token) : t.datum.Leaves Atom.Literal := by
  cases t with
  | symbol name => exact Datum.ofName_leaves trivial (fun _ => trivial) fun _ _ _ => trivial
  | sigil | leftParen | rightParen | dot | number | string => trivial

theorem Stack.first_literal {tokens : List Token} {d : Datum}
    (found : (Stack.first [] tokens).form = some d) : d.Leaves Atom.Literal :=
  Stack.first_leaves trivial (fun t _ => t.datum_literal) (by simp) found

theorem Stack.all_literal (tokens : List Token) :
    ∀ d ∈ (Stack.all [] tokens).forms, d.Leaves Atom.Literal :=
  Stack.all_leaves trivial (fun t _ => t.datum_literal) nofun

/-- No token brings `eof`, so no form is one. -/
theorem Stack.first_form_ne_eof {tokens : List Token} {d : Datum}
    (found : (Stack.first [] tokens).form = some d) : d ≠ .eof := by
  rintro rfl
  exact Stack.first_literal found

end SmallLisp
