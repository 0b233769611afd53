import SmallLisp.Proofs.Reading.Leaves

/-! # The names that reading meets

The symbols of a form have all been met when the form is complete. The head of a sigil is met only
with its datum, so the invariant asks nothing of a sigil that still waits for one: it is that the
symbols of all other unfinished data have been met.
-/

namespace SmallLisp

/-- The atom, if it is a symbol, has one of the names. -/
def Atom.Among (names : List String) : Atom → Prop
  | .symbol name => name ∈ names
  | _ => True

theorem Atom.Among.mono {names more : List String} (sub : names ⊆ more) (a : Atom)
    (among : a.Among names) : a.Among more := by
  cases a with
  | symbol name => exact sub among
  | nil | bool | number | string | native | dictionary | eof => trivial

namespace Datum

/-- All symbols have one of the names. -/
def Among (names : List String) : Datum → Prop :=
  Leaves (Atom.Among names)

theorem Among.mono {names more : List String} {d : Datum} (sub : names ⊆ more)
    (among : d.Among names) : d.Among more :=
  Leaves.mono (Atom.Among.mono sub) among

theorem Among.list {names : List String} {items : List Datum} (among : ∀ d ∈ items, d.Among names) :
    (list items).Among names :=
  (leaves_list trivial).mpr among

theorem Among.listWithTail {names : List String} {items : List Datum} {tail : Datum}
    (among : ∀ d ∈ items, d.Among names) (last : tail.Among names) :
    (listWithTail items tail).Among names :=
  leaves_listWithTail.mpr ⟨among, last⟩

theorem Among.marked {names : List String} {s : Sigil} {d : Datum} (head : s.head ∈ names)
    (among : d.Among names) : (marked s d).Among names :=
  (leaves_marked trivial).mpr ⟨head, among⟩

theorem among_ownNames (a : Atom) : (atom a).Among (atom a).ownNames := by
  cases a with
  | symbol name => exact List.mem_singleton_self name
  | nil | bool | number | string | native | dictionary | eof => trivial

theorem ofName_eq_atom (name : String) : ∃ a, ofName name = atom a := by
  unfold ofName
  split
  · exact ⟨_, rfl⟩
  · split
    · exact ⟨_, rfl⟩
    · split <;> exact ⟨_, rfl⟩

end Datum

/-- All symbols of an unfinished datum have one of the names. -/
def Frame.Among (names : List String) : Frame → Prop
  | .items done | .dotted done => ∀ d ∈ done, d.Among names
  | .closing done tail => (∀ d ∈ done, d.Among names) ∧ tail.Among names
  | .marked _ => True

theorem Frame.Among.mono {names more : List String} {frame : Frame} (sub : names ⊆ more)
    (among : frame.Among names) : frame.Among more := by
  cases frame with
  | items done | dotted done => exact fun d here => (among d here).mono sub
  | closing done tail => exact ⟨fun d here => (among.1 d here).mono sub, among.2.mono sub⟩
  | marked s => trivial

/-- The symbols of a form and of the data that are still unfinished were known before or have been
    met. -/
structure Progress.Among (known : List String) (step : Progress) : Prop where
  stack : ∀ frame ∈ step.stack, frame.Among (known ++ step.names)
  form : ∀ d ∈ step.form, d.Among (known ++ step.names)

/-- A token that completes no form and meets no symbol leaves what was known. -/
theorem Progress.Among.unfinished {known : List String} {stack : Stack}
    (among : ∀ frame ∈ stack, frame.Among known) : Progress.Among known ⟨stack, none, []⟩ := by
  refine ⟨?_, fun d here => by cases here⟩
  rw [List.append_nil]
  exact among

/-- What is met first is known to the rest. -/
theorem Progress.Among.after {known met : List String} {step : Progress}
    (among : step.Among (known ++ met)) :
    Progress.Among known { step with names := met ++ step.names } :=
  ⟨by simpa only [List.append_assoc] using among.stack,
    by simpa only [List.append_assoc] using among.form⟩

namespace Stack

variable {known : List String} {stack : Stack} {d : Datum} {tokens : List Token}

theorem accept_among (new : d.Among known) (old : ∀ frame ∈ stack, frame.Among known) :
    (accept d stack).Among known := by
  induction stack generalizing d known with
  | nil =>
      refine ⟨List.forall_mem_nil _, fun e here => ?_⟩
      cases here
      rw [accept, List.append_nil]
      exact new
  | cons frame outer ih =>
      obtain ⟨top, others⟩ := List.forall_mem_cons.mp old
      cases frame with
      | items done =>
          have longer : ∀ e ∈ d :: done, e.Among known := List.forall_mem_cons.mpr ⟨new, top⟩
          exact .unfinished (List.forall_mem_cons.mpr ⟨longer, others⟩)
      | dotted done => exact .unfinished (List.forall_mem_cons.mpr ⟨⟨top, new⟩, others⟩)
      | closing done tail => exact .unfinished (List.forall_mem_cons.mpr ⟨top, others⟩)
      | marked s =>
          have sub : known ⊆ known ++ [s.head] := List.subset_append_left known [s.head]
          have marked : (Datum.marked s d).Among (known ++ [s.head]) :=
            .marked (List.mem_append_right known (List.mem_singleton_self _)) (new.mono sub)
          exact (ih marked fun frame here => (others frame here).mono sub).after

theorem acceptAtom_among (a : Atom) (old : ∀ frame ∈ stack, frame.Among known) :
    (acceptAtom stack (.atom a)).Among known := by
  have new : (Datum.atom a).Among (known ++ (Datum.atom a).ownNames) :=
    (Datum.among_ownNames a).mono (List.subset_append_right known _)
  have sub := List.subset_append_left known (Datum.atom a).ownNames
  exact (accept_among new fun frame here => (old frame here).mono sub).after

theorem close_among (old : ∀ frame ∈ stack, frame.Among known) : (close stack).Among known := by
  cases stack with
  | nil => exact accept_among (d := .nil) trivial old
  | cons frame outer =>
      obtain ⟨top, others⟩ := List.forall_mem_cons.mp old
      cases frame with
      | items done | dotted done =>
          exact accept_among (.list fun d here => top d (List.mem_reverse.mp here)) others
      | closing done tail =>
          have items : ∀ d ∈ done.reverse, d.Among known :=
            fun d here => top.1 d (List.mem_reverse.mp here)
          exact accept_among (.listWithTail items top.2) others
      | marked s => exact accept_among (d := .nil) trivial old

/-- A token meets the symbols that it completes. -/
theorem next_among (t : Token) (old : ∀ frame ∈ stack, frame.Among known) :
    (next stack t).Among known := by
  cases t with
  | sigil s => exact .unfinished (List.forall_mem_cons.mpr ⟨trivial, old⟩)
  | leftParen =>
      have empty : Frame.Among known (.items []) := List.forall_mem_nil _
      exact .unfinished (List.forall_mem_cons.mpr ⟨empty, old⟩)
  | rightParen => exact close_among old
  | dot =>
      simp only [next, dot]
      split
      · obtain ⟨top, others⟩ := List.forall_mem_cons.mp old
        exact .unfinished (List.forall_mem_cons.mpr ⟨top, others⟩)
      · exact acceptAtom_among (.symbol ".") old
  | symbol name =>
      obtain ⟨a, same⟩ := Datum.ofName_eq_atom name
      rw [next, same]
      exact acceptAtom_among a old
  | number x => exact acceptAtom_among (.number x) old
  | string text => exact acceptAtom_among (.string text) old

/-- The symbols of the first form have been met when it is complete. -/
theorem first_among (old : ∀ frame ∈ stack, frame.Among known)
    (found : (first stack tokens).form = some d) :
    d.Among (known ++ (first stack tokens).names) := by
  induction tokens generalizing stack known with
  | nil => cases found
  | cons t rest ih =>
      have step := next_among t old
      cases complete : (next stack t).form with
      | some e =>
          rw [first_cons_of_form rest complete] at found ⊢
          cases found
          exact step.form d complete
      | none =>
          rw [first_cons_of_none rest complete] at found ⊢
          have later := ih step.stack found
          rwa [List.append_assoc] at later

/-- The symbols of all forms are met. -/
theorem all_among (old : ∀ frame ∈ stack, frame.Among known) :
    ∀ d ∈ (all stack tokens).forms, d.Among (known ++ (all stack tokens).names) := by
  induction tokens generalizing stack known with
  | nil => exact List.forall_mem_nil _
  | cons t rest ih =>
      have step := next_among t old
      have later := ih step.stack
      rw [List.append_assoc] at later
      intro d here
      rcases List.mem_append.mp here with now | after
      · refine (step.form d (Option.mem_toList.mp now)).mono ?_
        rw [all, ← List.append_assoc]
        exact List.subset_append_left _ _
      · exact later d after

end Stack

theorem Scan.atEnd_eq_ok {α : Type} {s : Scan} {x y : α} (ended : s.atEnd x = .ok y) : y = x := by
  unfold Scan.atEnd at ended
  split at ended
  · cases ended
    rfl
  · cases ended

/-- The symbols of what is read have been met. -/
theorem read_among {text : String} {d : Datum} (done : (read text).result = .ok d) :
    d.Among (read text).names := by
  unfold read Scan.read at done ⊢
  cases found : (Stack.first [] (scan text).tokens).form with
  | some e =>
      simp only [found] at done ⊢
      cases done
      have met : d.Among ([] ++ (Stack.first [] (scan text).tokens).names) :=
        Stack.first_among (List.forall_mem_nil _) found
      exact met
  | none =>
      simp only [found] at done ⊢
      cases Scan.atEnd_eq_ok done
      trivial

theorem readMany_among {text : String} {forms : List Datum}
    (done : (readMany text).result = .ok forms) : ∀ d ∈ forms, d.Among (readMany text).names := by
  have all : ∀ d ∈ (Stack.all [] (scan text).tokens).forms,
      d.Among ([] ++ (Stack.all [] (scan text).tokens).names) := Stack.all_among (List.forall_mem_nil _)
  intro d here
  rw [Scan.atEnd_eq_ok done] at here
  split at here
  · exact all d here
  · rcases List.mem_append.mp here with form | eof
    · exact all d form
    · cases List.mem_singleton.mp eof
      trivial

end SmallLisp
