import SmallLisp.Proofs.Dialogue.Handed
import SmallLisp.Proofs.Evaluation.Copies
import SmallLisp.Proofs.Reading.Appended

/-! # A text as a file and as a dialogue

The forms of a file are all put into the store before the first one is evaluated, and those of a dialogue
chunk after chunk. So their pairs stand in different places, but the stores are copies of each other, and
the same forms come to an end in both. Only the dialogue shows the values, and where that never ends the
file goes on alone.
-/

namespace SmallLisp

open Dialogue

namespace Program

variable {α β γ : Type} {m n : Machine ConsoleFunction Console} {names : List String}
  {values values' : List Val} {data data' : List Datum} {form form' : Val} {d : Datum}

/-- The form has a value, and showing it never ends. -/
def neverShown (form : Val) (m : Machine ConsoleFunction Console) : Bool :=
  (Console.host.evalGlobal form m).elim false fun r => (showResult r.1 r.2).isNone

/-- The dialogue comes to a value that is never shown to its end. -/
def Stalls (turns : List Turn) (m : Machine ConsoleFunction Console) : Prop :=
  true ∈ notesByTurns neverShown turns m

instance (turns : List Turn) (m : Machine ConsoleFunction Console) : Decidable (Stalls turns m) :=
  inferInstanceAs (Decidable (true ∈ notesByTurns neverShown turns m))

/-- A file and a dialogue have come to the same form. What is left of the file waits in its store, what is
    left of a chunk in the store of the dialogue, which has yet to meet some names. Else the stores are
    copies of each other. -/
inductive Level (names : List String) (values : List Val) (data : List Datum) (values' : List Val)
    (data' : List Datum) (s t : Store ConsoleFunction) : Prop where
  | intro {start stop start' stop' : Nat} {w : Bond} : s.Waiting start stop values data →
      t.Waiting start' stop' values' data' →
      s.Copies (Store.Beyond start stop) (Store.Beyond start' stop') w t →
      s.names = (t.internAll names).names → Level names values data values' data' s t

namespace Level

variable {s t : Store ConsoleFunction}

theorem trees (level : Level names (form :: values) (d :: data) (form' :: values') (d :: data')
    m.store n.store) : treeNow form m = some d ∧ treeNow form' n = some d := by
  obtain ⟨waiting, waiting', -, -⟩ := level
  exact ⟨waiting.datum?, waiting'.datum?⟩

/-- Evaluation of a form comes to an end in both stores or in none. -/
theorem evalGlobal (level : Level names (form :: values) (d :: data) (form' :: values') (d :: data')
    m.store n.store) :
    Option.Rel (fun r q => Level names values data values' data' r.2.store q.2.store)
      (Console.host.evalGlobal form m) (Console.host.evalGlobal form' n) := by
  obtain ⟨waiting, waiting', copies, enter⟩ := level
  obtain ⟨next, laid, fits, apart, outside, later⟩ := waiting.step
  obtain ⟨next', laid', fits', apart', outside', later'⟩ := waiting'.step
  obtain ⟨w, -, released, agree⟩ := laid.release laid' copies fits fits'
  have both := Sides.copies_lawfulEnv.evalGlobal Sides.copies_hostBoth agree (.solid trivial) m n released
  refine rel_imp_of_eq both fun r q done done' => ?_
  rintro ⟨u, -, still, -⟩
  obtain ⟨gone, same, -⟩ := evalGlobal_apart apart outside done
  obtain ⟨gone', same', -⟩ := evalGlobal_apart apart' outside' done'
  refine ⟨later _ gone same, later' _ gone' same', still, ?_⟩
  rw [same.names, enter]
  exact Store.names_internAll_congr same'.names.symm names

/-- A chunk is put into the store of the dialogue. -/
theorem load {text : String} (balanced : balance text = .balanced)
    (level : Level (namesOf text.toList ++ names) values data [] [] s t) :
    ∃ values' store, t.loadReading Store.loadAll (readMany text) = (.ok values', store) ∧
      Level names values data values' (dataOf text.toList) s store := by
  obtain @⟨start, stop, _, _, _, waiting, waiting', copies, enter⟩ := level
  obtain ⟨values', store, loaded, -, loads, grows, known⟩ := waiting'.intact.loadReading balanced
  rw [Store.internAll_append, ← Store.names_internAll_congr known] at enter
  have ahead : store.names <+: s.names := enter ▸ (store.internAll_grows names).names
  have grown : s.Copies (Store.Beyond start stop) (Store.Beyond t.pairs.size store.pairs.size) _ store :=
    copies.grow (.refl s) grows ahead (fun p _ => id) (fun q inside _ => .inl inside) copies.fresh
      fun q => .inr
  exact ⟨values', store, loaded, waiting, loads, grown, enter⟩

/-- A file is put into the store, and a dialogue begins. -/
theorem start {text : String} (grounded : s.Grounded) (special : Special.all.length ≤ s.names.length)
    (balanced : balance text = .balanced) :
    ∃ values store, s.readMany text = (.ok values, store) ∧ .eof ∉ values ∧
      Level (namesOf text.toList) values (dataOf text.toList) [] [] store s := by
  obtain ⟨values, store, loaded, solid, waiting, grows, known⟩ := grounded.intact.loadReading balanced
  have copies : store.Copies (Store.Beyond s.pairs.size store.pairs.size) (Store.Beyond 0 0) _ s :=
    (grounded.copies special).grow grows (.refl s) grows.names (fun p inside _ => .inl inside)
      (fun q _ _ => .inr (Nat.zero_le q)) (fun p => .inr) fun q _ => .inr (Nat.zero_le q)
  exact ⟨values, store, loaded, solid, waiting, ⟨grounded.intact, .nil⟩, copies, known⟩

end Level

/-- How a file and a dialogue go on, given the trees that they hand over and the stalls of the dialogue.
    Both come to an end, or they never do and hand over the same, or the dialogue stalls and hands over no
    more. -/
inductive Pace (After : Store ConsoleFunction → Store ConsoleFunction → Prop) :
    List (Option Datum) → List (Option Datum) → List Bool →
    Option (α × Machine ConsoleFunction Console) → Option (β × Machine ConsoleFunction Console) →
    Prop where
  | ended {told : List (Option Datum)} {stalled : List Bool} {x : α} {y : β}
      {m n : Machine ConsoleFunction Console} : After m.store n.store →
      Pace After told told stalled (some (x, m)) (some (y, n))
  | never {told : List (Option Datum)} {stalled : List Bool} : Pace After told told stalled none none
  | stalled {told told' : List (Option Datum)} {stalled : List Bool}
      {run : Option (α × Machine ConsoleFunction Console)} : told' <+: told → true ∈ stalled →
      Pace After told told' stalled run none

namespace Pace

variable {After Last : Store ConsoleFunction → Store ConsoleFunction → Prop}
  {told told' : List (Option Datum)} {stalled : List Bool}
  {run : Option (α × Machine ConsoleFunction Console)}
  {run' : Option (β × Machine ConsoleFunction Console)}

theorem isPrefix (pace : Pace After told told' stalled run run') : told' <+: told := by
  cases pace with
  | ended => exact List.prefix_refl _
  | never => exact List.prefix_refl _
  | stalled part => exact part

theorem eq_of_not_stalled (pace : Pace After told told' stalled run run') (smooth : true ∉ stalled) :
    told' = told := by
  cases pace with
  | ended => rfl
  | never => rfl
  | stalled _ here => exact absurd here smooth

theorem andReturn {a : Act β} (pace : Pace After told told' stalled run (a n)) (y : γ) :
    Pace After told told' stalled run ((do let _ ← a; return y : Act γ) n) := by
  rw [Action.run_bind]
  generalize a n = run' at pace ⊢
  cases pace with
  | ended after => exact .ended after
  | never => exact .never
  | stalled part here => exact .stalled part here

theorem prepend (pace : Pace After told told' stalled run run') (more : List (Option Datum))
    (before : List Bool) : Pace After (more ++ told) (more ++ told') (before ++ stalled) run run' := by
  cases pace with
  | ended after => exact .ended after
  | never => exact .never
  | stalled part here =>
      exact .stalled ((List.prefix_append_right_inj more).mpr part) (List.mem_append_right before here)

/-- One part of a file and a dialogue after another. -/
theorem andThen {δ ε : Type} {f g : Machine ConsoleFunction Console → List (Option Datum)}
    {h : Machine ConsoleFunction Console → List Bool} {a : Act δ} {b : Act ε}
    (first : Pace After told told' stalled run run')
    (rest : ∀ m n, After m.store n.store → Pace Last (f m) (g n) (h n) (a m) (b n)) :
    Pace Last (told ++ run.elim [] fun r => f r.2) (told' ++ run'.elim [] fun r => g r.2)
      (stalled ++ run'.elim [] fun r => h r.2) (run.bind fun r => a r.2) (run'.bind fun r => b r.2) := by
  cases first with
  | ended after => exact (rest _ _ after).prepend _ _
  | never => exact .never
  | stalled part here =>
      refine .stalled ?_ (List.mem_append_left _ here)
      rw [Option.elim_none, List.append_nil]
      exact part.trans (List.prefix_append _ _)

end Pace

theorem forEach_append (each : Val → Act α) (first later : List Val)
    (m : Machine ConsoleFunction Console) :
    forEach each (first ++ later) m = (forEach each first m).bind fun r => forEach each later r.2 := by
  induction first generalizing m with
  | nil => rfl
  | cons form rest ih =>
      simp only [List.cons_append, forEach, Action.run_bind, Option.bind_assoc, ih]

theorem notes_append (note : Val → Machine ConsoleFunction Console → β) (each : Val → Act α)
    (first later : List Val) (m : Machine ConsoleFunction Console) :
    notes note each (first ++ later) m =
      notes note each first m ++ (forEach each first m).elim [] fun r => notes note each later r.2 := by
  induction first generalizing m with
  | nil => rfl
  | cons form rest ih =>
      simp only [List.cons_append, notes, forEach, Action.run_bind]
      cases each form m with
      | none => rfl
      | some r => simp only [Option.elim_some, Option.bind_some, ih]

namespace Level

/-- One form is evaluated, and the dialogue shows its value. -/
theorem pace (level : Level names (form :: values) (d :: data) (form' :: values') (d :: data')
    m.store n.store) :
    Pace (Level names values data values' data') [treeNow form m] [treeNow form' n] [neverShown form' n]
      (Console.host.evalGlobal form m) (evalAndShow form' n) := by
  obtain ⟨tree, tree'⟩ := level.trees
  have both := level.evalGlobal
  rw [tree, tree', evalAndShow, Action.run_bind, neverShown]
  generalize Console.host.evalGlobal form m = run at both ⊢
  generalize Console.host.evalGlobal form' n = run' at both ⊢
  cases both with
  | none => exact .never
  | @some r q level =>
      rw [Option.bind_some, Option.elim_some]
      cases shown : showResult q.1 q.2 with
      | none => exact .stalled (List.prefix_refl _) List.mem_cons_self
      | some last =>
          apply Pace.ended
          rw [(showResult_keeps shown).1]
          exact level

/-- The forms of a chunk are evaluated, and more of the file is left. -/
theorem forEach {first later : List Val} {others : List Datum} (length : first.length = data.length)
    (level : Level names (first ++ later) (data ++ others) values' data m.store n.store) :
    Pace (Level names later others [] []) (notes treeNow Console.host.evalGlobal first m)
      (notes treeNow evalAndShow values' n) (notes neverShown evalAndShow values' n)
      (Program.forEach Console.host.evalGlobal first m) (Program.forEach evalAndShow values' n) := by
  induction data generalizing first values' m n with
  | nil =>
      obtain rfl := List.length_eq_zero_iff.mp length
      obtain rfl : values' = [] := by
        obtain ⟨-, waiting', -, -⟩ := level
        exact List.length_eq_zero_iff.mp waiting'.queue.length_eq
      exact .ended level
  | cons d data ih =>
      obtain ⟨form, first, rfl⟩ := List.exists_cons_of_length_eq_add_one length
      obtain ⟨form', values', rfl⟩ : ∃ form' rest, values' = form' :: rest := by
        obtain ⟨-, waiting', -, -⟩ := level
        exact List.exists_cons_of_length_eq_add_one waiting'.queue.length_eq
      exact level.pace.andThen fun m n level => ih (Nat.succ.inj length) level

/-- A turn of the dialogue takes as many forms of the file as it has. -/
theorem turn {turn : Turn} (quiet : turn.Quiet) {first later : List Val} {others : List Datum}
    (length : first.length = turn.data.length)
    (level : Level (turn.names ++ names) (first ++ later) (turn.data ++ others) [] [] m.store n.store) :
    Pace (Level names later others [] []) (notes treeNow Console.host.evalGlobal first m)
      (notesOnReply treeNow turn.reply n) (notesOnReply neverShown turn.reply n)
      (Program.forEach Console.host.evalGlobal first m) (carryOut turn.reply n) := by
  cases quiet with
  | nothing | wait =>
      obtain rfl := List.length_eq_zero_iff.mp length
      exact .ended level
  | @evaluate text buffer balanced =>
      rw [Turn.data_evaluate balanced] at level length
      obtain ⟨values', store, loaded, level⟩ := level.load balanced
      simp only [notesOnReply, loaded, carryOut_of_loaded loaded, evalShowing_eq_forEach]
      exact (level.forEach (n := ⟨store, n.host⟩) length).andReturn true

theorem turns {turns : List Turn} (quiet : ∀ turn ∈ turns, turn.Quiet)
    (level : Level (turns.flatMap Turn.names) values (turns.flatMap Turn.data) [] [] m.store n.store) :
    Pace (fun _ _ => True) (notes treeNow Console.host.evalGlobal values m) (handedByTurns turns n)
      (notesByTurns neverShown turns n) (Program.forEach Console.host.evalGlobal values m)
      (carryOutAll turns n) := by
  induction turns generalizing values m n with
  | nil =>
      obtain rfl : values = [] := by
        obtain ⟨waiting, -, -, -⟩ := level
        exact List.length_eq_zero_iff.mp waiting.queue.length_eq
      exact .ended trivial
  | cons turn rest ih =>
      obtain ⟨here, others⟩ := List.forall_mem_cons.mp quiet
      rw [List.flatMap_cons, List.flatMap_cons] at level
      obtain ⟨first, later, rfl, length⟩ : ∃ first later, values = first ++ later ∧
          first.length = turn.data.length := by
        obtain ⟨waiting, -, -, -⟩ := level
        have length := waiting.queue.length_eq
        rw [List.length_append] at length
        exact ⟨values.take turn.data.length, values.drop turn.data.length,
          (List.take_append_drop _ _).symm, by rw [List.length_take]; omega⟩
      rw [notes_append, forEach_append]
      exact (level.turn here length).andThen fun m n level => ih others level

end Level

theorem machine_grounded (margin : Nat) : (machine margin).store.Grounded :=
  Store.standard_grounded.withHost Console.host

theorem special_le_machine (margin : Nat) :
    Special.all.length ≤ (machine margin).store.names.length := by
  have enough : Special.all.length ≤ (Store.standard.withHost Console.host).names.length := by
    decide +kernel
  exact enough

end Program

end SmallLisp
