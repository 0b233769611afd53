import SmallLisp.Proofs.Dialogue.Lines
import SmallLisp.Proofs.Evaluation.Symbols

/-! # What is handed to the evaluator

A file is read whole before its first form is evaluated, and a dialogue reads chunk after chunk and
shows each value. The evaluator is handed the same forms all the same, each being the tree that was
read when its turn comes. A run is followed up to a form whose evaluation, or the showing of whose
value, never ends.
-/

namespace SmallLisp

open Dialogue

/-- In an intact store, a text that was read whole waits out of reach. It has entered its names. -/
theorem Store.Intact.loadReading {F : Type} {s : Store F} {text : String} (intact : s.Intact)
    (balanced : balance text = .balanced) :
    ∃ values store,
      s.loadReading Store.loadAll (SmallLisp.readMany text) = (.ok values, store) ∧ .eof ∉ values ∧
      store.Waiting s.pairs.size store.pairs.size values (dataOf text.toList) ∧ s.Grows store ∧
      store.names = (s.internAll (namesOf text.toList)).names := by
  obtain ⟨-, -, result, solid⟩ := readMany_whole balanced
  have literal := Stack.all_literal (scan text).tokens
  have entered : (s.internAll (namesOf text.toList)).Intact := Block.internAll intact _
  have loaded : s.loadReading Store.loadAll (SmallLisp.readMany text) =
      (.ok ((s.internAll (namesOf text.toList)).loadAll (dataOf text.toList)).1,
        ((s.internAll (namesOf text.toList)).loadAll (dataOf text.toList)).2) := by
    simp only [Store.loadReading, result]
    rfl
  have same := Store.readMany_sameSymbols text s
  have grows := Store.loadReading_grows (r := SmallLisp.readMany text) Store.loadAll_grows s
  rw [Store.readMany, loaded] at same
  rw [loaded] at grows
  refine ⟨_, _, loaded, ?_, Store.pairs_internAll _ s ▸ entered.loadAll literal, grows, same.names⟩
  rw [eof_mem_loadAll]
  exact solid

namespace Program

variable {α β : Type} {m m' : Machine ConsoleFunction Console} {forms : List Datum}

def forEach (each : Val → Act α) : List Val → Act Unit
  | [] => return
  | form :: rest => do
      let _ ← each form
      forEach each rest

/-- What is noted of each form when its turn comes, up to one that never ends. -/
def notes (note : Val → Machine ConsoleFunction Console → β) (each : Val → Act α) :
    List Val → Machine ConsoleFunction Console → List β
  | [], _ => []
  | form :: rest, m => note form m :: (each form m).elim [] fun r => notes note each rest r.2

/-- The tree that a form is. -/
def treeNow (form : Val) (m : Machine ConsoleFunction Console) : Option Datum :=
  m.store.datum? form

/-- The forms are handed on as they were read, all of them if the run ends. Then nothing refers to a
    pair that is not there, and there was no complaint. -/
structure Faithful (forms : List Datum) (complaints : List String) (handed : List (Option Datum))
    (run : Option (α × Machine ConsoleFunction Console)) : Prop where
  upTo : handed <+: forms.map some
  ended : ∀ x m', run = some (x, m') → handed = forms.map some ∧ m'.store.Intact ∧
    m'.host.complaints = complaints

theorem Faithful.andReturn {complaints : List String} {told : List (Option Datum)}
    {a : Act α} (faithful : Faithful forms complaints told (a m)) (y : β) :
    Faithful forms complaints told ((do let _ ← a; return y) m) := by
  refine ⟨faithful.upTo, fun z m' done => ?_⟩
  obtain ⟨x, between, first, last⟩ := Action.exists_of_bind done
  cases last
  exact faithful.ended x _ first

/-- The action leaves alone what the form does not reach, and complains of nothing. -/
def Careful (each : Val → Act α) : Prop :=
  ∀ {lo hi : Nat} {m m' : Machine ConsoleFunction Console} {form : Val} {x : α},
    m.store.Apart lo hi → form.Outside lo hi m.store.pairs.size → each form m = some (x, m') →
    m'.store.Apart lo hi ∧ m.store.SameBlock lo hi m'.store ∧
      m'.host.complaints = m.host.complaints

theorem forEach_faithful {each : Val → Act α} (careful : Careful each) {start stop : Nat}
    {values : List Val} (waiting : m.store.Waiting start stop values forms) :
    Faithful forms m.host.complaints (notes treeNow each values m) (forEach each values m) := by
  induction values generalizing m start forms with
  | nil =>
      cases waiting.queue with
      | nil =>
          refine ⟨List.prefix_refl _, fun x m' done => ?_⟩
          cases done
          exact ⟨rfl, waiting.intact, rfl⟩
  | cons form rest ih =>
      obtain ⟨d, data, rfl⟩ : ∃ d data, forms = d :: data := by
        cases waiting.queue
        exact ⟨_, _, rfl⟩
      have now : treeNow form m = some d := waiting.datum?
      obtain ⟨next, -, -, apart, outside, later⟩ := waiting.step
      cases done : each form m with
      | none =>
          simp only [notes, forEach, Action.run_bind, done, now]
          exact ⟨by simp, nofun⟩
      | some r =>
          obtain ⟨still, same, quiet⟩ := careful apart outside done
          obtain ⟨upTo, ended⟩ := ih (later r.2.store still same)
          simp only [notes, forEach, Action.run_bind, done, now]
          refine ⟨by simpa using upTo, fun x m' finished => ?_⟩
          obtain ⟨all, intact, silent⟩ := ended x m' finished
          exact ⟨by simp [all], intact, silent.trans quiet⟩

/-- What the evaluator is handed of a file. -/
def handedByFile (text : String) (m : Machine ConsoleFunction Console) : List (Option Datum) :=
  match m.store.readMany text with
  | (.ok values, store) =>
      notes treeNow Console.host.evalGlobal (values.takeWhile (· ≠ .eof)) ⟨store, m.host⟩
  | (.error _, _) => []

theorem evalForms_eq_forEach (values : List Val) :
    evalForms values = forEach Console.host.evalGlobal (values.takeWhile (· ≠ .eof)) := by
  induction values with
  | nil => rfl
  | cons form rest ih =>
      cases form with
      | eof => rfl
      | _ =>
          simp [evalForms, forEach, ih]

theorem takeWhile_ne_eof {values : List Val} (solid : .eof ∉ values) :
    values.takeWhile (· ≠ .eof) = values := by
  apply List.takeWhile_eq_self_iff.mpr
  intro form among
  exact decide_eq_true fun same => solid (same ▸ among)

theorem handedByFile_of_read {text : String} {values : List Val} {store : Store ConsoleFunction}
    (read : m.store.readMany text = (.ok values, store)) (solid : .eof ∉ values) :
    handedByFile text m = notes treeNow Console.host.evalGlobal values ⟨store, m.host⟩ := by
  simp only [handedByFile, read, takeWhile_ne_eof solid]

theorem runFile_faithful {text : String} (path : String) (balanced : balance text = .balanced)
    (intact : m.store.Intact) :
    Faithful (dataOf text.toList) m.host.complaints (handedByFile text m)
      (runFile path (.ok text) m) := by
  obtain ⟨values, store, loaded, solid, waiting, -, -⟩ := intact.loadReading balanced
  have read : m.store.readMany text = (.ok values, store) := loaded
  have run : runFile path (.ok text) m =
      (do forEach Console.host.evalGlobal values; return true : Act Bool) ⟨store, m.host⟩ := by
    simp only [runFile, Action.run_bind, Action.run_alter, read, Option.bind_some,
      evalForms_eq_forEach, takeWhile_ne_eof solid]
  rw [handedByFile_of_read read solid, run]
  exact (forEach_faithful (m := ⟨store, m.host⟩) evalGlobal_apart waiting).andReturn true

/-! ### Dialogues -/

/-- Evaluate a form and show its value. -/
def evalAndShow (form : Val) : Act Unit := do
  showResult (← Console.host.evalGlobal form)

/-- What is noted of the forms that are evaluated on a reply. -/
def notesOnReply (note : Val → Machine ConsoleFunction Console → β) :
    Reply → Machine ConsoleFunction Console → List β
  | .evaluate r, m =>
      match m.store.loadReading Store.loadAll r with
      | (.ok values, store) => notes note evalAndShow values ⟨store, m.host⟩
      | (.error _, _) => []
  | _, _ => []

/-- What is noted of the forms that are evaluated in a dialogue. -/
def notesByTurns (note : Val → Machine ConsoleFunction Console → β) :
    List Turn → Machine ConsoleFunction Console → List β
  | [], _ => []
  | turn :: rest, m =>
      notesOnReply note turn.reply m ++
        (carryOut turn.reply m).elim [] fun r => notesByTurns note rest r.2

/-- What the evaluator is handed in a dialogue. -/
def handedByTurns (turns : List Turn) (m : Machine ConsoleFunction Console) : List (Option Datum) :=
  notesByTurns treeNow turns m

theorem evalShowing_eq_forEach (values : List Val) :
    evalShowing values = forEach evalAndShow values := by
  induction values with
  | nil => rfl
  | cons form rest ih => simp [evalShowing, forEach, evalAndShow, ih]

theorem showResult_keeps {v : Val} {x : Unit} (done : showResult v m = some (x, m')) :
    m'.store = m.store ∧ m'.host.complaints = m.host.complaints := by
  unfold showResult at done
  split at done
  · cases done
    exact ⟨rfl, rfl⟩
  · obtain ⟨text, between, read, printed⟩ := Action.exists_of_bind done
    have same := (Action.Reads.bind .get fun _ => .pretty _ _ : (pretty v).Reads) m text between read
    rw [same] at printed
    cases printed
    exact ⟨rfl, rfl⟩

theorem evalAndShow_careful : Careful evalAndShow := by
  intro lo hi m m' form x apart outside done
  obtain ⟨v, between, evaluated, shown⟩ := Action.exists_of_bind done
  obtain ⟨still, same, quiet⟩ := evalGlobal_apart apart outside evaluated
  obtain ⟨store, silent⟩ := showResult_keeps shown
  rw [store, silent]
  exact ⟨still, same, quiet⟩

theorem carryOut_faithful {turn : Turn} (quiet : turn.Quiet) (intact : m.store.Intact) :
    Faithful turn.data m.host.complaints (notesOnReply treeNow turn.reply m) (carryOut turn.reply m) := by
  cases quiet with
  | nothing | wait =>
      refine ⟨List.prefix_refl _, fun x m' done => ?_⟩
      cases done
      exact ⟨rfl, intact, rfl⟩
  | @evaluate text buffer balanced =>
      obtain ⟨values, store, loaded, -, waiting, -, -⟩ := intact.loadReading balanced
      simp only [Turn.data_evaluate balanced, notesOnReply, loaded, carryOut_of_loaded loaded,
        evalShowing_eq_forEach]
      exact (forEach_faithful (m := ⟨store, m.host⟩) evalAndShow_careful waiting).andReturn true

theorem carryOutAll_faithful {turns : List Turn} (quiet : ∀ turn ∈ turns, turn.Quiet)
    (intact : m.store.Intact) :
    Faithful (turns.flatMap Turn.data) m.host.complaints (notesByTurns treeNow turns m)
      (carryOutAll turns m) := by
  induction turns generalizing m with
  | nil =>
      refine ⟨List.prefix_refl _, fun x m' done => ?_⟩
      cases done
      exact ⟨rfl, intact, rfl⟩
  | cons turn rest ih =>
      obtain ⟨here, others⟩ := List.forall_mem_cons.mp quiet
      have first := carryOut_faithful here intact
      cases done : carryOut turn.reply m with
      | none =>
          simp only [notesByTurns, carryOutAll, Action.run_bind, done, Option.elim_none, List.append_nil]
          refine ⟨first.upTo.trans ?_, fun x m' finished => ?_⟩
          · simp
          · cases finished
      | some r =>
          obtain ⟨all, still, silent⟩ := first.ended r.1 r.2 done
          have later := ih others still
          simp only [notesByTurns, carryOutAll, Action.run_bind, done, Option.bind_some,
            Option.elim_some, all]
          refine ⟨?_, fun x m' finished => ?_⟩
          · rw [List.flatMap_cons, List.map_append]
            exact (List.prefix_append_right_inj _).mpr later.upTo
          · obtain ⟨told, intact, quiet⟩ := later.ended x m' finished
            rw [List.flatMap_cons, List.map_append, told]
            exact ⟨rfl, intact, quiet.trans silent⟩

end Program

end SmallLisp
