import SmallLisp.Program
import SmallLisp.Proofs.Balance
import SmallLisp.Proofs.Machine.Actions

/-! # Dialogues turn by turn

What a line calls for depends on the buffer and the line alone, never on what was evaluated before.
So the turns of a dialogue can be told apart from carrying them out, and a dialogue is the carrying
out of its turns. Between two lines the buffer is empty or waits for the rest of a text, and only
whole texts are evaluated.
-/

namespace SmallLisp

/-- A reading that succeeds and meets the end of the text in none of its forms. -/
def Reading.Whole (r : Reading (List Datum)) (forms : List Datum) : Prop :=
  r.result = .ok forms ∧ .eof ∉ forms

theorem readMany_whole {text : String} (balanced : balance text = .balanced) :
    (scan text).ending = .complete ∧ (Stack.all [] (scan text).tokens).left = [] ∧
      (readMany text).Whole (Stack.all [] (scan text).tokens).forms := by
  obtain ⟨atClose, fine⟩ := Balance.judge_eq_turns (scan text).ending (scan text).tokens
  have verdict : Balance.judge (scan text).ending 0 false (scan text).tokens = .balanced := balanced
  rw [verdict] at atClose fine
  have started : ¬ Balance.TurnAtClose (scan text).tokens := mt atClose.mpr nofun
  have finished := mt (fine started).mpr nofun
  obtain ⟨closed, finished⟩ := not_or.mp finished
  have ending : (scan text).ending = .complete := by
    cases ending : (scan text).ending with
    | complete => rfl
    | openString => exact absurd ending closed
  rw [← Balance.eof_mem_iff, ← Stack.forms_eq_turns] at finished
  have nothing : (Stack.all [] (scan text).tokens).left.isEmpty = true := by
    cases left : (Stack.all [] (scan text).tokens).left.isEmpty with
    | true => rfl
    | false =>
        rw [left, if_neg Bool.false_ne_true] at finished
        exact absurd (List.mem_append_right _ List.mem_cons_self) finished
  rw [if_pos nothing] at finished
  refine ⟨ending, List.isEmpty_iff.mp nothing, ?_, finished⟩
  simp only [readMany, Scan.readMany, Scan.atEnd, ending, nothing, if_true]

/-- Loading a whole reading gives one value for each form, and none is `eof`. -/
theorem Store.loadReading_whole {F : Type} (s : Store F) {r : Reading (List Datum)}
    {forms : List Datum} (whole : r.Whole forms) :
    ∃ values store, s.loadReading loadAll r = (.ok values, store) ∧ .eof ∉ values := by
  refine ⟨_, _, by simp only [loadReading, whole.1]; rfl, ?_⟩
  rw [eof_mem_loadAll]
  exact whole.2

namespace Dialogue

/-- What can be made of a text that was typed. -/
inductive Judges (text : String) : Turn → Prop where
  | nothing : text.toList.all isBlank = true → Judges text ⟨.nothing, ""⟩
  | wait : text.toList.all isBlank = false → balance text = .unclosed → Judges text ⟨.wait, text⟩
  | overclosed : balance text = .overclosed → Judges text ⟨.overclosed, ""⟩
  | evaluate : balance text = .balanced → Judges text ⟨.evaluate (readMany text), ""⟩

theorem judges (text : String) : Judges text (judge text) := by
  unfold judge
  split
  · next blank => exact .nothing blank
  · next solid =>
      cases verdict : balance text with
      | unclosed => exact .wait (by simpa using solid) verdict
      | overclosed => exact .overclosed verdict
      | balanced => exact .evaluate verdict

/-- The text that a line makes with the buffer. -/
def typed (buffer line : String) : String :=
  if buffer.isEmpty then line else buffer ++ "\n" ++ line

/-- What a line can call for. -/
inductive Feeds (buffer line : String) : Turn → Prop where
  | command (c : Command) : Command.ofLine? line = some c → Feeds buffer line ⟨.command c, ""⟩
  | judged {turn : Turn} : Judges (typed buffer line) turn → Feeds buffer line turn

theorem feeds (buffer line : String) : Feeds buffer line (feed buffer line) := by
  unfold feed
  split
  · next empty =>
      cases given : Command.ofLine? line with
      | some c => exact .command c given
      | none =>
          apply Feeds.judged
          rw [typed, if_pos empty]
          exact judges line
  · next filled =>
      apply Feeds.judged
      rw [typed, if_neg filled]
      exact judges _

/-- The buffer is empty, or it waits for the rest of a text. -/
def Waits (buffer : String) : Prop :=
  buffer = "" ∨ buffer.toList.all isBlank = false ∧ balance buffer = .unclosed

theorem Feeds.waits {buffer line : String} {turn : Turn} (feeds : Feeds buffer line turn) :
    Waits turn.buffer := by
  cases feeds with
  | command => exact .inl rfl
  | judged judged =>
      cases judged with
      | nothing | overclosed | evaluate => exact .inl rfl
      | wait solid unclosed => exact .inr ⟨solid, unclosed⟩

/-- Only what can be read to its end is evaluated. -/
theorem Feeds.whole {buffer line : String} {turn : Turn} {r : Reading (List Datum)}
    (feeds : Feeds buffer line turn) (evaluated : turn.reply = .evaluate r) :
    ∃ forms, r.Whole forms := by
  cases feeds with
  | command => cases evaluated
  | judged judged =>
      cases judged with
      | nothing | overclosed | wait => cases evaluated
      | evaluate balanced =>
          cases evaluated
          exact ⟨_, (readMany_whole balanced).2.2⟩

/-- The reply ends the dialogue. -/
def Reply.ends : Reply → Bool
  | .command .quit => true
  | _ => false

/-- The turns of a dialogue that goes on from a buffer. No line is taken after its end. -/
def exchange (buffer : String) : List String → List Turn
  | [] => []
  | line :: rest =>
      let turn := feed buffer line
      turn :: if turn.reply.ends then [] else exchange turn.buffer rest

/-- Every turn of a dialogue is the reply to some line on some buffer. -/
theorem exists_feeds {buffer : String} {lines : List String} {turn : Turn}
    (among : turn ∈ exchange buffer lines) : ∃ buffer line, Feeds buffer line turn := by
  induction lines generalizing buffer with
  | nil => cases among
  | cons line rest ih =>
      rcases List.mem_cons.mp among with rfl | later
      · exact ⟨buffer, line, feeds buffer line⟩
      · split at later
        · cases later
        · exact ih later

end Dialogue

namespace Program

open Dialogue

/-! ### Carrying out -/

/-- Do what turns call for, one after another. -/
def carryOutAll : List Turn → Act Unit
  | [] => return
  | turn :: rest => do
      let _ ← carryOut turn.reply
      carryOutAll rest

/-- Carrying out a reply tells whether the dialogue goes on, and the reply alone decides it. -/
theorem carryOut_goesOn {reply : Reply} {m m' : Machine ConsoleFunction Console} {goesOn : Bool}
    (done : carryOut reply m = some (goesOn, m')) : goesOn = !reply.ends := by
  cases reply with
  | command c =>
      cases c with
      | quit =>
          cases done
          rfl
      | help | bindings => exact Action.eq_of_bind_pure done
  | nothing | wait =>
      cases done
      rfl
  | overclosed => exact Action.eq_of_bind_pure done
  | evaluate r =>
      obtain ⟨loaded, between, -, later⟩ := Action.exists_of_bind done
      cases loaded with
      | error e => exact Action.eq_of_bind_pure later
      | ok forms => exact Action.eq_of_bind_pure later

/-- A dialogue is the carrying out of its turns. -/
theorem converse_eq_carryOutAll (buffer : String) (lines : List String) :
    converse buffer lines = carryOutAll (exchange buffer lines) := by
  induction lines generalizing buffer with
  | nil => rfl
  | cons line rest ih =>
      funext m
      simp only [converse, turn, exchange, carryOutAll, Action.run_bind]
      cases done : carryOut (feed buffer line).reply m with
      | none => rfl
      | some r =>
          obtain ⟨goesOn, m'⟩ := r
          obtain rfl := carryOut_goesOn done
          cases ends : (feed buffer line).reply.ends with
          | true => rfl
          | false => exact congrFun (ih (feed buffer line).buffer) m'

theorem carryOut_of_loaded {r : Reading (List Datum)} {m : Machine ConsoleFunction Console}
    {values : List Val} {store : Store ConsoleFunction}
    (loaded : m.store.loadReading Store.loadAll r = (.ok values, store)) :
    carryOut (.evaluate r) m = (do evalShowing values; return true : Act Bool) ⟨store, m.host⟩ := by
  simp only [carryOut, Action.run_bind, Action.run_alter, loaded, Option.bind_some]

/-- Carrying out the evaluation of a whole reading puts it into the store and evaluates what it was
    put there as. -/
theorem carryOut_evaluate {r : Reading (List Datum)} {forms : List Datum} (whole : r.Whole forms)
    (m : Machine ConsoleFunction Console) :
    ∃ values store, m.store.loadReading Store.loadAll r = (.ok values, store) ∧ .eof ∉ values ∧
      carryOut (.evaluate r) m = (do evalShowing values; return true) ⟨store, m.host⟩ := by
  obtain ⟨values, store, loaded, solid⟩ := m.store.loadReading_whole whole
  exact ⟨values, store, loaded, solid, carryOut_of_loaded loaded⟩

/-- A dialogue from an empty buffer, with any lines, is the carrying out of its turns. After each turn
    the buffer is empty or a text that is not blank and waits for its rest. An evaluation never comes
    to a reader's complaint, and evaluates values none of which is `eof`. -/
theorem converse_evaluates_whole_texts (lines : List String) :
    converse "" lines = carryOutAll (exchange "" lines) ∧
      ∀ turn ∈ exchange "" lines,
        (turn.buffer = "" ∨
          turn.buffer.toList.all isBlank = false ∧ balance turn.buffer = .unclosed) ∧
        ∀ r, turn.reply = .evaluate r → ∀ m : Machine ConsoleFunction Console,
          ∃ values store, m.store.loadReading Store.loadAll r = (.ok values, store) ∧
            .eof ∉ values ∧
            carryOut turn.reply m = (do evalShowing values; return true) ⟨store, m.host⟩ := by
  refine ⟨converse_eq_carryOutAll "" lines, fun turn among => ?_⟩
  obtain ⟨buffer, line, feeds⟩ := exists_feeds among
  refine ⟨feeds.waits, fun r evaluated m => ?_⟩
  obtain ⟨forms, whole⟩ := feeds.whole evaluated
  rw [evaluated]
  exact carryOut_evaluate whole m

/-- A string over two lines is waited for and then evaluated. -/
theorem converse_evaluates_whole_texts_string :
    ∃ first second : Turn, exchange "" ["'(\"a", ") b\")"] = [first, second] ∧
      first.buffer = "'(\"a" ∧ second.reply = .evaluate (readMany "'(\"a\n) b\")") ∧
      ∃ values store,
        (machine 80).store.loadReading Store.loadAll (readMany "'(\"a\n) b\")") =
          (.ok values, store) ∧ .eof ∉ values := by
  have wait : feed "" "'(\"a" = ⟨.wait, "'(\"a"⟩ := by
    have unclosed : balance "'(\"a" = .unclosed := by decide +kernel
    have solid : ("'(\"a".toList.all isBlank) = false := by decide +kernel
    have plain : Command.ofLine? "'(\"a" = none := by decide +kernel
    have empty : "".isEmpty = true := rfl
    simp only [feed, empty, plain, judge, solid, unclosed, Bool.false_eq_true, if_true, if_false]
  have evaluate : feed "'(\"a" ") b\")" = ⟨.evaluate (readMany "'(\"a\n) b\")"), ""⟩ := by
    have balanced : balance "'(\"a\n) b\")" = .balanced := by decide +kernel
    have solid : ("'(\"a\n) b\")".toList.all isBlank) = false := by decide +kernel
    have joined : "'(\"a" ++ "\n" ++ ") b\")" = "'(\"a\n) b\")" := by decide
    have filled : "'(\"a".isEmpty = false := by decide
    simp only [feed, filled, joined, judge, solid, balanced, Bool.false_eq_true, if_false]
  have turns : exchange "" ["'(\"a", ") b\")"] =
      [⟨.wait, "'(\"a"⟩, ⟨.evaluate (readMany "'(\"a\n) b\")"), ""⟩] := by
    simp only [exchange, wait, evaluate, Reply.ends, Bool.false_eq_true, if_false]
  refine ⟨_, _, turns, rfl, rfl, ?_⟩
  obtain ⟨values, store, loaded, solid, -⟩ :=
    ((converse_evaluates_whole_texts ["'(\"a", ") b\")"]).2 _
      (turns ▸ List.mem_cons_of_mem _ List.mem_cons_self)).2 _ rfl (machine 80)
  exact ⟨values, store, loaded, solid⟩

end Program

end SmallLisp
