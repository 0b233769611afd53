import SmallLisp.Proofs.Dialogue.Handed
import SmallLisp.Proofs.Token.Quotes

/-! # When reading fails

All that can be wrong with a text is a string that is left open, and that is a matter of its quotes
alone: reading all data fails exactly if they are odd in number, and the error names the place of the
last one. Reading the first datum may succeed before the open string is reached; if it fails, it is with
the same error. A file is read whole before its first form is evaluated, so that it is evaluated as a
whole or not at all.
-/

namespace SmallLisp

theorem Scan.atEnd_eq_error {α : Type} {s : Scan} {x : α} {e : ReadError}
    (failed : s.atEnd x = .error e) :
    s.ending = .openString ∧ e = .unterminatedString s.stop := by
  unfold Scan.atEnd at failed
  split at failed
  · cases failed
  · next unclosed =>
      cases failed
      exact ⟨unclosed, rfl⟩

namespace Store

variable {F : Type} {s : Store F} {text : String} {e : ReadError}

theorem loadReading_eq_error {α β : Type} {load : Store F → α → β × Store F} {r : Reading α}
    (failed : (s.loadReading load r).1 = .error e) : r.result = .error e := by
  unfold loadReading at failed
  split at failed
  · next result =>
      cases failed
      exact result
  · cases failed

/-- Both ways to read a text have one error, the string that is left open. -/
theorem error_of_reading (failed : (s.readMany text).1 = .error e ∨ (s.read text).1 = .error e) :
    (scan text).ending = .openString ∧ e = .unterminatedString (scan text).stop := by
  rcases failed with failed | failed
  · exact Scan.atEnd_eq_error (loadReading_eq_error failed)
  · have result := loadReading_eq_error failed
    unfold SmallLisp.read Scan.read at result
    cases found : (Stack.first [] (scan text).tokens).form with
    | some d =>
        simp only [found] at result
        cases result
    | none =>
        simp only [found] at result
        exact Scan.atEnd_eq_error result

theorem readMany_fails_iff : (∃ e, (s.readMany text).1 = .error e) ↔
    (scan text).ending = .openString := by
  constructor
  · rintro ⟨e, failed⟩
    exact (error_of_reading (.inl failed)).1
  · intro unclosed
    exact ⟨_, s.readMany_of_openString unclosed⟩

end Store

namespace Program

variable {m m' : Machine ConsoleFunction Console} {text path : String}

/-! ### Files -/

/-- Evaluation complains of nothing, whatever the store looks like. -/
theorem evalGlobal_complaints {form v : Val}
    (done : Console.host.evalGlobal form m = some (v, m')) :
    m'.host.complaints = m.host.complaints := by
  let kept (other : Machine ConsoleFunction Console) := other.host.complaints = m.host.complaints
  have hostSafe : (Worlds.keeping kept).HostSafe Console.host := by
    intro calls _ _ f args env _ _ before holds x after called
    obtain ⟨-, line, rfl⟩ := Console.host_call called
    exact ⟨(), trivial, holds, trivial⟩
  have still : kept m' := Worlds.keeping_evalGlobal (fun _ holds => holds) hostSafe rfl done
  exact still

theorem evalForms_complaints {values : List Val} {x : Unit}
    (done : evalForms values m = some (x, m')) : m'.host.complaints = m.host.complaints := by
  rw [evalForms_eq_forEach] at done
  generalize values.takeWhile (· ≠ .eof) = forms at done
  induction forms generalizing m with
  | nil =>
      cases done
      rfl
  | cons form rest ih =>
      obtain ⟨v, between, evaluated, others⟩ := Action.exists_of_bind done
      rw [ih others, evalGlobal_complaints evaluated]

/-- A file that cannot be read leaves only its symbols and a complaint. -/
theorem runFile_of_openString (path : String) (m : Machine ConsoleFunction Console)
    (unclosed : (scan text).ending = .openString) :
    handedByFile text m = [] ∧ runFile path (.ok text) m = some (false,
      ⟨m.store.internAll (readMany text).names, m.host.complain ("Error in " ++ path ++ ": " ++
        (ReadError.unterminatedString (scan text).stop).message)⟩) := by
  have result : (readMany text).result = .error (.unterminatedString (scan text).stop) := by
    simp [readMany, Scan.readMany, Scan.atEnd, unclosed]
  have read : m.store.readMany text = (.error (.unterminatedString (scan text).stop),
      m.store.internAll (readMany text).names) := by
    simp only [Store.readMany, Store.loadReading, result]
  refine ⟨by simp only [handedByFile, read], ?_⟩
  simp only [runFile, Action.run_bind, Action.run_alter, read, Option.bind_some, complainOf, complain,
    RunError.message, ← String.append_assoc]
  rfl

theorem runFile_of_complete (complete : (scan text).ending = .complete) {done : Bool}
    (run : runFile path (.ok text) m = some (done, m')) :
    done = true ∧ m'.host.complaints = m.host.complaints := by
  have read := m.store.readMany_of_complete complete
  simp only [runFile, Action.run_bind, Action.run_alter, read, Option.bind_some] at run
  obtain ⟨_, evaluated, returned⟩ := Option.bind_eq_some_iff.mp run
  cases returned
  have quiet := evalForms_complaints evaluated
  exact ⟨rfl, quiet⟩

end Program

open Program

/-- Reading all data of a text into any store fails exactly if the text has an odd number of quotes.
    Where this fails, or reading the first datum does, the error names the place of the last quote. A
    file with an odd number of quotes hands no form to the evaluator, and its run leaves the machine as
    it was but for the symbols that were read and a complaint. The run of a file with an even number of
    quotes, if it ends, ends well and has no complaint. -/
theorem reading_fails_iff_odd_quotes {F : Type} (text : String) (s : Store F) :
    ((∃ e, (s.readMany text).1 = .error e) ↔ Odd (text.toList.count '"')) ∧
      (∀ e, (s.readMany text).1 = .error e ∨ (s.read text).1 = .error e →
        ∃ before, LastQuote text.toList before ∧ e = .unterminatedString (.behind before)) ∧
      ∀ (path : String) (m : Machine ConsoleFunction Console),
        (Odd (text.toList.count '"') → handedByFile text m = [] ∧
          ∃ before, LastQuote text.toList before ∧ runFile path (.ok text) m = some (false,
            ⟨m.store.internAll (readMany text).names, m.host.complain ("Error in " ++ path ++ ": " ++
              (ReadError.unterminatedString (.behind before)).message)⟩)) ∧
        (Even (text.toList.count '"') → ∀ done m', runFile path (.ok text) m = some (done, m') →
          done = true ∧ m'.host.complaints = m.host.complaints) := by
  have odd := ending_eq_openString_iff text
  refine ⟨Store.readMany_fails_iff.trans odd, fun e failed => ?_, fun path m => ⟨fun quotes => ?_,
    fun quotes done m' run => ?_⟩⟩
  · obtain ⟨unclosed, rfl⟩ := Store.error_of_reading failed
    obtain ⟨before, last, stop⟩ := stop_of_openString unclosed
    exact ⟨before, last, by rw [stop]⟩
  · have unclosed := odd.mpr quotes
    obtain ⟨before, last, stop⟩ := stop_of_openString unclosed
    obtain ⟨handed, run⟩ := runFile_of_openString path m unclosed
    rw [stop] at run
    exact ⟨handed, before, last, run⟩
  · apply runFile_of_complete _ run
    cases ending : (scan text).ending with
    | complete => rfl
    | openString => exact absurd (odd.mp ending) (Nat.not_odd_iff_even.mpr quotes)

/-- Behind a form, a string over two lines and an open list, the third quote opens a string on the
    third line. Without that quote the text can be run. -/
theorem reading_fails_iff_odd_quotes_third_line :
    let broken := "(print 1) \"a\nb\" '(c\n \"d) e"
    let mended := "(print 1) \"a\nb\" '(c\n d) e"
    Odd (broken.toList.count '"') ∧
      ((Store.empty : Store Empty).readMany broken).1 = .error (.unterminatedString ⟨3, 2⟩) ∧
      (∃ before, LastQuote broken.toList before ∧
        ReadError.unterminatedString ⟨3, 2⟩ = .unterminatedString (.behind before)) ∧
      handedByFile broken (machine 80) = [] ∧
      Even (mended.toList.count '"') ∧
      ∀ done m', runFile "forms" (.ok mended) (machine 80) = some (done, m') →
        done = true ∧ m'.host.complaints = [] := by
  intro broken mended
  have odd : Odd (broken.toList.count '"') := by decide +kernel
  have even : Even (mended.toList.count '"') := by decide +kernel
  have unclosed : (scan broken).ending = .openString := by decide +kernel
  have stop : (scan broken).stop = ⟨3, 2⟩ := by decide +kernel
  have failed : ((Store.empty : Store Empty).readMany broken).1 =
      .error (.unterminatedString ⟨3, 2⟩) := by
    rw [Store.readMany_of_openString _ unclosed, stop]
  obtain ⟨-, place, run⟩ := reading_fails_iff_odd_quotes broken (Store.empty : Store Empty)
  obtain ⟨-, -, runMended⟩ := reading_fails_iff_odd_quotes mended (Store.empty : Store Empty)
  exact ⟨odd, failed, place _ (.inl failed), ((run "forms" (machine 80)).1 odd).1, even,
    (runMended "forms" (machine 80)).2 even⟩

end SmallLisp
