import SmallLisp.Interpreter
import SmallLisp.Proofs.Reading.Leaves

/-! # Data in the store -/

namespace SmallLisp.Store

variable {F : Type}

theorem intern_ne_eof (name : String) (s : Store F) : (s.intern name).1 ≠ .eof := by
  unfold intern lookup?
  cases s.interned.findIdx? _ <;> nofun

/-- Only `eof` is put into the store as `eof`. -/
theorem load_eq_eof {s : Store F} {d : Datum} : (s.load d).1 = .eof ↔ d = .eof := by
  cases d with
  | cons car cdr => simp [load, cons]
  | atom a => cases a <;> simp [load, loadAtom, intern_ne_eof]

theorem eof_mem_loadAll {s : Store F} {forms : List Datum} :
    .eof ∈ (s.loadAll forms).1 ↔ .eof ∈ forms := by
  induction forms generalizing s with
  | nil => simp [loadAll]
  | cons d rest ih => simp [loadAll, ih, eq_comm (a := Value.eof), eq_comm (a := Datum.eof), load_eq_eof]

theorem getLast_loadAll {s : Store F} {forms : List Datum} :
    (s.loadAll forms).1.getLast? = some .eof ↔ forms.getLast? = some .eof := by
  induction forms generalizing s with
  | nil => simp [loadAll]
  | cons d rest ih =>
      cases rest with
      | nil => simp [loadAll, load_eq_eof]
      | cons e rest => simpa [loadAll] using ih (s := (s.load d).2)

theorem loadAll_append (s : Store F) (data others : List Datum) :
    s.loadAll (data ++ others) =
      ((s.loadAll data).1 ++ ((s.loadAll data).2.loadAll others).1,
        ((s.loadAll data).2.loadAll others).2) := by
  induction data generalizing s with
  | nil => rfl
  | cons d data ih => simp only [List.cons_append, loadAll, ih]

/-- What a reading has put into the store is what it read. -/
theorem loadReading_eq_ok {α β : Type} {load : Store F → α → β × Store F} {r : Reading α}
    {s t : Store F} {b : β} (done : s.loadReading load r = (.ok b, t)) :
    ∃ a, r.result = .ok a ∧ load (s.internAll r.names) a = (b, t) := by
  unfold loadReading at done
  cases result : r.result with
  | error e =>
      rw [result] at done
      cases done
  | ok a =>
      rw [result] at done
      cases done
      exact ⟨a, rfl, rfl⟩

theorem readMany_of_openString (s : Store F) {text : String}
    (ending : (scan text).ending = .openString) :
    (s.readMany text).1 = .error (.unterminatedString (scan text).stop) := by
  simp [readMany, loadReading, SmallLisp.readMany, Scan.readMany, Scan.atEnd, ending]

theorem readMany_of_complete (s : Store F) {text : String}
    (ending : (scan text).ending = .complete) :
    (s.readMany text).1 = .ok ((s.internAll (SmallLisp.readMany text).names).loadAll
      ((Stack.turns (scan text).tokens).map fun left => (Stack.first [] left).form.getD .eof)).1 := by
  have result := readMany_eq_turns text
  simp only [Scan.atEnd, ending] at result
  simp only [readMany, loadReading, result]

end SmallLisp.Store
