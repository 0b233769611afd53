import SmallLisp.Proofs.Evaluation.Symbols
import SmallLisp.Proofs.Reading.Failure

/-! # Reading a text in two parts

A text that can be read whole may be cut off from what follows in the next line: reading both in one
go gives what reading one after the other gives. No token goes over the line feed, nothing is
unfinished at it, and a symbol that both parts have is entered with the first one. So the order of
entering symbols and of making pairs is the same as well. Only an error tells the two apart: by its line
number, and because no form is kept of a text that has one.
-/

namespace SmallLisp

/-- The error in a text that so many lines were put in front of. -/
def ReadError.below (lines : Nat) : ReadError → ReadError
  | .unterminatedString place => .unterminatedString (place.below lines)

theorem toList_lines (first second : String) :
    (first ++ "\n" ++ second).toList = first.toList ++ '\n' :: second.toList := by
  simp

variable {first : String} {forms : List Datum}

/-- A text that was read whole has nothing unfinished at its end. -/
theorem Reading.Whole.finished (whole : (readMany first).Whole forms) :
    (scan first).ending = .complete ∧ (Stack.all [] (scan first).tokens).left = [] ∧
      forms = (Stack.all [] (scan first).tokens).forms := by
  obtain ⟨result, solid⟩ := whole
  simp only [readMany, Scan.readMany] at result
  have same := Scan.atEnd_eq_ok result
  cases left : (Stack.all [] (scan first).tokens).left with
  | cons frame outer =>
      rw [left] at same
      simp [same] at solid
  | nil =>
      rw [left] at same
      refine ⟨?_, rfl, same⟩
      cases ending : (scan first).ending with
      | complete => rfl
      | openString =>
          simp only [Scan.atEnd, ending] at result
          cases result

/-- The parts are scanned one after the other. -/
theorem scan_lines (complete : (scan first).ending = .complete) (second : String) :
    (scan (first ++ "\n" ++ second)).tokens = (scan first).tokens ++ (scan second).tokens ∧
      (scan (first ++ "\n" ++ second)).ending = (scan second).ending := by
  have parts := lexed_append_line complete second.toList
  rw [← toList_lines] at parts
  exact Prod.mk.inj parts

/-- A string that is left open in the second part opens where it does in that part alone, further
    down by the lines of the first part. -/
theorem stop_lines (complete : (scan first).ending = .complete) {second : String}
    (unclosed : (scan second).ending = .openString) :
    (scan (first ++ "\n" ++ second)).stop =
      (scan second).stop.below (first.toList.count '\n' + 1) := by
  obtain ⟨before, last, stop⟩ := stop_of_openString unclosed
  obtain ⟨place, also, wholeStop⟩ :=
    stop_of_openString ((scan_lines complete second).2.trans unclosed)
  have shifted := last.prepend (first.toList ++ ['\n'])
  rw [List.append_assoc, List.singleton_append, ← toList_lines] at shifted
  rw [wholeStop, also.unique shifted, stop, List.append_assoc, List.singleton_append,
    Position.behind_line]

/-- What was read whole is in front of what the second part gives, and is met before it. -/
theorem readMany_lines (whole : (readMany first).Whole forms) (second : String) :
    (readMany (first ++ "\n" ++ second)).names = (readMany first).names ++ (readMany second).names ∧
      (readMany (first ++ "\n" ++ second)).result =
        ((readMany second).result.map (forms ++ ·)).mapError
          (ReadError.below (first.toList.count '\n' + 1)) := by
  obtain ⟨complete, finished, rfl⟩ := whole.finished
  obtain ⟨tokens, ending⟩ := scan_lines complete second
  simp only [readMany, Scan.readMany, tokens, Stack.all_append, finished, Scan.atEnd, ending, true_and]
  cases unclosed : (scan second).ending with
  | openString =>
      simp only [stop_lines complete unclosed]
      rfl
  | complete =>
      simp only [Except.map, Except.mapError]
      split
      · rfl
      · rw [List.append_assoc]

namespace Store

variable {F : Type} {s t : Store F}

theorem cons_intern (name : String) (v w : Value F) (s : Store F) :
    (s.intern name).2.cons v w = ((s.cons v w).1, ((s.cons v w).2.intern name).2) := by
  have same : (s.cons v w).2.lookup? name = s.lookup? name := rfl
  simp only [intern, same]
  cases s.lookup? name <;> rfl

theorem cons_internAll (names : List String) (v w : Value F) (s : Store F) :
    (s.internAll names).cons v w = ((s.cons v w).1, (s.cons v w).2.internAll names) := by
  induction names generalizing s with
  | nil => rfl
  | cons name names ih =>
      have first : s.internAll (name :: names) = (s.intern name).2.internAll names := rfl
      rw [first, ih, cons_intern]
      rfl

/-- Symbols may be entered before a datum is loaded that has none of them for the first time. -/
theorem load_internAll (names : List String) {d : Datum} (known : d.Among s.names) :
    (s.internAll names).load d = ((s.load d).1, (s.load d).2.internAll names) := by
  induction d generalizing s with
  | atom a =>
      cases a with
      | symbol name =>
          obtain ⟨v, found⟩ := Option.isSome_iff_exists.mp (isSome_lookup?.mpr known)
          have still := (internAll_grows names s).lookup? found
          simp only [load, loadAtom, intern_of_lookup? found, intern_of_lookup? still]
      | nil | bool | number | string | native | dictionary | eof => rfl
  | cons car cdr carLoads cdrLoads =>
      have later : cdr.Among (s.load car).2.names := by
        rw [(load_sameSymbols known.1).names]
        exact known.2
      simp only [load, carLoads known.1, cdrLoads later, cons_internAll]

theorem loadAll_internAll (names : List String) {data : List Datum}
    (known : ∀ d ∈ data, d.Among s.names) :
    (s.internAll names).loadAll data = ((s.loadAll data).1, (s.loadAll data).2.internAll names) := by
  induction data generalizing s with
  | nil => rfl
  | cons d data ih =>
      obtain ⟨here, others⟩ := List.forall_mem_cons.mp known
      have later : ∀ e ∈ data, e.Among (s.load d).2.names := by
        rw [(load_sameSymbols here).names]
        exact others
      simp only [loadAll, load_internAll names here, ih later]

variable {values : List (Value F)}

theorem internAll_append (names others : List String) (s : Store F) :
    s.internAll (names ++ others) = (s.internAll names).internAll others :=
  List.foldl_append

theorem whole_of_readMany (read : s.readMany first = (.ok values, t)) (solid : .eof ∉ values) :
    ∃ forms, (SmallLisp.readMany first).Whole forms ∧
      (s.internAll (SmallLisp.readMany first).names).loadAll forms = (values, t) := by
  obtain ⟨forms, result, loaded⟩ := loadReading_eq_ok read
  have same : ((s.internAll (SmallLisp.readMany first).names).loadAll forms).1 = values :=
    congrArg Prod.fst loaded
  rw [← same, eof_mem_loadAll] at solid
  exact ⟨forms, ⟨result, solid⟩, loaded⟩

/-- Reading both parts at once enters the symbols of the second part before the first one is loaded. -/
theorem loadAll_lines (whole : (SmallLisp.readMany first).Whole forms)
    (loaded : (s.internAll (SmallLisp.readMany first).names).loadAll forms = (values, t))
    (second : String) :
    (s.internAll (SmallLisp.readMany (first ++ "\n" ++ second)).names).loadAll forms =
      (values, t.internAll (SmallLisp.readMany second).names) := by
  have known : ∀ d ∈ forms, d.Among (s.internAll (SmallLisp.readMany first).names).names :=
    fun d here => (readMany_among whole.1 d here).mono (subset_names_internAll _ s)
  rw [(readMany_lines whole second).1, internAll_append, loadAll_internAll _ known, loaded]

/-- The second part is read on in the store that the first one has left. -/
theorem readMany_lines_of_ok (read : s.readMany first = (.ok values, t)) (solid : .eof ∉ values)
    {second : String} {more : List (Value F)} {u : Store F}
    (rest : t.readMany second = (.ok more, u)) :
    s.readMany (first ++ "\n" ++ second) = (.ok (values ++ more), u) := by
  obtain ⟨forms, whole, loaded⟩ := whole_of_readMany read solid
  have both := loadAll_lines whole loaded second
  have result := (readMany_lines whole second).2
  obtain ⟨others, alone, last⟩ := loadReading_eq_ok rest
  rw [alone] at result
  simp only [readMany, loadReading, result, Except.map, Except.mapError, loadAll_append, both, last]

/-- The same error comes up further down, and the same symbols have been entered. -/
theorem readMany_lines_of_error (read : s.readMany first = (.ok values, t)) (solid : .eof ∉ values)
    {second : String} {e : ReadError} (failed : (t.readMany second).1 = .error e) :
    (s.readMany (first ++ "\n" ++ second)).1 =
        .error (e.below (first.toList.count '\n' + 1)) ∧
      (s.readMany (first ++ "\n" ++ second)).2.names = (t.readMany second).2.names := by
  obtain ⟨forms, whole, loaded⟩ := whole_of_readMany read solid
  have both := loadAll_lines whole loaded second
  obtain ⟨names, result⟩ := readMany_lines whole second
  have alone := loadReading_eq_error failed
  rw [alone] at result
  simp only [readMany, loadReading, result, alone, Except.map, Except.mapError, true_and]
  -- The forms of the first part were not loaded, and their symbols are there all the same.
  have known : ∀ d ∈ forms, d.Among
      (s.internAll (SmallLisp.readMany (first ++ "\n" ++ second)).names).names := by
    intro d here
    refine (readMany_among whole.1 d here).mono fun name among => ?_
    apply subset_names_internAll _ s
    rw [names]
    exact List.mem_append_left _ among
  have same := (loadAll_sameSymbols known).names
  rw [both] at same
  exact same.symm

/-- If a text is read whole, the text with another one in the next line is read as the two one after
    the other. The second text gives some forms exactly if both together give these behind the forms of
    the first, and then in the same store. It fails exactly if both together fail, and then at the same
    column and below the lines of the first. The names of the symbol table are the same either way. -/
theorem readMany_line_by_line (read : s.readMany first = (.ok values, t)) (solid : .eof ∉ values)
    (second : String) :
    (∀ more, (s.readMany (first ++ "\n" ++ second)).1 = .ok (values ++ more) ↔
        (t.readMany second).1 = .ok more) ∧
      (∀ more, (t.readMany second).1 = .ok more →
        (s.readMany (first ++ "\n" ++ second)).2 = (t.readMany second).2) ∧
      ((∃ e, (s.readMany (first ++ "\n" ++ second)).1 = .error e) ↔
        ∃ e, (t.readMany second).1 = .error e) ∧
      (∀ line column, (t.readMany second).1 = .error (.unterminatedString ⟨line, column⟩) →
        (s.readMany (first ++ "\n" ++ second)).1 =
          .error (.unterminatedString ⟨line + (first.toList.count '\n' + 1), column⟩)) ∧
      (s.readMany (first ++ "\n" ++ second)).2.names = (t.readMany second).2.names := by
  cases alone : (t.readMany second).1 with
  | ok more =>
      have both := readMany_lines_of_ok read solid (Prod.ext alone rfl :
        t.readMany second = (.ok more, (t.readMany second).2))
      rw [both]
      refine ⟨fun others => ?_, fun _ _ => rfl, ?_, fun line column failed => ?_, rfl⟩
      · simp
      · simp
      · cases failed
  | error e =>
      obtain ⟨both, names⟩ := readMany_lines_of_error read solid alone
      rw [both]
      refine ⟨fun others => ?_, fun more done => ?_, ?_, fun line column failed => ?_, names⟩
      · simp
      · cases done
      · simp
      · cases failed
        rfl

/-- The first text has a closing parenthesis too many and a datum that is dropped, over two lines. Its
    symbols `b` and `quote` are met again in the second. -/
theorem readMany_line_by_line_twice :
    let first := "a ) '(b . c\n d)"
    let values : List (Value Empty) := [.symbol (.interned 0), .nil, .pair 2]
    let t := ((empty : Store Empty).readMany first).2
    (empty : Store Empty).readMany first = (.ok values, t) ∧ .eof ∉ values ∧
      (t.readMany "'b (").1 = .ok [.pair 4, .eof] ∧
      ((empty : Store Empty).readMany (first ++ "\n" ++ "'b (")).1 =
        .ok (values ++ [.pair 4, .eof]) ∧
      (t.readMany "e\n \"f").1 = .error (.unterminatedString ⟨2, 2⟩) ∧
      ((empty : Store Empty).readMany (first ++ "\n" ++ "e\n \"f")).1 =
        .error (.unterminatedString ⟨4, 2⟩) := by
  intro first values t
  have read : (empty : Store Empty).readMany first = (.ok values, t) :=
    Prod.ext (by decide +kernel) rfl
  have solid : .eof ∉ values := by decide
  have more : (t.readMany "'b (").1 = .ok [.pair 4, .eof] := by decide +kernel
  have failed : (t.readMany "e\n \"f").1 = .error (.unterminatedString ⟨2, 2⟩) := by decide +kernel
  have joined := ((readMany_line_by_line read solid "'b (").1 [.pair 4, .eof]).mpr more
  obtain ⟨-, -, -, lower, -⟩ := readMany_line_by_line read solid "e\n \"f"
  have lines : first.toList.count '\n' = 1 := by decide +kernel
  rw [lines] at lower
  exact ⟨read, solid, more, joined, failed, lower 2 2 failed⟩

end Store

end SmallLisp
