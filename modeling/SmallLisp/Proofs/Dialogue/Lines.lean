import SmallLisp.Proofs.Balance.Continuation
import SmallLisp.Proofs.Dialogue.Exchange

/-! # A text typed line by line

A dialogue cuts a text into chunks of lines and reads each chunk on its own. Where a chunk is whole,
no token and no list goes over its end, so the chunks give the same data as the text in one piece. The
induction is over the lines; what carries it is that the text typed since the last chunk is the
buffer.
-/

namespace SmallLisp

/-- A line feed at the end of a text changes nothing, inside a string as well. -/
theorem lexed_append_lineFeed (text : List Char) : lexed (text ++ ['\n']) = lexed text := by
  have nothing : lexed ['\n'] = ([], .complete) := lexed_of_blank rfl
  cases ending : (lexed text).2 with
  | complete =>
      rw [spells_of_complete ending ['\n'] rfl, nothing, List.append_nil, ← ending]
  | openString =>
      obtain ⟨body, plain, appended⟩ := exists_open_string ending
      have still : Front.next? '"' (body ++ ['\n']) = none := by
        rw [show Front.next? '"' (body ++ ['\n']) = Front.string? (body ++ ['\n']) from rfl,
          Front.string?_eq_none]
        simpa using plain
      have unclosed : lexed ('"' :: (body ++ ['\n'])) = ([], .openString) :=
        lexed_of_open (List.dropWhile_cons_of_neg (by decide)) still
      rw [appended, unclosed, List.append_nil, ← ending]

/-- The text can be cut off here: it ends outside strings, lists and sigils. -/
def Closed (text : List Char) : Prop :=
  (lexed text).2 = .complete ∧ Balance.State.start.run (lexed text).1 = some .start

theorem closed_of_blank {text : List Char} (blank : text.all isBlank = true) : Closed text := by
  have nothing : text.dropWhile isBlank = [] :=
    List.dropWhile_eq_nil_iff.mpr (List.all_eq_true.mp blank)
  rw [Closed, lexed_of_blank nothing]
  exact ⟨rfl, rfl⟩

theorem balanced_iff_closed {text : String} : balance text = .balanced ↔ Closed text.toList := by
  rw [balance_eq_run, Closed]
  cases Balance.State.start.run (lexed text.toList).1 with
  | none => simp
  | some s =>
      obtain ⟨depth, waiting⟩ := s
      cases (lexed text.toList).2 with
      | openString => simp [Balance.State.verdict, Balance.judge]
      | complete =>
          simp [Balance.State.verdict, Balance.judge, Balance.State.start]

theorem Closed.lexed_append {text more : List Char} (closed : Closed text) :
    lexed (text ++ '\n' :: more) = ((lexed text).1 ++ (lexed more).1, (lexed more).2) :=
  lexed_append_line closed.1 more

theorem Closed.append_iff {text more : List Char} (closed : Closed text) :
    Closed (text ++ '\n' :: more) ↔ Closed more := by
  rw [Closed, Closed, closed.lexed_append, Balance.State.run_append, closed.2]
  rfl

/-- All data of a text. -/
def dataOf (text : List Char) : List Datum := (Stack.all [] (lexed text).1).forms

/-- The names of the symbols that are met in a text, in order. -/
def namesOf (text : List Char) : List String := (Stack.all [] (lexed text).1).names

theorem contents_of_blank {text : List Char} (blank : text.all isBlank = true) :
    dataOf text = [] ∧ namesOf text = [] := by
  have nothing : text.dropWhile isBlank = [] :=
    List.dropWhile_eq_nil_iff.mpr (List.all_eq_true.mp blank)
  rw [dataOf, namesOf, lexed_of_blank nothing]
  exact ⟨rfl, rfl⟩

theorem Closed.contents_append {text more : List Char} (closed : Closed text) :
    dataOf (text ++ '\n' :: more) = dataOf text ++ dataOf more ∧
      namesOf (text ++ '\n' :: more) = namesOf text ++ namesOf more := by
  have balanced : balance (String.ofList text) = .balanced := by
    rw [balanced_iff_closed, String.toList_ofList]
    exact closed
  have finished := (readMany_whole balanced).2.1
  have same : (scan (String.ofList text)).tokens = (lexed text).1 := by
    show (lexed (String.ofList text).toList).1 = _
    rw [String.toList_ofList]
  rw [same] at finished
  rw [dataOf, namesOf, closed.lexed_append, Stack.all_append, finished]
  exact ⟨rfl, rfl⟩

namespace Dialogue

/-- The text of a line and the lines after it. -/
def joined (line : String) : List String → String
  | [] => line
  | next :: rest => joined (line ++ "\n" ++ next) rest

/-- The text of a buffer and the lines that are typed after it. -/
def whole (buffer : String) : List String → String
  | [] => buffer
  | line :: rest => joined (typed buffer line) rest

theorem joined_append (before line : String) (rest : List String) :
    joined (before ++ line) rest = before ++ joined line rest := by
  induction rest generalizing line with
  | nil => rfl
  | cons next rest ih =>
      have regrouped : before ++ line ++ "\n" ++ next = before ++ (line ++ "\n" ++ next) := by
        simp only [String.append_assoc]
      rw [joined, joined, regrouped, ih]

theorem joined_cons (line next : String) (rest : List String) :
    (joined line (next :: rest)).toList = line.toList ++ '\n' :: (joined next rest).toList := by
  rw [joined, joined_append]
  simp

theorem whole_of_ne_empty {buffer : String} (filled : buffer ≠ "") (lines : List String) :
    whole buffer lines = joined buffer lines := by
  cases lines with
  | nil => rfl
  | cons line rest =>
      have solid : ¬ buffer.isEmpty = true := by simpa using filled
      rw [whole, typed, if_neg solid]
      rfl

theorem whole_nil_cons (line : String) (rest : List String) :
    whole "" (line :: rest) = joined line rest := rfl

/-- The text after a closed chunk is scanned on its own. -/
theorem contents_joined {text : String} (closed : Closed text.toList) (rest : List String) :
    (Closed (joined text rest).toList ↔ Closed (whole "" rest).toList) ∧
      dataOf (joined text rest).toList = dataOf text.toList ++ dataOf (whole "" rest).toList ∧
      namesOf (joined text rest).toList = namesOf text.toList ++ namesOf (whole "" rest).toList := by
  cases rest with
  | nil =>
      have nothing : Closed [] := closed_of_blank rfl
      obtain ⟨noData, noNames⟩ : dataOf [] = [] ∧ namesOf [] = [] := contents_of_blank rfl
      simp [joined, whole, closed, nothing, noData, noNames]
  | cons next rest =>
      rw [joined_cons, whole_nil_cons, closed.append_iff]
      exact ⟨Iff.rfl, closed.contents_append⟩

/-- The data that a turn evaluates. -/
def Turn.data (turn : Turn) : List Datum :=
  match turn.reply with
  | .evaluate r =>
      match r.result with
      | .ok forms => forms
      | .error _ => []
  | _ => []

/-- The names of the symbols that are met in a turn. -/
def Turn.names (turn : Turn) : List String :=
  match turn.reply with
  | .evaluate r => r.names
  | _ => []

/-- The turn neither complains nor belongs to a command. -/
inductive Turn.Quiet : Turn → Prop where
  | nothing (buffer : String) : Quiet ⟨.nothing, buffer⟩
  | wait (buffer : String) : Quiet ⟨.wait, buffer⟩
  | evaluate {text : String} (buffer : String) : balance text = .balanced →
      Quiet ⟨.evaluate (readMany text), buffer⟩

theorem Turn.data_evaluate {text : String} (balanced : balance text = .balanced) (buffer : String) :
    (⟨.evaluate (readMany text), buffer⟩ : Turn).data = dataOf text.toList := by
  simp only [Turn.data, (readMany_whole balanced).2.2.1]
  rfl

/-- The buffer after some turns that go on from a buffer. -/
def bufferAfter (buffer : String) (turns : List Turn) : String :=
  (turns.map Turn.buffer).getLast?.getD buffer

theorem bufferAfter_cons (buffer : String) (turn : Turn) (turns : List Turn) :
    bufferAfter buffer (turn :: turns) = bufferAfter turn.buffer turns := by
  rw [bufferAfter, List.map_cons, List.getLast?_cons]
  rfl

theorem Turn.Quiet.goesOn {turn : Turn} (quiet : turn.Quiet) : turn.reply.ends = false := by
  cases quiet <;> rfl

theorem feed_eq_judge {buffer line : String} (plain : Command.ofLine? line = none) :
    feed buffer line = judge (typed buffer line) := by
  rw [feed, typed, plain]
  split <;> rfl

/-- The turns over some lines evaluate the data of the text and meet its symbols, and nothing is left of
    it. -/
structure Settles (buffer : String) (lines : List String) : Prop where
  emptied : bufferAfter buffer (exchange buffer lines) = ""
  quiet : ∀ turn ∈ exchange buffer lines, turn.Quiet
  data : (exchange buffer lines).flatMap Turn.data = dataOf (whole buffer lines).toList
  names : (exchange buffer lines).flatMap Turn.names = namesOf (whole buffer lines).toList

theorem Settles.cons {buffer line : String} {rest : List String} {turn : Turn}
    (fed : feed buffer line = turn) (quiet : turn.Quiet) (later : Settles turn.buffer rest)
    (data : dataOf (joined (typed buffer line) rest).toList =
      turn.data ++ dataOf (whole turn.buffer rest).toList)
    (names : namesOf (joined (typed buffer line) rest).toList =
      turn.names ++ namesOf (whole turn.buffer rest).toList) :
    Settles buffer (line :: rest) := by
  have turns : exchange buffer (line :: rest) = turn :: exchange turn.buffer rest := by
    simp only [exchange, fed, quiet.goesOn, Bool.false_eq_true, if_false]
  refine ⟨?_, ?_, ?_, ?_⟩
  · rw [turns, bufferAfter_cons]
    exact later.emptied
  · rw [turns]
    exact List.forall_mem_cons.mpr ⟨quiet, later.quiet⟩
  · rw [turns, List.flatMap_cons, later.data, whole, data]
  · rw [turns, List.flatMap_cons, later.names, whole, names]

theorem settles_of_closed {buffer : String} {lines : List String} (waits : Waits buffer)
    (plain : ∀ line ∈ lines, Command.ofLine? line = none)
    (closed : Closed (whole buffer lines).toList) : Settles buffer lines := by
  induction lines generalizing buffer with
  | nil =>
      rcases waits with rfl | ⟨-, unclosed⟩
      · obtain ⟨noData, noNames⟩ : dataOf [] = [] ∧ namesOf [] = [] := contents_of_blank rfl
        exact ⟨rfl, nofun, noData.symm, noNames.symm⟩
      · rw [whole, ← balanced_iff_closed, unclosed] at closed
        cases closed
  | cons line rest ih =>
      obtain ⟨first, others⟩ := List.forall_mem_cons.mp plain
      rw [whole] at closed
      have judged := judges (typed buffer line)
      obtain ⟨turn, fed⟩ : ∃ turn, feed buffer line = turn := ⟨_, rfl⟩
      rw [← feed_eq_judge first, fed] at judged
      cases judged with
      | nothing blank =>
          -- Blanks are a closed text without data.
          obtain ⟨sameClosed, data, names⟩ := contents_joined (closed_of_blank blank) rest
          obtain ⟨noData, noNames⟩ := contents_of_blank blank
          rw [noData] at data
          rw [noNames] at names
          exact .cons fed (.nothing "") (ih (.inl rfl) others (sameClosed.mp closed)) data names
      | wait solid unclosed =>
          have filled : typed buffer line ≠ "" := by
            intro empty
            rw [empty] at solid
            cases solid
          rw [← whole_of_ne_empty filled] at closed
          refine .cons fed (.wait _) (ih (.inr ⟨solid, unclosed⟩) others closed) ?_ ?_
          · rw [whole_of_ne_empty filled]
            rfl
          · rw [whole_of_ne_empty filled]
            rfl
      | overclosed stray =>
          have split : joined (typed buffer line) rest = typed buffer line ++ joined "" rest := by
            rw [← joined_append, String.append_empty]
          rw [← balanced_iff_closed, split, balance_append_of_overclosed _ stray] at closed
          cases closed
      | evaluate balanced =>
          obtain ⟨sameClosed, data, names⟩ := contents_joined (balanced_iff_closed.mp balanced) rest
          refine .cons fed (.evaluate "" balanced) (ih (.inl rfl) others (sameClosed.mp closed)) ?_ names
          rw [data, Turn.data_evaluate balanced]

/-! ### The lines of a text -/

theorem linesFrom_lineFeed (before rest : List Char) :
    linesFrom before ('\n' :: rest) =
      String.ofList (dropReturn before).reverse :: linesFrom [] rest := by
  rw [linesFrom]

theorem linesFrom_cons {c : Char} (plain : c ≠ '\n') (before rest : List Char) :
    linesFrom before (c :: rest) = linesFrom (c :: before) rest := by
  rw [linesFrom]
  exact plain

theorem linesFrom_eq_nil {before rest : List Char} (nothing : linesFrom before rest = []) :
    before = [] ∧ rest = [] := by
  induction rest generalizing before with
  | nil => simpa [linesFrom] using nothing
  | cons c rest ih =>
      by_cases feed : c = '\n'
      · rw [feed, linesFrom_lineFeed] at nothing
        cases nothing
      · rw [linesFrom_cons feed] at nothing
        cases (ih nothing).1

theorem dropReturn_of_not_mem {before : List Char} (plain : '\r' ∉ before) :
    dropReturn before = before := by
  unfold dropReturn
  split
  · exact absurd List.mem_cons_self plain
  · rfl

/-- The lines of a text make the text again, but for a line feed at its end. -/
theorem whole_linesFrom {before rest : List Char} (plain : '\r' ∉ before) (alsoPlain : '\r' ∉ rest) :
    before.reverse ++ rest = (whole "" (linesFrom before rest)).toList ∨
      before.reverse ++ rest = (whole "" (linesFrom before rest)).toList ++ ['\n'] := by
  induction rest generalizing before with
  | nil =>
      left
      cases before with
      | nil => rfl
      | cons c before => simp [linesFrom, whole, typed, joined]
  | cons c rest ih =>
      obtain ⟨here, later⟩ := not_or.mp (mt List.mem_cons.mpr alsoPlain)
      by_cases feed : c = '\n'
      · subst feed
        rw [linesFrom_lineFeed, dropReturn_of_not_mem plain, whole_nil_cons]
        have others := @ih [] List.not_mem_nil later
        cases lines : linesFrom [] rest with
        | nil =>
            right
            rw [(linesFrom_eq_nil lines).2]
            simp [joined]
        | cons line more =>
            rw [lines, whole_nil_cons, List.reverse_nil, List.nil_append] at others
            rw [joined_cons, String.toList_ofList]
            rcases others with same | same
            · left
              rw [same]
            · right
              rw [same, List.append_assoc, List.cons_append]
      · rw [linesFrom_cons feed]
        have others := @ih (c :: before) (by simp [plain, here]) later
        simpa using others

theorem lexed_whole_lines {text : String} (plain : '\r' ∉ text.toList) :
    lexed (whole "" (lines text)).toList = lexed text.toList := by
  have same := @whole_linesFrom [] text.toList nofun plain
  rw [List.reverse_nil, List.nil_append] at same
  rcases same with same | same
  · rw [same]
    rfl
  · rw [same, lexed_append_lineFeed]
    rfl

end Dialogue

end SmallLisp
