import SmallLisp.Proofs.Token.Joining
import SmallLisp.Proofs.Token.Lexemes

/-! # Quotes and the end of a text

A string has two quotes and every other token has none. So each token leaves the number of quotes that
are still to come even or odd as it was, and a text ends inside a string exactly if it has an odd number
of quotes. The string that is left open then starts at the last one.
-/

namespace SmallLisp

namespace Position

/-- The place of a character that comes after these: its line is one more than the line feeds among
    them, and its column one more than the characters since the last line feed. -/
def behind (before : List Char) : Position :=
  ⟨before.count '\n' + 1, (before.reverse.takeWhile (· != '\n')).length + 1⟩

theorem after_append (p : Position) (first second : List Char) :
    p.after (first ++ second) = (p.after first).after second :=
  List.foldl_append

theorem behind_concat (before : List Char) (c : Char) :
    behind (before ++ [c]) = (behind before).advance c := by
  by_cases lineFeed : c = '\n' <;> simp [behind, advance, lineFeed]

theorem after_start (before : List Char) : start.after before = behind before := by
  induction before using List.reverseRecOn with
  | nil => rfl
  | append_singleton before c ih =>
      rw [after_append, ih, behind_concat]
      rfl

/-- The same column, so many lines further down. -/
def below (lines : Nat) (p : Position) : Position := ⟨p.line + lines, p.column⟩

theorem advance_below (lines : Nat) (p : Position) (c : Char) :
    (p.below lines).advance c = (p.advance c).below lines := by
  by_cases lineFeed : c = '\n' <;> simp [advance, below, lineFeed, Nat.add_right_comm]

/-- Behind a line feed, columns are counted as at the start of a text. -/
theorem behind_line (before text : List Char) :
    behind (before ++ '\n' :: text) = (behind text).below (before.count '\n' + 1) := by
  induction text using List.reverseRecOn with
  | nil =>
      rw [behind_concat]
      simp [behind, advance, below, Nat.add_comm, Nat.add_left_comm]
  | append_singleton text c ih =>
      rw [← List.cons_append, ← List.append_assoc, behind_concat, ih, advance_below, behind_concat]

end Position

variable {text before : List Char}

/-- The last quote of the text comes after these characters. -/
def LastQuote (text before : List Char) : Prop :=
  ∃ after, text = before ++ '"' :: after ∧ '"' ∉ after

theorem LastQuote.prepend (last : LastQuote text before) (first : List Char) :
    LastQuote (first ++ text) (first ++ before) := by
  obtain ⟨after, rfl, absent⟩ := last
  exact ⟨after, by simp, absent⟩

theorem LastQuote.unique {other : List Char} (last : LastQuote text before)
    (also : LastQuote text other) : before = other := by
  obtain ⟨after, rfl, absent⟩ := last
  obtain ⟨later, same, missing⟩ := also
  -- If one place came after the other, the quote at it would come after the last one.
  rcases List.append_eq_append_iff.mp same with ⟨between, rfl, rest⟩ | ⟨between, rfl, rest⟩
  · cases between with
    | nil => exact (List.append_nil _).symm
    | cons c between =>
        obtain ⟨-, rfl⟩ := List.cons.inj rest
        exact absurd (by simp) absent
  · cases between with
    | nil => exact List.append_nil _
    | cons c between =>
        obtain ⟨-, rfl⟩ := List.cons.inj rest
        exact absurd (by simp) missing

/-- The way a text that starts at the place ends, and where, as its quotes tell. -/
inductive EndsByQuotes (place : Position) (text : List Char) : Ending → Position → Prop where
  | even (stop : Position) : Even (text.count '"') → EndsByQuotes place text .complete stop
  | odd {before : List Char} : Odd (text.count '"') → LastQuote text before →
      EndsByQuotes place text .openString (place.after before)

/-- Characters with an even number of quotes do not change the way the text after them ends. -/
theorem EndsByQuotes.prepend {place : Position} {ending : Ending} {stop : Position}
    {first : List Char} (quotes : Even (first.count '"'))
    (ends : EndsByQuotes (place.after first) text ending stop) :
    EndsByQuotes place (first ++ text) ending stop := by
  cases ends with
  | even stop even =>
      refine .even stop ?_
      rw [List.count_append]
      exact quotes.add even
  | @odd before odd last =>
      rw [← Position.after_append]
      refine .odd ?_ (last.prepend first)
      rw [List.count_append]
      exact quotes.add_odd odd

theorem blanks_quotes (text : List Char) : (text.takeWhile isBlank).count '"' = 0 :=
  List.count_eq_zero.mpr (quote_notMem_takeWhile (by decide) text)

theorem scanFrom_endsByQuotes (place : Position) (text : List Char) :
    EndsByQuotes place text (scanFrom place text).ending (scanFrom place text).stop := by
  induction size : text.length using Nat.strongRecOn generalizing text place with
  | ind n ih =>
      subst size
      have split : text = text.takeWhile isBlank ++ text.dropWhile isBlank :=
        List.takeWhile_append_dropWhile.symm
      cases solid : text.dropWhile isBlank with
      | nil =>
          rw [scanFrom_of_blank place solid]
          refine .even _ ?_
          rw [split, solid, List.append_nil, blanks_quotes]
          exact Even.zero
      | cons c rest =>
          cases found : Front.next? c rest with
          | none =>
              obtain ⟨rfl, absent⟩ := Front.next?_eq_none found
              rw [scanFrom_of_open place solid found]
              rw [solid] at split
              refine .odd ?_ ⟨rest, split, absent⟩
              rw [split, List.count_append, blanks_quotes, List.count_cons_self,
                List.count_eq_zero.mpr absent]
              exact odd_one
          | some front =>
              -- The blanks and the token in front do not count, so that the rest decides.
              rw [scanFrom_of_front place solid found]
              have later := ih _ (front_rest_lt solid found)
                ((place.after (text.takeWhile isBlank)).after front.source) front.rest rfl
              have token := later.prepend (Front.next?_spelling (isBlank_of_dropWhile solid) found).quotes
              rw [Front.next?_append found, ← solid] at token
              have whole := token.prepend (by rw [blanks_quotes]; exact Even.zero)
              rwa [← split] at whole

/-- A text ends inside a string exactly if its quotes are odd in number. -/
theorem ending_eq_openString_iff (text : String) :
    (scan text).ending = .openString ↔ Odd (text.toList.count '"') := by
  have ends := scanFrom_endsByQuotes .start text.toList
  unfold scan
  generalize scanFrom .start text.toList = s at ends
  obtain ⟨lexemes, ending, stop⟩ := s
  cases ends with
  | even stop even => simpa using even
  | odd odd last => simpa using odd

/-- The string that is left open starts at the last quote. -/
theorem stop_of_openString {text : String} (unclosed : (scan text).ending = .openString) :
    ∃ before, LastQuote text.toList before ∧ (scan text).stop = .behind before := by
  have ends := scanFrom_endsByQuotes .start text.toList
  unfold scan at unclosed ⊢
  generalize scanFrom .start text.toList = s at ends unclosed
  obtain ⟨lexemes, ending, stop⟩ := s
  cases ends with
  | even => cases unclosed
  | @odd before odd last => exact ⟨before, last, Position.after_start before⟩

end SmallLisp
