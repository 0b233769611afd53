import SmallLisp.Datum.Display
import SmallLisp.Proofs.Double.Shortest
import SmallLisp.Proofs.Token.Numeral

/-! # Texts and the tokens they spell

Which tokens a text gives does not depend on where it stands, so a text can be scanned piece by
piece. Every piece is scanned on its own where it ends with a delimiter or is followed by one.
-/

namespace SmallLisp

/-- The tokens of a text and the way it ends. -/
def lexed (text : List Char) : List Token × Ending :=
  ((scanFrom .start text).tokens, (scanFrom .start text).ending)

theorem scanFrom_of_blank {text : List Char} (place : Position)
    (blank : text.dropWhile isBlank = []) :
    scanFrom place text = ⟨[], .complete, place.after (text.takeWhile isBlank)⟩ := by
  rw [scanFrom]
  split
  · rfl
  · next solid => simp [blank] at solid

theorem scanFrom_of_open {c : Char} {text rest : List Char} (place : Position)
    (solid : text.dropWhile isBlank = c :: rest) (unclosed : Front.next? c rest = none) :
    scanFrom place text = ⟨[], .openString, place.after (text.takeWhile isBlank)⟩ := by
  rw [scanFrom]
  split
  · next blank => simp [blank] at solid
  · next found =>
      rw [solid] at found
      cases found
      split
      · rfl
      · next found => simp [unclosed] at found

theorem scanFrom_of_front {c : Char} {text rest : List Char} {front : Front} (place : Position)
    (solid : text.dropWhile isBlank = c :: rest) (found : Front.next? c rest = some front) :
    scanFrom place text =
      { scanFrom ((place.after (text.takeWhile isBlank)).after front.source) front.rest with
        lexemes := ⟨front.token, front.source, place.after (text.takeWhile isBlank)⟩ ::
          (scanFrom ((place.after (text.takeWhile isBlank)).after front.source) front.rest).lexemes } := by
  rw [scanFrom]
  split
  · next blank => simp [blank] at solid
  · next same =>
      rw [solid] at same
      cases same
      split
      · next unclosed => simp [unclosed] at found
      · next again =>
          rw [found] at again
          cases again
          rfl

theorem isBlank_of_dropWhile {c : Char} {text rest : List Char}
    (solid : text.dropWhile isBlank = c :: rest) : isBlank c = false := by
  have first := List.head?_dropWhile_not isBlank text
  simpa [solid] using first

theorem front_rest_lt {c : Char} {text rest : List Char} {front : Front}
    (solid : text.dropWhile isBlank = c :: rest) (found : Front.next? c rest = some front) :
    front.rest.length < text.length := by
  have kept := (List.dropWhile_sublist (l := text) isBlank).length_le
  rw [solid] at kept
  exact Nat.lt_of_lt_of_le (Front.next?_rest_lt (isBlank_of_dropWhile solid) found) kept

theorem scanFrom_place (place other : Position) (text : List Char) :
    (scanFrom place text).tokens = (scanFrom other text).tokens ∧
      (scanFrom place text).ending = (scanFrom other text).ending := by
  induction size : text.length using Nat.strongRecOn generalizing text place other with
  | ind n ih =>
      subst size
      cases solid : text.dropWhile isBlank with
      | nil => simp [scanFrom_of_blank _ solid, Scan.tokens]
      | cons c rest =>
          cases found : Front.next? c rest with
          | none => simp [scanFrom_of_open _ solid found, Scan.tokens]
          | some front =>
              rw [scanFrom_of_front place solid found, scanFrom_of_front other solid found]
              obtain ⟨tokens, ending⟩ := ih _ (front_rest_lt solid found)
                ((place.after (text.takeWhile isBlank)).after front.source)
                ((other.after (text.takeWhile isBlank)).after front.source) front.rest rfl
              exact ⟨congrArg (front.token :: ·) tokens, ending⟩

theorem lexed_of_blank {text : List Char} (blank : text.dropWhile isBlank = []) :
    lexed text = ([], .complete) := by
  simp [lexed, scanFrom_of_blank _ blank, Scan.tokens]

theorem lexed_of_open {c : Char} {text rest : List Char}
    (solid : text.dropWhile isBlank = c :: rest) (unclosed : Front.next? c rest = none) :
    lexed text = ([], .openString) := by
  simp [lexed, scanFrom_of_open _ solid unclosed, Scan.tokens]

theorem lexed_of_front {c : Char} {text rest : List Char} {front : Front}
    (solid : text.dropWhile isBlank = c :: rest) (found : Front.next? c rest = some front) :
    lexed text = (front.token :: (lexed front.rest).1, (lexed front.rest).2) := by
  obtain ⟨tokens, ending⟩ := scanFrom_place
    ((Position.start.after (text.takeWhile isBlank)).after front.source) .start front.rest
  simp only [lexed, scanFrom_of_front _ solid found]
  exact Prod.ext (congrArg (front.token :: ·) tokens) ending

theorem lexed_cons_blank {c : Char} (text : List Char) (blank : isBlank c = true) :
    lexed (c :: text) = lexed text := by
  have skip : (c :: text).dropWhile isBlank = text.dropWhile isBlank := List.dropWhile_cons_of_pos blank
  cases solid : text.dropWhile isBlank with
  | nil => rw [lexed_of_blank solid, lexed_of_blank (skip.trans solid)]
  | cons d rest =>
      cases found : Front.next? d rest with
      | none => rw [lexed_of_open solid found, lexed_of_open (skip.trans solid) found]
      | some front => rw [lexed_of_front solid found, lexed_of_front (skip.trans solid) found]

/-- The text is scanned as the tokens whatever follows it. -/
def Opens (text : List Char) (tokens : List Token) : Prop :=
  ∀ rest, lexed (text ++ rest) = (tokens ++ (lexed rest).1, (lexed rest).2)

/-- The text is scanned as the tokens wherever a word can end after it. -/
def Spells (text : List Char) (tokens : List Token) : Prop :=
  ∀ rest, atWordEnd rest = true → lexed (text ++ rest) = (tokens ++ (lexed rest).1, (lexed rest).2)

variable {first second : List Char} {tokens others : List Token}

theorem Opens.spells (opens : Opens first tokens) : Spells first tokens :=
  fun rest _ => opens rest

theorem Opens.append (left : Opens first tokens) (right : Opens second others) :
    Opens (first ++ second) (tokens ++ others) := by
  intro rest
  rw [List.append_assoc, left, right, List.append_assoc]

theorem Opens.append_spells (left : Opens first tokens) (right : Spells second others) :
    Spells (first ++ second) (tokens ++ others) := by
  intro rest ended
  rw [List.append_assoc, left, right rest ended, List.append_assoc]

theorem atWordEnd_append {rest : List Char} (guarded : atWordEnd first = true)
    (ended : atWordEnd rest = true) : atWordEnd (first ++ rest) = true := by
  cases first with
  | nil => exact ended
  | cons c first => exact guarded

theorem Spells.append (left : Spells first tokens) (guarded : atWordEnd second = true)
    (right : Spells second others) : Spells (first ++ second) (tokens ++ others) := by
  intro rest ended
  rw [List.append_assoc, left _ (atWordEnd_append guarded ended), right rest ended,
    List.append_assoc]

theorem Spells.append_opens (left : Spells first tokens) (solid : second ≠ [])
    (guarded : atWordEnd second = true) (right : Opens second others) :
    Opens (first ++ second) (tokens ++ others) := by
  intro rest
  obtain ⟨c, more, rfl⟩ := List.exists_cons_of_ne_nil solid
  rw [List.append_assoc, left (c :: more ++ rest) guarded, right, List.append_assoc]

theorem opens_blanks {gap : List Char} (blank : ∀ c ∈ gap, isBlank c = true) : Opens gap [] := by
  intro rest
  induction gap with
  | nil => rfl
  | cons c gap ih =>
      obtain ⟨head, others⟩ := List.forall_mem_cons.mp blank
      rw [List.cons_append, lexed_cons_blank _ head, ih others]

theorem opens_space : Opens [' '] [] :=
  opens_blanks (List.forall_mem_singleton.mpr rfl)

theorem opens_of_front {c : Char} {t : Token} (solid : isBlank c = false)
    (found : ∀ rest, Front.next? c rest = some ⟨t, [c], rest⟩) : Opens [c] [t] := by
  intro rest
  exact lexed_of_front (List.dropWhile_cons_of_neg (by simp [solid])) (found rest)

theorem spells_of_front {c : Char} {others : List Char} {t : Token} (solid : isBlank c = false)
    (found : ∀ rest, atWordEnd rest = true →
      Front.next? c (others ++ rest) = some ⟨t, c :: others, rest⟩) : Spells (c :: others) [t] := by
  intro rest ended
  exact lexed_of_front (List.dropWhile_cons_of_neg (by simp [solid])) (found rest ended)

theorem opens_leftParen : Opens ['('] [.leftParen] :=
  opens_of_front (by decide) fun _ => rfl

theorem opens_rightParen : Opens [')'] [.rightParen] :=
  opens_of_front (by decide) fun _ => rfl

theorem opens_sigil (s : Sigil) : Opens [s.mark] [.sigil s] := by
  cases s with
  | quote => exact opens_of_front (by decide) fun _ => rfl
  | sigval => exact opens_of_front (by decide) fun _ => rfl

/-- The text starts like a number. -/
def startsNumeral : List Char → Bool
  | c :: rest => c.isDigit || ((c == '+' || c == '-') && startsWithDigit rest)
  | [] => false

/-- The text is read as the name of a symbol. -/
structure IsWord (word : List Char) : Prop where
  nonempty : word ≠ []
  solid : ∀ c ∈ word, isDelimiter c = false
  notNumeral : startsNumeral word = false
  notDot : word ≠ ['.']

theorem isWord_iff (word : List Char) : (word ≠ [] ∧ word.any isDelimiter = false ∧
    startsNumeral word = false ∧ word ≠ ['.']) ↔ IsWord word := by
  rw [List.any_eq_false]
  constructor
  · rintro ⟨nonempty, solid, notNumeral, notDot⟩
    exact ⟨nonempty, by simpa using solid, notNumeral, notDot⟩
  · intro isWord
    exact ⟨isWord.nonempty, by simpa using isWord.solid, isWord.notNumeral, isWord.notDot⟩

instance (word : List Char) : Decidable (IsWord word) :=
  decidable_of_iff _ (isWord_iff word)

theorem startsWithDigit_append {word rest : List Char} (ended : atWordEnd rest = true) :
    startsWithDigit (word ++ rest) = startsWithDigit word := by
  cases word with
  | nil => exact startsWithDigit_of_atWordEnd ended
  | cons c word => rfl

theorem Front.symbol_word {word rest : List Char} (solid : ∀ c ∈ word, isDelimiter c = false)
    (ended : atWordEnd rest = true) :
    Front.symbol (word ++ rest) = ⟨.symbol (String.ofList word), word, rest⟩ := by
  have inside : ∀ c ∈ word, (!isDelimiter c) = true := by simpa using solid
  have stop : rest.takeWhile (!isDelimiter ·) = [] ∧ rest.dropWhile (!isDelimiter ·) = rest := by
    cases rest with
    | nil => exact ⟨rfl, rfl⟩
    | cons c rest =>
        have delimiter : isDelimiter c = true := ended
        simp [delimiter]
  simp only [Front.symbol, List.takeWhile_append_of_pos inside, List.dropWhile_append_of_pos inside,
    stop, List.append_nil]

/-- The branches for delimiters come first. -/
theorem Front.next?_of_not_isDelimiter {c : Char} (text : List Char) (solid : isDelimiter c = false) :
    Front.next? c text =
      if (c == '+' || c == '-') && startsWithDigit text then some (Front.signed c text)
      else if c == '.' && atWordEnd text then some ⟨.dot, [c], text⟩
      else if c.isDigit then some (Front.unsigned (c :: text))
      else some (Front.symbol (c :: text)) := by
  simp only [isDelimiter, Bool.or_eq_false_iff] at solid
  obtain ⟨⟨⟨⟨⟨-, left⟩, right⟩, quote⟩, string⟩, sigval⟩ := solid
  simp only [Front.next?, left, right, quote, string, sigval, Bool.false_eq_true, if_false]

/-- The branch for symbols is the last one, so a word has to miss all branches before it. -/
theorem Front.next?_word {c : Char} {others rest : List Char} (word : IsWord (c :: others))
    (ended : atWordEnd rest = true) :
    Front.next? c (others ++ rest) = some (Front.symbol (c :: others ++ rest)) := by
  have numeral := word.notNumeral
  simp only [startsNumeral, Bool.or_eq_false_iff] at numeral
  obtain ⟨digit, signed⟩ := numeral
  rw [← startsWithDigit_append ended] at signed
  have dot : (c == '.' && atWordEnd (others ++ rest)) = false := by
    cases others with
    | nil => simpa using fun same => absurd (by rw [same]) word.notDot
    | cons e others => simp [atWordEnd, word.solid e (by simp)]
  simp only [Front.next?_of_not_isDelimiter _ (word.solid c List.mem_cons_self), signed, dot, digit,
    List.cons_append, Bool.false_eq_true, if_false]

theorem IsWord.spells {word : List Char} (isWord : IsWord word) :
    Spells word [.symbol (String.ofList word)] := by
  obtain ⟨c, others, rfl⟩ := List.exists_cons_of_ne_nil isWord.nonempty
  have solid := isWord.solid c List.mem_cons_self
  refine spells_of_front (not_isBlank_of_not_isDelimiter solid) fun rest ended => ?_
  rw [Front.next?_word isWord ended, Front.symbol_word isWord.solid ended]

theorem Front.next?_dot {rest : List Char} (ended : atWordEnd rest = true) :
    Front.next? '.' rest = some ⟨.dot, ['.'], rest⟩ := by
  simp [Front.next?, ended]

theorem spells_dot : Spells ['.'] [.dot] :=
  spells_of_front (by decide) fun _ ended => Front.next?_dot ended

theorem Front.next?_string {body : List Char} (closed : '"' ∉ body) (rest : List Char) :
    Front.next? '"' (body ++ ['"'] ++ rest) =
      some ⟨.string (String.ofList body), '"' :: (body ++ ['"']), rest⟩ := by
  have inside : ∀ c ∈ body, (c != '"') = true := by
    intro c mem
    rw [bne_iff_ne]
    rintro rfl
    exact closed mem
  simp [Front.next?, Front.string?, List.takeWhile_append_of_pos inside,
    List.dropWhile_append_of_pos inside]

theorem spells_string {body : List Char} (closed : '"' ∉ body) :
    Spells ('"' :: (body ++ ['"'])) [.string (String.ofList body)] :=
  spells_of_front (by decide) fun rest _ => Front.next?_string closed rest

theorem Front.next?_digit {c : Char} (digit : c.isDigit = true) (text : List Char) :
    Front.next? c text = some (Front.unsigned (c :: text)) := by
  have other : ∀ e : Char, e.isDigit = false → (c == e) = false := by
    intro e no
    refine beq_eq_false_iff_ne.mpr fun same => ?_
    rw [same, no] at digit
    cases digit
  simp only [Front.next?_of_not_isDelimiter _ (not_isDelimiter_of_isDigit digit), other '+' rfl,
    other '-' rfl, other '.' rfl, digit, Bool.false_or, Bool.false_and, Bool.false_eq_true, if_false,
    if_true]

theorem Front.next?_sign {c : Char} {text : List Char} (sign : c = '+' ∨ c = '-')
    (digit : startsWithDigit text = true) : Front.next? c text = some (Front.signed c text) := by
  rcases sign with rfl | rfl <;> simp [Front.next?, digit]

theorem spells_unsigned (d : Decimal) : Spells d.toText [.number (d.toDouble false)] := by
  obtain ⟨c, others, text, digit⟩ := d.toText_head_isDigit
  rw [text]
  refine spells_of_front (not_isBlank_of_not_isDelimiter (not_isDelimiter_of_isDigit digit))
    fun rest ended => ?_
  have split := d.splitNumeral_toText ended
  rw [text] at split
  rw [Front.next?_digit digit, Front.unsigned, ← List.cons_append, split]

theorem spells_negative (d : Decimal) :
    Spells ('-' :: d.toText) [.number (d.toDouble true)] := by
  refine spells_of_front (by decide) fun rest ended => ?_
  obtain ⟨c, others, text, digit⟩ := d.toText_head_isDigit
  have starts : startsWithDigit (d.toText ++ rest) = true := by
    rw [text]
    exact digit
  rw [Front.next?_sign (.inr rfl) starts, Front.signed, d.splitNumeral_toText ended]
  rfl

/-- A finite number is read as the number it was written for. -/
theorem spells_number {x : Float} (finite : x.isFinite = true) :
    Spells (Double.toText x).toList [.number x] := by
  have low : Double.rank x < Double.infinityRank := (Double.isFinite_iff x).mp finite
  have back := Double.shortest_toDouble finite
  unfold Double.toText
  rw [if_neg (by omega), if_neg (by omega)]
  cases sign : Double.isNegative x with
  | true =>
      rw [sign] at back
      have spelt := spells_negative (Double.shortest (Double.rank x))
      rw [back] at spelt
      simpa using spelt
  | false =>
      rw [sign] at back
      have spelt := spells_unsigned (Double.shortest (Double.rank x))
      rw [back] at spelt
      simpa using spelt

/-- The name is read as a symbol and not as a constant. -/
def IsName (name : String) : Prop :=
  IsWord name.toList ∧ name ∉ ["nil", "true", "false"]

namespace Atom

/-- The atom has a written form of its own. -/
def Written : Atom → Prop
  | .nil | .bool _ => True
  | .number x => x.isFinite = true
  | .string text => '"' ∉ text.toList
  | .symbol name => IsName name
  | .native | .dictionary | .eof => False

/-- The atom can come out of a text: it has a written form, or it is the symbol that a dot is
    where no tail follows it. -/
def Readable (a : Atom) : Prop :=
  a.Written ∨ a = .symbol "."

/-- The token that an atom is written as. -/
def token : Atom → Token
  | .number x => .number x
  | .string text => .string text
  | .symbol name => if name = "." then .dot else .symbol name
  | a => .symbol a.text

theorem spells_constant {a : Atom} (isWord : IsWord a.text.toList)
    (token : a.token = .symbol a.text) : Spells a.text.toList [a.token] := by
  rw [token]
  simpa using isWord.spells

/-- An atom that can be read is read as its token. -/
theorem spells {a : Atom} (readable : a.Readable) : Spells a.text.toList [a.token] := by
  rcases readable with written | rfl
  · cases a with
    | nil => exact spells_constant (by decide) rfl
    | bool b => cases b <;> exact spells_constant (by decide) rfl
    | number x => exact spells_number written
    | string body => simpa [text, token] using spells_string written
    | symbol name =>
        refine spells_constant written.1 (if_neg ?_)
        rintro rfl
        exact written.1.notDot rfl
    | native | dictionary | eof => cases written
  · exact spells_dot

end Atom

end SmallLisp
