import SmallLisp.Proofs.Token.Spelling

/-! # Texts that are joined

What follows a text can change its last tokens: a word goes on, a point turns out to belong to a
numeral, an open string takes everything up to the next quote. A token is settled once a delimiter
comes after it, in its own text or at the start of what is appended. So a text that ends outside
strings keeps its tokens before a word end, and a text that ends inside a string keeps them whatever
follows.
-/

namespace SmallLisp

/-- A delimiter comes after a token that has `rest` after it, whatever stands behind `more`. -/
def Settled (rest more : List Char) : Prop :=
  (∃ c ∈ rest, isDelimiter c = true) ∨ atWordEnd more = true

variable {rest more text : List Char}

theorem Settled.atWordEnd (settled : Settled [] more) : atWordEnd more = true := by
  rcases settled with ⟨c, inside, -⟩ | ended
  · cases inside
  · exact ended

theorem Settled.startsWithDigit (settled : Settled rest more)
    (stop : SmallLisp.startsWithDigit rest = false) :
    SmallLisp.startsWithDigit (rest ++ more) = false := by
  cases rest with
  | nil => exact startsWithDigit_of_atWordEnd settled.atWordEnd
  | cons c rest => exact stop

/-- A point is no delimiter, so the one that settles the token comes later. -/
theorem Settled.tail (settled : Settled ('.' :: rest) more) : Settled rest more := by
  rcases settled with ⟨c, inside, delimiter⟩ | ended
  · rcases List.mem_cons.mp inside with rfl | later
    · cases delimiter
    · exact .inl ⟨c, later, delimiter⟩
  · exact .inr ended

theorem digits_append (stop : startsWithDigit (text.dropWhile Char.isDigit ++ more) = false) :
    (text ++ more).takeWhile Char.isDigit = text.takeWhile Char.isDigit ∧
      (text ++ more).dropWhile Char.isDigit = text.dropWhile Char.isDigit ++ more := by
  have digits : ∀ c ∈ text.takeWhile Char.isDigit, c.isDigit = true :=
    List.all_eq_true.mp List.all_takeWhile
  have split : text ++ more =
      text.takeWhile Char.isDigit ++ (text.dropWhile Char.isDigit ++ more) := by
    rw [← List.append_assoc, List.takeWhile_append_dropWhile]
  constructor
  · rw [split, takeWhile_isDigit digits stop]
  · rw [split, dropWhile_isDigit digits stop]

theorem startsWithDigit_dropWhile (text : List Char) :
    startsWithDigit (text.dropWhile Char.isDigit) = false := by
  have first := List.head?_dropWhile_not Char.isDigit text
  cases after : text.dropWhile Char.isDigit with
  | nil => rfl
  | cons c rest => simpa [startsWithDigit, after] using first

theorem splitNumeral_append_settled (settled : Settled (splitNumeral text).2.2 more) :
    splitNumeral (text ++ more) =
      ((splitNumeral text).1, (splitNumeral text).2.1, (splitNumeral text).2.2 ++ more) := by
  have stop := startsWithDigit_dropWhile text
  unfold splitNumeral at settled ⊢
  cases after : text.dropWhile Char.isDigit with
  | nil =>
      simp only [after] at settled
      have ended := settled.atWordEnd
      have still : startsWithDigit (text.dropWhile Char.isDigit ++ more) = false := by
        rw [after]
        exact settled.startsWithDigit rfl
      simp only [digits_append still, after, List.nil_append]
      split
      · cases ended
      · rfl
  | cons c rest =>
      have still : startsWithDigit (text.dropWhile Char.isDigit ++ more) = false := by
        rw [after] at stop ⊢
        exact stop
      simp only [digits_append still, after, List.cons_append]
      by_cases point : c = '.'
      · subst point
        simp only [after] at settled
        cases goesOn : startsWithDigit rest with
        | true =>
            simp only [goesOn, if_true] at settled
            have further : startsWithDigit (rest ++ more) = true := by
              cases rest with
              | nil => cases goesOn
              | cons d rest => exact goesOn
            have later := settled.startsWithDigit (startsWithDigit_dropWhile rest)
            simp only [goesOn, further, if_true, digits_append later]
        | false =>
            simp only [goesOn, Bool.false_eq_true, if_false] at settled
            have further := settled.tail.startsWithDigit goesOn
            simp only [goesOn, further, Bool.false_eq_true, if_false, List.cons_append]
      · split
        · next same => exact absurd (List.cons.inj same).1 point
        · split
          · next same => exact absurd (List.cons.inj same).1 point
          · rfl

theorem Front.signed_append {sign : Char} (settled : Settled (Front.signed sign text).rest more) :
    Front.signed sign (text ++ more) =
      { Front.signed sign text with rest := (Front.signed sign text).rest ++ more } := by
  simp only [Front.signed] at settled ⊢
  rw [splitNumeral_append_settled settled]

theorem Front.unsigned_append (settled : Settled (Front.unsigned text).rest more) :
    Front.unsigned (text ++ more) =
      { Front.unsigned text with rest := (Front.unsigned text).rest ++ more } := by
  simp only [Front.unsigned] at settled ⊢
  rw [splitNumeral_append_settled settled]

theorem Front.symbol_append (settled : Settled (Front.symbol text).rest more) :
    Front.symbol (text ++ more) =
      { Front.symbol text with rest := (Front.symbol text).rest ++ more } := by
  have inside : ∀ c ∈ text.takeWhile (!isDelimiter ·), isDelimiter c = false := by
    intro c mem
    have := List.all_eq_true.mp (List.all_takeWhile (p := (!isDelimiter ·)) (l := text)) c mem
    simpa using this
  have ended : atWordEnd (text.dropWhile (!isDelimiter ·) ++ more) = true := by
    have first := List.head?_dropWhile_not (!isDelimiter ·) text
    simp only [Front.symbol] at settled
    cases after : text.dropWhile (!isDelimiter ·) with
    | nil =>
        rw [after] at settled
        exact settled.atWordEnd
    | cons c rest => simpa [after, atWordEnd] using first
  have split : text ++ more =
      text.takeWhile (!isDelimiter ·) ++ (text.dropWhile (!isDelimiter ·) ++ more) := by
    rw [← List.append_assoc, List.takeWhile_append_dropWhile]
  rw [split, Front.symbol_word inside ended]
  rfl

theorem Front.string?_append {front : Front} (found : Front.string? text = some front) :
    Front.string? (text ++ more) = some { front with rest := front.rest ++ more } := by
  have inside : ∀ c ∈ text.takeWhile (· != '"'), (c != '"') = true :=
    List.all_eq_true.mp List.all_takeWhile
  simp only [Front.string?] at found
  split at found
  · next quote rest after =>
      cases found
      have first := List.head?_dropWhile_not (· != '"') text
      have isQuote : (quote != '"') = false := by simpa [after] using first
      have split : text ++ more = text.takeWhile (· != '"') ++ (quote :: (rest ++ more)) := by
        rw [← List.cons_append, ← after, ← List.append_assoc, List.takeWhile_append_dropWhile]
      rw [split]
      simp [Front.string?, List.takeWhile_append_of_pos inside, List.dropWhile_append_of_pos inside,
        isQuote]
  · cases found

/-- A delimiter that is neither a blank nor a quote is a token of its own. -/
theorem Front.next?_of_isDelimiter {c : Char} (solid : isBlank c = false)
    (delimiter : isDelimiter c = true) (plain : c ≠ '"') :
    ∃ t, ∀ text, Front.next? c text = some ⟨t, [c], text⟩ := by
  simp only [isDelimiter, solid, Bool.false_or, Bool.or_eq_true, beq_iff_eq, plain, or_false]
    at delimiter
  rcases delimiter with ((rfl | rfl) | rfl) | rfl
  · exact ⟨.leftParen, fun _ => rfl⟩
  · exact ⟨.rightParen, fun _ => rfl⟩
  · exact ⟨.sigil .quote, fun _ => rfl⟩
  · exact ⟨.sigil .sigval, fun _ => rfl⟩

/-- The lexer looks at one character behind a token, and at two behind digits and a point. -/
theorem Front.next?_append_settled {c : Char} {front : Front} (solid : isBlank c = false)
    (found : Front.next? c text = some front) (settled : Settled front.rest more) :
    Front.next? c (text ++ more) = some { front with rest := front.rest ++ more } := by
  by_cases quote : c = '"'
  · subst quote
    exact Front.string?_append found
  cases delimiter : isDelimiter c with
  | true =>
      obtain ⟨t, own⟩ := Front.next?_of_isDelimiter solid delimiter quote
      rw [own] at found ⊢
      cases found
      rfl
  | false =>
      -- The tests on the characters behind `c` come out as before.
      have same : startsWithDigit (text ++ more) = startsWithDigit text ∧
          atWordEnd (text ++ more) = atWordEnd text := by
        cases text with
        | nil =>
            have short := Front.next?_rest_lt solid found
            have nothing : front.rest = [] := by simpa using short
            rw [nothing] at settled
            exact ⟨startsWithDigit_of_atWordEnd settled.atWordEnd, settled.atWordEnd⟩
        | cons d text => exact ⟨rfl, rfl⟩
      rw [Front.next?_of_not_isDelimiter _ delimiter] at found ⊢
      rw [same.1, same.2]
      split at found
      · next signed =>
          cases found
          rw [if_pos signed, Front.signed_append settled]
      next signed =>
      rw [if_neg signed]
      split at found
      · next dot =>
          cases found
          rw [if_pos dot]
      next dot =>
      rw [if_neg dot]
      split at found
      · next digit =>
          cases found
          rw [if_pos digit, ← List.cons_append, Front.unsigned_append settled]
      · next digit =>
          cases found
          rw [if_neg digit, ← List.cons_append, Front.symbol_append settled]

/-- The text starts with the tokens, and the last text comes after them. -/
inductive Fronts : List Char → List Token → List Char → Prop where
  | done (text : List Char) : Fronts text [] text
  | front {text others rest : List Char} {c : Char} {front : Front} {tokens : List Token} :
      text.dropWhile isBlank = c :: others → Front.next? c others = some front →
      Fronts front.rest tokens rest → Fronts text (front.token :: tokens) rest

variable {tokens others : List Token}

theorem Fronts.lexed (fronts : Fronts text tokens rest) :
    lexed text = (tokens ++ (lexed rest).1, (lexed rest).2) := by
  induction fronts with
  | done => rfl
  | front solid found _ ih => rw [lexed_of_front solid found, ih, List.cons_append]

theorem Fronts.append {last : List Char} (first : Fronts text tokens rest)
    (second : Fronts rest others last) : Fronts text (tokens ++ others) last := by
  induction first with
  | done => exact second
  | front solid found _ ih => exact .front solid found (ih second)

theorem Fronts.split (fronts : Fronts text (tokens ++ others) rest) :
    ∃ middle, Fronts text tokens middle ∧ Fronts middle others rest := by
  induction tokens generalizing text with
  | nil => exact ⟨text, .done text, fronts⟩
  | cons t tokens ih =>
      cases fronts with
      | front solid found later =>
          obtain ⟨middle, first, second⟩ := ih later
          exact ⟨middle, .front solid found first, second⟩

theorem Fronts.suffix (fronts : Fronts text tokens rest) : rest <:+ text := by
  induction fronts with
  | done => exact List.suffix_refl _
  | @front text others rest c front tokens solid found _ ih =>
      have tail : front.rest <:+ c :: others := ⟨front.source, Front.next?_append found⟩
      rw [← solid] at tail
      exact ih.trans (tail.trans (List.dropWhile_suffix isBlank))

theorem Settled.of_suffix {before : List Char} (suffix : rest <:+ before)
    (settled : Settled rest more) : Settled before more := by
  rcases settled with ⟨c, inside, delimiter⟩ | ended
  · exact .inl ⟨c, suffix.subset inside, delimiter⟩
  · exact .inr ended

theorem dropWhile_append_solid {c : Char} {others : List Char}
    (solid : text.dropWhile isBlank = c :: others) :
    (text ++ more).dropWhile isBlank = c :: (others ++ more) := by
  rw [List.dropWhile_append, solid]
  rfl

/-- Tokens before a settled place stay when more text is appended. -/
theorem Fronts.settle (fronts : Fronts text tokens rest) (settled : Settled rest more) :
    Fronts (text ++ more) tokens (rest ++ more) := by
  induction fronts with
  | done => exact .done _
  | front solid found later ih =>
      have kept := Front.next?_append_settled (isBlank_of_dropWhile solid) found
        (settled.of_suffix later.suffix)
      have longer := Fronts.front (dropWhile_append_solid solid) kept (ih settled)
      exact longer

/-- What is left of a text after its last token. -/
inductive Leftover : List Char → Ending → Prop where
  | blanks {rest : List Char} : rest.dropWhile isBlank = [] → Leftover rest .complete
  | quote {rest body : List Char} : rest.dropWhile isBlank = '"' :: body → '"' ∉ body →
      Leftover rest .openString

theorem Front.string?_eq_none (text : List Char) : Front.string? text = none ↔ '"' ∉ text := by
  simp only [Front.string?]
  split
  · next quote rest after =>
      have first := List.head?_dropWhile_not (· != '"') text
      have isQuote : quote = '"' := by simpa [after] using first
      have inside : quote ∈ text :=
        (List.dropWhile_suffix (· != '"')).subset (by rw [after]; exact List.mem_cons_self)
      rw [isQuote] at inside
      exact ⟨(fun found => by cases found), fun absent => absurd inside absent⟩
  · next after =>
      have plain := List.dropWhile_eq_nil_iff.mp after
      refine ⟨fun _ inside => ?_, fun _ => rfl⟩
      cases plain '"' inside

theorem Front.next?_eq_none {c : Char} (unclosed : Front.next? c text = none) :
    c = '"' ∧ '"' ∉ text := by
  simp only [Front.next?] at unclosed
  split at unclosed
  · next quote => exact ⟨by simpa using quote, (Front.string?_eq_none text).mp unclosed⟩
  · repeat' split at unclosed
    all_goals cases unclosed

theorem exists_fronts (text : List Char) :
    ∃ rest, Fronts text (lexed text).1 rest ∧ Leftover rest (lexed text).2 := by
  induction size : text.length using Nat.strongRecOn generalizing text with
  | ind n ih =>
      subst size
      cases solid : text.dropWhile isBlank with
      | nil =>
          rw [lexed_of_blank solid]
          exact ⟨text, .done text, .blanks solid⟩
      | cons c others =>
          cases found : Front.next? c others with
          | none =>
              obtain ⟨rfl, unclosed⟩ := Front.next?_eq_none found
              rw [lexed_of_open solid found]
              exact ⟨text, .done text, .quote solid unclosed⟩
          | some front =>
              obtain ⟨rest, fronts, leftover⟩ := ih _ (front_rest_lt solid found) front.rest rfl
              rw [lexed_of_front solid found]
              exact ⟨rest, .front solid found fronts, leftover⟩

/-- A text that ends outside strings keeps its tokens before a word end. -/
theorem spells_of_complete (complete : (lexed text).2 = .complete) :
    Spells text (lexed text).1 := by
  intro more ended
  obtain ⟨rest, fronts, leftover⟩ := exists_fronts text
  rw [complete] at leftover
  cases leftover with
  | blanks blank =>
      have gap := opens_blanks (List.dropWhile_eq_nil_iff.mp blank) more
      rw [(fronts.settle (.inr ended)).lexed, gap]
      rfl

/-- No token of a text that ends outside strings goes on in the next line. -/
theorem lexed_append_line (complete : (lexed text).2 = .complete) (more : List Char) :
    lexed (text ++ '\n' :: more) = ((lexed text).1 ++ (lexed more).1, (lexed more).2) := by
  rw [spells_of_complete complete _ rfl, lexed_cons_blank more rfl]

/-- A text that ends inside a string keeps its tokens, and what is appended goes on with the
    string. -/
theorem exists_open_string (unclosed : (lexed text).2 = .openString) :
    ∃ body, '"' ∉ body ∧ ∀ more, lexed (text ++ more) =
      ((lexed text).1 ++ (lexed ('"' :: (body ++ more))).1, (lexed ('"' :: (body ++ more))).2) := by
  obtain ⟨rest, fronts, leftover⟩ := exists_fronts text
  rw [unclosed] at leftover
  cases leftover with
  | @quote body solid plain =>
      refine ⟨body, plain, fun more => ?_⟩
      have inside : '"' ∈ rest :=
        (List.dropWhile_suffix isBlank).subset (by rw [solid]; exact List.mem_cons_self)
      have blank : ∀ c ∈ rest.takeWhile isBlank, isBlank c = true :=
        List.all_eq_true.mp List.all_takeWhile
      have split : rest ++ more = rest.takeWhile isBlank ++ ('"' :: (body ++ more)) := by
        rw [← List.cons_append, ← solid, ← List.append_assoc, List.takeWhile_append_dropWhile]
      rw [(fronts.settle (.inl ⟨'"', inside, rfl⟩)).lexed, split, opens_blanks blank]
      rfl

theorem Fronts.uncons {t : Token} (fronts : Fronts text (t :: tokens) rest) :
    ∃ c others front, text.dropWhile isBlank = c :: others ∧
      Front.next? c others = some front ∧ front.token = t ∧ Fronts front.rest tokens rest := by
  cases fronts with
  | front solid found later => exact ⟨_, _, _, solid, found, rfl, later⟩

theorem Front.eq_close_of_token {c : Char} {front : Front} (found : Front.next? c text = some front)
    (token : front.token = .rightParen) : c = ')' := by
  by_contra other
  simp only [Front.next?, Front.string?, beq_iff_eq, other, if_false] at found
  repeat' split at found
  all_goals
    cases found
    try cases token

/-- A closing parenthesis settles itself and all tokens before it. -/
theorem lexed_append_rightParen (more : List Char)
    (found : (lexed text).1 = tokens ++ .rightParen :: others) :
    ∃ later, (lexed (text ++ more)).1 = tokens ++ .rightParen :: later := by
  obtain ⟨rest, fronts, -⟩ := exists_fronts text
  rw [found] at fronts
  obtain ⟨middle, before, after⟩ := fronts.split
  obtain ⟨c, others, front, solid, next, token, -⟩ := after.uncons
  obtain rfl := Front.eq_close_of_token next token
  have inside : ')' ∈ middle :=
    (List.dropWhile_suffix isBlank).subset (by rw [solid]; exact List.mem_cons_self)
  have here : Fronts (middle ++ more) [.rightParen] (others ++ more) :=
    .front (dropWhile_append_solid solid) rfl (.done _)
  have whole := (before.settle (.inl ⟨')', inside, rfl⟩)).append here
  refine ⟨(lexed (others ++ more)).1, ?_⟩
  rw [whole.lexed, List.append_assoc]
  rfl

end SmallLisp
