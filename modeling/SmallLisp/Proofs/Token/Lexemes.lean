import SmallLisp.Proofs.Token.Spelling

/-! # What a lexeme is made of

The lexer looks at a text from its front and decides what comes first. Whatever its decision, the
characters that it takes are a spelling of the token that it gives. All that is true of the tokens of a
text, or of the characters that they are made of, is a property of spellings.
-/

namespace SmallLisp

/-- Digits, one at least. -/
def IsRow (row : List Char) : Prop :=
  row ≠ [] ∧ ∀ c ∈ row, c.isDigit = true

/-- The characters are a numeral of the decimal, without a sign. -/
inductive Decimal.Numeral : Decimal → List Char → Prop where
  | whole {row : List Char} : IsRow row → Numeral (.ofDigits row []) row
  | point {row fraction : List Char} : IsRow row → IsRow fraction →
      Numeral (.ofDigits row fraction) (row ++ '.' :: fraction)

/-- The characters are a spelling of the token. Only numbers have more than one. -/
inductive Token.Spelling : Token → List Char → Prop where
  | sigil (s : Sigil) : Spelling (.sigil s) [s.mark]
  | leftParen : Spelling .leftParen ['(']
  | rightParen : Spelling .rightParen [')']
  | dot : Spelling .dot ['.']
  | number {d : Decimal} {numeral : List Char} : d.Numeral numeral →
      Spelling (.number (d.toDouble false)) numeral
  | plus {d : Decimal} {numeral : List Char} : d.Numeral numeral →
      Spelling (.number (d.toDouble false)) ('+' :: numeral)
  | minus {d : Decimal} {numeral : List Char} : d.Numeral numeral →
      Spelling (.number (d.toDouble true)) ('-' :: numeral)
  | symbol {word : List Char} : IsWord word → Spelling (.symbol (String.ofList word)) word
  | string {body : List Char} : '"' ∉ body →
      Spelling (.string (String.ofList body)) ('"' :: body ++ ['"'])

variable {text : List Char} {c : Char} {front : Front}

theorem startsWithDigit_takeWhile {p : Char → Bool} (stop : startsWithDigit text = false) :
    startsWithDigit (text.takeWhile p) = false := by
  cases text with
  | nil => rfl
  | cons c text =>
      rw [List.takeWhile_cons]
      split
      · exact stop
      · rfl

theorem atWordEnd_of_takeWhile (nothing : text.takeWhile (!isDelimiter ·) = []) :
    atWordEnd text = true := by
  cases text with
  | nil => rfl
  | cons c text =>
      rw [List.takeWhile_cons] at nothing
      split at nothing
      · cases nothing
      · next delimiter => simpa [atWordEnd] using delimiter

/-- What is left for the branch for symbols is a word. -/
theorem isWord_takeWhile (solid : isDelimiter c = false) (digit : c.isDigit = false)
    (signed : ((c == '+' || c == '-') && startsWithDigit text) = false)
    (dot : (c == '.' && atWordEnd text) = false) :
    IsWord ((c :: text).takeWhile (!isDelimiter ·)) := by
  rw [List.takeWhile_cons_of_pos (by simp [solid])]
  refine ⟨List.cons_ne_nil _ _, fun e inside => ?_, ?_, fun same => ?_⟩
  · rcases List.mem_cons.mp inside with rfl | later
    · exact solid
    · have inWord : (text.takeWhile (!isDelimiter ·)).all (!isDelimiter ·) = true := List.all_takeWhile
      simpa using List.all_eq_true.mp inWord e later
  · simp only [startsNumeral, digit, Bool.false_or, Bool.and_eq_false_iff] at signed ⊢
    exact signed.imp_right startsWithDigit_takeWhile
  · obtain ⟨rfl, nothing⟩ := List.cons.inj same
    rw [atWordEnd_of_takeWhile nothing] at dot
    cases dot

theorem quote_notMem_takeWhile {p : Char → Bool} (excluded : p '"' = false) (text : List Char) :
    '"' ∉ text.takeWhile p := by
  intro inside
  have holds : p '"' = true := List.all_eq_true.mp List.all_takeWhile '"' inside
  rw [excluded] at holds
  cases holds

theorem isRow_takeWhile (digit : startsWithDigit text = true) :
    IsRow (text.takeWhile Char.isDigit) := by
  refine ⟨?_, List.all_eq_true.mp List.all_takeWhile⟩
  cases text with
  | nil => cases digit
  | cons c text =>
      have first : c.isDigit = true := digit
      rw [List.takeWhile_cons_of_pos first]
      exact List.cons_ne_nil _ _

theorem splitNumeral_numeral (digit : startsWithDigit text = true) :
    (splitNumeral text).1.Numeral (splitNumeral text).2.1 := by
  have row := isRow_takeWhile digit
  unfold splitNumeral
  split
  · split
    · next further => exact .point row (isRow_takeWhile further)
    · exact .whole row
  · exact .whole row

theorem Front.signed_spelling (sign : (c == '+' || c == '-') = true)
    (digit : startsWithDigit text = true) :
    (Front.signed c text).token.Spelling (Front.signed c text).source := by
  have numeral := splitNumeral_numeral digit
  simp only [Bool.or_eq_true, beq_iff_eq] at sign
  rcases sign with rfl | rfl
  · exact .plus numeral
  · exact .minus numeral

theorem Front.string?_spelling (found : Front.string? text = some front) :
    front.token.Spelling front.source := by
  unfold Front.string? at found
  split at found
  · next quote rest after =>
      have first := List.head?_dropWhile_not (· != '"') text
      have isQuote : quote = '"' := by simpa [after] using first
      cases found
      rw [isQuote]
      exact .string (quote_notMem_takeWhile (p := (· != '"')) rfl text)
  · cases found

/-- The front of a text is a spelling of its token. -/
theorem Front.next?_spelling (solid : isBlank c = false) (found : Front.next? c text = some front) :
    front.token.Spelling front.source := by
  by_cases quote : c = '"'
  · subst quote
    exact Front.string?_spelling found
  cases delimiter : isDelimiter c with
  | true =>
      simp only [isDelimiter, solid, Bool.false_or, Bool.or_eq_true, beq_iff_eq, quote, or_false]
        at delimiter
      rcases delimiter with ((rfl | rfl) | rfl) | rfl
      · cases found
        exact .leftParen
      · cases found
        exact .rightParen
      · cases found
        exact .sigil .quote
      · cases found
        exact .sigil .sigval
  | false =>
      rw [Front.next?_of_not_isDelimiter _ delimiter] at found
      split at found
      · next signed =>
          cases found
          obtain ⟨sign, digit⟩ := Bool.and_eq_true_iff.mp signed
          exact Front.signed_spelling sign digit
      next signed =>
      split at found
      · next dot =>
          cases found
          obtain ⟨point, -⟩ := Bool.and_eq_true_iff.mp dot
          rw [beq_iff_eq.mp point]
          exact .dot
      next dot =>
      split at found
      · next digit =>
          cases found
          exact .number (splitNumeral_numeral digit)
      · next digit =>
          cases found
          exact .symbol (isWord_takeWhile delimiter (by simpa using digit) (by simpa using signed)
            (by simpa using dot))

theorem Token.Spelling.ne_nil {t : Token} (spelling : t.Spelling text) : text ≠ [] := by
  cases spelling with
  | number numeral =>
      cases numeral with
      | whole row => exact row.1
      | point => exact List.append_ne_nil_of_right_ne_nil _ (List.cons_ne_nil _ _)
  | symbol isWord => exact isWord.nonempty
  | _ => exact List.cons_ne_nil _ _

theorem IsRow.quotes {row : List Char} (isRow : IsRow row) : '"' ∉ row := by
  intro inside
  cases isRow.2 '"' inside

theorem Decimal.Numeral.quotes {d : Decimal} {numeral : List Char} (isNumeral : d.Numeral numeral) :
    '"' ∉ numeral := by
  cases isNumeral with
  | whole row => exact row.quotes
  | point row fraction => simp [row.quotes, fraction.quotes]

/-- A string has its two quotes, and any other token has none. -/
theorem Token.Spelling.quotes {t : Token} {source : List Char} (spelling : t.Spelling source) :
    Even (source.count '"') := by
  have none : '"' ∉ source → Even (source.count '"') := by
    intro absent
    rw [List.count_eq_zero.mpr absent]
    exact Even.zero
  cases spelling with
  | sigil s => cases s <;> exact none (by decide)
  | leftParen | rightParen | dot => exact none (by decide)
  | number numeral => exact none numeral.quotes
  | plus numeral | minus numeral => exact none (by simp [numeral.quotes])
  | symbol isWord =>
      refine none fun inside => ?_
      cases isWord.solid '"' inside
  | @string body closed =>
      have two : ('"' :: body ++ ['"']).count '"' = 2 := by simp [List.count_eq_zero.mpr closed]
      rw [two]
      exact even_two

end SmallLisp
