import SmallLisp.Proofs.Token.Division

/-! # The spacing of a text

Lexemes may touch: `1.5.3` is two of them and `42abc` too. What a lexeme is never depends on that. A
spelling is taken whole wherever a word can end after it, and blanks are such a place, so the lexemes of
a text can be written again with any blanks between them and are the same lexemes.
-/

namespace SmallLisp

variable {d : Decimal} {t : Token} {numeral source gap rest last : List Char} {cells : List Cell}

theorem Decimal.Numeral.split (isNumeral : d.Numeral numeral) (ended : atWordEnd rest = true) :
    splitNumeral (numeral ++ rest) = (d, numeral, rest) := by
  cases isNumeral with
  | whole row => exact splitNumeral_whole row.2 ended
  | point row fraction =>
      rw [List.append_assoc, List.cons_append]
      exact splitNumeral_fraction row.2 fraction.2 fraction.1 ended

theorem Decimal.Numeral.head_isDigit (isNumeral : d.Numeral numeral) :
    ∃ c others, numeral = c :: others ∧ c.isDigit = true := by
  have first : ∀ {row : List Char}, IsRow row → ∀ more, ∃ c others,
      row ++ more = c :: others ∧ c.isDigit = true := by
    intro row isRow more
    obtain ⟨c, others, rfl⟩ := List.exists_cons_of_ne_nil isRow.1
    exact ⟨c, others ++ more, rfl, isRow.2 c List.mem_cons_self⟩
  cases isNumeral with
  | whole row => simpa using first row []
  | point row fraction => exact first row _

theorem Front.next?_signed {c : Char} (sign : c = '+' ∨ c = '-') (isNumeral : d.Numeral numeral)
    (ended : atWordEnd rest = true) :
    Front.next? c (numeral ++ rest) =
      some ⟨.number (d.toDouble (c == '-')), c :: numeral, rest⟩ := by
  have starts : startsWithDigit (numeral ++ rest) = true := by
    obtain ⟨first, others, rfl, digit⟩ := isNumeral.head_isDigit
    exact digit
  rw [Front.next?_sign sign starts, Front.signed, isNumeral.split ended]

/-- A spelling is taken off the front of a text, and nothing after it, where a word can end behind it. -/
theorem Token.Spelling.front (spelling : t.Spelling source) :
    ∃ c others, source = c :: others ∧ isBlank c = false ∧ ∀ rest, atWordEnd rest = true →
      Front.next? c (others ++ rest) = some ⟨t, source, rest⟩ := by
  cases spelling with
  | sigil s => cases s <;> exact ⟨_, [], rfl, by decide, fun _ _ => rfl⟩
  | leftParen | rightParen => exact ⟨_, [], rfl, by decide, fun _ _ => rfl⟩
  | dot => exact ⟨_, [], rfl, by decide, fun _ ended => Front.next?_dot ended⟩
  | number numeral =>
      obtain ⟨c, others, rfl, digit⟩ := numeral.head_isDigit
      refine ⟨c, others, rfl, not_isBlank_of_not_isDelimiter (not_isDelimiter_of_isDigit digit),
        fun rest ended => ?_⟩
      rw [Front.next?_digit digit, Front.unsigned, ← List.cons_append, numeral.split ended]
  | plus numeral =>
      exact ⟨_, _, rfl, by decide, fun _ ended => Front.next?_signed (.inl rfl) numeral ended⟩
  | minus numeral =>
      exact ⟨_, _, rfl, by decide, fun _ ended => Front.next?_signed (.inr rfl) numeral ended⟩
  | symbol isWord =>
      obtain ⟨c, others, rfl⟩ := List.exists_cons_of_ne_nil isWord.nonempty
      refine ⟨c, others, rfl, not_isBlank_of_not_isDelimiter (isWord.solid c List.mem_cons_self),
        fun rest ended => ?_⟩
      rw [Front.next?_word isWord ended, Front.symbol_word isWord.solid ended]
  | string closed => exact ⟨_, _, rfl, by decide, fun rest _ => Front.next?_string closed rest⟩

/-- A lexeme without its place. -/
def Lexeme.placeless (l : Lexeme) : Token × List Char := (l.token, l.source)

/-- A spelling with blanks before it is the first lexeme, and the scan goes on behind it. -/
theorem scanFrom_spelling (place : Position) (blank : ∀ c ∈ gap, isBlank c = true)
    (spelling : t.Spelling source) (ended : atWordEnd rest = true) :
    ∃ start, scanFrom place (gap ++ source ++ rest) =
      { scanFrom (start.after source) rest with
        lexemes := ⟨t, source, start⟩ :: (scanFrom (start.after source) rest).lexemes } := by
  obtain ⟨c, others, rfl, solid, found⟩ := spelling.front
  have skip : (gap ++ c :: others ++ rest).dropWhile isBlank = c :: (others ++ rest) := by
    rw [List.append_assoc, List.dropWhile_append_of_pos blank, List.cons_append,
      List.dropWhile_cons_of_neg (by simp [solid])]
  exact ⟨_, scanFrom_of_front place skip (found rest ended)⟩

/-- Cells with blanks in their gaps, and with some wherever two lexemes follow one another. -/
structure Spaced (cells : List Cell) (last : List Char) : Prop where
  blanks : ∀ cell ∈ cells, ∀ c ∈ cell.gap, isBlank c = true
  apart : ∀ cell ∈ cells.tail, cell.gap ≠ []
  last : ∀ c ∈ last, isBlank c = true

theorem atWordEnd_of_blank {c : Char} (blank : isBlank c = true) (text : List Char) :
    atWordEnd (c :: text) = true := by
  simp [atWordEnd, isDelimiter, blank]

theorem Spaced.others {first : Cell} (spaced : Spaced (first :: cells) last) : Spaced cells last :=
  ⟨(List.forall_mem_cons.mp spaced.blanks).2,
    fun cell inside => spaced.apart cell (List.mem_of_mem_tail inside), spaced.last⟩

/-- A word can end behind every lexeme. -/
theorem Spaced.atWordEnd {first : Cell} (spaced : Spaced (first :: cells) last) :
    atWordEnd (Cell.textOf cells ++ last) = true := by
  cases cells with
  | nil =>
      cases last with
      | nil => rfl
      | cons c last => exact atWordEnd_of_blank (spaced.last c List.mem_cons_self) _
  | cons second cells =>
      obtain ⟨gap, lexeme⟩ := second
      obtain ⟨c, gap, rfl⟩ := List.exists_cons_of_ne_nil (spaced.apart _ List.mem_cons_self)
      have blank := spaced.others.blanks _ List.mem_cons_self c List.mem_cons_self
      exact atWordEnd_of_blank blank _

theorem scanFrom_spaced (place : Position) (spaced : Spaced cells last)
    (spellings : ∀ cell ∈ cells, cell.lexeme.token.Spelling cell.lexeme.source) :
    (scanFrom place (Cell.textOf cells ++ last)).lexemes.map Lexeme.placeless =
        cells.map (·.lexeme.placeless) ∧
      (scanFrom place (Cell.textOf cells ++ last)).ending = .complete := by
  induction cells generalizing place with
  | nil =>
      have blank : (Cell.textOf [] ++ last).dropWhile isBlank = [] :=
        List.dropWhile_eq_nil_iff.mpr spaced.last
      simp [scanFrom_of_blank place blank]
  | cons first cells ih =>
      obtain ⟨spelling, spellings⟩ := List.forall_mem_cons.mp spellings
      obtain ⟨start, scanned⟩ := scanFrom_spelling place
        (spaced.blanks first List.mem_cons_self) spelling spaced.atWordEnd
      obtain ⟨lexemes, ending⟩ := ih (start.after first.lexeme.source) spaced.others spellings
      have text : Cell.textOf (first :: cells) ++ last =
          first.gap ++ first.lexeme.source ++ (Cell.textOf cells ++ last) := by
        simp [Cell.textOf, Cell.text]
      rw [text, scanned]
      exact ⟨congrArg (first.lexeme.placeless :: ·) lexemes, ending⟩

/-- The lexemes of a text, written with any blanks that keep them apart, are scanned as the same
    tokens with the same characters, and nothing is left open behind them. Where the quotes of the text
    come in pairs this is all that it says itself. -/
theorem scan_respaced (text : String) (cells : List Cell) (last : List Char)
    (same : cells.map Cell.lexeme = (scan text).lexemes) (spaced : Spaced cells last) :
    (scan (String.ofList (Cell.textOf cells ++ last))).tokens = (scan text).tokens ∧
      (scan (String.ofList (Cell.textOf cells ++ last))).lexemes.map Lexeme.source =
        (scan text).lexemes.map Lexeme.source ∧
      (scan (String.ofList (Cell.textOf cells ++ last))).ending = .complete ∧
      (Even (text.toList.count '"') → (scan text).ending = .complete) := by
  obtain ⟨divided, gap, rest, divides⟩ := scanFrom_divides [] text.toList
  have spellings : ∀ cell ∈ cells, cell.lexeme.token.Spelling cell.lexeme.source := by
    intro cell inside
    have among : cell.lexeme ∈ divided.map Cell.lexeme := by
      rw [← divides.lexemes]
      exact same ▸ List.mem_map_of_mem inside
    obtain ⟨twin, mem, eq⟩ := List.mem_map.mp among
    exact eq ▸ (divides.sources twin mem).2
  obtain ⟨lexemes, ending⟩ := scanFrom_spaced .start spaced spellings
  have placeless : (scan (String.ofList (Cell.textOf cells ++ last))).lexemes.map Lexeme.placeless =
      (scan text).lexemes.map Lexeme.placeless := by
    rw [scan, String.toList_ofList, lexemes, ← same, List.map_map]
    rfl
  refine ⟨?_, ?_, by rwa [scan, String.toList_ofList], fun even => ?_⟩
  · have tokens := congrArg (List.map Prod.fst) placeless
    rwa [List.map_map, List.map_map] at tokens
  · have sources := congrArg (List.map Prod.snd) placeless
    rwa [List.map_map, List.map_map] at sources
  · rcases divides.ending with ⟨complete, -⟩ | ⟨openString, -⟩
    · exact complete
    · have odd := (ending_eq_openString_iff text).mp openString
      exact absurd even (Nat.not_even_iff_odd.mpr odd)

/-- A text with lexemes that touch wherever they can. -/
def touching : String := "1.5.3(42abc'$x\"a b\"+1-2)1."

/-- The lexemes of the text, each on a line of its own. -/
def touchingApart : List Cell := (scan touching).lexemes.map (⟨['\n', ' '], ·⟩)

/-- Signs, points and digits that touched their neighbours are the same tokens apart from them. -/
theorem scan_respaced_touching :
    String.ofList (Cell.textOf touchingApart ++ [' ']) =
        "\n 1.5\n .3\n (\n 42\n abc\n '\n $\n x\n \"a b\"\n +1\n -2\n )\n 1\n . " ∧
      (scan (String.ofList (Cell.textOf touchingApart ++ [' ']))).tokens = (scan touching).tokens ∧
      (scan touching).ending = .complete := by
  have same : touchingApart.map Cell.lexeme = (scan touching).lexemes := by
    rw [touchingApart, List.map_map]
    exact List.map_id _
  have gaps : ∀ cell ∈ touchingApart, cell.gap = ['\n', ' '] := by
    simp [touchingApart]
  have spaced : Spaced touchingApart [' '] := by
    refine ⟨fun cell inside => ?_, fun cell inside => ?_, by simp [isBlank]⟩
    · rw [gaps cell inside]
      simp [isBlank]
    · rw [gaps cell (List.mem_of_mem_tail inside)]
      decide
  obtain ⟨tokens, -, -, ending⟩ := scan_respaced touching touchingApart [' '] same spaced
  exact ⟨by decide +kernel, tokens, ending (by decide +kernel)⟩

end SmallLisp
