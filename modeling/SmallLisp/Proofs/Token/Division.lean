import SmallLisp.Proofs.Token.Quotes

/-! # A text divided into its tokens

A scan cuts a text into lexemes with blanks around them, and a string that is left open at its end if
there is one. No character is lost and none belongs to two lexemes. The characters of a lexeme are a
spelling of its token, and its place is where the first of them stands in the text. How the text ends is
no lexeme: a scan says it once, behind all of them, with its place.
-/

namespace SmallLisp

/-- A lexeme with the blanks before it. -/
structure Cell where
  gap : List Char
  lexeme : Lexeme

def Cell.text (cell : Cell) : List Char := cell.gap ++ cell.lexeme.source

/-- The characters of cells that follow one another. -/
def Cell.textOf (cells : List Cell) : List Char := cells.flatMap Cell.text

/-- A text that comes after other characters is divided into cells, the blanks after them and a rest
    that is no token, as the scan says. -/
structure Scan.Divides (s : Scan) (before text : List Char) (cells : List Cell)
    (gap rest : List Char) : Prop where
  lexemes : s.lexemes = cells.map Cell.lexeme
  /-- Every character is in one part, and the parts follow one another. -/
  parts : text = Cell.textOf cells ++ gap ++ rest
  blanks : (∀ cell ∈ cells, ∀ c ∈ cell.gap, isBlank c = true) ∧ ∀ c ∈ gap, isBlank c = true
  sources : ∀ cell ∈ cells, cell.lexeme.source ≠ [] ∧
    cell.lexeme.token.Spelling cell.lexeme.source
  /-- The place of a lexeme is the one behind all characters that come before it. -/
  places : ∀ earlier cell later, cells = earlier ++ cell :: later →
    cell.lexeme.position = .behind (before ++ Cell.textOf earlier ++ cell.gap)
  stop : s.stop = .behind (before ++ Cell.textOf cells ++ gap)
  /-- Only a string that is left open is not divided. -/
  ending : (s.ending = .complete ∧ rest = []) ∨
    (s.ending = .openString ∧ ∃ body, rest = '"' :: body ∧ '"' ∉ body)

theorem Position.after_behind (before text : List Char) :
    (behind before).after text = behind (before ++ text) := by
  rw [← after_start, ← after_append, after_start]

/-- A lexeme in front of a divided text. -/
theorem Scan.Divides.cons {s : Scan} {cells : List Cell} {before rest gap last : List Char}
    (first : Cell) (blank : ∀ c ∈ first.gap, isBlank c = true)
    (spelling : first.lexeme.token.Spelling first.lexeme.source)
    (place : first.lexeme.position = .behind (before ++ first.gap))
    (others : s.Divides (before ++ first.text) rest cells gap last) :
    Scan.Divides { s with lexemes := first.lexeme :: s.lexemes } before (first.text ++ rest)
      (first :: cells) gap last := by
  refine ⟨by rw [others.lexemes, List.map_cons], ?_, ?_, ?_, ?_, ?_, others.ending⟩
  · rw [others.parts]
    simp [Cell.textOf]
  · exact ⟨List.forall_mem_cons.mpr ⟨blank, others.blanks.1⟩, others.blanks.2⟩
  · exact List.forall_mem_cons.mpr ⟨⟨spelling.ne_nil, spelling⟩, others.sources⟩
  · intro earlier cell later split
    cases earlier with
    | nil =>
        obtain ⟨rfl, -⟩ := List.cons.inj split
        rw [place]
        simp [Cell.textOf]
    | cons cell' earlier =>
        obtain ⟨rfl, among⟩ := List.cons.inj split
        rw [others.places earlier cell later among]
        simp [Cell.textOf]
  · rw [others.stop]
    simp [Cell.textOf]

theorem scanFrom_divides (before text : List Char) :
    ∃ cells gap rest, (scanFrom (.behind before) text).Divides before text cells gap rest := by
  induction size : text.length using Nat.strongRecOn generalizing text before with
  | ind n ih =>
      subst size
      have split : text = text.takeWhile isBlank ++ text.dropWhile isBlank :=
        List.takeWhile_append_dropWhile.symm
      have blank : ∀ c ∈ text.takeWhile isBlank, isBlank c = true :=
        List.all_eq_true.mp List.all_takeWhile
      have start := Position.after_behind before (text.takeWhile isBlank)
      cases solid : text.dropWhile isBlank with
      | nil =>
          rw [solid] at split
          rw [scanFrom_of_blank _ solid, start]
          exact ⟨[], text.takeWhile isBlank, [], rfl, split, ⟨by simp, blank⟩, by simp, by simp,
            by simp [Cell.textOf], .inl ⟨rfl, rfl⟩⟩
      | cons c others =>
          rw [solid] at split
          cases found : Front.next? c others with
          | none =>
              obtain ⟨rfl, absent⟩ := Front.next?_eq_none found
              rw [scanFrom_of_open _ solid found, start]
              exact ⟨[], text.takeWhile isBlank, '"' :: others, rfl, split, ⟨by simp, blank⟩, by simp,
                by simp, by simp [Cell.textOf], .inr ⟨rfl, others, rfl, absent⟩⟩
          | some front =>
              let first : Cell := ⟨text.takeWhile isBlank,
                ⟨front.token, front.source, .behind (before ++ text.takeWhile isBlank)⟩⟩
              have whole : text = first.text ++ front.rest := by
                rw [Cell.text, List.append_assoc, Front.next?_append found, ← split]
              have later : (Position.behind (before ++ text.takeWhile isBlank)).after front.source =
                  .behind (before ++ first.text) := by
                rw [Position.after_behind, List.append_assoc]
                rfl
              obtain ⟨cells, gap, rest, divides⟩ := ih _ (front_rest_lt solid found)
                (before ++ first.text) front.rest rfl
              have spelling := Front.next?_spelling (isBlank_of_dropWhile solid) found
              have longer := divides.cons first blank spelling rfl
              rw [← whole] at longer
              rw [scanFrom_of_front _ solid found, start, later]
              exact ⟨first :: cells, gap, rest, longer⟩

/-- Every text is divided into the lexemes of its scan, the blanks between and around them, and, where
    it ends inside a string, that string from its opening quote on. The lexemes are not empty and spell
    their tokens. Each lexeme, and the end or the string that is left open, is reported at the place
    where it stands in the text. -/
theorem scan_divides (text : String) :
    ∃ cells gap rest, (scan text).Divides [] text.toList cells gap rest :=
  scanFrom_divides [] text.toList

-- A line feed in a string counts, and a numeral ends where it cannot go on.
example :
    (scan "\"a\nb\" 1.5.3 '").lexemes.map (fun l => (String.ofList l.source, l.position)) =
      [("\"a\nb\"", ⟨1, 1⟩), ("1.5", ⟨2, 4⟩), (".3", ⟨2, 7⟩), ("'", ⟨2, 10⟩)] := by
  decide +kernel

end SmallLisp
