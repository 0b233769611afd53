import SmallLisp.Double.Nearest
import SmallLisp.Text.Blank
import SmallLisp.Token

/-! # Splitting a text into tokens

A word runs up to the next delimiter. Numbers are recognised by their first characters only, so
`42abc` is a number followed by a symbol, and `1.` is a number followed by a dot. Every character of
a text belongs to one lexeme or to the blanks between two. -/

namespace SmallLisp

/-- Characters that end a symbol. -/
def isDelimiter (c : Char) : Bool :=
  isBlank c || c == '(' || c == ')' || c == '\'' || c == '"' || c == '$'

def startsWithDigit : List Char → Bool
  | c :: _ => c.isDigit
  | [] => false

/-- The text starts with a delimiter or is empty. -/
def atWordEnd : List Char → Bool
  | c :: _ => isDelimiter c
  | [] => true

/-- A token at the front of a text, its characters, and the text after it. -/
structure Front where
  token : Token
  source : List Char
  rest : List Char

/-- Split the digits `whole.fraction` or `whole` off a text, as a decimal with its characters. A
    point belongs to the numeral only when a digit follows it. -/
def splitNumeral (text : List Char) : Decimal × List Char × List Char :=
  let whole := text.takeWhile Char.isDigit
  match text.dropWhile Char.isDigit with
  | '.' :: rest =>
      if startsWithDigit rest then
        let fraction := rest.takeWhile Char.isDigit
        (.ofDigits whole fraction, whole ++ '.' :: fraction, rest.dropWhile Char.isDigit)
      else (.ofDigits whole [], whole, '.' :: rest)
  | rest => (.ofDigits whole [], whole, rest)

/-- The number at the front of a text that starts with a digit. -/
def Front.unsigned (text : List Char) : Front :=
  let (decimal, source, rest) := splitNumeral text
  ⟨.number (decimal.toDouble false), source, rest⟩

/-- The number made of a sign and the numeral after it. -/
def Front.signed (sign : Char) (text : List Char) : Front :=
  let (decimal, source, rest) := splitNumeral text
  ⟨.number (decimal.toDouble (sign == '-')), sign :: source, rest⟩

def Front.symbol (text : List Char) : Front :=
  let name := text.takeWhile (!isDelimiter ·)
  ⟨.symbol (String.ofList name), name, text.dropWhile (!isDelimiter ·)⟩

/-- The string whose opening quote stands before the text; none if it is never closed. -/
def Front.string? (text : List Char) : Option Front :=
  let body := text.takeWhile (· != '"')
  match text.dropWhile (· != '"') with
  | quote :: rest => some ⟨.string (String.ofList body), '"' :: body ++ [quote], rest⟩
  | [] => none

/-- The token that starts with the character `c`, which is not blank; none for a string that is
    never closed. -/
def Front.next? (c : Char) (text : List Char) : Option Front :=
  if c == '"' then Front.string? text
  else if c == '$' then some ⟨.sigil .sigval, [c], text⟩
  else if c == '\'' then some ⟨.sigil .quote, [c], text⟩
  else if c == '(' then some ⟨.leftParen, [c], text⟩
  else if c == ')' then some ⟨.rightParen, [c], text⟩
  else if (c == '+' || c == '-') && startsWithDigit text then some (Front.signed c text)
  else if c == '.' && atWordEnd text then some ⟨.dot, [c], text⟩
  else if c.isDigit then some (Front.unsigned (c :: text))
  else some (Front.symbol (c :: text))

theorem splitNumeral_append (text : List Char) :
    (splitNumeral text).2.1 ++ (splitNumeral text).2.2 = text := by
  have split := List.takeWhile_append_dropWhile (p := Char.isDigit) (l := text)
  simp only [splitNumeral]
  split
  · next rest after =>
      rw [after] at split
      split <;> simp_all [List.takeWhile_append_dropWhile]
  · simp

/-- The ways in which a token can start with the character `c`. -/
inductive Front.Starts (c : Char) (text : List Char) : Front → Prop where
  | string {front : Front} : c = '"' → Front.string? text = some front → Starts c text front
  | single (token : Token) : Starts c text ⟨token, [c], text⟩
  | signed : Starts c text (.signed c text)
  | unsigned : c.isDigit = true → Starts c text (.unsigned (c :: text))
  | symbol : (isBlank c = false → isDelimiter c = false) → Starts c text (.symbol (c :: text))

theorem Front.next?_starts {c : Char} {text : List Char} {front : Front}
    (found : Front.next? c text = some front) : Front.Starts c text front := by
  unfold Front.next? at found
  split at found
  · next quote => exact .string (beq_iff_eq.mp quote) found
  split at found
  · exact Option.some.inj found ▸ .single _
  split at found
  · exact Option.some.inj found ▸ .single _
  split at found
  · exact Option.some.inj found ▸ .single _
  split at found
  · exact Option.some.inj found ▸ .single _
  split at found
  · exact Option.some.inj found ▸ .signed
  split at found
  · exact Option.some.inj found ▸ .single _
  split at found
  · next digit => exact Option.some.inj found ▸ .unsigned digit
  · refine Option.some.inj found ▸ .symbol fun solid => ?_
    simp_all [isDelimiter]

theorem Front.string?_source_append {text : List Char} {front : Front}
    (found : Front.string? text = some front) : front.source ++ front.rest = '"' :: text := by
  simp only [Front.string?] at found
  split at found
  · next quote rest after =>
      have split := List.takeWhile_append_dropWhile (p := (· != '"')) (l := text)
      cases found
      simp_all
  · cases found

theorem Front.next?_append {c : Char} {text : List Char} {front : Front}
    (found : Front.next? c text = some front) : front.source ++ front.rest = c :: text := by
  cases Front.next?_starts found with
  | string quote found => rw [quote, Front.string?_source_append found]
  | single token => rfl
  | signed => simp [Front.signed, splitNumeral_append]
  | unsigned => exact splitNumeral_append (c :: text)
  | symbol => exact List.takeWhile_append_dropWhile

theorem Front.next?_source_ne_nil {c : Char} {text : List Char} {front : Front}
    (solid : isBlank c = false) (found : Front.next? c text = some front) : front.source ≠ [] := by
  cases Front.next?_starts found with
  | string quote found =>
      simp only [Front.string?] at found
      split at found <;> cases found
      simp
  | single token => simp
  | signed => simp [Front.signed]
  | unsigned digit =>
      simp only [Front.unsigned, splitNumeral]
      split
      · split <;> simp [digit]
      · simp [digit]
  | symbol inside => simp [Front.symbol, inside solid]

theorem Front.next?_rest_lt {c : Char} {text : List Char} {front : Front} (solid : isBlank c = false)
    (found : Front.next? c text = some front) : front.rest.length < (c :: text).length := by
  have some := List.length_pos_iff.2 (Front.next?_source_ne_nil solid found)
  rw [← Front.next?_append found, List.length_append]
  omega

/-- Split a text that stands at the given place. -/
def scanFrom (place : Position) (text : List Char) : Scan :=
  let start := place.after (text.takeWhile isBlank)
  match _solid : text.dropWhile isBlank with
  | [] => ⟨[], .complete, start⟩
  | c :: rest =>
      match _found : Front.next? c rest with
      | none => ⟨[], .openString, start⟩
      | some front =>
          let others := scanFrom (start.after front.source) front.rest
          { others with lexemes := ⟨front.token, front.source, start⟩ :: others.lexemes }
termination_by text.length
decreasing_by
  have shorter := (List.dropWhile_sublist (l := text) isBlank).length_le
  have first : isBlank c = false := by
    have := List.head?_dropWhile_not isBlank text
    simpa [_solid] using this
  have := Front.next?_rest_lt first _found
  rw [_solid] at shorter
  omega

def scan (text : String) : Scan :=
  scanFrom .start text.toList

end SmallLisp
