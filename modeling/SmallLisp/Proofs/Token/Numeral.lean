import SmallLisp.Token.Lexer

/-! # Numerals are read as they are written

A numeral is split off a text exactly where it ends, because a delimiter or the end of the text
follows it, and neither can go on with a digit or a point. The digits give the decimal back, places
included.
-/

namespace SmallLisp

theorem not_isDelimiter_of_isDigit {c : Char} (digit : c.isDigit = true) : isDelimiter c = false := by
  simp only [Char.isDigit, Bool.and_eq_true, decide_eq_true_eq] at digit
  have low : 48 ≤ c.toNat := digit.1
  have high : c.toNat ≤ 57 := digit.2
  have other : ∀ e : Char, e.toNat < 48 → (c == e) = false := by
    intro e small
    refine beq_eq_false_iff_ne.mpr fun same => ?_
    rw [same] at low
    omega
  have solid : isBlank c = false := by
    simp only [isBlank, Bool.or_eq_false_iff, Bool.and_eq_false_iff, decide_eq_false_iff_not,
      beq_eq_false_iff_ne]
    omega
  simp [isDelimiter, solid, other]

theorem not_isBlank_of_not_isDelimiter {c : Char} (solid : isDelimiter c = false) :
    isBlank c = false := by
  simp only [isDelimiter, Bool.or_eq_false_iff] at solid
  exact solid.1.1.1.1.1

theorem startsWithDigit_of_atWordEnd {rest : List Char} (ended : atWordEnd rest = true) :
    startsWithDigit rest = false := by
  cases rest with
  | nil => rfl
  | cons c rest =>
      rw [startsWithDigit, Bool.eq_false_iff]
      intro digit
      rw [atWordEnd, not_isDelimiter_of_isDigit digit] at ended
      cases ended

variable {row whole fraction rest : List Char}

theorem takeWhile_isDigit (digits : ∀ c ∈ row, c.isDigit = true)
    (ended : startsWithDigit rest = false) : (row ++ rest).takeWhile Char.isDigit = row := by
  rw [List.takeWhile_append_of_pos digits]
  cases rest with
  | nil => simp
  | cons c rest =>
      have stop : c.isDigit = false := ended
      simp [stop]

theorem dropWhile_isDigit (digits : ∀ c ∈ row, c.isDigit = true)
    (ended : startsWithDigit rest = false) : (row ++ rest).dropWhile Char.isDigit = rest := by
  rw [List.dropWhile_append_of_pos digits]
  cases rest with
  | nil => rfl
  | cons c rest =>
      have stop : c.isDigit = false := ended
      simp [stop]

theorem splitNumeral_whole (digits : ∀ c ∈ row, c.isDigit = true) (ended : atWordEnd rest = true) :
    splitNumeral (row ++ rest) = (.ofDigits row [], row, rest) := by
  have stop := startsWithDigit_of_atWordEnd ended
  unfold splitNumeral
  rw [takeWhile_isDigit digits stop, dropWhile_isDigit digits stop]
  split
  · exact absurd ended (by simp [atWordEnd, isDelimiter, isBlank])
  · rfl

theorem splitNumeral_fraction (before : ∀ c ∈ whole, c.isDigit = true)
    (after : ∀ c ∈ fraction, c.isDigit = true) (solid : fraction ≠ [])
    (ended : atWordEnd rest = true) :
    splitNumeral (whole ++ '.' :: (fraction ++ rest)) =
      (.ofDigits whole fraction, whole ++ '.' :: fraction, rest) := by
  have stop := startsWithDigit_of_atWordEnd ended
  have goesOn : startsWithDigit (fraction ++ rest) = true := by
    obtain ⟨c, others, rfl⟩ := List.exists_cons_of_ne_nil solid
    exact after c List.mem_cons_self
  have point : startsWithDigit ('.' :: (fraction ++ rest)) = false := rfl
  unfold splitNumeral
  rw [takeWhile_isDigit before point, dropWhile_isDigit before point]
  simp only [goesOn, if_true, takeWhile_isDigit after stop, dropWhile_isDigit after stop]

namespace Decimal

theorem isDigit_of_mem_digits (d : Decimal) : ∀ c ∈ d.digits, c.isDigit = true := by
  intro c inside
  rcases List.mem_append.mp inside with zero | digit
  · rw [List.eq_of_mem_replicate zero]
    rfl
  · exact Nat.isDigit_of_mem_toDigits (by decide) (by decide) digit

theorem places_lt_length_digits (d : Decimal) : d.places < d.digits.length := by
  simp only [digits, List.length_append, List.length_replicate]
  have : 0 < (Nat.toDigits 10 d.coefficient).length := Nat.length_toDigits_pos
  omega

theorem ofDigitChars_digits (d : Decimal) : Nat.ofDigitChars 10 d.digits 0 = d.coefficient := by
  rw [digits, Nat.ofDigitChars_append, Nat.ofDigitChars_replicate_zero, Nat.mul_zero,
    Nat.ofDigitChars_ten_toDigits]

theorem toText_head_isDigit (d : Decimal) :
    ∃ c others, d.toText = c :: others ∧ c.isDigit = true := by
  have long := d.places_lt_length_digits
  have digits := d.isDigit_of_mem_digits
  obtain ⟨c, others, row⟩ : ∃ c others, d.digits = c :: others :=
    List.exists_cons_of_length_pos (by omega)
  refine ⟨c, ?_⟩
  simp only [toText]
  split
  · exact ⟨others, row, digits c (by simp [row])⟩
  · obtain ⟨n, count⟩ : ∃ n, d.digits.length - d.places = n + 1 :=
      Nat.exists_eq_add_one.mpr (by omega)
    rw [count, row]
    exact ⟨_, rfl, digits c (by simp [row])⟩

/-- The numeral of a decimal, split off a text, gives the decimal back. -/
theorem splitNumeral_toText (d : Decimal) (ended : atWordEnd rest = true) :
    splitNumeral (d.toText ++ rest) = (d, d.toText, rest) := by
  have digits := d.isDigit_of_mem_digits
  have long := d.places_lt_length_digits
  have number := d.ofDigitChars_digits
  simp only [toText]
  split
  · next none =>
      rw [splitNumeral_whole digits ended, ofDigits, List.append_nil, number, List.length_nil, ← none]
  · next some =>
      have before : ∀ c ∈ d.digits.take (d.digits.length - d.places), c.isDigit = true :=
        fun c inside => digits c (List.mem_of_mem_take inside)
      have after : ∀ c ∈ d.digits.drop (d.digits.length - d.places), c.isDigit = true :=
        fun c inside => digits c (List.mem_of_mem_drop inside)
      have count : (d.digits.drop (d.digits.length - d.places)).length = d.places := by
        rw [List.length_drop]
        omega
      have solid : d.digits.drop (d.digits.length - d.places) ≠ [] := by
        rw [← List.length_pos_iff, count]
        omega
      rw [List.append_assoc, List.cons_append, splitNumeral_fraction before after solid ended,
        ofDigits, List.take_append_drop, number, count]

end Decimal

end SmallLisp
