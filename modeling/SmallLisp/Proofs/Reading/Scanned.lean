import SmallLisp.Proofs.Reading.Leaves
import SmallLisp.Proofs.Token.Lexemes

/-! # What a scanned text brings

The tokens of any text bring only atoms that can be read: finite numbers, because numerals beyond
the largest double stand for it, strings without a quote, and symbols whose names are words.
-/

namespace SmallLisp

theorem Decimal.toDouble_isFinite (negative : Bool) (d : Decimal) :
    (d.toDouble negative).isFinite = true := by
  refine Double.isFinite_ofRank negative (Nat.lt_of_le_of_lt (Nat.min_le_right _ _) ?_)
  decide

theorem symbol_readable {word : List Char} (isWord : IsWord word) :
    (Token.symbol (String.ofList word)).datum.Leaves Atom.Readable := by
  refine Datum.ofName_leaves (.inl trivial) (fun _ => .inl trivial) fun nil true false => ?_
  refine .inl ⟨by simpa using isWord, ?_⟩
  simp [nil, true, false]

/-- What is spelt brings an atom that can be read. -/
theorem Token.Spelling.readable {t : Token} {source : List Char} (spelling : t.Spelling source) :
    t.datum.Leaves Atom.Readable := by
  cases spelling with
  | sigil s => cases s <;> exact .inl ⟨by decide, by decide⟩
  | leftParen | rightParen => exact .inl trivial
  | dot => exact .inr rfl
  | number | plus | minus => exact .inl (Decimal.toDouble_isFinite _ _)
  | symbol isWord => exact symbol_readable isWord
  | string closed => exact .inl (by simpa [Atom.Written] using closed)

theorem lexed_readable (text : List Char) :
    ∀ t ∈ (lexed text).1, t.datum.Leaves Atom.Readable := by
  induction size : text.length using Nat.strongRecOn generalizing text with
  | ind n ih =>
      subst size
      cases solid : text.dropWhile isBlank with
      | nil => simp [lexed_of_blank solid]
      | cons c rest =>
          cases found : Front.next? c rest with
          | none => simp [lexed_of_open solid found]
          | some front =>
              have first := isBlank_of_dropWhile solid
              rw [lexed_of_front solid found]
              refine List.forall_mem_cons.mpr ⟨(Front.next?_spelling first found).readable, ?_⟩
              exact ih _ (front_rest_lt solid found) front.rest rfl

/-- Every form of a text has leaves that can be read. -/
theorem read_readable {text : String} {d : Datum}
    (found : (Stack.first [] (scan text).tokens).form = some d) : d.Leaves Atom.Readable :=
  Stack.first_leaves (.inl trivial) (lexed_readable text.toList) (by simp) found

theorem all_readable (text : String) :
    ∀ d ∈ (Stack.all [] (scan text).tokens).forms, d.Leaves Atom.Readable :=
  Stack.all_leaves (.inl trivial) (lexed_readable text.toList) (List.forall_mem_nil _)

end SmallLisp
