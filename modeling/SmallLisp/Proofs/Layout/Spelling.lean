import SmallLisp.Proofs.Layout.Direct
import SmallLisp.Proofs.Reading.Reread

/-! # Every layout spells the same tokens

Layouts differ in the blanks between the elements of lists and in nothing else. What follows an
element starts with a blank or with a closing parenthesis, so that no two tokens run together.
-/

namespace SmallLisp.Layout

open Datum (Bare opening)

/-- The text is scanned as the tokens, and the word before it ends where it starts. -/
def SpellsTail (text : List Char) (tokens : List Token) : Prop :=
  atWordEnd text = true ∧ Spells text tokens

theorem opens_lambda : Opens "(lambda ".toList [.leftParen, .symbol "lambda"] := by
  have word : Spells ['l', 'a', 'm', 'b', 'd', 'a'] [.symbol "lambda"] := IsWord.spells (by decide)
  exact opens_leftParen.append (word.append_opens (List.cons_ne_nil _ _) (by decide) opens_space)

theorem opens_dot : Opens " . ".toList [.dot] :=
  opens_space.append (spells_dot.append_opens (List.cons_ne_nil _ _) (by decide) opens_space)

theorem opens_lineBreak (column : Nat) : Opens (Mark.lineBreak column).toText.toList [] := by
  simp only [Mark.toText, String.toList_ofList]
  refine opens_blanks fun c inside => ?_
  rcases List.mem_cons.mp inside with rfl | space
  · decide
  · rw [List.eq_of_mem_replicate space]
    decide

variable {head rest : Datum} {firstText othersText : List Char}

theorem opens_opening (bare : Bare head rest) : ∃ tokens,
    Opens (opening head rest).text.toList tokens ∧
      (Datum.cons head rest).tokens = tokens ++ ((opening head rest).first.tokens ++
        ((opening head rest).others.tokensTail ++ [.rightParen])) := by
  rw [Datum.tokens_bare bare]
  rcases Datum.opening_cases head rest with ⟨params, body, lambda, rfl, found⟩ | ⟨-, found⟩
  · rw [found, Datum.eq_symbol_of_isLambda lambda]
    exact ⟨_, opens_lambda, by simp [Datum.tokens, Datum.tokensTail, Atom.token]⟩
  · rw [found]
    have opens : Opens "(".toList [.leftParen] := opens_leftParen
    exact ⟨_, opens, rfl⟩

/-- A list spells its tokens as soon as its elements do, whatever the blanks between them. -/
theorem spells_list (bare : Bare head rest)
    (first : Spells firstText (opening head rest).first.tokens)
    (others : SpellsTail othersText (opening head rest).others.tokensTail) :
    Spells ((opening head rest).text.toList ++ (firstText ++ (othersText ++ [')'])))
      (Datum.cons head rest).tokens := by
  obtain ⟨tokens, opens, all⟩ := opens_opening bare
  rw [all]
  have closed := others.2.append (by decide) opens_rightParen.spells
  refine opens.append_spells (first.append ?_ closed)
  exact atWordEnd_append others.1 (by decide)

theorem spells_marked (s : Sigil) {d : Datum} {text : List Char} (inner : Spells text d.tokens) :
    Spells (s.mark :: text) (Datum.marked s d).tokens := by
  rw [Datum.tokens_marked]
  exact (opens_sigil s).append_spells inner

theorem spellsTail_nil : SpellsTail [] (Datum.tokensTail .nil) :=
  ⟨rfl, fun _ _ => rfl⟩

theorem spellsTail_atom {a : Atom} (solid : a ≠ .nil) (readable : a.Readable) :
    SpellsTail (" . " ++ a.text).toList (Datum.tokensTail (.atom a)) := by
  rw [Datum.tokensTail_atom solid, String.toList_append]
  exact ⟨rfl, opens_dot.append_spells (Atom.spells readable)⟩

theorem spellsTail_cons {gap text others : List Char} {d rest : Datum} (blank : atWordEnd gap = true)
    (solid : gap ≠ []) (opens : Opens gap []) (first : Spells text d.tokens)
    (tail : SpellsTail others rest.tokensTail) :
    SpellsTail (gap ++ (text ++ others)) (Datum.tokensTail (.cons d rest)) := by
  obtain ⟨c, more, rfl⟩ := List.exists_cons_of_ne_nil solid
  exact ⟨blank, opens.append_spells (first.append tail.1 tail.2)⟩

theorem leaves_opening {P : Atom → Prop} (leaves : (Datum.cons head rest).Leaves P) :
    (opening head rest).first.Leaves P ∧ (opening head rest).others.Leaves P := by
  rcases Datum.opening_cases head rest with ⟨params, body, -, rfl, found⟩ | ⟨-, found⟩
  · rw [found]
    exact leaves.2
  · rw [found]
    exact leaves

/-- The datum is spelt by its line and by every layout. -/
def Spelt (d : Datum) : Prop :=
  d.Leaves Atom.Readable → Spells d.display.toList d.tokens ∧
    ∀ margin column glued, Spells (direct margin column glued d).toList d.tokens

/-- The same for what follows the first element of a list. -/
def SpeltTail (rest : Datum) : Prop :=
  rest.Leaves Atom.Readable → SpellsTail rest.displayTail.toList rest.tokensTail ∧
    ∀ margin column glued, SpellsTail (directTail margin column glued rest).toList rest.tokensTail

theorem spelt (d : Datum) : Spelt d ∧ SpeltTail d := by
  refine Datum.written_induction ?atom ?marked ?list ?tailNil ?tailAtom ?tailCons d
  case atom =>
    intro a readable
    exact ⟨Atom.spells readable, fun _ _ _ => Atom.spells readable⟩
  case marked =>
    intro s d ih leaves
    obtain ⟨line, laid⟩ := ih ((Datum.leaves_marked (.inl trivial)).mp leaves).2
    refine ⟨?_, fun margin column glued => ?_⟩
    · rw [Datum.display_marked]
      simpa [Sigil.text] using spells_marked s line
    · rw [direct_marked]
      simpa [Sigil.text] using spells_marked s (laid margin (column + 1) glued)
  case list =>
    intro head rest bare _ _ onFirst onOthers leaves
    obtain ⟨firstLine, firstLaid⟩ := onFirst (leaves_opening leaves).1
    obtain ⟨othersLine, othersLaid⟩ := onOthers (leaves_opening leaves).2
    have line : Spells (Datum.cons head rest).display.toList (Datum.cons head rest).tokens := by
      rw [Datum.display_list bare]
      simpa using spells_list bare firstLine othersLine
    refine ⟨line, fun margin column glued => ?_⟩
    rw [direct_list column glued bare]
    split
    · exact line
    · simpa using spells_list bare (firstLaid _ _ _) (othersLaid _ _ _)
  case tailNil =>
    intro _
    exact ⟨spellsTail_nil, fun _ _ _ => spellsTail_nil⟩
  case tailAtom =>
    intro a solid readable
    refine ⟨?_, fun margin column glued => ?_⟩
    · rw [Datum.displayTail_atom solid]
      exact spellsTail_atom solid readable
    · rw [directTail]
      · exact spellsTail_atom solid readable
      · exact solid
  case tailCons =>
    intro d rest onDatum onTail leaves
    obtain ⟨line, laid⟩ := onDatum leaves.1
    obtain ⟨tailLine, tailLaid⟩ := onTail leaves.2
    refine ⟨?_, fun margin column glued => ?_⟩
    · simpa [Datum.displayTail] using
        spellsTail_cons (by decide) (List.cons_ne_nil _ _) opens_space line tailLine
    · have solid : (Mark.lineBreak column).toText.toList ≠ [] := by simp [Mark.toText]
      have ended : atWordEnd (Mark.lineBreak column).toText.toList = true := by
        simp only [Mark.toText, String.toList_ofList]
        rfl
      simpa [directTail] using
        spellsTail_cons ended solid (opens_lineBreak column) (laid _ _ _) (tailLaid _ _ _)

/-- However wide the margin, the text of a datum is scanned as its tokens. -/
theorem scan_pretty (margin : Margin) {d : Datum} (leaves : d.Leaves Atom.Readable) :
    (scan (d.pretty margin)).tokens = d.tokens ∧ (scan (d.pretty margin)).ending = .complete := by
  have spells := ((spelt d).1 leaves).2 margin 0 0 [] rfl
  have nothing : lexed [] = ([], .complete) := lexed_of_blank rfl
  rw [List.append_nil, ← textFrom_measured, ← pretty_eq_textFrom, nothing, List.append_nil] at spells
  exact Prod.mk.inj spells

end SmallLisp.Layout
