import SmallLisp.Proofs.Balance
import SmallLisp.Proofs.Layout.Spelling
import SmallLisp.Proofs.Reading.Scanned
import SmallLisp.Proofs.Store.Tree

/-! # Printing and reading back

A printed tree is read back as the datum that its tokens are read as. For a tree in which every leaf
has a written form of its own that is the tree itself, at any margin. A tree that came out of a text
can also contain the symbol `.`, and is read back as itself exactly when no list has it as a later
element.
-/

namespace SmallLisp

variable {F : Type} {s : Store F} {text : String} {d : Datum}

theorem Datum.tokens_head (d : Datum) : ∃ t rest, d.tokens = t :: rest ∧ t ≠ .rightParen := by
  cases d with
  | atom a =>
      refine ⟨a.token, [], rfl, ?_⟩
      unfold Atom.token
      split
      · nofun
      · nofun
      · split <;> nofun
      · nofun
  | cons head rest =>
      rcases bare_or_marked head rest with bare | ⟨s, d, same⟩
      · exact ⟨_, _, tokens_bare bare, nofun⟩
      · rw [same]
        exact ⟨_, _, tokens_marked s d, nofun⟩

/-- The text has the tokens of the datum and ends after them. -/
structure Denotes (text : String) (d : Datum) : Prop where
  tokens : (scan text).tokens = d.tokens
  ending : (scan text).ending = .complete
  leaves : d.Leaves Atom.Readable

theorem Denotes.first (denotes : Denotes text d) :
    (Stack.first [] (scan text).tokens).form = some d.reread ∧
      (Stack.first [] (scan text).tokens).rest = [] := by
  obtain ⟨forms, left⟩ := Stack.all_tokens denotes.leaves
  rw [denotes.tokens]
  exact Stack.first_of_all forms left

theorem Denotes.balanced (denotes : Denotes text d) : balance text = .balanced := by
  obtain ⟨t, rest, tokens, solid⟩ := d.tokens_head
  obtain ⟨form, nothing⟩ := denotes.first
  have follow := Balance.judge_first .complete [] (scan text).tokens
    (.inr ⟨t, rest, by rw [denotes.tokens, tokens], solid⟩)
  rw [form, nothing] at follow
  simp only [balance, denotes.ending]
  exact follow

theorem denotes_pretty (margin : Layout.Margin) (leaves : d.Leaves Atom.Readable) :
    Denotes (d.pretty margin) d :=
  ⟨(Layout.scan_pretty margin leaves).1, (Layout.scan_pretty margin leaves).2, leaves⟩

namespace Store

theorem read_of_form (s : Store F) (form : (Stack.first [] (scan text).tokens).form = some d) :
    ∃ names, s.read text = (.ok ((s.internAll names).load d).1, ((s.internAll names).load d).2) := by
  refine ⟨(Stack.first [] (scan text).tokens).names, ?_⟩
  simp only [Store.read, loadReading, SmallLisp.read, Scan.read, form]

/-- The first form of a text is read as a tree of the store. -/
theorem read_tree (s : Store F) (form : (Stack.first [] (scan text).tokens).form = some d) :
    ∃ w t, s.read text = (.ok w, t) ∧ s.Extends t ∧ t.Tree (t.Keeps Atom.Readable) w d := by
  obtain ⟨names, result⟩ := s.read_of_form form
  exact ⟨_, _, result, ((s.internAll_grows names).trans (load_grows _ d)).toExtends,
    load_tree _ (fun _ readable => readable.literal) (read_readable form)⟩

/-- What is read and is not `eof` is the first form of the text. -/
theorem form_of_read {v : Value F} {t : Store F} (found : s.read text = (.ok v, t))
    (whole : v ≠ .eof) : ∃ d, (Stack.first [] (scan text).tokens).form = some d := by
  cases form : (Stack.first [] (scan text).tokens).form with
  | some d => exact ⟨d, rfl⟩
  | none =>
      simp only [Store.read, loadReading, SmallLisp.read, Scan.read, Scan.atEnd, form] at found
      cases ending : (scan text).ending with
      | openString => simp [ending] at found
      | complete =>
          simp only [ending, load, loadAtom, Prod.mk.injEq, Except.ok.injEq] at found
          exact absurd found.1.symm whole

theorem readMany_of_denotes (s : Store F) (denotes : Denotes text d) :
    ∃ w t, s.readMany text = (.ok [w], t) := by
  obtain ⟨forms, left⟩ := Stack.all_tokens denotes.leaves
  rw [← denotes.tokens] at forms left
  simp [Store.readMany, loadReading, SmallLisp.readMany, Scan.readMany, Scan.atEnd, denotes.ending,
    forms, left, loadAll]

end Store

theorem Atom.Written.ne_dot {a : Atom} (written : a.Written) : a ≠ .symbol "." := by
  rintro rfl
  exact written.1.notDot rfl

/-- Printing a value at any margin is undone by reading. -/
theorem Store.read_pretty [DecidableEq F] (s : Store F) (margin : Layout.Margin) {v : Value F}
    {d : Datum} (tree : s.Tree (s.Keeps Atom.Written) v d) :
    s.datum? v = some d ∧
      (∃ w t, s.read (d.pretty margin) = (.ok w, t) ∧ t.equal? v w = some true) ∧
      (∃ w t, s.readMany (d.pretty margin) = (.ok [w], t)) ∧
      balance (d.pretty margin) = .balanced := by
  have readable : s.Tree (s.Keeps Atom.Readable) v d := tree.weaken fun _ written => .inl written
  have denotes := denotes_pretty margin readable.leaves
  refine ⟨tree.shows.datum?, ?_, s.readMany_of_denotes denotes, denotes.balanced⟩
  obtain ⟨w, t, result, grown, back⟩ := s.read_tree denotes.first.1
  have kept : d.noLaterDot = true :=
    Datum.noLaterDot_of_leaves (tree.leaves.mono fun _ written => written.ne_dot)
  rw [Datum.reread_of_noLaterDot kept] at back
  exact ⟨w, t, result, (readable.extend grown).equal? back⟩

/-- A store with the list `'(a b . -0.5)`. -/
def quotedStore : Store Empty where
  pairs := #[⟨.symbol (.interned 2), .number (-0.5)⟩, ⟨.symbol (.interned 1), .pair 0⟩,
    ⟨.pair 1, .nil⟩, ⟨.symbol (.interned 0), .pair 2⟩]
  interned := #[⟨"quote", .nil⟩, ⟨"a", .nil⟩, ⟨"b", .nil⟩]
  loose := #[]
  dictionaries := #[]

/-- At three columns the quoted list is broken, and is read back all the same. -/
theorem Store.read_pretty_quoted :
    ∃ d, quotedStore.Tree (quotedStore.Keeps Atom.Written) (.pair 3) d ∧
      d.pretty (.columns 3) = "'(a\n  b . -0.5)" ∧
      ∃ w t, quotedStore.read (d.pretty (.columns 3)) = (.ok w, t) ∧
        t.equal? (.pair 3) w = some true := by
  have symbol : ∀ i name, quotedStore.lookup? name = some (.symbol (.interned i)) → IsName name →
      quotedStore.Tree (quotedStore.Keeps Atom.Written) (.symbol (.interned i)) (.symbol name) := by
    intro i name found isName
    refine .leaf ⟨Store.leaf?_of_lookup? found, isName, fun other same => ?_⟩
    cases same
    exact found
  have quote := symbol 0 "quote" (by decide +kernel) ⟨by decide, by decide⟩
  have a := symbol 1 "a" (by decide +kernel) ⟨by decide, by decide⟩
  have b := symbol 2 "b" (by decide +kernel) ⟨by decide, by decide⟩
  have half : (Atom.number (-0.5)).Written := by
    show Float.isFinite (-0.5) = true
    decide +kernel
  have tail : quotedStore.Tree (quotedStore.Keeps Atom.Written) (.pair 0) _ :=
    .pair rfl b (.leaf ⟨rfl, half, nofun⟩)
  have whole : quotedStore.Tree (quotedStore.Keeps Atom.Written) (.pair 3) _ :=
    .pair rfl quote (.pair rfl (.pair rfl a tail) (.leaf ⟨rfl, trivial, nofun⟩))
  exact ⟨_, whole, by decide +kernel, (Store.read_pretty quotedStore (.columns 3) whole).2.1⟩

/-! ### Trees that came out of a text -/

/-- A value that was read is printed on one line as a text that can be read again, and that gives an
    equal value exactly when no list of it has the symbol `.` after its first element. -/
theorem Store.read_flat_iff [DecidableEq F] {s t : Store F} {text : String} {v : Value F}
    (found : s.read text = (.ok v, t)) (whole : v ≠ .eof) :
    ∃ d, t.datum? v = some d ∧
      ∃ w u, t.read d.flat = (.ok w, u) ∧ (u.equal? v w = some true ↔ d.noLaterDot = true) := by
  obtain ⟨d, form⟩ := Store.form_of_read found whole
  obtain ⟨_, _, result, -, tree⟩ := s.read_tree form
  obtain ⟨rfl, rfl⟩ : _ ∧ _ := by simpa [found] using result
  obtain ⟨w, u, again, grown, back⟩ := t.read_tree (denotes_pretty .unbounded tree.leaves).first.1
  refine ⟨d, tree.shows.datum?, w, u, again, fun equal => ?_, fun kept => ?_⟩
  · cases kept : d.noLaterDot with
    | true => rfl
    | false =>
        have fewer := Datum.pairs_reread_lt kept
        have same := (tree.extend grown).shows.pairs_eq back.shows equal
        omega
  · rw [Datum.reread_of_noLaterDot kept] at back
    exact (tree.extend grown).equal? back

/-- A dot that leads its list comes back. -/
theorem Store.read_flat_iff_leading_dot :
    ∃ (v : Value Empty) (t : Store Empty),
      (Store.empty : Store Empty).read "(. 'a)" = (.ok v, t) ∧ v ≠ .eof ∧
      ∃ d, t.datum? v = some d ∧
        ∃ w u, t.read d.flat = (.ok w, u) ∧ (u.equal? v w = some true ↔ d.noLaterDot = true) := by
  have found : (Store.empty : Store Empty).read "(. 'a)" =
      (.ok (.pair 3), ((Store.empty : Store Empty).read "(. 'a)").2) :=
    Prod.ext (by decide +kernel) rfl
  exact ⟨_, _, found, by decide, Store.read_flat_iff found (by decide)⟩

/-- The list of `a`, `.` and `b` is printed as the pair of `a` and `b`. -/
theorem Store.later_dot_not_read_back :
    ∃ (v : Value Empty) (t : Store Empty) (d : Datum),
      (Store.empty : Store Empty).read "(a . (. b))" = (.ok v, t) ∧ v ≠ .eof ∧
      t.datum? v = some d ∧
      ∃ w u, t.read d.flat = (.ok w, u) ∧ u.equal? v w = some false := by
  refine ⟨.pair 2, ((Store.empty : Store Empty).read "(a . (. b))").2,
    .list [.symbol "a", .symbol ".", .symbol "b"], Prod.ext ?_ rfl, by decide, ?_, .pair 3, _,
    Prod.ext ?_ rfl, ?_⟩
  all_goals decide +kernel

end SmallLisp
