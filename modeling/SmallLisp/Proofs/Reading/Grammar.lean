import SmallLisp.Proofs.Reading.Loading
import SmallLisp.Proofs.Store.Tree

/-! # The grammar of data

The reader goes through tokens with a stack. What it accepts is a grammar with three phrases: a
datum, the elements of a list up to its dot or its end, and the tail after a dot together with the
data that are dropped behind it. The same token means different things in different places, so the
grammar restricts the first token of a datum by the place where the datum stands: a closing
parenthesis is a datum only outside lists and after a sigil, and a dot is none where it asks for a
tail.
-/

namespace SmallLisp

/-- A part of a text that stands for something. -/
inductive Phrase where
  | datum (d : Datum)
  /-- The elements of a list, one at least. -/
  | items (ds : List Datum)
  /-- The tail of a list, and data after it that are dropped. -/
  | tail (d : Datum)

/-- The tokens are a phrase. -/
inductive Derives : List Token → Phrase → Prop where
  | number (x : Float) : Derives [.number x] (.datum (.atom (.number x)))
  | string (text : String) : Derives [.string text] (.datum (.atom (.string text)))
  | symbol (name : String) : Derives [.symbol name] (.datum (.ofName name))
  | dot : Derives [.dot] (.datum (.symbol "."))
  | close : Derives [.rightParen] (.datum .nil)
  | sigil (s : Sigil) {tokens : List Token} {d : Datum} : Derives tokens (.datum d) →
      Derives (.sigil s :: tokens) (.datum (.marked s d))
  | empty : Derives [.leftParen, .rightParen] (.datum .nil)
  | list {tokens : List Token} {ds : List Datum} : Derives tokens (.items ds) →
      Derives (.leftParen :: (tokens ++ [.rightParen])) (.datum (.list ds))
  | noTail {tokens : List Token} {ds : List Datum} : Derives tokens (.items ds) →
      Derives (.leftParen :: (tokens ++ [.dot, .rightParen])) (.datum (.listWithTail ds .nil))
  | dotted {tokens others : List Token} {ds : List Datum} {d : Datum} :
      Derives tokens (.items ds) → Derives others (.tail d) →
      Derives (.leftParen :: (tokens ++ .dot :: (others ++ [.rightParen])))
        (.datum (.listWithTail ds d))
  | first {tokens : List Token} {d : Datum} : Derives tokens (.datum d) →
      tokens.head? ≠ some .rightParen → Derives tokens (.items [d])
  | item {tokens others : List Token} {ds : List Datum} {d : Datum} :
      Derives tokens (.items ds) → Derives others (.datum d) →
      others.head? ≠ some .rightParen → others.head? ≠ some .dot →
      Derives (tokens ++ others) (.items (ds ++ [d]))
  | tail {tokens : List Token} {d : Datum} : Derives tokens (.datum d) →
      tokens.head? ≠ some .rightParen → Derives tokens (.tail d)
  | extra {tokens others : List Token} {d e : Datum} : Derives tokens (.tail d) →
      Derives others (.datum e) → others.head? ≠ some .rightParen →
      Derives (tokens ++ others) (.tail d)

variable {tokens others : List Token} {d e : Datum}

theorem Derives.nonempty {phrase : Phrase} (derives : Derives tokens phrase) : tokens ≠ [] := by
  induction derives with
  | first _ _ ih | tail _ _ ih => exact ih
  | item _ _ _ _ ih | extra _ _ _ ih => exact List.append_ne_nil_of_left_ne_nil ih _
  | _ => exact List.cons_ne_nil _ _

theorem Derives.items_ne_nil {ds : List Datum} (derives : Derives tokens (.items ds)) : ds ≠ [] := by
  cases derives with
  | first => exact List.cons_ne_nil _ _
  | item => exact List.append_ne_nil_of_right_ne_nil _ (List.cons_ne_nil _ _)

namespace Stack

/-- The tokens of a datum keep their meaning as data on top of this stack. -/
def Fits (tokens : List Token) : Stack → Prop
  | [] | .marked _ :: _ => True
  | .items [] :: _ | .dotted _ :: _ | .closing _ _ :: _ => tokens.head? ≠ some .rightParen
  | .items (_ :: _) :: _ => tokens.head? ≠ some .rightParen ∧ tokens.head? ≠ some .dot

theorem fits_of_head {t : Token} (close : t ≠ .rightParen) (dot : t ≠ .dot) (stack : Stack) :
    Fits (t :: tokens) stack := by
  cases stack with
  | nil => trivial
  | cons frame outer =>
      cases frame with
      | items done => cases done <;> simp [Fits, close, dot]
      | dotted | closing => simp [Fits, close]
      | marked => trivial

/-- The stack takes the tokens of a phrase as what they stand for. -/
def TakesPhrase (tokens : List Token) : Phrase → Prop
  | .datum d => ∀ stack, Fits tokens stack → Takes stack tokens (accept d stack)
  | .items ds => ∀ outer, Takes (.items [] :: outer) tokens ⟨.items ds.reverse :: outer, none, []⟩
  | .tail d => ∀ done outer,
      Takes (.dotted done :: outer) tokens ⟨.closing done d :: outer, none, []⟩

theorem asksTail_of_fits {stack : Stack} (fits : Fits [.dot] stack) : asksTail stack = false := by
  cases stack with
  | nil => rfl
  | cons frame outer =>
      cases frame with
      | items done =>
          cases done with
          | nil => rfl
          | cons d done => exact absurd rfl fits.2
      | dotted | closing | marked => rfl

theorem takes_close {stack : Stack} (fits : Fits [.rightParen] stack) :
    Takes stack [.rightParen] (accept .nil stack) := by
  cases stack with
  | nil => exact takes_next [] .rightParen
  | cons frame outer =>
      cases frame with
      | items done =>
          cases done with
          | nil => exact absurd rfl fits
          | cons d done => exact absurd rfl fits.1
      | dotted | closing => exact absurd rfl fits
      | marked s => exact takes_next (.marked s :: outer) .rightParen

theorem takes_of_derives {phrase : Phrase} (derives : Derives tokens phrase) :
    TakesPhrase tokens phrase := by
  induction derives with
  | number x =>
      intro stack _
      exact takes_next stack (.number x)
  | string text =>
      intro stack _
      exact takes_next stack (.string text)
  | symbol name =>
      intro stack _
      exact takes_next stack (.symbol name)
  | dot =>
      intro stack fits
      exact takes_dot (asksTail_of_fits fits)
  | close =>
      intro stack fits
      exact takes_close fits
  | sigil s _ ih =>
      intro stack _
      exact Takes.cons rfl (ih (.marked s :: stack) trivial)
  | empty =>
      intro stack _
      exact Takes.cons rfl (takes_next (.items [] :: stack) .rightParen)
  | @list tokens ds _ ih =>
      intro stack _
      have closed := takes_next (.items ds.reverse :: stack) .rightParen
      simp only [next, close, List.reverse_reverse] at closed
      exact Takes.cons rfl ((ih stack).append closed)
  | @noTail tokens ds items ih =>
      intro stack _
      obtain ⟨d, done, same⟩ := List.exists_cons_of_ne_nil
        (List.reverse_ne_nil_iff.mpr items.items_ne_nil)
      have closed := takes_next (.dotted ds.reverse :: stack) .rightParen
      simp only [next, close, List.reverse_reverse] at closed
      have asked : Takes (.items ds.reverse :: stack) [.dot, .rightParen]
          (accept (.list ds) stack) := by
        rw [same] at closed ⊢
        exact Takes.cons rfl closed
      exact Takes.cons rfl ((ih stack).append asked)
  | @dotted tokens others ds d items _ onItems onTail =>
      intro stack _
      obtain ⟨e, done, same⟩ := List.exists_cons_of_ne_nil
        (List.reverse_ne_nil_iff.mpr items.items_ne_nil)
      have closed := takes_next (.closing ds.reverse d :: stack) .rightParen
      simp only [next, close, List.reverse_reverse] at closed
      have asked : Takes (.items ds.reverse :: stack) (.dot :: (others ++ [.rightParen]))
          (accept (.listWithTail ds d) stack) := by
        have later := (onTail ds.reverse stack).append closed
        rw [same] at later ⊢
        exact Takes.cons rfl later
      exact Takes.cons rfl ((onItems stack).append asked)
  | first _ notClose ih =>
      intro outer
      exact ih (.items [] :: outer) notClose
  | @item tokens others ds d items _ notClose notDot onItems onDatum =>
      intro outer
      obtain ⟨e, done, same⟩ := List.exists_cons_of_ne_nil
        (List.reverse_ne_nil_iff.mpr items.items_ne_nil)
      have here := onDatum (.items ds.reverse :: outer) (by rw [same]; exact ⟨notClose, notDot⟩)
      rw [List.reverse_append]
      exact (onItems outer).append here
  | tail _ notClose ih =>
      intro done outer
      exact ih (.dotted done :: outer) notClose
  | @extra tokens others d e _ _ notClose onTail onDatum =>
      intro done outer
      exact (onTail done outer).append (onDatum (.closing done d :: outer) notClose)

theorem first_append (stack : Stack) (others : List Token) (found : (first stack tokens).form = some d) :
    (first stack (tokens ++ others)).form = some d ∧
      (first stack (tokens ++ others)).rest = (first stack tokens).rest ++ others := by
  induction tokens generalizing stack with
  | nil => cases found
  | cons t tokens ih =>
      rw [List.cons_append]
      cases complete : (next stack t).form with
      | some e =>
          rw [first_cons_of_form _ complete] at found ⊢
          rw [first_cons_of_form _ complete]
          exact ⟨found, rfl⟩
      | none =>
          rw [first_cons_of_none _ complete] at found ⊢
          rw [first_cons_of_none _ complete]
          exact ih _ found

/-- A datum at the front of the tokens is the first form, and takes no more than its own tokens. -/
theorem first_of_derives (derives : Derives tokens (.datum d)) (others : List Token) :
    (first [] (tokens ++ others)).form = some d ∧ (first [] (tokens ++ others)).rest = others := by
  obtain ⟨forms, left⟩ := takes_of_derives derives [] trivial []
  rw [List.append_nil] at forms left
  obtain ⟨form, rest⟩ := first_of_all forms left
  have longer := first_append [] others form
  rw [rest] at longer
  exact longer

end Stack

/-! ### What is taken is a phrase -/

/-- The tokens that an unfinished datum has taken. -/
inductive Frame.Holds : Frame → List Token → Prop where
  | opened : Holds (.items []) [.leftParen]
  | items {done : List Datum} {tokens : List Token} : Derives tokens (.items done.reverse) →
      Holds (.items done) (.leftParen :: tokens)
  | dotted {done : List Datum} {tokens : List Token} : Derives tokens (.items done.reverse) →
      Holds (.dotted done) (.leftParen :: (tokens ++ [.dot]))
  | closing {done : List Datum} {d : Datum} {tokens others : List Token} :
      Derives tokens (.items done.reverse) → Derives others (.tail d) →
      Holds (.closing done d) (.leftParen :: (tokens ++ .dot :: others))
  | marked (s : Sigil) : Holds (.marked s) [.sigil s]

/-- The tokens that all unfinished data have taken, the outermost first. -/
inductive Stack.Holds : Stack → List Token → Prop where
  | nil : Holds [] []
  | cons {frame : Frame} {outer : Stack} {tokens before : List Token} : frame.Holds tokens →
      Holds outer before → Holds (frame :: outer) (before ++ tokens)

/-- The tokens that a step has taken: all of a form, or those of the unfinished data. -/
structure Progress.Holds (step : Progress) (tokens : List Token) : Prop where
  stack : step.form = none → Stack.Holds step.stack tokens
  form : ∀ d, step.form = some d → Derives tokens (.datum d)

namespace Stack

variable {stack : Stack} {before : List Token}

theorem accept_holds (holds : Holds stack before) (derives : Derives tokens (.datum d))
    (fits : Fits tokens stack) : (accept d stack).Holds (before ++ tokens) := by
  induction stack generalizing d tokens before with
  | nil =>
      cases holds
      refine ⟨nofun, fun e same => ?_⟩
      cases same
      exact derives
  | cons frame outer ih =>
      cases holds with
      | @cons _ _ own before top others =>
          rw [List.append_assoc]
          cases top with
          | opened => exact ⟨fun _ => .cons (.items (derives.first fits)) others, nofun⟩
          | @items done inner items =>
              have more : Derives (inner ++ tokens) (.items (d :: done).reverse) := by
                cases done with
                | nil => exact absurd rfl items.items_ne_nil
                | cons e done =>
                    rw [List.reverse_cons]
                    exact items.item derives fits.1 fits.2
              exact ⟨fun _ => .cons (.items more) others, nofun⟩
          | dotted items =>
              rw [List.cons_append, List.append_assoc]
              exact ⟨fun _ => .cons (.closing items (derives.tail fits)) others, nofun⟩
          | closing items tail =>
              rw [List.cons_append, List.append_assoc]
              exact ⟨fun _ => .cons (.closing items (tail.extra derives fits)) others, nofun⟩
          | marked s =>
              have inner := ih others (derives.sigil s) (fits_of_head (by simp) (by simp) outer)
              exact ⟨inner.stack, inner.form⟩

theorem close_holds (holds : Holds stack before) : (close stack).Holds (before ++ [.rightParen]) := by
  cases holds with
  | nil => exact accept_holds .nil .close trivial
  | @cons frame outer own before top others =>
      have list : ∀ {inner d}, Derives (.leftParen :: inner) (.datum d) →
          (accept d outer).Holds (before ++ (.leftParen :: inner)) :=
        fun derives => accept_holds others derives (fits_of_head (by simp) (by simp) outer)
      rw [List.append_assoc]
      cases top with
      | opened => exact list .empty
      | items items => exact list items.list
      | dotted items =>
          rw [List.cons_append, List.append_assoc]
          exact list items.noTail
      | closing items tail =>
          rw [List.cons_append, List.append_assoc]
          exact list (items.dotted tail)
      | marked s =>
          rw [← List.append_assoc]
          exact accept_holds (.cons (.marked s) others) .close trivial

theorem fits_dot (other : ∀ d done outer, stack = .items (d :: done) :: outer → False) :
    Fits [.dot] stack := by
  cases stack with
  | nil => trivial
  | cons frame outer =>
      cases frame with
      | items done =>
          cases done with
          | nil => simp [Fits]
          | cons d done => cases other d done outer rfl
      | dotted | closing => simp [Fits]
      | marked => trivial

theorem dot_holds (holds : Holds stack before) : (dot stack).Holds (before ++ [.dot]) := by
  unfold dot
  split
  · next d done outer =>
      cases holds with
      | cons top others =>
          rw [List.append_assoc]
          cases top with
          | items items => exact ⟨fun _ => .cons (.dotted items) others, nofun⟩
  · next other =>
      have inner := accept_holds holds .dot (fits_dot other)
      exact ⟨inner.stack, inner.form⟩

theorem next_holds (t : Token) (holds : Holds stack before) :
    (next stack t).Holds (before ++ [t]) := by
  have atom : ∀ {d}, Derives [t] (.datum d) → t ≠ .rightParen → t ≠ .dot →
      (acceptAtom stack d).Holds (before ++ [t]) := by
    intro d derives notClose notDot
    have inner := accept_holds holds derives (fits_of_head notClose notDot stack)
    exact ⟨inner.stack, inner.form⟩
  cases t with
  | sigil s => exact ⟨fun _ => .cons (.marked s) holds, nofun⟩
  | leftParen => exact ⟨fun _ => .cons .opened holds, nofun⟩
  | rightParen => exact close_holds holds
  | dot => exact dot_holds holds
  | number x => exact atom (.number x) nofun nofun
  | symbol name => exact atom (.symbol name) nofun nofun
  | string text => exact atom (.string text) nofun nofun

/-- The tokens up to the end of the first form are a datum. -/
theorem derives_of_first (holds : Holds stack before) (found : (first stack tokens).form = some d) :
    ∃ taken, tokens = taken ++ (first stack tokens).rest ∧ Derives (before ++ taken) (.datum d) := by
  induction tokens generalizing stack before with
  | nil => cases found
  | cons t tokens ih =>
      have step := next_holds t holds
      cases complete : (next stack t).form with
      | some e =>
          rw [first_cons_of_form _ complete] at found ⊢
          exact ⟨[t], rfl, step.form d (complete.trans found)⟩
      | none =>
          rw [first_cons_of_none _ complete] at found ⊢
          obtain ⟨taken, split, derives⟩ := ih (step.stack complete) found
          refine ⟨t :: taken, congrArg (t :: ·) split, ?_⟩
          rw [List.append_assoc] at derives
          exact derives

end Stack

/-! ### The reader and the grammar -/

/-- The tokens after the first form of a scanned text. -/
def Scan.unread (s : Scan) : List Token := (Stack.first [] s.tokens).rest

/-- A datum at the front of the tokens is the only one there. -/
theorem Derives.unique {stream : List Token} (first : Derives tokens (.datum d))
    (second : Derives others (.datum e)) (front : tokens <+: stream) (also : others <+: stream) :
    tokens = others ∧ d = e := by
  obtain ⟨rest, rfl⟩ := front
  obtain ⟨left, same⟩ := also
  have here := Stack.first_of_derives first rest
  have there := Stack.first_of_derives second left
  rw [same] at there
  obtain ⟨form, unread⟩ := here
  rw [form, unread] at there
  obtain ⟨found, rfl⟩ := there
  exact ⟨(List.append_cancel_right same).symm, Option.some.inj found⟩

namespace Store

variable {F : Type}

theorem loadReading_of_form (store : Store F) {s : Scan}
    (form : (Stack.first [] s.tokens).form = some d) :
    ∃ v t, store.loadReading load s.read = (.ok v, t) ∧ v ≠ .eof ∧
      t.Tree (t.Keeps Atom.Literal) v d := by
  have loaded : store.loadReading load s.read =
      (.ok ((store.internAll (Stack.first [] s.tokens).names).load d).1,
        ((store.internAll (Stack.first [] s.tokens).names).load d).2) := by
    simp only [loadReading, Scan.read, form]
  refine ⟨_, _, loaded, ?_, load_tree _ (fun _ literal => literal) (Stack.first_literal form)⟩
  exact mt load_eq_eof.mp (Stack.first_form_ne_eof form)

theorem loadReading_of_none (store : Store F) {s : Scan}
    (unfinished : (Stack.first [] s.tokens).form = none) :
    (store.loadReading load s.read).1 =
      match s.ending with
      | .complete => .ok .eof
      | .openString => .error (.unterminatedString s.stop) := by
  simp only [loadReading, Scan.read, unfinished, Scan.atEnd]
  cases s.ending with
  | complete => rfl
  | openString => rfl

/-- Reading the first datum of a scanned text into a store accepts exactly the grammar. The value that
    is read after some tokens is the tree of a datum, with its symbols in the table, exactly when
    these tokens are at the front of the text and derive the datum. There is one such front at most,
    and it is not empty. Where there is none, the end of the text decides between `eof` and the
    error. -/
theorem read_iff_derives (store : Store F) (s : Scan) :
    (∀ taken d,
      (∃ v t, store.loadReading load s.read = (.ok v, t) ∧ v ≠ .eof ∧
          s.tokens = taken ++ s.unread ∧ t.Tree (t.Keeps Atom.Literal) v d) ↔
        taken <+: s.tokens ∧ Derives taken (.datum d)) ∧
      (∀ taken other d e, taken <+: s.tokens → other <+: s.tokens → Derives taken (.datum d) →
        Derives other (.datum e) → taken = other ∧ d = e ∧ taken ≠ []) ∧
      ((∀ taken d, taken <+: s.tokens → ¬ Derives taken (.datum d)) →
        (store.loadReading load s.read).1 =
          match s.ending with
          | .complete => .ok .eof
          | .openString => .error (.unterminatedString s.stop)) := by
  refine ⟨fun taken d => ⟨?_, ?_⟩, ?_, ?_⟩
  · rintro ⟨v, t, result, whole, consumed, tree⟩
    cases form : (Stack.first [] s.tokens).form with
    | none =>
        have ended := store.loadReading_of_none form
        rw [result] at ended
        cases ending : s.ending with
        | complete =>
            rw [ending] at ended
            cases ended
            exact absurd rfl whole
        | openString =>
            rw [ending] at ended
            cases ended
    | some e =>
        obtain ⟨w, u, again, -, other⟩ := store.loadReading_of_form form
        rw [result] at again
        cases again
        obtain rfl := tree.shows.unique other.shows
        obtain ⟨own, split, derives⟩ := Stack.derives_of_first .nil form
        have same : taken = own := List.append_cancel_right (consumed.symm.trans split)
        subst same
        exact ⟨⟨_, consumed.symm⟩, derives⟩
  · rintro ⟨⟨rest, split⟩, derives⟩
    obtain ⟨form, unread⟩ := Stack.first_of_derives derives rest
    rw [split] at form unread
    obtain ⟨v, t, result, whole, tree⟩ := store.loadReading_of_form form
    refine ⟨v, t, result, whole, ?_, tree⟩
    rw [Scan.unread, unread, split]
  · intro taken other d e front also first second
    obtain ⟨same, datum⟩ := first.unique second front also
    exact ⟨same, datum, first.nonempty⟩
  · intro nothing
    cases form : (Stack.first [] s.tokens).form with
    | none => exact store.loadReading_of_none form
    | some d =>
        obtain ⟨taken, split, derives⟩ := Stack.derives_of_first .nil form
        exact absurd derives (nothing taken d ⟨_, split.symm⟩)

/-- A datum between the tail of a list and its end is dropped, and the datum after the list is left
    alone. A list that ends in an open string is no datum at all. -/
theorem read_iff_derives_dropped :
    (∃ (v : Value Empty) (t : Store Empty),
      (empty : Store Empty).loadReading load (scan "(a . 'b c) d").read = (.ok v, t) ∧ v ≠ .eof ∧
        (scan "(a . 'b c) d").unread = [.symbol "d"] ∧
        t.Tree (t.Keeps Atom.Literal) v (.cons (.symbol "a") (.marked .quote (.symbol "b")))) ∧
      ((empty : Store Empty).loadReading load (scan "(a '\"b").read).1 =
        .error (.unterminatedString ⟨1, 5⟩) := by
  constructor
  · have items : Derives [.symbol "a"] (.items [.symbol "a"]) :=
      .first (.symbol "a") (by decide)
    have tail : Derives [.sigil .quote, .symbol "b", .symbol "c"]
        (.tail (.marked .quote (.symbol "b"))) :=
      .extra (.tail (.sigil .quote (.symbol "b")) (by decide)) (.symbol "c") (by decide)
    obtain ⟨v, t, result, whole, -, tree⟩ :=
      ((read_iff_derives empty (scan "(a . 'b c) d")).1 _ _).mpr
        ⟨⟨[.symbol "d"], by decide +kernel⟩, items.dotted tail⟩
    exact ⟨v, t, result, whole, by decide +kernel, tree⟩
  · refine ((read_iff_derives empty (scan "(a '\"b")).2.2 ?_).trans (by decide +kernel)
    rintro taken d ⟨rest, split⟩ derives
    have found := (Stack.first_of_derives derives rest).1
    have unfinished : (Stack.first [] (scan "(a '\"b").tokens).form = none := by decide +kernel
    rw [split, unfinished] at found
    cases found

end Store

end SmallLisp
