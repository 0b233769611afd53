import SmallLisp.Proofs.Evaluation.Bonds
import SmallLisp.Proofs.Evaluation.Forms

/-! # Evaluation in copies of a store

Evaluation does the same in two stores that are copies of each other, and comes to an end in both or in
none. Pairs that are set aside, for forms that wait for their turn, belong to no bond until they are
released.
-/

namespace SmallLisp

variable {F σ : Type}

namespace Store

/-- The same literal is a copy of itself. -/
theorem Copies.leaf {free free' : Nat → Prop} {w : Bond} {s t : Store F} {a b : Value F} {x : Atom}
    (copies : s.Copies free free' w t) (left : s.Keeps Atom.Literal a x) (right : t.Keeps Atom.Literal b x) :
    w.Agree a b := by
  cases x with
  | symbol name =>
      have found := left.interned name rfl
      have found' := right.interned name rfl
      rw [lookup?_eq_names] at found found'
      obtain ⟨i, first, rfl⟩ := Option.map_eq_some_iff.mp found'
      obtain ⟨more, names⟩ := copies.names
      rw [← names, List.findIdx?_append, first] at found
      cases found
      have inside := (List.findIdx?_eq_some_iff_getElem.mp first).1
      exact .solid (Nat.lt_of_lt_of_eq inside copies.known)
  | nil | bool | number | string =>
      rw [left.eq_loadAtom, right.eq_loadAtom]
      exact .solid trivial
  | native | dictionary | eof => cases left.property

/-- The pair is none of those from `lo` up to `hi`. -/
def Beyond (lo hi p : Nat) : Prop :=
  p < lo ∨ hi ≤ p

theorem not_beyond_self {p hi : Nat} (lt : p < hi) : ¬ Beyond p hi p := by
  rw [Beyond]
  omega

theorem beyond_succ {p hi x : Nat} (free : Beyond p hi x ∨ x = p) : Beyond (p + 1) hi x := by
  rw [Beyond] at free ⊢
  omega

/-- A form at the front of what was set aside is released on both sides. The induction follows the order
    in which the pairs of a form are laid out: when a pair is tied, its halves are. -/
theorem Laid.release {s t : Store F} {w : Bond} {lo hi lo' hi' stop stop' : Nat} {v v' : Value F}
    {d : Datum} (laid : s.Laid lo v d hi) (laid' : t.Laid lo' v' d hi')
    (copies : s.Copies (Beyond lo stop) (Beyond lo' stop') w t) (fits : hi ≤ stop) (fits' : hi' ≤ stop') :
    ∃ u, w.Le u ∧ s.Copies (Beyond hi stop) (Beyond hi' stop') u t ∧ u.Agree v v' := by
  induction laid generalizing w v' lo' hi' with
  | leaf kept =>
      cases laid' with
      | leaf kept' => exact ⟨w, .refl w, copies, copies.leaf kept kept'⟩
  | @pair lo mid p car cdr a b first second found carReleased cdrReleased =>
      cases laid' with
      | @pair _ mid' p' car' cdr' _ _ first' second' found' =>
          have upTo := second.le
          have upTo' := second'.le
          obtain ⟨x, leCar, copies, car⟩ := carReleased first' copies (by omega) (by omega)
          obtain ⟨y, leCdr, copies, cdr⟩ := cdrReleased second' copies (by omega) (by omega)
          have car : y.Agree (s.car (.pair p)) (t.car (.pair p')) := by
            rw [car_of_found found, car_of_found found']
            exact car.mono leCdr
          have cdr : y.Agree (s.cdr (.pair p)) (t.cdr (.pair p')) := by
            rw [cdr_of_found found, cdr_of_found found']
            exact cdr
          have tied := copies.tie (not_beyond_self fits) (not_beyond_self fits')
            (Array.getElem?_eq_some_iff.mp found).1 (Array.getElem?_eq_some_iff.mp found').1 car cdr
          exact ⟨_, leCar.trans (leCdr.trans (Bond.tie_le _)),
            tied.imp (fun _ => beyond_succ) fun _ => beyond_succ, .pair (.inr ⟨rfl, rfl⟩)⟩

end Store

namespace Sides

variable (F σ) in
/-- Machines whose stores are copies of each other. Nothing is said of their hosts. -/
def copies (free free' : Nat → Prop) : Sides F σ where
  World := Bond
  le := Bond.Le
  Fits w m n := m.store.Copies free free' w n.store
  Agree := Bond.Agree
  Env := Bond.Agree

variable {free free' : Nat → Prop} [DecidableEq F]

theorem copies_lawful : (copies F σ free free').Lawful where
  refl := Bond.Le.refl
  trans := Bond.Le.trans
  agree_mono le agree := agree.mono le
  alike := Bond.Agree.alike
  same := Bond.Agree.same
  nil _ := .solid trivial
  bool _ _ := .solid trivial
  number _ _ := .solid trivial
  lambda w := .solid (Nat.lt_of_lt_of_le (by decide : Special.lambda.index < Special.all.length) w.special)
  car fits := fits.car
  cdr fits := fits.cdr
  get fits := fits.get
  listing fits := fits.listing
  cons fits := fits.cons
  setCdr {w} _ _ _ _ _ _ fits first second := ⟨w, .refl w, fits.setCdr first second, trivial⟩
  put {w} _ _ _ _ _ _ _ _ fits target key value := ⟨w, .refl w, fits.put target key value, trivial⟩
  clear {w} _ _ _ _ fits target := ⟨w, .refl w, fits.clear target, trivial⟩
  makeDictionary {w} _ _ fits := ⟨w, .refl w, fits.makeDictionary⟩

theorem copies_lawfulEnv : (copies F σ free free').LawfulEnv :=
  copies_lawful.withSlots rfl (fun fits => fits.symbolValue) fun {w} _ _ _ _ _ _ fits first second =>
    ⟨w, .refl w, fits.setSymbolValue first second, trivial⟩

/-- A line is made of copies of values, or none is. -/
theorem copies_lineOf {w : Bond} {a b : Value F} (agree : w.Agree a b) (margin margin' : Layout.Margin) :
    (copies F σ free free').Both w (Console.lineOf margin a) (Console.lineOf margin' b)
      fun _ _ _ => True := by
  have lawful : (copies F σ free free').Lawful := copies_lawful
  have pretty {w : Bond} {a b : Value F} (agree : w.Agree a b) :
      (copies F σ free free').Both w (Action.pretty margin a) (Action.pretty margin' b)
        fun _ _ _ => True := by
    apply Both.walkThen (fun _ _ => True) fun m n fits => Store.Copies.datum? fits agree
    intro _ _ _
    exact lawful.pure trivial
  apply Both.walkThen (List.Forall₂ ((copies F σ free free').Agree w)) fun m n fits =>
    lawful.elements fits agree
  intro values values' each
  apply lawful.andThen (lawful.mapM pretty each)
  intro later _ _ _ _
  exact lawful.pure trivial

theorem copies_hostBoth : (copies ConsoleFunction Console free free').HostBoth Console.host := by
  intro calls _ w function a b e f agree _
  cases function with
  | print =>
      have printed (margin margin' : Layout.Margin) : (copies ConsoleFunction Console free free').Both w
          (do
            let line ← Console.lineOf margin a
            Action.onHost fun c => (.nil, c.printLine line))
          (do
            let line ← Console.lineOf margin' b
            Action.onHost fun c => (.nil, c.printLine line))
          (copies ConsoleFunction Console free free').Agree := by
        apply copies_lawful.andThen (copies_lineOf agree margin margin')
        intro later _ _ _ _ m n fits
        exact .some ⟨later, .refl later, fits, .solid trivial⟩
      intro m n fits
      exact printed m.host.margin n.host.margin m n fits

end Sides

namespace Store

variable {s : Store F}

/-- Each pair is its own copy. -/
def bond (s : Store F) (special : Special.all.length ≤ s.names.length) : Bond where
  ties p q := p = q ∧ p < s.pairs.size
  known := s.names.length
  unique := by
    rintro p _ q _ ⟨rfl, -⟩ ⟨rfl, -⟩
    exact Iff.rfl
  special := special

theorem Grounded.copies (grounded : s.Grounded) (special : Special.all.length ≤ s.names.length) :
    s.Copies (fun _ => True) (fun _ => True) (s.bond special) s := by
  have agree {v : Value F} (has : s.Has v) : (s.bond special).Agree v v := by
    cases v with
    | pair p => exact .pair ⟨rfl, has⟩
    | symbol id =>
        cases id with
        | interned i => exact .solid has
        | loose i => exact .solid trivial
    | _ => exact .solid trivial
  refine ⟨fun _ _ => trivial, fun _ _ => trivial, ?_, ?_, ?_, ?_, List.prefix_refl _, rfl, rfl,
    fun v => ?_, rfl, fun d => rel_self fun table found => ?_, rfl⟩
  · rintro p _ ⟨rfl, inside⟩
    exact ⟨inside, trivial⟩
  · rintro p _ ⟨rfl, inside⟩
    exact ⟨inside, trivial⟩
  · rintro p _ ⟨rfl, inside⟩
    exact agree (grounded.pairs p _ (found_of_lt inside)).1
  · rintro p _ ⟨rfl, inside⟩
    exact agree (grounded.pairs p _ (found_of_lt inside)).2
  · cases v with
    | symbol id =>
        cases found : s.symbol? id with
        | none =>
            simp only [Store.symbolValue, found]
            exact .solid trivial
        | some symbol =>
            simp only [Store.symbolValue, found]
            exact agree (grounded.slots id symbol found)
    | _ => exact .solid trivial
  · refine ⟨List.forall₂_same.mpr fun e entered => ?_, rfl, rfl⟩
    obtain ⟨key, value⟩ := grounded.entries d e (mem_entries_dictionary.mpr ⟨table, found, entered⟩)
    exact ⟨agree key, agree value⟩

end Store

end SmallLisp
