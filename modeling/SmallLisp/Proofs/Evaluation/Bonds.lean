import SmallLisp.Proofs.Evaluation.Apart
import SmallLisp.Proofs.Evaluation.Sides
import SmallLisp.Proofs.Store.Places
import SmallLisp.Proofs.Store.Tree

/-! # Copies of a store

Two stores hold the same objects, but their pairs stand in different places. A bond tells which pairs are
copies of each other. One of the stores may have entered symbols that the other one does not know yet;
nothing in it leads to them.
-/

namespace SmallLisp

variable {F σ : Type}

/-- Which pairs of two stores are copies of each other, and how many symbols both stores know. -/
structure Bond where
  ties : Nat → Nat → Prop
  known : Nat
  unique : ∀ {p q p' q' : Nat}, ties p q → ties p' q' → (p = p' ↔ q = q')
  special : Special.all.length ≤ known

namespace Bond

/-- The value is no pair, and no symbol that one of the stores does not know. -/
def Knows (w : Bond) : Value F → Prop
  | .pair _ => False
  | .symbol (.interned i) => i < w.known
  | _ => True

/-- The values are copies of each other. -/
inductive Agree (w : Bond) : Value F → Value F → Prop where
  | pair {p q : Nat} : w.ties p q → Agree w (.pair p) (.pair q)
  | solid {v : Value F} : w.Knows v → Agree w v v

/-- How a bond may grow. -/
structure Le (w u : Bond) : Prop where
  ties : ∀ p q, w.ties p q → u.ties p q
  known : w.known ≤ u.known

theorem Le.refl (w : Bond) : w.Le w :=
  ⟨fun _ _ => id, Nat.le_refl _⟩

theorem Le.trans {w u x : Bond} (first : w.Le u) (second : u.Le x) : w.Le x :=
  ⟨fun p q tied => second.ties p q (first.ties p q tied), Nat.le_trans first.known second.known⟩

variable {w u : Bond} {a b c d v : Value F}

theorem Knows.mono (le : w.Le u) (knows : w.Knows v) : u.Knows v := by
  cases v with
  | pair => exact knows
  | symbol id =>
      cases id with
      | interned i => exact Nat.lt_of_lt_of_le knows le.known
      | loose => trivial
  | _ => trivial

theorem Knows.isPair (knows : w.Knows v) : v.isPair = false := by
  cases v with
  | pair => exact knows.elim
  | _ => rfl

theorem Agree.mono (le : w.Le u) (agree : w.Agree a b) : u.Agree a b := by
  cases agree with
  | pair tied => exact .pair (le.ties _ _ tied)
  | solid knows => exact .solid (knows.mono le)

theorem Agree.alike (agree : w.Agree a b) : a.Alike b := by
  cases agree with
  | pair => exact .pair _ _
  | solid knows => exact .solid knows.isPair

theorem Agree.eq_iff (first : w.Agree a b) (second : w.Agree c d) : a = c ↔ b = d := by
  cases first with
  | pair tied =>
      cases second with
      | pair other => simpa using w.unique tied other
      | solid knows =>
          constructor
          · rintro rfl
            exact knows.elim
          · rintro rfl
            exact knows.elim
  | solid knows =>
      cases second with
      | pair =>
          constructor
          · rintro rfl
            exact knows.elim
          · rintro rfl
            exact knows.elim
      | solid => exact Iff.rfl

theorem Agree.same [DecidableEq F] (first : w.Agree a b) (second : w.Agree c d) :
    a.same c = b.same d := by
  have equal := first.eq_iff second
  cases first with
  | pair =>
      simp only [Value.same]
      exact decide_eq_decide.mpr equal
  | solid =>
      cases second with
      | solid => rfl
      | pair => cases a <;> exact decide_eq_decide.mpr equal

theorem Agree.digest (agree : w.Agree a b) : w.Agree a.digest b.digest := by
  cases agree with
  | pair tied => exact .pair tied
  | solid knows =>
      cases a with
      | number => exact .solid trivial
      | _ => exact .solid knows

/-- The bond with one more pair of each store. -/
def tie (w : Bond) (p q : Nat) (new : ∀ p' q', w.ties p' q' → p' ≠ p ∧ q' ≠ q) : Bond where
  ties p' q' := w.ties p' q' ∨ p' = p ∧ q' = q
  known := w.known
  unique := by
    rintro a b c d (first | ⟨rfl, rfl⟩) (second | ⟨rfl, rfl⟩)
    · exact w.unique first second
    · exact iff_of_false (new a b first).1 (new a b first).2
    · exact iff_of_false (new c d second).1.symm (new c d second).2.symm
    · exact iff_of_true rfl rfl
  special := w.special

theorem tie_le {p q : Nat} (new : ∀ p' q', w.ties p' q' → p' ≠ p ∧ q' ≠ q) :
    w.Le (w.tie p q new) :=
  ⟨fun _ _ => .inl, Nat.le_refl _⟩

/-- The bond of stores that both know more symbols. -/
def knowing (w : Bond) (known : Nat) (le : w.known ≤ known) : Bond :=
  { w with known := known, special := Nat.le_trans w.special le }

theorem knowing_le {known : Nat} (le : w.known ≤ known) : w.Le (w.knowing known le) :=
  ⟨fun _ _ => id, le⟩

end Bond

namespace Dictionary

/-- The entries are copies of each other. -/
def Agree (w : Bond) (x y : Value F × Value F) : Prop :=
  w.Agree x.1 y.1 ∧ w.Agree x.2 y.2

/-- The dictionaries are copies of each other. -/
structure Copies (w : Bond) (d e : Dictionary F) : Prop where
  entries : List.Forall₂ (Agree w) d.entries e.entries
  changes : e.changes = d.changes
  order : e.order = d.order

variable {w u : Bond} {d e : Dictionary F} {key key' value value' : Value F}
  {entries entries' : List (Value F × Value F)}

theorem Copies.mono (le : w.Le u) (copies : d.Copies w e) : d.Copies u e :=
  ⟨copies.entries.imp fun _ _ agree => ⟨agree.1.mono le, agree.2.mono le⟩, copies.changes,
    copies.order⟩

theorem Copies.clear (copies : d.Copies w e) : d.clear.Copies w e.clear :=
  ⟨.nil, congrArg (· + 1) copies.changes, copies.order⟩

theorem Copies.keys (copies : d.Copies w e) : List.Forall₂ w.Agree d.keys e.keys := by
  have first : List.Forall₂ w.Agree (d.entries.map Prod.fst) (e.entries.map Prod.fst) := by
    rw [List.forall₂_map_left_iff, List.forall₂_map_right_iff]
    exact copies.entries.imp fun _ _ agree => agree.1
  rw [Dictionary.keys, Dictionary.keys, copies.changes, copies.order]
  exact KeyOrder.arrange_forall₂ _ _ first

variable [DecidableEq F]

theorem isUnder_eq {x y : Value F × Value F} (agree : w.Agree key key') (entry : Agree w x y) :
    isUnder key x = isUnder key' y := by
  have digests := entry.1.digest.eq_iff agree.digest
  rw [isUnder, isUnder, entry.1.same agree, decide_eq_decide.mpr digests]

theorem find?_agree (agree : w.Agree key key') (copies : List.Forall₂ (Agree w) entries entries') :
    Option.Rel (Agree w) (entries.find? (isUnder key)) (entries'.find? (isUnder key')) := by
  induction copies with
  | nil => exact .none
  | cons here _ ih =>
      rw [List.find?_cons, List.find?_cons, isUnder_eq agree here]
      split
      · exact .some here
      · exact ih

theorem enter_agree (agree : w.Agree key key') (new : w.Agree value value')
    (copies : List.Forall₂ (Agree w) entries entries') :
    List.Forall₂ (Agree w) (enter key value entries) (enter key' value' entries') := by
  induction copies with
  | nil => exact .cons ⟨agree, new⟩ .nil
  | cons here rest ih =>
      rw [enter, enter, isUnder_eq agree here]
      split
      · exact .cons ⟨here.1, new⟩ rest
      · exact .cons here ih

theorem Copies.find? (copies : d.Copies w e) (agree : w.Agree key key') :
    Option.Rel w.Agree (d.find? key) (e.find? key') :=
  rel_map (find?_agree agree copies.entries) fun _ _ entry => entry.2

theorem Copies.put (copies : d.Copies w e) (agree : w.Agree key key') (new : w.Agree value value') :
    (d.put key value).Copies w (e.put key' value') :=
  ⟨enter_agree agree new copies.entries, congrArg (· + 1) copies.changes, copies.order⟩

end Dictionary

namespace Store

/-- The stores are copies of each other, as far as the bond goes. Its pairs are among those that are free
    for it. -/
structure Copies (free free' : Nat → Prop) (w : Bond) (s t : Store F) : Prop where
  fresh : ∀ p, s.pairs.size ≤ p → free p
  fresh' : ∀ q, t.pairs.size ≤ q → free' q
  left : ∀ p q, w.ties p q → p < s.pairs.size ∧ free p
  right : ∀ p q, w.ties p q → q < t.pairs.size ∧ free' q
  cars : ∀ p q, w.ties p q → w.Agree (s.car (.pair p)) (t.car (.pair q))
  cdrs : ∀ p q, w.ties p q → w.Agree (s.cdr (.pair p)) (t.cdr (.pair q))
  /-- The second store may not know all symbols yet. -/
  names : t.names <+: s.names
  known : t.names.length = w.known
  loose : t.loose.size = s.loose.size
  slots : ∀ v, w.Agree (s.symbolValue v) (t.symbolValue v)
  count : t.dictionaries.size = s.dictionaries.size
  tables : ∀ d : Nat, Option.Rel (Dictionary.Copies w) s.dictionaries[d]? t.dictionaries[d]?
  orders : t.orders = s.orders

namespace Copies

variable {free free' next next' : Nat → Prop} {w : Bond} {s s' t t' : Store F} {p q : Nat}
  {a b c d k l : Value F}

theorem car (copies : s.Copies free free' w t) (agree : w.Agree a b) :
    w.Agree (s.car a) (t.car b) := by
  cases agree with
  | pair tied => exact copies.cars _ _ tied
  | solid knows =>
      cases a with
      | pair => exact knows.elim
      | _ => exact .solid trivial

theorem cdr (copies : s.Copies free free' w t) (agree : w.Agree a b) :
    w.Agree (s.cdr a) (t.cdr b) := by
  cases agree with
  | pair tied => exact copies.cdrs _ _ tied
  | solid knows =>
      cases a with
      | pair => exact knows.elim
      | _ => exact .solid trivial

theorem symbolValue (copies : s.Copies free free' w t) (agree : w.Agree a b) :
    w.Agree (s.symbolValue a) (t.symbolValue b) := by
  cases agree with
  | pair => exact .solid trivial
  | solid => exact copies.slots a

/-- More pairs may be free. -/
theorem imp (copies : s.Copies free free' w t) (left : ∀ p, free p → next p)
    (right : ∀ q, free' q → next' q) : s.Copies next next' w t :=
  { copies with
    fresh := fun p beyond => left p (copies.fresh p beyond)
    fresh' := fun q beyond => right q (copies.fresh' q beyond)
    left := fun p q tied => ⟨(copies.left p q tied).1, left p (copies.left p q tied).2⟩
    right := fun p q tied => ⟨(copies.right p q tied).1, right q (copies.right p q tied).2⟩ }

theorem new (copies : s.Copies free free' w t) (left : ¬ free p) (right : ¬ free' q) :
    ∀ p' q', w.ties p' q' → p' ≠ p ∧ q' ≠ q := by
  intro p' q' tied
  constructor
  · rintro rfl
    exact left (copies.left _ _ tied).2
  · rintro rfl
    exact right (copies.right _ _ tied).2

/-- Pairs that were not free can be tied if their halves are copies of each other. -/
theorem tie (copies : s.Copies free free' w t) (left : ¬ free p) (right : ¬ free' q)
    (inside : p < s.pairs.size) (inside' : q < t.pairs.size)
    (car : w.Agree (s.car (.pair p)) (t.car (.pair q)))
    (cdr : w.Agree (s.cdr (.pair p)) (t.cdr (.pair q))) :
    s.Copies (fun x => free x ∨ x = p) (fun y => free' y ∨ y = q)
      (w.tie p q (copies.new left right)) t := by
  have le := Bond.tie_le (copies.new left right)
  refine ⟨fun x beyond => .inl (copies.fresh x beyond), fun y beyond => .inl (copies.fresh' y beyond),
    ?_, ?_, ?_, ?_, copies.names, copies.known, copies.loose, fun v => (copies.slots v).mono le,
    copies.count, fun d => rel_imp (copies.tables d) fun _ _ table => table.mono le, copies.orders⟩
  · rintro x y (tied | ⟨rfl, rfl⟩)
    · exact ⟨(copies.left x y tied).1, .inl (copies.left x y tied).2⟩
    · exact ⟨inside, .inr rfl⟩
  · rintro x y (tied | ⟨rfl, rfl⟩)
    · exact ⟨(copies.right x y tied).1, .inl (copies.right x y tied).2⟩
    · exact ⟨inside', .inr rfl⟩
  · rintro x y (tied | ⟨rfl, rfl⟩)
    · exact (copies.cars x y tied).mono le
    · exact car.mono le
  · rintro x y (tied | ⟨rfl, rfl⟩)
    · exact (copies.cdrs x y tied).mono le
    · exact cdr.mono le

theorem known_le (copies : s.Copies free free' w t) (grows : t.Grows t') :
    w.known ≤ t'.names.length := by
  rw [← copies.known]
  exact grows.names.length_le

/-- Both stores may grow, and new pairs be set aside. -/
theorem grow (copies : s.Copies free free' w t) (left : s.Grows s') (right : t.Grows t')
    (names : t'.names <+: s'.names) (old : ∀ p < s.pairs.size, free p → next p)
    (old' : ∀ q < t.pairs.size, free' q → next' q) (fresh : ∀ p, s'.pairs.size ≤ p → next p)
    (fresh' : ∀ q, t'.pairs.size ≤ q → next' q) :
    s'.Copies next next' (w.knowing t'.names.length (copies.known_le right)) t' := by
  have le := Bond.knowing_le (copies.known_le right)
  refine ⟨fresh, fresh', fun p q tied => ?_, fun p q tied => ?_, fun p q tied => ?_,
    fun p q tied => ?_, names, rfl, ?_, fun v => ?_, ?_, fun d => ?_, ?_⟩
  · obtain ⟨inside, isFree⟩ := copies.left p q tied
    exact ⟨Nat.lt_of_lt_of_le inside left.size_le, old p inside isFree⟩
  · obtain ⟨inside, isFree⟩ := copies.right p q tied
    exact ⟨Nat.lt_of_lt_of_le inside right.size_le, old' q inside isFree⟩
  · rw [left.car (copies.left p q tied).1, right.car (copies.right p q tied).1]
    exact (copies.cars p q tied).mono le
  · rw [left.cdr (copies.left p q tied).1, right.cdr (copies.right p q tied).1]
    exact (copies.cdrs p q tied).mono le
  · rw [left.loose, right.loose, copies.loose]
  · rw [left.slots, right.slots]
    exact (copies.slots v).mono le
  · rw [left.dictionaries, right.dictionaries, copies.count]
  · rw [left.dictionaries, right.dictionaries]
    exact rel_imp (copies.tables d) fun _ _ table => table.mono le
  · rw [left.orders, right.orders, copies.orders]

/-- New pairs are copies of each other if their halves are. -/
theorem cons (copies : s.Copies free free' w t) (first : w.Agree a b) (second : w.Agree c d) :
    ∃ u, w.Le u ∧ (s.cons a c).2.Copies free free' u (t.cons b d).2 ∧
      u.Agree (s.cons a c).1 (t.cons b d).1 := by
  have le := Bond.knowing_le (copies.known_le (cons_grows b d t))
  have grown : (s.cons a c).2.Copies (fun p => free p ∧ p ≠ s.pairs.size)
      (fun q => free' q ∧ q ≠ t.pairs.size) (w.knowing _ le.known) (t.cons b d).2 := by
    apply copies.grow (cons_grows a c s) (cons_grows b d t) copies.names
    · exact fun p inside isFree => ⟨isFree, Nat.ne_of_lt inside⟩
    · exact fun q inside isFree => ⟨isFree, Nat.ne_of_lt inside⟩
    · intro p beyond
      simp only [Store.cons, Array.size_push] at beyond
      exact ⟨copies.fresh p (by omega), by omega⟩
    · intro q beyond
      simp only [Store.cons, Array.size_push] at beyond
      exact ⟨copies.fresh' q (by omega), by omega⟩
  have car : (w.knowing _ le.known).Agree ((s.cons a c).2.car (.pair s.pairs.size))
      ((t.cons b d).2.car (.pair t.pairs.size)) := by
    rw [car_cons_size, car_cons_size]
    exact first.mono le
  have cdr : (w.knowing _ le.known).Agree ((s.cons a c).2.cdr (.pair s.pairs.size))
      ((t.cons b d).2.cdr (.pair t.pairs.size)) := by
    rw [cdr_cons_size, cdr_cons_size]
    exact second.mono le
  have tied := grown.tie (fun isFree => isFree.2 rfl) (fun isFree => isFree.2 rfl)
    (by simp [Store.cons]) (by simp [Store.cons]) car cdr
  refine ⟨_, le.trans (Bond.tie_le _), tied.imp ?_ ?_, .pair (.inr ⟨rfl, rfl⟩)⟩
  · rintro p (isFree | rfl)
    · exact isFree.1
    · exact copies.fresh _ (Nat.le_refl _)
  · rintro q (isFree | rfl)
    · exact isFree.1
    · exact copies.fresh' _ (Nat.le_refl _)

theorem setCdr (copies : s.Copies free free' w t) (first : w.Agree a b) (second : w.Agree c d) :
    (s.setCdr a c).Copies free free' w (t.setCdr b d) := by
  cases first with
  | solid knows =>
      cases a with
      | pair => exact knows.elim
      | _ => exact copies
  | @pair p q tied =>
      have size : (s.setCdr (.pair p) c).pairs.size = s.pairs.size := by simp [Store.setCdr]
      have size' : (t.setCdr (.pair q) d).pairs.size = t.pairs.size := by simp [Store.setCdr]
      refine ⟨size ▸ copies.fresh, size' ▸ copies.fresh', size ▸ copies.left, size' ▸ copies.right,
        fun x y other => ?_, fun x y other => ?_, copies.names, copies.known, copies.loose,
        copies.slots, copies.count, copies.tables, copies.orders⟩
      · rw [car_setCdr, car_setCdr]
        exact copies.cars x y other
      · by_cases here : p = x
        · obtain rfl := (w.unique tied other).mp here
          subst here
          rw [cdr_setCdr_self (copies.left _ _ tied).1, cdr_setCdr_self (copies.right _ _ tied).1]
          exact second
        · rw [cdr_setCdr_of_ne here, cdr_setCdr_of_ne (mt (w.unique tied other).mpr here)]
          exact copies.cdrs x y other

theorem rel_getElem? {xs ys : Array (SymbolCell F)} {i : Nat} (both : i < xs.size ↔ i < ys.size) :
    Option.Rel (fun _ _ => True) xs[i]? ys[i]? := by
  by_cases inside : i < xs.size
  · rw [Array.getElem?_eq_getElem inside, Array.getElem?_eq_getElem (both.mp inside)]
    exact .some trivial
  · rw [Array.getElem?_eq_none (Nat.le_of_not_lt inside),
      Array.getElem?_eq_none (Nat.le_of_not_lt (mt both.mpr inside))]
    exact .none

theorem symbol? {id : SymbolId} (copies : s.Copies free free' w t)
    (knows : w.Knows (.symbol id : Value F)) :
    Option.Rel (fun _ _ => True) (s.symbol? id) (t.symbol? id) := by
  cases id with
  | loose i => exact rel_getElem? (by rw [copies.loose])
  | interned i =>
      have known := copies.known
      have le := copies.names.length_le
      simp only [Store.names, List.length_map, Array.length_toList] at known le
      have inside : i < t.interned.size := Nat.lt_of_lt_of_eq knows known.symm
      exact rel_getElem? (iff_of_true (Nat.lt_of_lt_of_le inside le) inside)

/-- The pairs and the names stay as they are. -/
theorem withTables (copies : s.Copies free free' w t) (pairs : s'.pairs = s.pairs)
    (pairs' : t'.pairs = t.pairs) (names : s'.names = s.names) (names' : t'.names = t.names)
    (loose : t'.loose.size = s'.loose.size)
    (slots : ∀ v, w.Agree (s'.symbolValue v) (t'.symbolValue v))
    (count : t'.dictionaries.size = s'.dictionaries.size)
    (tables : ∀ d : Nat, Option.Rel (Dictionary.Copies w) s'.dictionaries[d]? t'.dictionaries[d]?)
    (orders : t'.orders = s'.orders) : s'.Copies free free' w t' := by
  refine ⟨pairs ▸ copies.fresh, pairs' ▸ copies.fresh', pairs ▸ copies.left, pairs' ▸ copies.right,
    ?_, ?_, ?_, ?_, loose, slots, count, tables, orders⟩
  · simp only [Store.car, pairs, pairs']
    exact copies.cars
  · simp only [Store.cdr, pairs, pairs']
    exact copies.cdrs
  · rw [names, names']
    exact copies.names
  · rw [names']
    exact copies.known

theorem setSymbolValue (copies : s.Copies free free' w t) (first : w.Agree a b)
    (second : w.Agree c d) :
    (s.setSymbolValue a c).Copies free free' w (t.setSymbolValue b d) := by
  cases first with
  | pair => exact copies
  | solid knows =>
      cases a with
      | symbol id =>
          have slots : ∀ v, w.Agree ((s.setSymbolValue (.symbol id) c).symbolValue v)
              ((t.setSymbolValue (.symbol id) d).symbolValue v) := by
            intro v
            cases v with
            | symbol x =>
                by_cases here : id = x
                · subst here
                  have both := copies.symbol? knows
                  simp only [Store.symbolValue, symbol?_setSymbolValue, if_true]
                  generalize s.symbol? id = cell at both ⊢
                  generalize t.symbol? id = cell' at both ⊢
                  cases both with
                  | none => exact .solid trivial
                  | some => exact second
                · have slot := copies.slots (.symbol x)
                  simp only [Store.symbolValue, symbol?_setSymbolValue, if_neg here] at slot ⊢
                  exact slot
            | _ => exact .solid trivial
          apply copies.withTables (pairs_setSymbolValue _ c s) (pairs_setSymbolValue _ d t)
            (names_setSymbolValue _ c s) (names_setSymbolValue _ d t) ?_ slots
          · cases id <;> exact copies.count
          · cases id <;> exact copies.tables
          · cases id <;> exact copies.orders
          · cases id <;> simp [Store.setSymbolValue, copies.loose]
      | _ => exact copies

/-- A change of one dictionary. -/
theorem modify {f g : Dictionary F → Dictionary F} (copies : s.Copies free free' w t) (id : Nat)
    (change : ∀ {d e : Dictionary F}, d.Copies w e → (f d).Copies w (g e)) :
    { s with dictionaries := s.dictionaries.modify id f }.Copies free free' w
      { t with dictionaries := t.dictionaries.modify id g } := by
  refine copies.withTables rfl rfl rfl rfl copies.loose copies.slots ?_ (fun d => ?_) copies.orders
  · simp [copies.count]
  · simp only [Array.getElem?_modify]
    split
    · exact rel_map (copies.tables d) fun _ _ table => change table
    · exact copies.tables d

section

variable [DecidableEq F]

theorem put (copies : s.Copies free free' w t) (target : w.Agree a b) (key : w.Agree k l)
    (value : w.Agree c d) : (s.put a k c).2.Copies free free' w (t.put b l d).2 := by
  cases target with
  | pair => exact copies
  | solid =>
      cases a with
      | dictionary id => exact copies.modify id fun table => table.put key value
      | _ => exact copies

theorem clear (copies : s.Copies free free' w t) (target : w.Agree a b) :
    (s.clear a).2.Copies free free' w (t.clear b).2 := by
  cases target with
  | pair => exact copies
  | solid =>
      cases a with
      | dictionary id => exact copies.modify id fun table => table.clear
      | _ => exact copies

theorem get (copies : s.Copies free free' w t) (target : w.Agree a b) (key : w.Agree k l) :
    w.Agree (s.get a k) (t.get b l) := by
  cases target with
  | pair => exact .solid trivial
  | solid =>
      cases a with
      | dictionary id =>
          exact rel_getD (rel_bind (copies.tables id) fun _ _ table => table.find? key)
            (.solid trivial)
      | _ => exact .solid trivial

theorem listing (copies : s.Copies free free' w t) (target : w.Agree a b) :
    List.Forall₂ w.Agree (s.listing a) (t.listing b) := by
  cases target with
  | pair => exact .nil
  | solid =>
      cases a with
      | dictionary id =>
          have both := copies.tables id
          rw [Store.listing, Store.listing]
          generalize s.dictionaries[id]? = table at both ⊢
          generalize t.dictionaries[id]? = table' at both ⊢
          cases both with
          | none => exact .nil
          | some tables => exact List.forall₂_reverse_iff.mpr tables.keys
      | _ => exact .nil

end

theorem makeDictionary (copies : s.Copies free free' w t) :
    s.makeDictionary.2.Copies free free' w t.makeDictionary.2 ∧
      w.Agree s.makeDictionary.1 t.makeDictionary.1 := by
  constructor
  · refine copies.withTables rfl rfl rfl rfl copies.loose copies.slots ?_ (fun d => ?_) copies.orders
    · simp [Store.makeDictionary, copies.count]
    · simp only [Store.makeDictionary, Array.getElem?_push, copies.count, copies.orders]
      split
      · exact .some ⟨.nil, rfl, rfl⟩
      · exact copies.tables d
  · rw [Store.makeDictionary, Store.makeDictionary, copies.count]
    exact .solid trivial

end Copies

section

variable {s : Store F} {P : Value F → Prop} {bound : Nat} {v : Value F} {d : Datum}
  (inside : ∀ p, P (.pair p) → p < s.pairs.size) (halves : ∀ v, P v → P (s.car v) ∧ P (s.cdr v))

include inside halves

/-- A value that is shown is the root of a tree, if it leads to no pair that is not there. -/
theorem shows_of_datumWithin (holds : P v) (shown : s.datumWithin bound v = some d) :
    s.Shows v d := by
  induction bound generalizing v d with
  | zero =>
      unfold datumWithin at shown
      split at shown
      · next leaf =>
          cases shown
          exact .leaf leaf
      · cases shown
  | succ bound ih =>
      unfold datumWithin at shown
      split at shown
      · next leaf =>
          cases shown
          exact .leaf leaf
      · next leaf =>
          obtain ⟨car, shownCar, shown⟩ := Option.bind_eq_some_iff.mp shown
          obtain ⟨cdr, shownCdr, same⟩ := Option.bind_eq_some_iff.mp shown
          cases same
          obtain ⟨first, second⟩ := halves v holds
          cases v with
          | pair p => exact .pair (found_of_lt (inside p holds)) (ih first shownCar) (ih second shownCdr)
          | _ => cases leaf

theorem datumWithin_of_size_le (holds : P v) (long : s.pairs.size ≤ bound) :
    s.datumWithin bound v = s.datum? v := by
  apply Option.ext
  intro d
  constructor
  · intro shown
    exact (shows_of_datumWithin inside halves holds shown).datum?
  · intro shown
    have tree := shows_of_datumWithin inside halves holds shown
    exact tree.datumWithin (Nat.le_trans tree.depth_le long)

end

namespace Copies

variable {free free' : Nat → Prop} {w : Bond} {s t : Store F} {a b : Value F}

theorem datumWithin (copies : s.Copies free free' w t) (agree : w.Agree a b) (bound : Nat) :
    Option.Rel (fun _ _ => True) (s.datumWithin bound a) (t.datumWithin bound b) := by
  induction bound generalizing a b with
  | zero =>
      unfold Store.datumWithin
      cases agree with
      | pair => exact .none
      | solid knows =>
          cases a with
          | pair => exact knows.elim
          | _ => exact .some trivial
  | succ bound ih =>
      unfold Store.datumWithin
      cases agree with
      | pair tied =>
          apply rel_bind (ih (copies.cars _ _ tied))
          intro _ _ _
          apply rel_bind (ih (copies.cdrs _ _ tied))
          intro _ _ _
          exact .some trivial
      | solid knows =>
          cases a with
          | pair => exact knows.elim
          | _ => exact .some trivial

/-- Showing copies of a value comes to an end for both or for none. -/
theorem datum? (copies : s.Copies free free' w t) (agree : w.Agree a b) :
    Option.Rel (fun _ _ => True) (s.datum? a) (t.datum? b) := by
  have left : s.datumWithin (max s.pairs.size t.pairs.size) a = s.datum? a := by
    apply datumWithin_of_size_le (P := fun a => ∃ b, w.Agree a b)
    · rintro p ⟨_, tied | knows⟩
      · exact (copies.left _ _ tied).1
      · exact knows.elim
    · rintro v ⟨v', agree⟩
      exact ⟨⟨_, copies.car agree⟩, ⟨_, copies.cdr agree⟩⟩
    · exact ⟨b, agree⟩
    · exact Nat.le_max_left _ _
  have right : t.datumWithin (max s.pairs.size t.pairs.size) b = t.datum? b := by
    apply datumWithin_of_size_le (P := fun b => ∃ a, w.Agree a b)
    · rintro q ⟨_, tied | knows⟩
      · exact (copies.right _ _ tied).1
      · exact knows.elim
    · rintro v ⟨v', agree⟩
      exact ⟨⟨_, copies.car agree⟩, ⟨_, copies.cdr agree⟩⟩
    · exact ⟨a, agree⟩
    · exact Nat.le_max_right _ _
  rw [← left, ← right]
  exact copies.datumWithin agree _

end Copies

end Store

end SmallLisp
