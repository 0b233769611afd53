import SmallLisp.Proofs.Evaluation.Seclusion

/-! # Stores side by side

Two evaluations of one expression go on side by side in two environments. The stores have the same
tables, and the same pairs except for the cells of environments, which are hidden from programs. What
programs may come upon are data, and from data no hidden cell is reached. Some elements of the
environments at the start may be more than data, but what they bind is a datum.

Every operation on data has the same result on both sides, and leaves the stores alike.
-/

namespace SmallLisp

variable {F : Type}

/-- The value is no object that holds others. -/
def Value.Plain : Value F → Prop
  | .pair _ | .dictionary _ => False
  | _ => True

namespace Store

variable {s t u : Store F} {hidden : Nat → Prop} {v w : Value F} {p : Nat}

/-- The store with other pairs. -/
def onto (pairs : Array (Pair F)) (s : Store F) : Store F :=
  { s with pairs := pairs }

theorem cdr_setCdr_cases (s : Store F) (p : Nat) (w x : Value F) :
    (s.setCdr (.pair p) w).cdr x = w ∨ (s.setCdr (.pair p) w).cdr x = s.cdr x := by
  cases x with
  | pair q =>
      by_cases other : p ≠ q
      · exact .inr (cdr_setCdr_of_ne other)
      · obtain rfl := not_not.mp other
        cases found : s.pairs[p]? <;> simp [Store.setCdr, Store.cdr, Array.getElem?_modify, found]
  | _ => exact .inr rfl

/-- The first halves of pairs and the second halves of the hidden ones are as they were. -/
structure Lasts (hidden : Nat → Prop) (s t : Store F) : Prop where
  size : s.pairs.size ≤ t.pairs.size
  cars : ∀ p < s.pairs.size, t.car (.pair p) = s.car (.pair p)
  cells : ∀ p, hidden p → t.cdr (.pair p) = s.cdr (.pair p)

theorem Lasts.refl (hidden : Nat → Prop) (s : Store F) : s.Lasts hidden s :=
  ⟨Nat.le_refl _, fun _ _ => rfl, fun _ _ => rfl⟩

theorem Lasts.trans {more : Nat → Prop} (first : s.Lasts hidden t) (second : t.Lasts more u)
    (grow : ∀ p, hidden p → more p) : s.Lasts hidden u where
  size := Nat.le_trans first.size second.size
  cars p lt := (second.cars p (Nat.lt_of_lt_of_le lt first.size)).trans (first.cars p lt)
  cells p hides := (second.cells p (grow p hides)).trans (first.cells p hides)

theorem lasts_cons (there : ∀ p, hidden p → p < s.pairs.size) : s.Lasts hidden (s.cons v w).2 where
  size := by simp [Store.cons]
  cars _ lt := car_cons_of_lt lt
  cells p hides := cdr_cons_of_lt (there p hides)

theorem lasts_setCdr (shown : ¬ hidden p) : s.Lasts hidden (s.setCdr (.pair p) w) where
  size := by simp [Store.setCdr]
  cars _ _ := car_setCdr _ _
  cells q hides := by
    apply cdr_setCdr_of_ne
    rintro rfl
    exact shown hides

theorem lasts_of_pairs (same : t.pairs = s.pairs) : s.Lasts hidden t where
  size := Nat.le_of_eq (congrArg Array.size same.symm)
  cars p _ := by simp only [Store.car, same]
  cells p _ := by simp only [Store.cdr, same]

end Store

/-- What programs may come upon, and what is hidden from them. -/
structure Veil (F : Type) where
  hidden : Nat → Prop
  data : Value F → Prop

namespace Veil

/-- The pair was made and hidden after the start, when there were `start` pairs. -/
def Fresh (veil : Veil F) (start p : Nat) : Prop :=
  veil.hidden p ∧ start ≤ p

/-- The value is in the store and no fresh hidden pair. -/
def Free (veil : Veil F) (start size : Nat) : Value F → Prop
  | .pair p => p < size ∧ ¬ veil.Fresh start p
  | _ => True

/-- The value may be held by the object. -/
def Suits (veil : Veil F) (start size : Nat) (object v : Value F) : Prop :=
  (veil.data object → veil.data v) ∧ veil.Free start size v

/-- The veil with one more datum. -/
def reveal (veil : Veil F) (v : Value F) : Veil F :=
  { veil with data := fun x => veil.data x ∨ x = v }

/-- The veil with one more hidden pair. -/
def hide (veil : Veil F) (p : Nat) : Veil F :=
  { veil with hidden := fun q => veil.hidden q ∨ q = p }

/-- The veils are the same but for one pair. -/
structure Agree (veil next : Veil F) (last : Nat) : Prop where
  hidden : ∀ p, p ≠ last → (next.hidden p ↔ veil.hidden p)
  data : ∀ x, x ≠ .pair last → (next.data x ↔ veil.data x)

theorem agree_reveal (veil : Veil F) (p : Nat) : veil.Agree (veil.reveal (.pair p)) p where
  hidden _ _ := Iff.rfl
  data _ other := or_iff_left other

theorem agree_hide (veil : Veil F) (p : Nat) : veil.Agree (veil.hide p) p where
  hidden _ other := or_iff_left other
  data _ _ := Iff.rfl

variable {veil next : Veil F} {start last : Nat}

theorem Agree.shown (agree : veil.Agree next last) {p : Nat} (lt : p < last)
    (shown : ¬ veil.hidden p) : ¬ next.hidden p :=
  mt (agree.hidden p (Nat.ne_of_lt lt)).mp shown

theorem Agree.free (agree : veil.Agree next last) {v : Value F} (free : veil.Free start last v) :
    next.Free start (last + 1) v := by
  cases v with
  | pair p =>
      refine ⟨Nat.lt_succ_of_lt free.1, fun fresh => free.2 ?_⟩
      exact ⟨(agree.hidden p (Nat.ne_of_lt free.1)).mp fresh.1, fresh.2⟩
  | _ => trivial

end Veil

namespace Store

/-- From data no hidden pair is reached, and no other object refers to a fresh hidden pair. What the
    elements `held` of environments bind are data. -/
structure Veiled (start : Nat) (held : Value F → Prop) (veil : Veil F) (s : Store F) : Prop where
  later : start ≤ s.pairs.size
  there : ∀ p, veil.hidden p → p < s.pairs.size
  plain : ∀ v, v.Plain → veil.data v
  shown : ∀ p, veil.data (.pair p) → p < s.pairs.size ∧ ¬ veil.hidden p
  pairs : ∀ p pair, s.pairs[p]? = some pair → ¬ veil.Fresh start p →
    veil.Suits start s.pairs.size (.pair p) pair.car ∧
      veil.Suits start s.pairs.size (.pair p) pair.cdr
  slots : ∀ id symbol, s.symbol? id = some symbol → veil.data symbol.value
  entries : ∀ d e, e ∈ s.entries (.dictionary d) →
    veil.Suits start s.pairs.size (.dictionary d) e.1 ∧
      veil.Suits start s.pairs.size (.dictionary d) e.2
  bound : ∀ v, held v → veil.data (s.cdr v) ∧
    ∀ p, v = .pair p → p < s.pairs.size ∧ ¬ veil.hidden p

namespace Veiled

variable {s t : Store F} {start : Nat} {held : Value F → Prop} {veil : Veil F} {v w : Value F}
  {p : Nat}

theorem halves (veiled : s.Veiled start held veil) (data : veil.data v) :
    veil.data (s.car v) ∧ veil.data (s.cdr v) := by
  cases v with
  | pair p =>
      cases found : s.pairs[p]? with
      | none =>
          simp only [Store.car, Store.cdr, found]
          exact ⟨veiled.plain _ trivial, veiled.plain _ trivial⟩
      | some pair =>
          simp only [Store.car, Store.cdr, found]
          obtain ⟨car, cdr⟩ := veiled.pairs p pair found fun fresh => (veiled.shown p data).2 fresh.1
          exact ⟨car.1 data, cdr.1 data⟩
  | _ => exact ⟨veiled.plain _ trivial, veiled.plain _ trivial⟩

theorem symbolValue (veiled : s.Veiled start held veil) (v : Value F) :
    veil.data (s.symbolValue v) := by
  cases v with
  | symbol id =>
      cases found : s.symbol? id with
      | none =>
          simp only [Store.symbolValue, found]
          exact veiled.plain _ trivial
      | some symbol =>
          simp only [Store.symbolValue, found]
          exact veiled.slots id symbol found
  | _ => exact veiled.plain _ trivial

theorem entry (veiled : s.Veiled start held veil) (data : veil.data v) {e : Value F × Value F}
    (entered : e ∈ s.entries v) : veil.data e.1 ∧ veil.data e.2 := by
  cases v with
  | dictionary d =>
      obtain ⟨key, value⟩ := veiled.entries d e entered
      exact ⟨key.1 data, value.1 data⟩
  | _ => cases entered

theorem get [DecidableEq F] {key : Value F} (veiled : s.Veiled start held veil)
    (data : veil.data v) : veil.data (s.get v key) := by
  rw [Store.get]
  rcases s.getOr_cases v key .nil with same | same | ⟨e, entered, same⟩
  · exact same.symm ▸ veiled.plain .nil trivial
  · exact same.symm ▸ veiled.plain .nil trivial
  · exact same ▸ (veiled.entry data entered).2

theorem free (veiled : s.Veiled start held veil) (data : veil.data v) :
    veil.Free start s.pairs.size v := by
  cases v with
  | pair p =>
      obtain ⟨lt, shown⟩ := veiled.shown p data
      exact ⟨lt, fun fresh => shown fresh.1⟩
  | _ => trivial

/-- A datum may be held by all objects. -/
theorem suits (veiled : s.Veiled start held veil) (data : veil.data v) (object : Value F) :
    veil.Suits start s.pairs.size object v :=
  ⟨fun _ => data, veiled.free data⟩

section

variable {next : Veil F} (veiled : s.Veiled start held veil) (agree : veil.Agree next s.pairs.size)

include veiled agree

theorem data_agree (datum : veil.data v) : next.data v := by
  refine (agree.data v ?_).mpr datum
  rintro rfl
  exact Nat.lt_irrefl _ (veiled.shown _ datum).1

theorem suits_agree (other : w ≠ .pair s.pairs.size) (suits : veil.Suits start s.pairs.size w v) :
    next.Suits start (s.pairs.size + 1) w v :=
  ⟨fun datum => veiled.data_agree agree (suits.1 ((agree.data w other).mp datum)),
    agree.free suits.2⟩

/-- A new pair may be revealed or hidden, if it suits. -/
theorem push (apart : next.data (.pair s.pairs.size) → ¬ next.hidden s.pairs.size)
    (new : ¬ next.Fresh start s.pairs.size → veil.data v ∧ veil.data w) :
    (s.cons v w).2.Veiled start held next := by
  have size : (s.cons v w).2.pairs.size = s.pairs.size + 1 := by simp [Store.cons]
  constructor
  · rw [size]
    exact Nat.le_succ_of_le veiled.later
  · intro p hides
    rw [size]
    by_cases last : p = s.pairs.size
    · exact last ▸ Nat.lt_succ_self _
    · exact Nat.lt_succ_of_lt (veiled.there p ((agree.hidden p last).mp hides))
  · exact fun x plain => veiled.data_agree agree (veiled.plain x plain)
  · intro p datum
    rw [size]
    by_cases last : p = s.pairs.size
    · subst last
      exact ⟨Nat.lt_succ_self _, apart datum⟩
    · obtain ⟨lt, shown⟩ := veiled.shown p ((agree.data _ (by simpa using last)).mp datum)
      exact ⟨Nat.lt_succ_of_lt lt, agree.shown lt shown⟩
  · intro p pair found fresh
    rw [size]
    simp only [Store.cons, Array.getElem?_push] at found
    split at found
    · next last =>
        cases found
        subst last
        obtain ⟨first, second⟩ := new fresh
        exact ⟨⟨fun _ => veiled.data_agree agree first, agree.free (veiled.free first)⟩,
          ⟨fun _ => veiled.data_agree agree second, agree.free (veiled.free second)⟩⟩
    · have other := Nat.ne_of_lt (Array.getElem?_eq_some_iff.mp found).1
      obtain ⟨car, cdr⟩ := veiled.pairs p pair found fun was =>
        fresh ⟨(agree.hidden p other).mpr was.1, was.2⟩
      exact ⟨veiled.suits_agree agree (by simpa using other) car,
        veiled.suits_agree agree (by simpa using other) cdr⟩
  · exact fun id symbol found => veiled.data_agree agree (veiled.slots id symbol found)
  · intro d e entered
    rw [size]
    obtain ⟨key, value⟩ := veiled.entries d e entered
    exact ⟨veiled.suits_agree agree (by simp) key, veiled.suits_agree agree (by simp) value⟩
  · intro x holds
    obtain ⟨datum, place⟩ := veiled.bound x holds
    rw [size]
    constructor
    · cases x with
      | pair p =>
          rw [cdr_cons_of_lt (place p rfl).1]
          exact veiled.data_agree agree datum
      | _ => exact veiled.data_agree agree datum
    · intro p same
      obtain ⟨lt, shown⟩ := place p same
      exact ⟨Nat.lt_succ_of_lt lt, agree.shown lt shown⟩

end

/-- A new pair of data is a datum. -/
theorem cons (veiled : s.Veiled start held veil) (first : veil.data v) (second : veil.data w) :
    (s.cons v w).2.Veiled start held (veil.reveal (.pair s.pairs.size)) :=
  veiled.push (veil.agree_reveal _) (fun _ hides => Nat.lt_irrefl _ (veiled.there _ hides))
    fun _ => ⟨first, second⟩

/-- A new pair may be hidden, whatever its halves are. -/
theorem hide (veiled : s.Veiled start held veil) :
    (s.cons v w).2.Veiled start held (veil.hide s.pairs.size) :=
  veiled.push (veil.agree_hide _) (fun datum => absurd (veiled.shown _ datum).1 (Nat.lt_irrefl _))
    fun shown => absurd ⟨.inr rfl, veiled.later⟩ shown

theorem setCdr (veiled : s.Veiled start held veil) (datum : veil.data w) :
    (s.setCdr (.pair p) w).Veiled start held veil := by
  have size : (s.setCdr (.pair p) w).pairs.size = s.pairs.size := by simp [Store.setCdr]
  refine ⟨size ▸ veiled.later, size ▸ veiled.there, veiled.plain, size ▸ veiled.shown, ?_,
    veiled.slots, size ▸ veiled.entries, ?_⟩
  · rw [size]
    intro q pair found fresh
    simp only [Store.setCdr, Array.getElem?_modify] at found
    split at found
    · obtain ⟨old, there, rfl⟩ := Option.map_eq_some_iff.mp found
      exact ⟨(veiled.pairs q old there fresh).1, veiled.suits datum _⟩
    · exact veiled.pairs q pair found fresh
  · rw [size]
    intro x holds
    obtain ⟨old, place⟩ := veiled.bound x holds
    refine ⟨?_, place⟩
    rcases cdr_setCdr_cases s p w x with same | same
    · rw [same]
      exact datum
    · rw [same]
      exact old

/-- A change of the slots or of the dictionaries keeps the veil if data are put there. -/
theorem withPairs (veiled : s.Veiled start held veil) (pairs : t.pairs = s.pairs)
    (slots : ∀ id symbol, t.symbol? id = some symbol → veil.data symbol.value)
    (entries : ∀ d e, e ∈ t.entries (.dictionary d) →
      veil.Suits start s.pairs.size (.dictionary d) e.1 ∧
        veil.Suits start s.pairs.size (.dictionary d) e.2) : t.Veiled start held veil where
  later := pairs ▸ veiled.later
  there := pairs ▸ veiled.there
  plain := veiled.plain
  shown := pairs ▸ veiled.shown
  pairs := pairs ▸ veiled.pairs
  slots := slots
  entries := pairs ▸ entries
  bound x holds := by
    obtain ⟨datum, place⟩ := veiled.bound x holds
    rw [pairs]
    refine ⟨?_, place⟩
    cases x with
    | pair p =>
        simp only [Store.cdr, pairs]
        exact datum
    | _ => exact datum

theorem setSymbolValue (veiled : s.Veiled start held veil) (datum : veil.data w) :
    (s.setSymbolValue v w).Veiled start held veil :=
  veiled.withPairs (pairs_setSymbolValue v w s) (forall_slots_setSymbolValue veiled.slots datum)
    (entries_setSymbolValue v w s ▸ veiled.entries)

theorem clear [DecidableEq F] (veiled : s.Veiled start held veil) : (s.clear v).2.Veiled start held veil :=
  veiled.withPairs (pairs_clear v s) (symbol?_clear v s ▸ veiled.slots)
    (forall_entries_clear veiled.entries v)

theorem put [DecidableEq F] {key : Value F} (veiled : s.Veiled start held veil)
    (first : veil.data key) (second : veil.data w) : (s.put v key w).2.Veiled start held veil :=
  veiled.withPairs (pairs_put v key w s) (symbol?_put v key w s ▸ veiled.slots)
    (forall_entries_put veiled.entries v (fun _ => veiled.suits first _)
      fun _ => veiled.suits second _)

/-- A new dictionary is a datum. -/
theorem makeDictionary (veiled : s.Veiled start held veil) :
    s.makeDictionary.2.Veiled start held (veil.reveal s.makeDictionary.1) := by
  have suits : ∀ {object x : Value F}, object ≠ s.makeDictionary.1 →
      veil.Suits start s.pairs.size object x →
      (veil.reveal s.makeDictionary.1).Suits start s.pairs.size object x :=
    fun other suits => ⟨fun datum => .inl (suits.1 (datum.resolve_right other)), suits.2⟩
  refine ⟨veiled.later, veiled.there, fun x plain => .inl (veiled.plain x plain), ?_, ?_,
    fun id symbol found => .inl (veiled.slots id symbol found), ?_, ?_⟩
  · exact fun p datum => veiled.shown p (datum.resolve_right nofun)
  · intro p pair found fresh
    obtain ⟨car, cdr⟩ := veiled.pairs p pair found fresh
    exact ⟨suits nofun car, suits nofun cdr⟩
  · intro d e entered
    obtain ⟨dictionary, there, entered⟩ := mem_entries_dictionary.mp entered
    rw [Store.makeDictionary, Array.getElem?_push] at there
    split at there
    · cases there
      cases entered
    · next other =>
        obtain ⟨key, value⟩ :=
          veiled.entries d e (mem_entries_dictionary.mpr ⟨dictionary, there, entered⟩)
        have old : (.dictionary d : Value F) ≠ s.makeDictionary.1 := by
          simpa [Store.makeDictionary] using other
        exact ⟨suits old key, suits old value⟩
  · intro x holds
    obtain ⟨datum, place⟩ := veiled.bound x holds
    exact ⟨.inl datum, place⟩

end Veiled

end Store

/-! ### Twins -/

/-- A store with other pairs beside its own. They are the same unless they are hidden. -/
structure Twins (F : Type) (start : Nat) (held : Value F → Prop) where
  veil : Veil F
  left : Store F
  pairs : Array (Pair F)
  veiled : left.Veiled start held veil
  size : pairs.size = left.pairs.size
  same : ∀ p, ¬ veil.hidden p → pairs[p]? = left.pairs[p]?

namespace Twins

variable {start : Nat} {held : Value F → Prop} {w u : Twins F start held} {v a b : Value F} {p : Nat}

/-- The store on the other side. -/
def right (w : Twins F start held) : Store F := w.left.onto w.pairs

/-- How twins may grow. -/
structure Le (w u : Twins F start held) : Prop where
  hidden : ∀ p, w.veil.hidden p → u.veil.hidden p
  /-- Only new pairs are hidden. -/
  old : ∀ p < w.left.pairs.size, u.veil.hidden p → w.veil.hidden p
  data : ∀ v, w.veil.data v → u.veil.data v
  left : w.left.Lasts w.veil.hidden u.left
  right : w.right.Lasts w.veil.hidden u.right

theorem Le.refl (w : Twins F start held) : w.Le w :=
  ⟨fun _ => id, fun _ _ => id, fun _ => id, .refl _ _, .refl _ _⟩

theorem Le.trans {x : Twins F start held} (first : w.Le u) (second : u.Le x) : w.Le x where
  hidden p hides := second.hidden p (first.hidden p hides)
  old p lt hides := first.old p lt (second.old p (Nat.lt_of_lt_of_le lt first.left.size) hides)
  data v datum := second.data v (first.data v datum)
  left := first.left.trans second.left first.hidden
  right := first.right.trans second.right first.hidden

/-! Data and elements of environments are the same on both sides. -/

theorem found_right (w : Twins F start held) (shown : ¬ w.veil.hidden p) :
    w.right.pairs[p]? = w.left.pairs[p]? :=
  w.same p shown

theorem car_right (w : Twins F start held) (shown : ∀ p, v = .pair p → ¬ w.veil.hidden p) :
    w.right.car v = w.left.car v := by
  cases v with
  | pair p => simp only [Store.car, w.found_right (shown p rfl)]
  | _ => rfl

theorem cdr_right (w : Twins F start held) (shown : ∀ p, v = .pair p → ¬ w.veil.hidden p) :
    w.right.cdr v = w.left.cdr v := by
  cases v with
  | pair p => simp only [Store.cdr, w.found_right (shown p rfl)]
  | _ => rfl

theorem get_right [DecidableEq F] (w : Twins F start held) (v key : Value F) :
    w.right.get v key = w.left.get v key := by
  cases v <;> rfl

theorem listing_right [DecidableEq F] (w : Twins F start held) (v : Value F) :
    w.right.listing v = w.left.listing v := by
  cases v <;> rfl

theorem shown (w : Twins F start held) (datum : w.veil.data v) :
    ∀ p, v = .pair p → ¬ w.veil.hidden p := by
  rintro p rfl
  exact (w.veiled.shown p datum).2

/-- Twins with one more pair of data. -/
def cons (w : Twins F start held) (first : w.veil.data a) (second : w.veil.data b) :
    Twins F start held where
  veil := w.veil.reveal (.pair w.left.pairs.size)
  left := (w.left.cons a b).2
  pairs := w.pairs.push ⟨a, b⟩
  veiled := w.veiled.cons first second
  size := by simp [Store.cons, w.size]
  same p shown := by simp only [Store.cons, Array.getElem?_push, w.size, w.same p shown]

/-- Twins with one more hidden pair, perhaps with different second halves. -/
def hide (w : Twins F start held) (a b c : Value F) : Twins F start held where
  veil := w.veil.hide w.left.pairs.size
  left := (w.left.cons a b).2
  pairs := w.pairs.push ⟨a, c⟩
  veiled := w.veiled.hide
  size := by simp [Store.cons, w.size]
  same p shown := by
    obtain ⟨old, other⟩ := not_or.mp shown
    simp only [Store.cons, Array.getElem?_push, w.size, if_neg other, w.same p old]

/-- Twins with another second half of a pair that is not hidden. -/
def setCdr (w : Twins F start held) (p : Nat) (v : Value F) (datum : w.veil.data v) :
    Twins F start held where
  veil := w.veil
  left := w.left.setCdr (.pair p) v
  pairs := w.pairs.modify p fun pair => { pair with cdr := v }
  veiled := w.veiled.setCdr datum
  size := by simp [Store.setCdr, w.size]
  same q shown := by simp only [Store.setCdr, Array.getElem?_modify, w.same q shown]

/-- Twins with other tables. -/
def withTables (w : Twins F start held) (veil : Veil F) (t : Store F)
    (veiled : t.Veiled start held veil) (pairs : t.pairs = w.left.pairs)
    (hidden : veil.hidden = w.veil.hidden) : Twins F start held where
  veil := veil
  left := t
  pairs := w.pairs
  veiled := veiled
  size := by rw [pairs, w.size]
  same p shown := by
    rw [hidden] at shown
    rw [pairs, w.same p shown]

theorem cons_le (first : w.veil.data a) (second : w.veil.data b) : w.Le (w.cons first second) where
  hidden _ := id
  old _ _ := id
  data _ := .inl
  left := Store.lasts_cons w.veiled.there
  right := Store.lasts_cons (s := w.right) fun p hides => w.size ▸ w.veiled.there p hides

theorem hide_le (a b c : Value F) : w.Le (w.hide a b c) where
  hidden _ := .inl
  old _ lt hides := hides.resolve_right (Nat.ne_of_lt lt)
  data _ := id
  left := Store.lasts_cons w.veiled.there
  right := Store.lasts_cons (s := w.right) fun p hides => w.size ▸ w.veiled.there p hides

theorem setCdr_le (shown : ¬ w.veil.hidden p) (datum : w.veil.data v) :
    w.Le (w.setCdr p v datum) where
  hidden _ := id
  old _ _ := id
  data _ := id
  left := Store.lasts_setCdr shown
  right := Store.lasts_setCdr (s := w.right) shown

theorem withTables_le {veil : Veil F} {t : Store F} (veiled : t.Veiled start held veil)
    (pairs : t.pairs = w.left.pairs) (hidden : veil.hidden = w.veil.hidden)
    (data : ∀ v, w.veil.data v → veil.data v) :
    w.Le (w.withTables veil t veiled pairs hidden) where
  hidden _ hides := hidden ▸ hides
  old _ _ hides := hidden ▸ hides
  data := data
  left := Store.lasts_of_pairs pairs
  right := Store.lasts_of_pairs rfl

/-- The stores are those of later twins that have the property. -/
def Leads (w : Twins F start held) (s t : Store F) (post : Twins F start held → Prop) : Prop :=
  ∃ later, w.Le later ∧ later.left = s ∧ later.right = t ∧ post later

theorem leads_cons (first : w.veil.data a) (second : w.veil.data b) :
    w.Leads (w.left.cons a b).2 (w.right.cons a b).2 fun later =>
      (w.right.cons a b).1 = (w.left.cons a b).1 ∧ later.veil.data (w.left.cons a b).1 :=
  ⟨_, cons_le first second, rfl, rfl, congrArg Value.pair w.size, .inr rfl⟩

theorem leads_makeDictionary (w : Twins F start held) :
    w.Leads w.left.makeDictionary.2 w.right.makeDictionary.2 fun later =>
      later.veil.data w.left.makeDictionary.1 :=
  ⟨_, withTables_le w.veiled.makeDictionary rfl rfl fun _ => .inl, rfl, rfl, .inr rfl⟩

theorem leads_clear [DecidableEq F] :
    w.Leads (w.left.clear v).2 (w.right.clear v).2 fun _ => True := by
  have le := withTables_le w.veiled.clear (Store.pairs_clear v w.left) rfl fun _ => id
  cases v <;> exact ⟨_, le, rfl, rfl, trivial⟩

theorem leads_put [DecidableEq F] (first : w.veil.data a) (second : w.veil.data b) :
    w.Leads (w.left.put v a b).2 (w.right.put v a b).2 fun _ => True := by
  have le := withTables_le (w.veiled.put first second) (Store.pairs_put v a b w.left) rfl
    fun _ => id
  cases v <;> exact ⟨_, le, rfl, rfl, trivial⟩

theorem leads_setCdr (shown : ∀ p, a = .pair p → ¬ w.veil.hidden p) (datum : w.veil.data v) :
    w.Leads (w.left.setCdr a v) (w.right.setCdr a v) fun _ => True := by
  cases a with
  | pair p => exact ⟨_, setCdr_le (shown p rfl) datum, rfl, rfl, trivial⟩
  | _ => exact ⟨w, .refl w, rfl, rfl, trivial⟩

theorem leads_setSymbolValue (datum : w.veil.data v) :
    w.Leads (w.left.setSymbolValue a v) (w.right.setSymbolValue a v) fun _ => True := by
  have le := withTables_le (w.veiled.setSymbolValue datum) (Store.pairs_setSymbolValue a v w.left)
    rfl fun _ => id
  refine ⟨_, le, rfl, ?_, trivial⟩
  cases a with
  | symbol id => cases id <;> rfl
  | _ => rfl

end Twins

end SmallLisp
