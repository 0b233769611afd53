import SmallLisp.Proofs.Evaluation.Forms
import SmallLisp.Proofs.Store.Paths

/-! # What the pairs of a store are for

Some pairs are data, others make up environments: the cells of the list that an environment is, and the
bindings, each of a parameter and its value. No datum refers to a cell or a binding. A cell refers to
one binding and to an older cell, so that an environment is a list that ends; a binding refers to data.

Nothing ever replaces the first half of a pair, nor the second half of a cell. So what an environment
has under a key is found in it for good.
-/

namespace SmallLisp

variable {F σ : Type}

/-- What a pair is for. -/
inductive Role where
  | datum
  /-- A pair of the list that an environment is. -/
  | cell
  /-- A pair of a parameter and its value. -/
  | binding
  deriving DecidableEq

/-- What the pairs of a store of this size are for. -/
structure Roles where
  size : Nat
  of : Nat → Role

namespace Roles

def Plays (r : Roles) (role : Role) (p : Nat) : Prop :=
  p < r.size ∧ r.of p = role

/-- The value is no pair of an environment. -/
def Datum (r : Roles) : Value F → Prop
  | .pair p => r.Plays .datum p
  | _ => True

def Environment (r : Roles) : Value F → Prop
  | .nil => True
  | .pair p => r.Plays .cell p
  | _ => False

/-- The pair at this place has halves as its role asks for. -/
def Holds (r : Roles) (role : Role) (place : Nat) (pair : Pair F) : Prop :=
  match role with
  | .cell => (∃ b, pair.car = .pair b ∧ r.Plays .binding b) ∧ r.Environment pair.cdr ∧
      pair.cdr.Below place
  | .datum | .binding => r.Datum pair.car ∧ r.Datum pair.cdr

/-- The roles with one more pair. -/
def push (role : Role) (r : Roles) : Roles :=
  ⟨r.size + 1, fun p => if p = r.size then role else r.of p⟩

/-- A pair keeps its role. -/
structure Le (r t : Roles) : Prop where
  size : r.size ≤ t.size
  of : ∀ p < r.size, t.of p = r.of p

variable {r t u : Roles} {role : Role} {v : Value F}

theorem Le.refl (r : Roles) : r.Le r :=
  ⟨Nat.le_refl _, fun _ _ => rfl⟩

theorem Le.trans (first : r.Le t) (second : t.Le u) : r.Le u :=
  ⟨Nat.le_trans first.size second.size, fun p lt =>
    (second.of p (Nat.lt_of_lt_of_le lt first.size)).trans (first.of p lt)⟩

theorem le_push (role : Role) (r : Roles) : r.Le (r.push role) :=
  ⟨Nat.le_succ _, fun _ lt => if_neg (Nat.ne_of_lt lt)⟩

theorem plays_push (role : Role) (r : Roles) : (r.push role).Plays role r.size :=
  ⟨Nat.lt_succ_self _, if_pos rfl⟩

theorem Plays.mono {p : Nat} (plays : r.Plays role p) (le : r.Le t) : t.Plays role p :=
  ⟨Nat.lt_of_lt_of_le plays.1 le.size, (le.of p plays.1).trans plays.2⟩

theorem Datum.mono (datum : r.Datum v) (le : r.Le t) : t.Datum v := by
  cases v with
  | pair p => exact Plays.mono datum le
  | _ => trivial

theorem Environment.mono (env : r.Environment v) (le : r.Le t) : t.Environment v := by
  cases v with
  | nil => trivial
  | pair p => exact Plays.mono env le
  | _ => exact env

theorem Holds.mono {place : Nat} {pair : Pair F} (holds : r.Holds role place pair) (le : r.Le t) :
    t.Holds role place pair := by
  cases role with
  | datum | binding => exact ⟨holds.1.mono le, holds.2.mono le⟩
  | cell =>
      obtain ⟨⟨b, same, plays⟩, env, below⟩ := holds
      exact ⟨⟨b, same, plays.mono le⟩, env.mono le, below⟩

end Roles

namespace Store

/-- The pairs play these roles, and slots and dictionaries hold data. -/
structure Secludes (s : Store F) (r : Roles) : Prop where
  size : s.pairs.size = r.size
  pairs : ∀ p pair, s.pairs[p]? = some pair → r.Holds (r.of p) p pair
  slots : ∀ id symbol, s.symbol? id = some symbol → r.Datum symbol.value
  entries : ∀ d e, e ∈ s.entries (.dictionary d) → r.Datum e.1 ∧ r.Datum e.2

namespace Secludes

variable {s t : Store F} {r : Roles} {v w : Value F} {p : Nat}

theorem found (secludes : s.Secludes r) (lt : p < r.size) :
    s.pairs[p]? = some ⟨s.car (.pair p), s.cdr (.pair p)⟩ :=
  found_of_lt (secludes.size ▸ lt)

/-- A pair that is no cell has data in both halves. -/
theorem halves (secludes : s.Secludes r) (lt : p < r.size) (free : r.of p ≠ .cell) :
    r.Datum (s.car (.pair p)) ∧ r.Datum (s.cdr (.pair p)) := by
  have holds := secludes.pairs p _ (secludes.found lt)
  cases role : r.of p with
  | cell => exact absurd role free
  | datum | binding =>
      rw [role] at holds
      exact holds

theorem cell (secludes : s.Secludes r) (plays : r.Plays .cell p) :
    (∃ b, s.car (.pair p) = .pair b ∧ r.Plays .binding b) ∧ r.Environment (s.cdr (.pair p)) ∧
      (s.cdr (.pair p)).Below p := by
  have holds := secludes.pairs p _ (secludes.found plays.1)
  rw [plays.2] at holds
  exact holds

theorem car (secludes : s.Secludes r) (datum : r.Datum v) : r.Datum (s.car v) := by
  cases v with
  | pair p => exact (secludes.halves datum.1 (by simp [datum.2])).1
  | _ => trivial

theorem cdr (secludes : s.Secludes r) (datum : r.Datum v) : r.Datum (s.cdr v) := by
  cases v with
  | pair p => exact (secludes.halves datum.1 (by simp [datum.2])).2
  | _ => trivial

theorem symbolValue (secludes : s.Secludes r) (v : Value F) : r.Datum (s.symbolValue v) := by
  cases v with
  | symbol id =>
      cases found : s.symbol? id with
      | none => simp [Store.symbolValue, found, Roles.Datum]
      | some symbol =>
          simp only [Store.symbolValue, found]
          exact secludes.slots id symbol found
  | _ => trivial

/-- A new pair may have any role that its halves fit. -/
theorem cons (secludes : s.Secludes r) (role : Role) (holds : r.Holds role r.size ⟨v, w⟩) :
    (s.cons v w).2.Secludes (r.push role) := by
  have le := Roles.le_push role r
  constructor
  · simp [Store.cons, Roles.push, secludes.size]
  · intro p pair found
    simp only [Store.cons, Array.getElem?_push, secludes.size] at found
    split at found
    · next last =>
        cases found
        rw [last, (Roles.plays_push role r).2]
        exact holds.mono le
    · have lt := (Array.getElem?_eq_some_iff.mp found).1
      rw [secludes.size] at lt
      rw [le.of p lt]
      exact (secludes.pairs p pair found).mono le
  · intro id symbol found
    exact (secludes.slots id symbol found).mono le
  · intro d e entered
    obtain ⟨key, value⟩ := secludes.entries d e entered
    exact ⟨key.mono le, value.mono le⟩

theorem setCdr (secludes : s.Secludes r) (free : r.of p ≠ .cell) (datum : r.Datum w) :
    (s.setCdr (.pair p) w).Secludes r := by
  refine ⟨by simp [Store.setCdr, secludes.size], fun q pair found => ?_, secludes.slots,
    secludes.entries⟩
  simp only [Store.setCdr, Array.getElem?_modify] at found
  split at found
  · next same =>
      obtain ⟨old, there, rfl⟩ := Option.map_eq_some_iff.mp found
      have holds := secludes.pairs q old there
      rw [← same] at holds ⊢
      cases role : r.of p with
      | cell => exact absurd role free
      | datum | binding =>
          rw [role] at holds
          exact ⟨holds.1, datum⟩
  · exact secludes.pairs q pair found

/-- A change of the slots or of the dictionaries leaves the roles if data are put there. -/
theorem withPairs (secludes : s.Secludes r) (pairs : t.pairs = s.pairs)
    (slots : ∀ id symbol, t.symbol? id = some symbol → r.Datum symbol.value)
    (entries : ∀ d e, e ∈ t.entries (.dictionary d) → r.Datum e.1 ∧ r.Datum e.2) :
    t.Secludes r := by
  refine ⟨?_, ?_, slots, entries⟩
  · rw [pairs]
    exact secludes.size
  · rw [pairs]
    exact secludes.pairs

theorem setSymbolValue (secludes : s.Secludes r) (datum : r.Datum w) :
    (s.setSymbolValue v w).Secludes r :=
  secludes.withPairs (pairs_setSymbolValue v w s) (forall_slots_setSymbolValue secludes.slots datum)
    (entries_setSymbolValue v w s ▸ secludes.entries)

theorem makeDictionary (secludes : s.Secludes r) : s.makeDictionary.2.Secludes r :=
  secludes.withPairs rfl secludes.slots (forall_entries_makeDictionary secludes.entries)

theorem clear [DecidableEq F] (secludes : s.Secludes r) : (s.clear v).2.Secludes r :=
  secludes.withPairs (pairs_clear v s) (symbol?_clear v s ▸ secludes.slots)
    (forall_entries_clear secludes.entries v)

theorem put [DecidableEq F] {key : Value F} (secludes : s.Secludes r) (first : r.Datum key)
    (second : r.Datum w) : (s.put v key w).2.Secludes r :=
  secludes.withPairs (pairs_put v key w s) (symbol?_put v key w s ▸ secludes.slots)
    (forall_entries_put secludes.entries v (fun _ => first) fun _ => second)

theorem intern (secludes : s.Secludes r) (name : String) : (s.intern name).2.Secludes r :=
  secludes.withPairs (pairs_intern name s) (forall_slots_intern secludes.slots trivial name)
    (entries_intern name s ▸ secludes.entries)

end Secludes

end Store

/-- A store with the roles of its pairs. -/
structure Scene (F : Type) where
  roles : Roles
  store : Store F
  secludes : store.Secludes roles

namespace Scene

/-- The first halves of pairs and the second halves of cells are as they were. -/
structure Le (u w : Scene F) : Prop where
  roles : u.roles.Le w.roles
  cars : ∀ p < u.roles.size, w.store.car (.pair p) = u.store.car (.pair p)
  cells : ∀ p, u.roles.Plays .cell p → w.store.cdr (.pair p) = u.store.cdr (.pair p)

/-- Neither a slot nor a bound value was replaced. -/
structure Steady (u w : Scene F) : Prop extends Le u w where
  slots : ∀ v, w.store.symbolValue v = u.store.symbolValue v
  bindings : ∀ p, u.roles.Plays .binding p → w.store.cdr (.pair p) = u.store.cdr (.pair p)

/-- Moreover all new pairs are data. -/
structure Tame (u w : Scene F) : Prop extends Steady u w where
  data : ∀ p, u.roles.size ≤ p → p < w.roles.size → w.roles.of p = .datum

variable {u v w : Scene F}

theorem Le.refl (w : Scene F) : w.Le w :=
  ⟨.refl _, fun _ _ => rfl, fun _ _ => rfl⟩

theorem Le.trans (first : u.Le v) (second : v.Le w) : u.Le w where
  roles := first.roles.trans second.roles
  cars p lt := (second.cars p (Nat.lt_of_lt_of_le lt first.roles.size)).trans (first.cars p lt)
  cells p plays := (second.cells p (plays.mono first.roles)).trans (first.cells p plays)

theorem Steady.refl (w : Scene F) : w.Steady w :=
  ⟨.refl w, fun _ => rfl, fun _ _ => rfl⟩

theorem Steady.trans (first : u.Steady v) (second : v.Steady w) : u.Steady w where
  toLe := first.toLe.trans second.toLe
  slots x := (second.slots x).trans (first.slots x)
  bindings p plays := (second.bindings p (plays.mono first.roles)).trans (first.bindings p plays)

theorem Tame.refl (w : Scene F) : w.Tame w :=
  ⟨.refl w, fun p _ _ => by omega⟩

theorem Tame.trans (first : u.Tame v) (second : v.Tame w) : u.Tame w where
  toSteady := first.toSteady.trans second.toSteady
  data p old new := by
    by_cases early : p < v.roles.size
    · rw [second.roles.of p early]
      exact first.data p old early
    · exact second.data p (Nat.le_of_not_lt early) new

/-! ### Environments are lists that last -/

/-- An environment is a list of bindings. -/
theorem listed (w : Scene F) {env : Value F} (environment : w.roles.Environment env) :
    ∃ items, w.store.Listed env items ∧ items.length ≤ w.store.walkBound ∧
      ∀ item ∈ items, ∃ b, item = .pair b ∧ w.roles.Plays .binding b := by
  -- the cells of an environment become older from one to the next
  have ordered : ∀ n (env : Value F), w.roles.Environment env → env.Below n →
      ∃ items, w.store.Listed env items ∧ items.length ≤ n ∧
        ∀ item ∈ items, ∃ b, item = .pair b ∧ w.roles.Plays .binding b := by
    intro n
    induction n with
    | zero =>
        intro env environment below
        cases env with
        | pair p => cases below
        | nil => exact ⟨[], .nil rfl, Nat.le_refl 0, nofun⟩
        | _ => cases environment
    | succ n ih =>
        intro env environment below
        cases env with
        | nil => exact ⟨[], .nil rfl, Nat.zero_le _, nofun⟩
        | pair p =>
            obtain ⟨⟨b, first, plays⟩, rest, older⟩ := w.secludes.cell environment
            obtain ⟨items, listed, short, bindings⟩ :=
              ih _ rest (older.mono (Nat.le_of_lt_succ below))
            refine ⟨_, .cons listed, Nat.succ_le_succ short, ?_⟩
            exact List.forall_mem_cons.mpr ⟨⟨b, first, plays⟩, bindings⟩
        | _ => cases environment
  have below : env.Below w.roles.size := by
    cases env with
    | pair p => exact environment.1
    | _ => trivial
  obtain ⟨items, listed, short, bindings⟩ := ordered _ env environment below
  refine ⟨items, listed, ?_, bindings⟩
  rw [Store.walkBound, w.secludes.size]
  exact Nat.le_succ_of_le short

theorem Le.listed (le : u.Le w) {env : Value F} {items : List (Value F)}
    (environment : u.roles.Environment env) (listed : u.store.Listed env items) :
    w.store.Listed env items := by
  induction listed with
  | nil solid => exact .nil solid
  | @cons p items _ ih =>
      have rest := ih (u.secludes.cell environment).2.1
      rw [← le.cars p environment.1]
      apply Store.Listed.cons
      rw [le.cells p environment]
      exact rest

variable [DecidableEq F]

/-- A key has the same binding in an environment for good. -/
theorem Le.assoc? (le : u.Le w) {key env : Value F} (environment : u.roles.Environment env) :
    w.store.assoc? key env = u.store.assoc? key env := by
  obtain ⟨items, listed, short, bindings⟩ := u.listed environment
  obtain ⟨others, again, still, -⟩ := w.listed (environment.mono le.roles)
  obtain rfl := (le.listed environment listed).unique again
  have keys : w.store.keyed? key items = u.store.keyed? key items := by
    apply List.find?_congr
    intro item among
    obtain ⟨b, rfl, plays⟩ := bindings item among
    rw [le.cars b plays.1]
  rw [listed.assoc? short, again.assoc? still, keys]

/-- A key has a binding in an environment, or none. -/
theorem assoc_cases (w : Scene F) (key : Value F) {env : Value F}
    (environment : w.roles.Environment env) :
    w.store.assoc? key env = some .nil ∨
      ∃ b, w.store.assoc? key env = some (.pair b) ∧ w.roles.Plays .binding b ∧
        (w.store.car (.pair b)).same key = true := by
  obtain ⟨items, listed, short, bindings⟩ := w.listed environment
  rw [listed.assoc? short]
  cases found : w.store.keyed? key items with
  | none => exact .inl rfl
  | some item =>
      obtain ⟨among, same⟩ := Store.keyed?_some found
      obtain ⟨b, rfl, plays⟩ := bindings item among
      exact .inr ⟨b, rfl, plays, same⟩

/-- A key is looked up in the first binding, then in the rest. -/
theorem assoc?_cell (w : Scene F) (key : Value F) {p : Nat} (plays : w.roles.Plays .cell p) :
    w.store.assoc? key (.pair p) =
      if (w.store.car (w.store.car (.pair p))).same key then some (w.store.car (.pair p))
      else w.store.assoc? key (w.store.cdr (.pair p)) := by
  have environment : w.roles.Environment (.pair p : Value F) := plays
  obtain ⟨items, listed, short, -⟩ := w.listed environment
  cases listed with
  | nil solid => cases solid
  | @cons _ items rest =>
      have shorter : items.length ≤ w.store.walkBound := Nat.le_of_succ_le short
      rw [(Store.Listed.cons rest).assoc? short, rest.assoc? shorter, Store.keyed?, List.find?_cons]
      split <;> simp_all [Store.keyed?]

end Scene

end SmallLisp
