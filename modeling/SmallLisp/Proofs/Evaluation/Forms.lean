import SmallLisp.Proofs.Evaluation.Apart
import SmallLisp.Proofs.Store.Tree

/-! # Forms that wait for their turn

The forms of a text are put into the store one after another before the first of them is evaluated.
Each fills a block of its own, to which nothing refers but the form. So a form is still the tree that
was read when its turn comes, whatever the forms before it did.
-/

namespace SmallLisp

variable {F : Type}

/-- The value is no pair from `place` on. -/
def Value.Below (place : Nat) : Value F → Prop
  | .pair p => p < place
  | _ => True

theorem Value.Below.outside {lo hi size : Nat} {v : Value F} (below : v.Below lo) (le : lo ≤ size) :
    v.Outside lo hi size := by
  cases v with
  | pair p => exact ⟨Nat.lt_of_lt_of_le below le, .inl below⟩
  | _ => trivial

theorem Value.Below.mono {place other : Nat} {v : Value F} (below : v.Below place)
    (le : place ≤ other) : v.Below other := by
  cases v with
  | pair p => exact Nat.lt_of_lt_of_le below le
  | _ => trivial

theorem Value.outside_zero_iff {size : Nat} {v : Value F} : v.Outside 0 0 size ↔ v.Below size := by
  cases v with
  | pair p => exact and_iff_left (.inr (Nat.zero_le p))
  | _ => exact Iff.rfl

namespace Store

variable {lo hi : Nat} {s t : Store F} {v w : Value F}

/-- The pairs from `lo` up to `hi` are a block that nothing outside refers to, and each of its pairs
    refers to older ones only. -/
structure Block (lo hi : Nat) (s : Store F) : Prop where
  ordered : lo ≤ hi
  apart : s.Apart lo hi
  older : ∀ p pair, lo ≤ p → p < hi → s.pairs[p]? = some pair →
    pair.car.Below p ∧ pair.cdr.Below p

/-- Nothing refers to a pair that is not there. -/
def Intact (s : Store F) : Prop := s.Block 0 0

theorem Intact.halves (intact : s.Intact) (inside : v.Below s.pairs.size) :
    (s.car v).Below s.pairs.size ∧ (s.cdr v).Below s.pairs.size := by
  rw [← Value.outside_zero_iff] at inside
  exact ⟨Value.outside_zero_iff.mp (intact.apart.car inside),
    Value.outside_zero_iff.mp (intact.apart.cdr inside)⟩

theorem Apart.change {lo' hi' : Nat} (apart : s.Apart lo hi) (inside : hi' ≤ s.pairs.size)
    (free : ∀ v : Value F, v.Outside lo hi s.pairs.size → v.Outside lo' hi' s.pairs.size)
    (freed : ∀ p pair, lo ≤ p → p < hi → p < lo' ∨ hi' ≤ p → s.pairs[p]? = some pair →
      pair.car.Outside lo' hi' s.pairs.size ∧ pair.cdr.Outside lo' hi' s.pairs.size) :
    s.Apart lo' hi' := by
  refine ⟨inside, fun p pair found outside => ?_, fun id symbol found => ?_, fun d e entered => ?_⟩
  · by_cases before : lo ≤ p ∧ p < hi
    · exact freed p pair before.1 before.2 outside found
    · obtain ⟨car, cdr⟩ := apart.pairs p pair found (by omega)
      exact ⟨free _ car, free _ cdr⟩
  · exact free _ (apart.slots id symbol found)
  · obtain ⟨key, value⟩ := apart.entries d e entered
    exact ⟨free _ key, free _ value⟩

/-- The front of a block can be given free: what it refers to is older than what stays. -/
theorem Block.release {next : Nat} (block : s.Block lo hi) (le : lo ≤ next) (fits : next ≤ hi) :
    s.Block next hi := by
  have inside := block.apart.inside
  have apart : s.Apart next hi := by
    apply block.apart.change inside
    · intro v outside
      cases v with
      | pair p =>
          obtain ⟨there, apart⟩ := outside
          exact ⟨there, by omega⟩
      | _ => trivial
    · intro p pair from_ upto released found
      obtain ⟨car, cdr⟩ := block.older p pair from_ upto found
      have early : p ≤ next := by omega
      exact ⟨(car.mono early).outside (by omega), (cdr.mono early).outside (by omega)⟩
  exact ⟨fits, apart, fun p pair from_ => block.older p pair (by omega)⟩

/-- An empty block may stand anywhere. -/
theorem Block.move {place other : Nat} (block : s.Block place place) (le : other ≤ s.pairs.size) :
    s.Block other other := by
  refine ⟨Nat.le_refl _, ?_, fun p pair from_ upto => by omega⟩
  apply block.apart.change le
  · intro v outside
    cases v with
    | pair p => exact ⟨outside.1, by omega⟩
    | _ => trivial
  · intro p pair from_ upto
    omega

theorem Block.of_sameBlock (block : s.Block lo hi) (apart : t.Apart lo hi)
    (same : s.SameBlock lo hi t) : t.Block lo hi := by
  refine ⟨block.ordered, apart, fun p pair from_ upto found => ?_⟩
  rw [same.pairs p from_ upto] at found
  exact block.older p pair from_ upto found

theorem pairs_intern (name : String) (s : Store F) : (s.intern name).2.pairs = s.pairs := by
  unfold intern
  split <;> rfl

theorem pairs_internAll (names : List String) (s : Store F) : (s.internAll names).pairs = s.pairs := by
  induction names generalizing s with
  | nil => rfl
  | cons name names ih => exact (ih (s.intern name).2).trans (pairs_intern name s)

theorem forall_slots_intern {P : Value F → Prop}
    (old : ∀ id symbol, s.symbol? id = some symbol → P symbol.value) (base : P .nil)
    (name : String) :
    ∀ id symbol, (s.intern name).2.symbol? id = some symbol → P symbol.value := by
  intro id symbol found
  unfold Store.intern at found
  split at found
  · exact old id symbol found
  · cases id with
    | interned i =>
        simp only [symbol?, Array.getElem?_push] at found
        split at found
        · cases found
          exact base
        · exact old (.interned i) symbol found
    | loose i => exact old (.loose i) symbol found

theorem entries_intern (name : String) (s : Store F) : (s.intern name).2.entries = s.entries := by
  unfold Store.intern
  split <;> rfl

theorem Block.intern (block : s.Block lo hi) (name : String) : (s.intern name).2.Block lo hi := by
  have pairs := pairs_intern name s
  refine ⟨block.ordered, block.apart.withPairs pairs
    (forall_slots_intern block.apart.slots trivial name) ?_, ?_⟩
  · rw [entries_intern]
    exact block.apart.entries
  · rw [pairs]
    exact block.older

theorem Block.internAll (block : s.Block lo hi) (names : List String) :
    (s.internAll names).Block lo hi := by
  induction names generalizing s with
  | nil => exact block
  | cons name names ih => exact ih (block.intern name)

/-- A block at the end of the store takes in the next pair. -/
theorem Block.cons (block : s.Block lo s.pairs.size) (first : v.Below s.pairs.size)
    (second : w.Below s.pairs.size) : (s.cons v w).2.Block lo (s.pairs.size + 1) := by
  have ordered := block.ordered
  have size : (s.cons v w).2.pairs.size = s.pairs.size + 1 := by simp [Store.cons]
  have free : ∀ v : Value F, v.Outside lo s.pairs.size s.pairs.size →
      v.Outside lo (s.pairs.size + 1) (s.pairs.size + 1) := by
    intro v outside
    cases v with
    | pair p =>
        obtain ⟨there, apart⟩ := outside
        exact ⟨by omega, by omega⟩
    | _ => trivial
  refine ⟨by omega, ⟨Nat.le_of_eq size.symm, ?_, ?_, ?_⟩, ?_⟩
  · intro p pair found outside
    simp only [Store.cons, Array.getElem?_push] at found
    split at found
    · omega
    · rw [size]
      have there := (Array.getElem?_eq_some_iff.mp found).1
      obtain ⟨car, cdr⟩ := block.apart.pairs p pair found (by omega)
      exact ⟨free _ car, free _ cdr⟩
  · intro id symbol found
    rw [size]
    exact free _ (block.apart.slots id symbol found)
  · intro d e entered
    rw [size]
    obtain ⟨key, value⟩ := block.apart.entries d e entered
    exact ⟨free _ key, free _ value⟩
  · intro p pair from_ upto found
    simp only [Store.cons, Array.getElem?_push] at found
    split at found
    · next last =>
        cases found
        rw [last]
        exact ⟨first, second⟩
    · exact block.older p pair from_ (by omega) found

/-- The store has the object that the value is. -/
def Has (s : Store F) : Value F → Prop
  | .pair p => p < s.pairs.size
  | .symbol (.interned i) => i < s.names.length
  | _ => True

theorem Has.mono (has : s.Has v) (pairs : s.pairs.size ≤ t.pairs.size)
    (names : s.names.length ≤ t.names.length) : t.Has v := by
  cases v with
  | pair p => exact Nat.lt_of_lt_of_le has pairs
  | symbol id =>
      cases id with
      | interned i => exact Nat.lt_of_lt_of_le has names
      | loose i => trivial
  | _ => trivial

/-- Nothing refers to a pair or a symbol of the table that is not there. -/
structure Grounded (s : Store F) : Prop where
  pairs : ∀ (p : Nat) (pair : Pair F), s.pairs[p]? = some pair → s.Has pair.car ∧ s.Has pair.cdr
  slots : ∀ id symbol, s.symbol? id = some symbol → s.Has symbol.value
  entries : ∀ d e, e ∈ s.entries (.dictionary d) → s.Has e.1 ∧ s.Has e.2

namespace Grounded

theorem intact (grounded : s.Grounded) : s.Intact := by
  have outside {v : Value F} (has : s.Has v) : v.Outside 0 0 s.pairs.size := by
    cases v with
    | pair p => exact ⟨has, .inr (Nat.zero_le p)⟩
    | _ => trivial
  refine ⟨Nat.le_refl 0, ⟨Nat.zero_le _, fun p pair found _ => ?_, fun id symbol found => ?_,
    fun d e entered => ?_⟩, fun p pair _ upto => by omega⟩
  · obtain ⟨car, cdr⟩ := grounded.pairs p pair found
    exact ⟨outside car, outside cdr⟩
  · exact outside (grounded.slots id symbol found)
  · obtain ⟨key, value⟩ := grounded.entries d e entered
    exact ⟨outside key, outside value⟩

/-- The pairs and dictionaries stay as they are, and the table may grow. -/
theorem withSlots (grounded : s.Grounded) (pairs : t.pairs = s.pairs)
    (names : s.names.length ≤ t.names.length)
    (slots : ∀ id symbol, t.symbol? id = some symbol → t.Has symbol.value)
    (entries : t.entries = s.entries) : t.Grounded := by
  have still {v : Value F} (has : s.Has v) : t.Has v := has.mono (by rw [pairs]) names
  refine ⟨fun p pair found => ?_, slots, fun d e entered => ?_⟩
  · rw [pairs] at found
    obtain ⟨car, cdr⟩ := grounded.pairs p pair found
    exact ⟨still car, still cdr⟩
  · rw [entries] at entered
    obtain ⟨key, value⟩ := grounded.entries d e entered
    exact ⟨still key, still value⟩

theorem intern (grounded : s.Grounded) (name : String) : (s.intern name).2.Grounded := by
  have grows := intern_grows name s
  apply grounded.withSlots (pairs_intern name s) grows.names.length_le ?_ (entries_intern name s)
  exact forall_slots_intern
    (fun id symbol found => (grounded.slots id symbol found).mono grows.size_le grows.names.length_le)
    trivial name

theorem internAll (grounded : s.Grounded) (names : List String) : (s.internAll names).Grounded := by
  induction names generalizing s with
  | nil => exact grounded
  | cons name names ih => exact ih (grounded.intern name)

theorem setGlobal (grounded : s.Grounded) (name : String) (has : s.Has w) :
    (s.setGlobal name w).Grounded := by
  have grows := intern_grows name s
  have pairs := pairs_setSymbolValue (s.intern name).1 w (s.intern name).2
  have names := names_setSymbolValue (s.intern name).1 w (s.intern name).2
  have still {v : Value F} (has : (s.intern name).2.Has v) : (s.setGlobal name w).Has v :=
    has.mono (Nat.le_of_eq (congrArg Array.size pairs.symm)) (Nat.le_of_eq (congrArg List.length names.symm))
  apply (grounded.intern name).withSlots pairs (Nat.le_of_eq (congrArg List.length names.symm)) ?_
    (entries_setSymbolValue _ w _)
  exact forall_slots_setSymbolValue
    (fun id symbol found => still ((grounded.intern name).slots id symbol found))
    (still (has.mono grows.size_le grows.names.length_le))

/-- Functions of the machine refer to nothing. -/
theorem setNatives {α : Type} (grounded : s.Grounded) (name : α → String) (f : α → Native F)
    (items : List α) :
    (items.foldl (fun s x => s.setGlobal (name x) (.native (f x))) s).Grounded := by
  induction items generalizing s with
  | nil => exact grounded
  | cons x items ih => exact ih (grounded.setGlobal (name x) trivial)

theorem withHost {σ : Type} (grounded : s.Grounded) (host : Host F σ) :
    (s.withHost host).Grounded :=
  grounded.setNatives host.name .host host.functions

end Grounded

theorem empty_grounded : (empty : Store F).Grounded := by
  refine ⟨fun p pair found => ?_, fun id symbol found => ?_, fun d e entered => ?_⟩
  · simp [empty] at found
  · cases id <;> simp [symbol?, empty] at found
  · simp [entries, empty] at entered

theorem standard_grounded : (standard : Store F).Grounded := by
  have bare : (bare : Store F).Grounded := empty_grounded.internAll _
  exact (bare.setNatives Builtin.name .builtin Builtin.all).setGlobal "pi" trivial

/-! ### Loading at the end of the store -/

theorem Block.loadAtom (block : s.Block lo hi) (a : Atom) : (s.loadAtom a).2.Block lo hi := by
  cases a with
  | symbol name => exact block.intern name
  | nil | bool | number | string | native | dictionary | eof => exact block

theorem pairs_loadAtom (s : Store F) (a : Atom) : (s.loadAtom a).2.pairs = s.pairs := by
  cases a with
  | symbol name => exact pairs_intern name s
  | nil | bool | number | string | native | dictionary | eof => rfl

theorem below_intern (name : String) (s : Store F) (place : Nat) :
    (s.intern name).1.Below place := by
  unfold intern lookup?
  cases s.interned.findIdx? _ <;> trivial

theorem below_loadAtom (s : Store F) (a : Atom) (place : Nat) : (s.loadAtom a).1.Below place := by
  cases a with
  | symbol name => exact below_intern name s place
  | nil | bool | number | string | native | dictionary | eof => trivial

theorem Block.load (block : s.Block lo s.pairs.size) (d : Datum) :
    (s.load d).2.Block lo (s.load d).2.pairs.size ∧
      (s.load d).1.Below (s.load d).2.pairs.size := by
  induction d generalizing s with
  | atom a =>
      refine ⟨?_, below_loadAtom s a _⟩
      rw [load, pairs_loadAtom]
      exact block.loadAtom a
  | cons a b carLoads cdrLoads =>
      obtain ⟨first, car⟩ := carLoads block
      obtain ⟨second, cdr⟩ := cdrLoads first
      have grown := ((s.load a).2.load_grows b).size_le
      have size : (s.load (.cons a b)).2.pairs.size = ((s.load a).2.load b).2.pairs.size + 1 := by
        simp [load, Store.cons]
      rw [size]
      exact ⟨second.cons (car.mono grown) cdr, Nat.lt_succ_self _⟩

/-- The value is the root of the tree, whose pairs stand from the first place up to the second, each one
    behind those of its two halves. -/
inductive Laid (s : Store F) : Nat → Value F → Datum → Nat → Prop where
  | leaf {place : Nat} {v : Value F} {a : Atom} : s.Keeps Atom.Literal v a →
      Laid s place v (.atom a) place
  | pair {lo mid p : Nat} {car cdr : Value F} {a b : Datum} : Laid s lo car a mid →
      Laid s mid cdr b p → s.pairs[p]? = some ⟨car, cdr⟩ → Laid s lo (.pair p) (.cons a b) (p + 1)

variable {d : Datum}

theorem Laid.le (laid : s.Laid lo v d hi) : lo ≤ hi := by
  induction laid with
  | leaf => exact Nat.le_refl _
  | pair _ _ _ car cdr => omega

theorem Laid.tree (laid : s.Laid lo v d hi) : s.Tree (s.Keeps Atom.Literal) v d := by
  induction laid with
  | leaf kept => exact .leaf kept
  | pair _ _ found car cdr => exact .pair found car cdr

theorem Laid.root_below (laid : s.Laid lo v d hi) : v.Below hi := by
  cases laid with
  | leaf kept =>
      cases v with
      | pair => cases kept.shown
      | _ => trivial
  | pair => exact Nat.lt_succ_self _

theorem Laid.extend (laid : s.Laid lo v d hi) (extends_ : s.Extends t) : t.Laid lo v d hi := by
  induction laid with
  | leaf kept => exact .leaf (kept.extend extends_)
  | pair _ _ found car cdr => exact .pair car cdr (extends_.found found)

theorem lookup?_eq_names (s : Store F) (name : String) :
    s.lookup? name = (s.names.findIdx? (· == name)).map fun i => .symbol (.interned i) := by
  rw [lookup?, names, List.findIdx?_map, ← List.findIdx?_toArray]
  rfl

theorem Keeps.of_names {P : Atom → Prop} {a : Atom} (kept : s.Keeps P v a)
    (same : t.names = s.names) : t.Keeps P v a := by
  have lookup : ∀ name, t.lookup? name = s.lookup? name := by
    intro name
    rw [lookup?_eq_names, lookup?_eq_names, same]
  refine ⟨?_, kept.property, fun name named => (lookup name).trans (kept.interned name named)⟩
  have shown := kept.shown
  cases v with
  | symbol id =>
      have found := kept.interned _ (Option.some.inj shown).symm
      rw [← shown]
      exact leaf?_of_lookup? ((lookup _).trans found)
  | nil | bool | number | string | native | dictionary | eof => exact shown
  | pair => cases shown

theorem SameBlock.narrow {lo' hi' : Nat} (same : s.SameBlock lo hi t) (le : lo ≤ lo')
    (fits : hi' ≤ hi) : s.SameBlock lo' hi' t :=
  ⟨fun p from_ upto => same.pairs p (by omega) (by omega), same.names⟩

theorem Laid.of_sameBlock (laid : s.Laid lo v d hi) (same : s.SameBlock lo hi t) :
    t.Laid lo v d hi := by
  induction laid with
  | leaf kept => exact .leaf (kept.of_names same.names)
  | @pair lo mid p _ _ _ _ first second found car cdr =>
      have le := first.le
      have further := second.le
      exact .pair (car (same.narrow (Nat.le_refl _) (by omega)))
        (cdr (same.narrow le (by omega))) ((same.pairs p (by omega) (by omega)).trans found)

theorem load_laid (s : Store F) (literal : d.Leaves Atom.Literal) :
    (s.load d).2.Laid s.pairs.size (s.load d).1 d (s.load d).2.pairs.size := by
  induction d generalizing s with
  | atom a =>
      rw [load, pairs_loadAtom]
      exact .leaf (s.loadAtom_keeps literal literal)
  | cons a b carLoads cdrLoads =>
      have first := carLoads s literal.1
      have second := cdrLoads (s.load a).2 literal.2
      have grown := (s.load a).2.load_grows b
      have last := cons_grows (s.load a).1 ((s.load a).2.load b).1 ((s.load a).2.load b).2
      have found : ((s.load (.cons a b)).2).pairs[((s.load a).2.load b).2.pairs.size]? =
          some ⟨(s.load a).1, ((s.load a).2.load b).1⟩ := by simp [load, Store.cons]
      have size : (s.load (.cons a b)).2.pairs.size = ((s.load a).2.load b).2.pairs.size + 1 := by
        simp [load, Store.cons]
      rw [size]
      exact .pair (first.extend (grown.trans last).toExtends) (second.extend last.toExtends) found

/-- The values are the data, each in a part of the store of its own. The parts follow one another. -/
inductive Queue (s : Store F) (stop : Nat) : Nat → List (Value F) → List Datum → Prop where
  | nil : Queue s stop stop [] []
  | cons {start next : Nat} {v : Value F} {d : Datum} {values : List (Value F)}
      {data : List Datum} : s.Laid start v d next → Queue s stop next values data →
      Queue s stop start (v :: values) (d :: data)

variable {start stop : Nat} {values : List (Value F)} {data : List Datum}

theorem Queue.le (queue : s.Queue stop start values data) : start ≤ stop := by
  induction queue with
  | nil => exact Nat.le_refl _
  | cons laid _ ih => exact Nat.le_trans laid.le ih

theorem Queue.length_eq (queue : s.Queue stop start values data) : values.length = data.length := by
  induction queue with
  | nil => rfl
  | cons _ _ ih => exact congrArg (· + 1) ih

theorem Queue.of_sameBlock (queue : s.Queue stop start values data)
    (same : s.SameBlock start stop t) : t.Queue stop start values data := by
  induction queue with
  | nil => exact .nil
  | cons laid later ih =>
      exact .cons (laid.of_sameBlock (same.narrow (Nat.le_refl _) later.le))
        (ih (same.narrow laid.le (Nat.le_refl _)))

theorem Block.loadAll (block : s.Block lo s.pairs.size) (data : List Datum) :
    (s.loadAll data).2.Block lo (s.loadAll data).2.pairs.size := by
  induction data generalizing s with
  | nil => exact block
  | cons d rest ih => exact ih (block.load d).1

theorem loadAll_queue (s : Store F) (literal : ∀ d ∈ data, d.Leaves Atom.Literal) :
    (s.loadAll data).2.Queue (s.loadAll data).2.pairs.size s.pairs.size (s.loadAll data).1 data := by
  induction data generalizing s with
  | nil => exact .nil
  | cons d rest ih =>
      obtain ⟨here, others⟩ := List.forall_mem_cons.mp literal
      exact .cons ((s.load_laid here).extend ((s.load d).2.loadAll_grows rest).toExtends)
        (ih (s.load d).2 others)

/-- The values are forms that wait at the end of the store, out of reach of everything else. -/
structure Waiting (s : Store F) (start stop : Nat) (values : List (Value F))
    (data : List Datum) : Prop where
  block : s.Block start stop
  queue : s.Queue stop start values data

/-- In an intact store, forms that are loaded wait out of reach. -/
theorem Intact.loadAll (intact : s.Intact) (literal : ∀ d ∈ data, d.Leaves Atom.Literal) :
    (s.loadAll data).2.Waiting s.pairs.size (s.loadAll data).2.pairs.size (s.loadAll data).1 data :=
  ⟨(Block.move intact (Nat.le_refl _)).loadAll data, s.loadAll_queue literal⟩

theorem Waiting.datum? {v : Value F} {d : Datum}
    (waiting : s.Waiting start stop (v :: values) (d :: data)) : s.datum? v = some d := by
  cases waiting.queue with
  | cons laid _ => exact laid.tree.shows.datum?

/-- The first form can be evaluated without touching the others. -/
theorem Waiting.step {v : Value F} {d : Datum}
    (waiting : s.Waiting start stop (v :: values) (d :: data)) :
    ∃ next, s.Laid start v d next ∧ next ≤ stop ∧
      s.Apart next stop ∧ v.Outside next stop s.pairs.size ∧
      ∀ t : Store F, t.Apart next stop → s.SameBlock next stop t →
        t.Waiting next stop values data := by
  cases waiting.queue with
  | @cons _ next _ _ _ _ laid later =>
      have rest := waiting.block.release laid.le later.le
      have inside := rest.apart.inside
      have fits := later.le
      refine ⟨next, laid, fits, rest.apart, laid.root_below.outside (by omega), fun t apart same => ?_⟩
      exact ⟨rest.of_sameBlock apart same, later.of_sameBlock same⟩

theorem Waiting.intact (waiting : s.Waiting start stop [] []) : s.Intact := by
  cases waiting.queue with
  | nil => exact waiting.block.move (Nat.zero_le _)

end Store

end SmallLisp
