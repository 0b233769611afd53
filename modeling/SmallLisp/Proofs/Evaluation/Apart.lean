import SmallLisp.Program
import SmallLisp.Proofs.Evaluation.Worlds

/-! # Evaluation leaves alone what it cannot reach

Pairs are laid out in the order in which they are made. A block of them that nothing outside refers
to stays as it is in every evaluation of an expression outside the block, and nothing outside comes to
refer to it. No evaluation enters a name into the symbol table.
-/

namespace SmallLisp

variable {F σ : Type}

/-- The value is no pair of the block from `lo` up to `hi`, nor one after the end of the store. -/
def Value.Outside (lo hi size : Nat) : Value F → Prop
  | .pair p => p < size ∧ (p < lo ∨ hi ≤ p)
  | _ => True

theorem Value.Outside.mono {lo hi size more : Nat} {v : Value F} (le : size ≤ more)
    (outside : v.Outside lo hi size) : v.Outside lo hi more := by
  cases v with
  | pair p => exact ⟨Nat.lt_of_lt_of_le outside.1 le, outside.2⟩
  | _ => trivial

namespace Store

/-- Nothing outside the block refers to it. -/
structure Apart (lo hi : Nat) (s : Store F) : Prop where
  inside : hi ≤ s.pairs.size
  pairs : ∀ p pair, s.pairs[p]? = some pair → p < lo ∨ hi ≤ p →
    pair.car.Outside lo hi s.pairs.size ∧ pair.cdr.Outside lo hi s.pairs.size
  slots : ∀ id symbol, s.symbol? id = some symbol → symbol.value.Outside lo hi s.pairs.size
  entries : ∀ d e, e ∈ s.entries (.dictionary d) →
    e.1.Outside lo hi s.pairs.size ∧ e.2.Outside lo hi s.pairs.size

/-- The stores have the same pairs in the block and the same names in the symbol table. -/
structure SameBlock (lo hi : Nat) (s t : Store F) : Prop where
  pairs : ∀ p, lo ≤ p → p < hi → t.pairs[p]? = s.pairs[p]?
  names : t.names = s.names

variable {lo hi : Nat} {s : Store F} {v w : Value F}

theorem Apart.car (apart : s.Apart lo hi) (outside : v.Outside lo hi s.pairs.size) :
    (s.car v).Outside lo hi s.pairs.size := by
  cases v with
  | pair p =>
      cases found : s.pairs[p]? with
      | none =>
          simp only [Store.car, found]
          trivial
      | some pair =>
          simp only [Store.car, found]
          exact (apart.pairs p pair found outside.2).1
  | _ => trivial

theorem Apart.cdr (apart : s.Apart lo hi) (outside : v.Outside lo hi s.pairs.size) :
    (s.cdr v).Outside lo hi s.pairs.size := by
  cases v with
  | pair p =>
      cases found : s.pairs[p]? with
      | none =>
          simp only [Store.cdr, found]
          trivial
      | some pair =>
          simp only [Store.cdr, found]
          exact (apart.pairs p pair found outside.2).2
  | _ => trivial

theorem Apart.symbolValue (apart : s.Apart lo hi) (v : Value F) :
    (s.symbolValue v).Outside lo hi s.pairs.size := by
  cases v with
  | symbol id =>
      cases found : s.symbol? id with
      | none =>
          simp only [Store.symbolValue, found]
          trivial
      | some symbol =>
          simp only [Store.symbolValue, found]
          exact apart.slots id symbol found
  | _ => trivial

theorem Apart.cons (apart : s.Apart lo hi) (first : v.Outside lo hi s.pairs.size)
    (second : w.Outside lo hi s.pairs.size) : (s.cons v w).2.Apart lo hi := by
  have grown : s.pairs.size ≤ (s.cons v w).2.pairs.size := by simp [Store.cons]
  refine ⟨Nat.le_trans apart.inside grown, fun p pair found free => ?_, fun id symbol found => ?_,
    fun d e entered => ?_⟩
  · simp only [Store.cons, Array.getElem?_push] at found
    split at found
    · cases found
      exact ⟨first.mono grown, second.mono grown⟩
    · obtain ⟨car, cdr⟩ := apart.pairs p pair found free
      exact ⟨car.mono grown, cdr.mono grown⟩
  · exact (apart.slots id symbol found).mono grown
  · obtain ⟨key, value⟩ := apart.entries d e entered
    exact ⟨key.mono grown, value.mono grown⟩

theorem Apart.setCdr (apart : s.Apart lo hi) (target : v.Outside lo hi s.pairs.size)
    (second : w.Outside lo hi s.pairs.size) : (s.setCdr v w).Apart lo hi := by
  cases v with
  | pair p =>
      have size : (s.setCdr (.pair p) w).pairs.size = s.pairs.size := by simp [Store.setCdr]
      refine ⟨size ▸ apart.inside, fun q pair found free => ?_, fun id symbol found => ?_,
        fun d e entered => ?_⟩
      · rw [size]
        simp only [Store.setCdr, Array.getElem?_modify] at found
        split at found
        · obtain ⟨old, there, rfl⟩ := Option.map_eq_some_iff.mp found
          exact ⟨(apart.pairs q old there free).1, second⟩
        · exact apart.pairs q pair found free
      · rw [size]
        exact apart.slots id symbol found
      · rw [size]
        exact apart.entries d e entered
  | _ => exact apart

/-- A change of the slots or of the dictionaries keeps the block apart if what is put there is. -/
theorem Apart.withPairs {t : Store F} (apart : s.Apart lo hi) (pairs : t.pairs = s.pairs)
    (slots : ∀ id symbol, t.symbol? id = some symbol → symbol.value.Outside lo hi s.pairs.size)
    (entries : ∀ d e, e ∈ t.entries (.dictionary d) →
      e.1.Outside lo hi s.pairs.size ∧ e.2.Outside lo hi s.pairs.size) : t.Apart lo hi := by
  constructor
  · rw [pairs]
    exact apart.inside
  · rw [pairs]
    exact apart.pairs
  · rw [pairs]
    exact slots
  · rw [pairs]
    exact entries

theorem pairs_setSymbolValue (v w : Value F) (s : Store F) :
    (s.setSymbolValue v w).pairs = s.pairs := by
  cases v with
  | symbol id => cases id <;> rfl
  | _ => rfl

/-- A symbol has the new value or is as it was. -/
theorem symbol_of_setSymbolValue {id : SymbolId} {symbol : SymbolCell F}
    (found : (s.setSymbolValue v w).symbol? id = some symbol) :
    symbol.value = w ∨ s.symbol? id = some symbol := by
  have changed : ∀ {cells : Array (SymbolCell F)} {i j : Nat},
      (cells.modify i fun symbol => { symbol with value := w })[j]? = some symbol →
        symbol.value = w ∨ cells[j]? = some symbol := by
    intro cells i j found
    rw [Array.getElem?_modify] at found
    split at found
    · obtain ⟨old, -, rfl⟩ := Option.map_eq_some_iff.mp found
      exact .inl rfl
    · exact .inr found
  cases v with
  | symbol target =>
      cases target <;> cases id
      · exact changed found
      · exact .inr found
      · exact .inr found
      · exact changed found
  | _ => exact .inr found

theorem forall_slots_setSymbolValue {P : Value F → Prop}
    (old : ∀ id symbol, s.symbol? id = some symbol → P symbol.value) (new : P w) :
    ∀ id symbol, (s.setSymbolValue v w).symbol? id = some symbol → P symbol.value := by
  intro id symbol found
  rcases symbol_of_setSymbolValue found with same | there
  · rw [same]
    exact new
  · exact old id symbol there

theorem entries_setSymbolValue (v w : Value F) (s : Store F) :
    (s.setSymbolValue v w).entries = s.entries := by
  cases v with
  | symbol id => cases id <;> rfl
  | _ => rfl

theorem Apart.setSymbolValue (apart : s.Apart lo hi) (new : w.Outside lo hi s.pairs.size) :
    (s.setSymbolValue v w).Apart lo hi :=
  apart.withPairs (pairs_setSymbolValue v w s) (forall_slots_setSymbolValue apart.slots new)
    (entries_setSymbolValue v w s ▸ apart.entries)

/-! What holds of all entries still holds of them when a dictionary is made, emptied or given an
entry of which it holds too. -/

section

variable {P : Nat → Value F → Prop}
  (old : ∀ d e, e ∈ s.entries (.dictionary d) → P d e.1 ∧ P d e.2)

include old

theorem forall_entries_makeDictionary :
    ∀ d e, e ∈ s.makeDictionary.2.entries (.dictionary d) → P d e.1 ∧ P d e.2 := by
  intro d e entered
  obtain ⟨dictionary, there, entered⟩ := mem_entries_dictionary.mp entered
  rw [Store.makeDictionary, Array.getElem?_push] at there
  split at there
  · cases there
    cases entered
  · exact old d e (mem_entries_dictionary.mpr ⟨dictionary, there, entered⟩)

variable [DecidableEq F]

theorem forall_entries_clear (v : Value F) :
    ∀ d e, e ∈ (s.clear v).2.entries (.dictionary d) → P d e.1 ∧ P d e.2 := by
  cases v with
  | dictionary d =>
      intro i e entered
      obtain ⟨dictionary, there, entered⟩ := mem_entries_dictionary.mp entered
      rw [Store.clear, Array.getElem?_modify] at there
      split at there
      · obtain ⟨before, -, rfl⟩ := Option.map_eq_some_iff.mp there
        cases entered
      · exact old i e (mem_entries_dictionary.mpr ⟨dictionary, there, entered⟩)
  | _ => exact old

theorem forall_entries_put (v : Value F) {key : Value F} (first : ∀ d, P d key)
    (second : ∀ d, P d w) :
    ∀ d e, e ∈ (s.put v key w).2.entries (.dictionary d) → P d e.1 ∧ P d e.2 := by
  cases v with
  | dictionary d =>
      intro i e entered
      obtain ⟨dictionary, there, entered⟩ := mem_entries_dictionary.mp entered
      rw [Store.put, Array.getElem?_modify] at there
      split at there
      · obtain ⟨before, found, rfl⟩ := Option.map_eq_some_iff.mp there
        refine Dictionary.forall_enter (fun e among => old i e ?_) (first i) (second i) e entered
        exact mem_entries_dictionary.mpr ⟨before, found, among⟩
      · exact old i e (mem_entries_dictionary.mpr ⟨dictionary, there, entered⟩)
  | _ => exact old

end

theorem Apart.makeDictionary (apart : s.Apart lo hi) : s.makeDictionary.2.Apart lo hi :=
  apart.withPairs rfl apart.slots (forall_entries_makeDictionary apart.entries)

theorem pairs_clear [DecidableEq F] (v : Value F) (s : Store F) : (s.clear v).2.pairs = s.pairs := by
  cases v <;> rfl

theorem symbol?_clear [DecidableEq F] (v : Value F) (s : Store F) :
    (s.clear v).2.symbol? = s.symbol? := by
  cases v <;> rfl

theorem pairs_put [DecidableEq F] (v key w : Value F) (s : Store F) :
    (s.put v key w).2.pairs = s.pairs := by
  cases v <;> rfl

theorem symbol?_put [DecidableEq F] (v key w : Value F) (s : Store F) :
    (s.put v key w).2.symbol? = s.symbol? := by
  cases v <;> rfl

theorem Apart.clear [DecidableEq F] (apart : s.Apart lo hi) : (s.clear v).2.Apart lo hi :=
  apart.withPairs (pairs_clear v s) (symbol?_clear v s ▸ apart.slots)
    (forall_entries_clear apart.entries v)

theorem Apart.put [DecidableEq F] {key : Value F} (apart : s.Apart lo hi)
    (first : key.Outside lo hi s.pairs.size) (second : w.Outside lo hi s.pairs.size) :
    (s.put v key w).2.Apart lo hi :=
  apart.withPairs (pairs_put v key w s) (symbol?_put v key w s ▸ apart.slots)
    (forall_entries_put apart.entries v (fun _ => first) fun _ => second)

theorem SameBlock.refl (lo hi : Nat) (s : Store F) : s.SameBlock lo hi s :=
  ⟨fun _ _ _ => rfl, rfl⟩

theorem SameBlock.trans {t u : Store F} (first : SameBlock lo hi s t) (second : SameBlock lo hi t u) :
    SameBlock lo hi s u :=
  ⟨fun p le lt => (second.pairs p le lt).trans (first.pairs p le lt),
    second.names.trans first.names⟩

theorem sameBlock_cons (inside : hi ≤ s.pairs.size) : SameBlock lo hi s (s.cons v w).2 := by
  refine ⟨fun p _ lt => ?_, rfl⟩
  have old : p ≠ s.pairs.size := by omega
  simp only [Store.cons, Array.getElem?_push, if_neg old]

theorem sameBlock_setCdr (target : v.Outside lo hi s.pairs.size) :
    SameBlock lo hi s (s.setCdr v w) := by
  cases v with
  | pair p =>
      refine ⟨fun q le lt => ?_, rfl⟩
      have free : p ≠ q := by
        have := target.2
        omega
      simp only [Store.setCdr, Array.getElem?_modify, if_neg free]
  | _ => exact .refl lo hi s

theorem names_setSymbolValue (v w : Value F) (s : Store F) : (s.setSymbolValue v w).names = s.names := by
  cases v with
  | symbol id =>
      cases id with
      | interned i =>
          apply List.ext_getElem?
          intro j
          simp only [Store.names, Store.setSymbolValue, List.getElem?_map, Array.getElem?_toList,
            Array.getElem?_modify]
          split
          · cases s.interned[j]? <;> rfl
          · rfl
      | loose i => rfl
  | _ => rfl

theorem sameBlock_setSymbolValue : SameBlock lo hi s (s.setSymbolValue v w) := by
  refine ⟨fun p _ _ => ?_, names_setSymbolValue v w s⟩
  rw [pairs_setSymbolValue]

theorem sameBlock_put [DecidableEq F] {key : Value F} : SameBlock lo hi s (s.put v key w).2 := by
  cases v <;> exact ⟨fun _ _ _ => rfl, rfl⟩

theorem sameBlock_clear [DecidableEq F] : SameBlock lo hi s (s.clear v).2 := by
  cases v <;> exact ⟨fun _ _ _ => rfl, rfl⟩

end Store

namespace Worlds

/-- The worlds in which a block stays apart and as it is in a store given once, and the state of the
    host keeps a property. A world is the number of pairs. -/
def apart (lo hi : Nat) (base : Store F) (kept : σ → Prop) : Worlds F σ where
  World := Nat
  le := (· ≤ ·)
  Fits size m := m.store.pairs.size = size ∧ m.store.Apart lo hi ∧ base.SameBlock lo hi m.store ∧
    kept m.host
  Good := Value.Outside lo hi
  Env := Value.Outside lo hi

variable {lo hi : Nat} {base : Store F} {kept : σ → Prop}

theorem apart_leads {size : Nat} {m : Machine F σ} {s : Store F}
    {post : (apart lo hi base kept).World → Prop} (fits : (apart lo hi base kept).Fits size m)
    (grown : m.store.pairs.size ≤ s.pairs.size) (still : s.Apart lo hi)
    (same : m.store.SameBlock lo hi s) (holds : post s.pairs.size) :
    (apart lo hi base kept).Leads size ⟨s, m.host⟩ post := by
  obtain ⟨rfl, -, before, host⟩ := fits
  exact ⟨s.pairs.size, grown, ⟨rfl, still, before.trans same, host⟩, holds⟩

variable [DecidableEq F]

theorem apart_lawful : (apart lo hi base kept).Lawful where
  refl := Nat.le_refl
  trans := Nat.le_trans
  good_mono := Value.Outside.mono
  nil _ := trivial
  bool _ _ := trivial
  number _ _ := trivial
  lambda _ := trivial
  car := by
    rintro _ m v ⟨rfl, apart, -⟩ good
    exact apart.car good
  cdr := by
    rintro _ m v ⟨rfl, apart, -⟩ good
    exact apart.cdr good
  entry := by
    rintro _ m v e ⟨rfl, apart, -⟩ - entered
    cases v with
    | dictionary d => exact apart.entries d e entered
    | _ => cases entered
  cons := by
    intro size m a b fits first second
    obtain ⟨rfl, apart, -⟩ := id fits
    have inside := apart.inside
    apply apart_leads fits (by simp [Store.cons]) (apart.cons first second)
      (Store.sameBlock_cons inside)
    exact ⟨by simp [Store.cons], .inr inside⟩
  setCdr := by
    intro size m p v fits target good
    obtain ⟨rfl, apart, -⟩ := id fits
    apply apart_leads fits ?_ (apart.setCdr target good) (Store.sameBlock_setCdr target) trivial
    cases p <;> simp [Store.setCdr]
  put := by
    intro size m d k v fits _ key value
    obtain ⟨rfl, apart, -⟩ := id fits
    apply apart_leads fits ?_ (apart.put key value) Store.sameBlock_put trivial
    cases d <;> simp [Store.put]
  clear := by
    intro size m d fits _
    obtain ⟨-, apart, -⟩ := id fits
    apply apart_leads fits ?_ apart.clear Store.sameBlock_clear trivial
    cases d <;> simp [Store.clear]
  makeDictionary := by
    intro size m fits
    exact apart_leads fits (Nat.le_refl _) fits.2.1.makeDictionary ⟨fun _ _ _ => rfl, rfl⟩ trivial

theorem apart_lawfulEnv : (apart lo hi base kept).LawfulEnv := by
  apply apart_lawful.withSlots rfl
  · rintro _ m symbol ⟨rfl, apart, -⟩ -
    exact apart.symbolValue symbol
  · intro size m symbol value fits _ good
    obtain ⟨rfl, apart, -⟩ := id fits
    have pairs := Store.pairs_setSymbolValue symbol value m.store
    exact apart_leads fits (Nat.le_of_eq (congrArg Array.size pairs.symm))
      (apart.setSymbolValue good) Store.sameBlock_setSymbolValue trivial

end Worlds

/-! ### The console -/

theorem Console.lineOf_reads (margin : Layout.Margin) (list : Value F) :
    (Console.lineOf margin list : Action F σ String).Reads :=
  .bind (.walk _) fun values => .bind (.mapM (.pretty margin) values) fun _ => .pure _

/-- All that a function of the console does is to print a line. -/
theorem Console.host_call {calls : Calls ConsoleFunction Console} {f : ConsoleFunction}
    {args env x : Value ConsoleFunction} {m m' : Machine ConsoleFunction Console}
    (done : Console.host.call calls f args env m = some (x, m')) :
    x = .nil ∧ ∃ line, m' = ⟨m.store, m.host.printLine line⟩ := by
  cases f with
  | print =>
      obtain ⟨_, _, got, rest⟩ := Action.exists_of_bind done
      cases got
      obtain ⟨line, between, read, printed⟩ := Action.exists_of_bind rest
      rw [Console.lineOf_reads _ _ m line between read] at printed
      cases printed
      exact ⟨rfl, line, rfl⟩

/-- What programs print is no complaint. -/
theorem Console.hostSafe {lo hi : Nat} (base : Store ConsoleFunction) (complaints : List String) :
    (Worlds.apart lo hi base fun c : Console => c.complaints = complaints).HostSafe Console.host := by
  intro calls _ size f args env _ _ m fits x m' done
  obtain ⟨rfl, apart, same, host⟩ := fits
  obtain ⟨rfl, line, rfl⟩ := Console.host_call done
  exact ⟨_, Nat.le_refl _, ⟨rfl, apart, same, host⟩, trivial⟩

namespace Program

/-- Evaluating a form outside a block keeps the block apart and as it is, and complains of nothing. -/
theorem evalGlobal_apart {lo hi : Nat} {m m' : Machine ConsoleFunction Console} {form v : Val}
    (apart : m.store.Apart lo hi) (outside : form.Outside lo hi m.store.pairs.size)
    (done : Console.host.evalGlobal form m = some (v, m')) :
    m'.store.Apart lo hi ∧ m.store.SameBlock lo hi m'.store ∧
      m'.host.complaints = m.host.complaints := by
  have safe := Worlds.apart_lawfulEnv.evalGlobal (Console.hostSafe m.store m.host.complaints) outside trivial
  obtain ⟨_, -, ⟨-, still, same, host⟩, -⟩ :=
    safe m ⟨rfl, apart, .refl lo hi m.store, rfl⟩ v m' done
  exact ⟨still, same, host⟩

end Program

end SmallLisp
