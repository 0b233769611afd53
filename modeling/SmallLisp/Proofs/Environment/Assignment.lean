import SmallLisp.Proofs.Environment.Association

/-! # Assignment in an environment

In an environment each symbol has one place where its value stands: the second half of its first pair,
or else its global slot. Looking up a symbol reads this place, and assigning writes it. Two symbols
never have the same place, and no assignment changes which place a symbol has, unless the environment
holds one of its own pairs as an element.
-/

namespace SmallLisp.Store

variable {F : Type} [DecidableEq F] {s t : Store F} {env v : Value F} {items : List (Value F)}
  {id other : SymbolId}

/-- Where the value of a symbol stands in an environment with these elements. -/
def home (s : Store F) (id : SymbolId) (items : List (Value F)) : Place :=
  match s.keyedPair? (.symbol id) items with
  | some binding => .cdr binding
  | none => .slot id

theorem car_ne_home (s : Store F) (id : SymbolId) (items : List (Value F)) (p : Nat) :
    .car p ≠ s.home id items := by
  rw [home]
  split <;> nofun

theorem car_of_binding {binding : Nat}
    (found : s.keyedPair? (.symbol id) items = some binding) :
    s.car (.pair binding) = .symbol id :=
  Value.eq_of_same (mem_of_keyedPair? found).2 nofun

/-- A second half that holds the value of a symbol belongs to an element. -/
theorem mem_of_home_eq_cdr {binding : Nat} (found : s.home id items = .cdr binding) :
    .pair binding ∈ items := by
  cases first : s.keyedPair? (.symbol id) items with
  | some p =>
      rw [home, first] at found
      cases found
      exact (mem_of_keyedPair? first).1
  | none =>
      rw [home, first] at found
      cases found

/-- A place belongs to one symbol. -/
theorem home_inj (same : s.home id items = s.home other items) : id = other := by
  rw [home, home] at same
  cases mine : s.keyedPair? (.symbol id) items <;>
    cases its : s.keyedPair? (.symbol other) items <;> rw [mine, its] at same <;> cases same
  case none.none => rfl
  case some.some => exact Value.symbol.inj ((car_of_binding mine).symm.trans (car_of_binding its))

theorem Listed.assoc?_symbol (listed : s.Listed env items) (id : SymbolId) :
    s.assoc? (.symbol id) env =
      some (((s.keyedPair? (.symbol id) items).map .pair).getD .nil) := by
  rw [listed.assoc?_eq, keyed?_eq_keyedPair?]
  intro item found
  have proper : Value.symbol id ≠ (.nil : Value F) := nofun
  exact isPair_of_keyed proper (keyed?_some found).2

theorem Listed.value?_eq (listed : s.Listed env items) (id : SymbolId) :
    s.value? (.symbol id) env = some (s.valueAt (s.home id items)) := by
  rw [value?, listed.assoc?_symbol, home]
  cases s.keyedPair? (.symbol id) items with
  | none => simp [symbolValue_eq_valueAt]
  | some binding => simp [cdr_eq_valueAt]

theorem Listed.assign?_writes (listed : s.Listed env items) (known : (s.symbol? id).isSome)
    (v : Value F) :
    ∃ t, s.assign? (.symbol id) v env = some t ∧ s.Writes (s.home id items) v t := by
  rw [assign?, listed.assoc?_symbol, home]
  cases found : s.keyedPair? (.symbol id) items with
  | none => exact ⟨_, rfl, writes_setSymbolValue known v⟩
  | some binding =>
      refine ⟨_, rfl, writes_setCdr ?_ v⟩
      -- a pair that is not in the store has no symbol as its first half
      apply Nat.lt_of_not_le
      intro beyond
      have keyed := car_of_binding found
      simp [Store.car, beyond] at keyed

/-- A write at the place of a symbol leaves the environment with its elements. -/
theorem Writes.listed_of_home (writes : s.Writes (s.home id items) v t) (listed : s.Listed env items)
    (apart : ∀ c, s.OnSpine env c → .pair c ∉ items) : t.Listed env items := by
  refine writes.listed listed fun c on => ⟨car_ne_home s id items c, fun same => ?_⟩
  exact apart c on (mem_of_home_eq_cdr same.symm)

theorem keyedPair?_congr (cars : ∀ item, t.car item = s.car item) (key : Value F) :
    t.keyedPair? key items = s.keyedPair? key items := by
  fun_induction keyedPair? s key items <;> simp_all [keyedPair?]

/-- No symbol moves. -/
theorem Writes.home_eq (writes : s.Writes (s.home id items) v t) (other : SymbolId) :
    t.home other items = s.home other items := by
  rw [home, home, keyedPair?_congr (writes.cars (car_ne_home s id items))]

/-- Assigning a symbol always ends. Afterwards the symbol has the value, and all other symbols have the
    value that they had. Only the second half of the symbol's first pair in the environment is written,
    or, if it has no pair there, only its global slot. -/
theorem assign_obeys_store_laws (listed : s.Listed env items)
    (apart : ∀ c, s.OnSpine env c → .pair c ∉ items) (known : (s.symbol? id).isSome)
    (v : Value F) :
    ∃ t, s.assign? (.symbol id) v env = some t ∧ t.value? (.symbol id) env = some v ∧
      (∀ other, other ≠ id → ∃ w, s.value? (.symbol other) env = some w ∧
        t.value? (.symbol other) env = some w) ∧
      (∀ binding, s.keyedPair? (.symbol id) items = some binding →
        s.Writes (.cdr binding) v t) ∧
      (s.keyedPair? (.symbol id) items = none → s.Writes (.slot id) v t) := by
  obtain ⟨t, done, writes⟩ := listed.assign?_writes known v
  have after := writes.listed_of_home listed apart
  refine ⟨t, done, ?_, fun other differs => ⟨_, listed.value?_eq other, ?_⟩, fun binding found => ?_,
    fun missing => ?_⟩
  · rw [after.value?_eq, writes.home_eq, writes.valueAt_here]
  · have elsewhere : s.home other items ≠ s.home id items := fun same => differs (home_inj same)
    rw [after.value?_eq, writes.home_eq, writes.valueAt_elsewhere elsewhere]
  · rwa [home, found] at writes
  · rwa [home, missing] at writes

/-- The environment `((y . 2) 7 (x . 1) (x . 3) . 8)`, in which `z` has no pair. -/
def shadowing : Store Empty where
  pairs := #[⟨.symbol (.interned 0), .number 1⟩, ⟨.symbol (.interned 1), .number 2⟩,
    ⟨.symbol (.interned 0), .number 3⟩, ⟨.pair 2, .number 8⟩, ⟨.pair 0, .pair 3⟩,
    ⟨.number 7, .pair 4⟩, ⟨.pair 1, .pair 5⟩]
  interned := #[⟨"x", .number 4⟩, ⟨"y", .nil⟩, ⟨"z", .number 6⟩]
  loose := #[]
  dictionaries := #[]

/-- Of the two pairs of `x` the first one is written. For `z` the slot is. -/
theorem assign_obeys_store_laws_shadowing :
    shadowing.Listed (.pair 6) [.pair 1, .number 7, .pair 0, .pair 2] ∧
      (∃ t, shadowing.assign? (.symbol (.interned 0)) (.bool true) (.pair 6) = some t ∧
        shadowing.Writes (.cdr 0) (.bool true) t ∧
        t.value? (.symbol (.interned 0)) (.pair 6) = some (.bool true)) ∧
      ∃ t, shadowing.assign? (.symbol (.interned 2)) (.bool true) (.pair 6) = some t ∧
        shadowing.Writes (.slot (.interned 2)) (.bool true) t := by
  have listed : shadowing.Listed (.pair 6) [.pair 1, .number 7, .pair 0, .pair 2] :=
    elements?_eq_some_iff_listed.mp (by decide +kernel)
  have apart : ∀ c, shadowing.OnSpine (.pair 6) c →
      .pair c ∉ ([.pair 1, .number 7, .pair 0, .pair 2] : List (Value Empty)) := by
    intro c on
    have among : c ∈ [3, 4, 5, 6] := on.among (by decide) (by decide +kernel)
    simp only [List.mem_cons, List.not_mem_nil, or_false] at among
    rcases among with rfl | rfl | rfl | rfl <;> decide
  have x : (shadowing.symbol? (.interned 0)).isSome := rfl
  have z : (shadowing.symbol? (.interned 2)).isSome := rfl
  obtain ⟨t, done, now, -, bound, -⟩ := assign_obeys_store_laws listed apart x (.bool true)
  obtain ⟨u, did, -, -, -, free⟩ := assign_obeys_store_laws listed apart z (.bool true)
  exact ⟨listed, ⟨t, done, bound 0 (by decide +kernel), now⟩, u, did, free (by decide +kernel)⟩

end SmallLisp.Store
