import SmallLisp.Proofs.Evaluation.Abreast
import SmallLisp.Proofs.Store.Growth

/-! # Evaluation sees an environment by looking up only

Bindings that are shadowed and the order of bindings for different keys cannot be observed. -/

namespace SmallLisp

variable {F : Type}

namespace Store

/-- Nothing but hidden pairs refers to hidden pairs. -/
structure Seals (hidden : Nat → Prop) (s : Store F) : Prop where
  pairs : ∀ p pair, s.pairs[p]? = some pair → ¬ hidden p →
    (∀ q, pair.car = .pair q → ¬ hidden q) ∧ ∀ q, pair.cdr = .pair q → ¬ hidden q
  slots : ∀ id symbol, s.symbol? id = some symbol → ∀ q, symbol.value = .pair q → ¬ hidden q
  entries : ∀ d e, e ∈ s.entries (.dictionary d) →
    (∀ q, e.1 = .pair q → ¬ hidden q) ∧ ∀ q, e.2 = .pair q → ¬ hidden q

theorem Seals.reaches {hidden : Nat → Prop} {s : Store F} {v x : Value F} (seals : s.Seals hidden)
    (reaches : s.Reaches v x) (shown : ∀ p, v = .pair p → ¬ hidden p) :
    ∀ p, x = .pair p → ¬ hidden p := by
  induction reaches with
  | refl => exact shown
  | @car p x _ ih =>
      apply ih
      cases found : s.pairs[p]? with
      | none => simp [Store.car, found]
      | some pair =>
          simp only [Store.car, found]
          exact (seals.pairs p pair found (shown p rfl)).1
  | @cdr p x _ ih =>
      apply ih
      cases found : s.pairs[p]? with
      | none => simp [Store.cdr, found]
      | some pair =>
          simp only [Store.cdr, found]
          exact (seals.pairs p pair found (shown p rfl)).2
  | @slot id x _ ih =>
      apply ih
      cases found : s.symbol? id with
      | none => simp [Store.symbolValue, found]
      | some symbol =>
          simp only [Store.symbolValue, found]
          exact seals.slots id symbol found
  | key entered _ ih => exact ih (seals.entries _ _ entered).1
  | entry entered _ ih => exact ih (seals.entries _ _ entered).2

/-- The stores have the same tables, and the same pairs except for hidden ones, to which nothing else
    leads. -/
structure SameBut (hidden : Nat → Prop) (s t : Store F) : Prop where
  interned : t.interned = s.interned
  loose : t.loose = s.loose
  dictionaries : t.dictionaries = s.dictionaries
  pairs : ∀ p, ¬ hidden p → t.pairs[p]? = s.pairs[p]?
  apart : ∀ v, (∀ p, v = .pair p → ¬ hidden p) → ∀ p, hidden p →
    ¬ s.Reaches v (.pair p) ∧ ¬ t.Reaches v (.pair p)

end Store

namespace Twins

variable {start : Nat} {held : Value F → Prop} {w u : Twins F start held}

theorem seals_left (w : Twins F start held) : w.left.Seals (w.veil.Fresh start) := by
  have shown : ∀ {v : Value F}, w.veil.Free start w.left.pairs.size v →
      ∀ q, v = .pair q → ¬ w.veil.Fresh start q := by
    rintro _ free q rfl
    exact free.2
  refine ⟨fun p pair found fresh => ?_, fun id symbol found => ?_, fun d e entered => ?_⟩
  · obtain ⟨car, cdr⟩ := w.veiled.pairs p pair found fresh
    exact ⟨shown car.2, shown cdr.2⟩
  · exact shown (w.veiled.free (w.veiled.slots id symbol found))
  · obtain ⟨key, value⟩ := w.veiled.entries d e entered
    exact ⟨shown key.2, shown value.2⟩

/-- Twins that were one store at the start are the same but for what was hidden since. -/
theorem Le.sameBut (le : w.Le u) (one : w.right = w.left) (all : w.left.pairs.size = start) :
    u.left.SameBut (u.veil.Fresh start) u.right := by
  have pairs : ∀ p, ¬ u.veil.Fresh start p → u.right.pairs[p]? = u.left.pairs[p]? := by
    intro p fresh
    by_cases hides : u.veil.hidden p
    · have lt : p < w.left.pairs.size := by
        rw [all]
        exact Nat.lt_of_not_le fun late => fresh ⟨hides, late⟩
      have was := le.old p lt hides
      have ltRight : p < w.right.pairs.size := by
        rw [one]
        exact lt
      rw [Store.found_of_lt (Nat.lt_of_lt_of_le lt le.left.size),
        Store.found_of_lt (Nat.lt_of_lt_of_le ltRight le.right.size), le.left.cars p lt,
        le.left.cells p was, le.right.cars p ltRight, le.right.cells p was, one]
    · exact u.same p hides
  have sealsRight : u.right.Seals (u.veil.Fresh start) := by
    refine ⟨fun p pair found fresh => ?_, u.seals_left.slots, u.seals_left.entries⟩
    rw [pairs p fresh] at found
    exact u.seals_left.pairs p pair found fresh
  refine ⟨rfl, rfl, rfl, pairs, fun v shown p fresh => ⟨fun reaches => ?_, fun reaches => ?_⟩⟩
  · exact u.seals_left.reaches reaches shown p rfl fresh
  · exact sealsRight.reaches reaches shown p rfl fresh

end Twins

namespace Store

variable {s : Store F} {v : Value F}

/-- What does not lead to a hidden pair is a datum. -/
def veil (s : Store F) (hidden : Nat → Prop) : Veil F where
  hidden := hidden
  data v := v.Below s.pairs.size ∧ ∀ c, hidden c → ¬ s.Reaches v (.pair c)

/-- Pairs of an intact store may be hidden if no slot and nothing bound leads to them. -/
theorem Intact.veiled {hidden : Nat → Prop} {held : Value F → Prop} (intact : s.Intact)
    (there : ∀ c, hidden c → c < s.pairs.size)
    (slots : ∀ c, hidden c → ∀ id, ¬ s.Reaches (s.symbolValue (.symbol id)) (.pair c))
    (bound : ∀ v, held v → v.Below s.pairs.size ∧
      ∀ c, hidden c → v ≠ .pair c ∧ ¬ s.Reaches (s.cdr v) (.pair c)) :
    s.Veiled s.pairs.size held (s.veil hidden) := by
  have free : ∀ {v : Value F}, v.Below s.pairs.size →
      (s.veil hidden).Free s.pairs.size s.pairs.size v := by
    intro v inside
    cases v with
    | pair p => exact ⟨inside, fun fresh => Nat.not_le.mpr inside fresh.2⟩
    | _ => trivial
  refine ⟨Nat.le_refl _, there, fun v plain => ?_, fun p datum => ?_, fun p pair found _ => ?_,
    fun id symbol found => ?_, fun d e entered => ?_, fun v holds => ?_⟩
  · refine ⟨?_, fun c hides reaches => ?_⟩
    · cases v with
      | pair => exact plain.elim
      | _ => trivial
    · cases reaches with
      | refl => exact plain
      | car | cdr | key | entry => exact plain
      | slot rest => exact slots c hides _ rest
  · exact ⟨datum.1, fun hides => datum.2 p hides .refl⟩
  · obtain ⟨car, cdr⟩ := intact.apart.pairs p pair found (.inr (Nat.zero_le p))
    rw [Value.outside_zero_iff] at car cdr
    have halves : s.car (.pair p) = pair.car ∧ s.cdr (.pair p) = pair.cdr := by
      simp [Store.car, Store.cdr, found]
    refine ⟨⟨fun datum => ⟨car, fun c hides reaches => ?_⟩, free car⟩,
      ⟨fun datum => ⟨cdr, fun c hides reaches => ?_⟩, free cdr⟩⟩
    · rw [← halves.1] at reaches
      exact datum.2 c hides (.car reaches)
    · rw [← halves.2] at reaches
      exact datum.2 c hides (.cdr reaches)
  · refine ⟨Value.outside_zero_iff.mp (intact.apart.slots id symbol found), fun c hides => ?_⟩
    have slot := slots c hides id
    rw [Store.symbolValue, found] at slot
    exact slot
  · obtain ⟨key, value⟩ := intact.apart.entries d e entered
    rw [Value.outside_zero_iff] at key value
    exact ⟨⟨fun datum => ⟨key, fun c hides reaches => datum.2 c hides (.key entered reaches)⟩,
      free key⟩, ⟨fun datum => ⟨value, fun c hides reaches =>
        datum.2 c hides (.entry entered reaches)⟩, free value⟩⟩
  · obtain ⟨inside, apart⟩ := bound v holds
    refine ⟨⟨(intact.halves inside).2, fun c hides => (apart c hides).2⟩, ?_⟩
    rintro p rfl
    exact ⟨inside, fun hides => (apart p hides).1 rfl⟩

end Store

/-- A store and itself, with some pairs hidden. -/
def Twins.single {s : Store F} {start : Nat} {held : Value F → Prop} {veil : Veil F}
    (veiled : s.Veiled start held veil) : Twins F start held :=
  ⟨veil, s, s.pairs, veiled, rfl, fun _ _ => rfl⟩

/-- Evaluation depends on an environment only through what keys are bound to in it. In two environments
    that bind every key alike, and whose cells neither the expression nor a slot nor anything bound leads
    to, an expression has the same result and the same effects, or it has none. Only new pairs may
    differ, and nothing else leads to them. -/
theorem eval_sees_lookups_only {m : Machine Empty Unit} {x e₁ e₂ : Value Empty}
    {items₁ items₂ : List (Value Empty)} (intact : m.store.Intact)
    (inside : x.Below m.store.pairs.size) (inside₁ : e₁.Below m.store.pairs.size)
    (inside₂ : e₂.Below m.store.pairs.size) (walked₁ : m.store.elements? e₁ = some items₁)
    (walked₂ : m.store.elements? e₂ = some items₂)
    (same : ∀ key, m.store.assoc? key e₁ = m.store.assoc? key e₂)
    (apart : ∀ c, m.store.OnSpine e₁ c ∨ m.store.OnSpine e₂ c →
      .pair c ∉ items₁ ++ items₂ ∧ ¬ m.store.Reaches x (.pair c) ∧
      (∀ id, ¬ m.store.Reaches (m.store.symbolValue (.symbol id)) (.pair c)) ∧
      ∀ b ∈ items₁ ++ items₂, ¬ m.store.Reaches (m.store.cdr b) (.pair c)) (depth : Nat) :
    Option.Rel
      (fun r t => t.1 = r.1 ∧ ∃ hidden : Nat → Prop,
        (∀ p, hidden p → m.store.pairs.size ≤ p ∧ r.1 ≠ .pair p) ∧
        r.2.store.SameBut hidden t.2.store)
      (evalWithin Host.none depth x e₁ m) (evalWithin Host.none depth x e₂ m) := by
  obtain ⟨s, ⟨⟩⟩ := m
  obtain ⟨listed₁, short₁⟩ := Store.elements?_eq_some_iff.mp walked₁
  obtain ⟨listed₂, short₂⟩ := Store.elements?_eq_some_iff.mp walked₂
  let hidden : Nat → Prop := fun c => s.OnSpine e₁ c ∨ s.OnSpine e₂ c
  have there : ∀ c, hidden c → c < s.pairs.size := by
    rintro c (on | on)
    · exact intact.onSpine on inside₁
    · exact intact.onSpine on inside₂
  have veiled : s.Veiled s.pairs.size (· ∈ items₁ ++ items₂) (s.veil hidden) := by
    apply intact.veiled there fun c hides => (apart c hides).2.2.1
    intro b among
    refine ⟨?_, fun c hides => ⟨?_, (apart c hides).2.2.2 b among⟩⟩
    · rcases List.mem_append.mp among with among | among
      · exact intact.listed listed₁ inside₁ b among
      · exact intact.listed listed₂ inside₂ b among
    · rintro rfl
      exact (apart c hides).1 among
  let w := Twins.single veiled
  have env : w.Env e₁ e₂ := by
    refine ⟨items₁, items₂, ⟨listed₁, short₁, fun c => .inl, ?_⟩,
      ⟨listed₂, short₂, fun c => .inr, ?_⟩, fun key => ?_⟩
    · exact fun item among => .inl (List.mem_append_left _ among)
    · exact fun item among => .inl (List.mem_append_right _ among)
    · have found := same key
      rw [listed₁.assoc? short₁, listed₂.assoc? short₂] at found
      exact Option.some.inj found
  have datum : w.veil.data x := ⟨inside, fun c hides => (apart c hides).2.1⟩
  have both := (Twins.sides_lawfulEnv.evalBoth (Sides.hostBoth_none _) depth).eval
    (⟨rfl, datum⟩ : (Twins.sides Empty _ _).Agree w x x) env
  refine rel_imp (both ⟨s, ()⟩ ⟨s, ()⟩ ⟨rfl, rfl⟩) fun r t leads => ?_
  obtain ⟨later, le, ⟨left, right⟩, agree, known⟩ := leads
  have alike := le.sameBut rfl rfl
  rw [left, right] at alike
  refine ⟨agree, later.veil.Fresh s.pairs.size, fun p fresh => ⟨fresh.2, fun result => ?_⟩, alike⟩
  rw [result] at known
  exact (later.veiled.shown p known).2 fresh.1

/-! A store with two environments, one of which has a shadowed binding. -/

instance (lo hi size : Nat) (v : Value F) : Decidable (v.Outside lo hi size) :=
  match v with
  | .pair p => inferInstanceAs (Decidable (p < size ∧ (p < lo ∨ hi ≤ p)))
  | .nil | .bool _ | .number _ | .string _ | .symbol _ | .native _ | .dictionary _ | .eof =>
      .isTrue trivial

/-- A store without pairs may be given pairs. -/
theorem Store.Intact.onto {s : Store F} (intact : s.Intact) (empty : s.pairs.size = 0)
    {pairs : Array (Pair F)} {lo hi : Nat} (inside : hi ≤ pairs.size)
    (refer : ∀ p < pairs.size, p < lo ∨ hi ≤ p →
      ((s.onto pairs).car (.pair p)).Outside lo hi pairs.size ∧
        ((s.onto pairs).cdr (.pair p)).Outside lo hi pairs.size) :
    (s.onto pairs).Apart lo hi := by
  have none : ∀ {v : Value F}, v.Outside 0 0 s.pairs.size → v.Outside lo hi pairs.size := by
    intro v outside
    cases v with
    | pair p => exact absurd outside.1 (by omega)
    | _ => trivial
  refine ⟨inside, fun p pair found free => ?_, fun id symbol found => ?_, fun d e entered => ?_⟩
  · obtain ⟨lt, -⟩ := Array.getElem?_eq_some_iff.mp found
    have halves := refer p lt free
    simp only [Store.car, Store.cdr, found] at halves
    exact halves
  · exact none (intact.apart.slots id symbol found)
  · obtain ⟨key, value⟩ := intact.apart.entries d e entered
    exact ⟨none key, none value⟩

theorem Store.Apart.reaches {s : Store F} {lo hi : Nat} {v x : Value F} (apart : s.Apart lo hi)
    (reaches : s.Reaches v x) (outside : v.Outside lo hi s.pairs.size) :
    x.Outside lo hi s.pairs.size := by
  induction reaches with
  | refl => exact outside
  | car _ ih => exact ih (apart.car outside)
  | cdr _ ih => exact ih (apart.cdr outside)
  | slot _ ih => exact ih (apart.symbolValue _)
  | key entered _ ih => exact ih (apart.entries _ _ entered).1
  | entry entered _ ih => exact ih (apart.entries _ _ entered).2

/-- The pairs up to the eighth are three bindings and the cells of the environments
    `((x . 1) (y . 2) (x . 3))` and `((y . 2) (x . 1))`. The rest is the form
    `((lambda (z) (cons z y)) x)`. -/
def shadowed : Store Empty :=
  (Store.standard.internAll ["x", "y", "z"]).onto #[
    ⟨.symbol (.interned 30), .number 1⟩, ⟨.symbol (.interned 31), .number 2⟩,
    ⟨.symbol (.interned 30), .number 3⟩,
    ⟨.pair 2, .nil⟩, ⟨.pair 1, .pair 3⟩, ⟨.pair 0, .pair 4⟩,
    ⟨.pair 0, .nil⟩, ⟨.pair 1, .pair 6⟩,
    ⟨.symbol (.interned 32), .nil⟩, ⟨.symbol (.interned 31), .nil⟩,
    ⟨.symbol (.interned 32), .pair 9⟩, ⟨.symbol (.interned 14), .pair 10⟩, ⟨.pair 11, .nil⟩,
    ⟨.pair 8, .pair 12⟩, ⟨.symbol (.interned 2), .pair 13⟩, ⟨.symbol (.interned 30), .nil⟩,
    ⟨.pair 14, .pair 15⟩]

theorem shadowed_apart {lo hi : Nat} (inside : hi ≤ 17)
    (refer : ∀ p < 17, p < lo ∨ hi ≤ p →
      (shadowed.car (.pair p)).Outside lo hi 17 ∧ (shadowed.cdr (.pair p)).Outside lo hi 17) :
    shadowed.Apart lo hi :=
  Store.Intact.onto (Store.standard_grounded.internAll _).intact (by decide +kernel) inside refer

theorem shadowed_elements : shadowed.elements? (.pair 5) = some [.pair 0, .pair 1, .pair 2] ∧
    shadowed.elements? (.pair 7) = some [.pair 1, .pair 0] := by
  decide +kernel

theorem shadowed_assoc? (key : Value Empty) :
    shadowed.assoc? key (.pair 5) = shadowed.assoc? key (.pair 7) := by
  obtain ⟨listed₁, short₁⟩ := Store.elements?_eq_some_iff.mp shadowed_elements.1
  obtain ⟨listed₂, short₂⟩ := Store.elements?_eq_some_iff.mp shadowed_elements.2
  have cars : shadowed.car (.pair 0) = .symbol (.interned 30) ∧
      shadowed.car (.pair 1) = .symbol (.interned 31) ∧
      shadowed.car (.pair 2) = .symbol (.interned 30) := by decide +kernel
  rw [listed₁.assoc? short₁, listed₂.assoc? short₂]
  simp only [Store.keyed?, List.find?_cons, cars]
  cases isX : (Value.symbol (.interned 30)).same key with
  | false => rfl
  | true =>
      obtain rfl := Value.same_symbol_iff.mp isX
      rfl

theorem shadowed_spine {c : Nat}
    (on : shadowed.OnSpine (.pair 5) c ∨ shadowed.OnSpine (.pair 7) c) : c ∈ [3, 4, 5, 6, 7] := by
  rcases on with on | on <;> exact on.among (by decide) (by decide +kernel)

theorem eval_sees_lookups_only_shadowed :
    shadowed.elements? (.pair 5) = some [.pair 0, .pair 1, .pair 2] ∧
    shadowed.elements? (.pair 7) = some [.pair 1, .pair 0] ∧
    (evalWithin Host.none 9 (.pair 16) (.pair 5) ⟨shadowed, ()⟩).isSome ∧
    Option.Rel
      (fun r t => t.1 = r.1 ∧ ∃ hidden : Nat → Prop,
        (∀ p, hidden p → shadowed.pairs.size ≤ p ∧ r.1 ≠ .pair p) ∧
        r.2.store.SameBut hidden t.2.store)
      (evalWithin Host.none 9 (.pair 16) (.pair 5) ⟨shadowed, ()⟩)
      (evalWithin Host.none 9 (.pair 16) (.pair 7) ⟨shadowed, ()⟩) := by
  obtain ⟨walked₁, walked₂⟩ := shadowed_elements
  have intact : shadowed.Intact :=
    ⟨Nat.le_refl 0, shadowed_apart (Nat.zero_le 17) (by decide +kernel), fun _ _ _ lt => by omega⟩
  have apart : shadowed.Apart 3 8 := shadowed_apart (by decide) (by decide +kernel)
  have size : shadowed.pairs.size = 17 := by decide +kernel
  have inside : ∀ p < 17, (.pair p : Value Empty).Below shadowed.pairs.size :=
    fun p lt => Nat.lt_of_lt_of_eq lt size.symm
  refine ⟨walked₁, walked₂, by decide +kernel, ?_⟩
  refine eval_sees_lookups_only (m := ⟨shadowed, ()⟩) intact (inside 16 (by decide))
    (inside 5 (by decide)) (inside 7 (by decide)) walked₁ walked₂ shadowed_assoc? ?_ 9
  intro c on
  have among := shadowed_spine on
  have blocked : ∀ v : Value Empty, v.Outside 3 8 shadowed.pairs.size →
      ¬ shadowed.Reaches v (.pair c) := by
    intro v outside reaches
    have free := (apart.reaches reaches outside).2
    grind
  have outside : ∀ v ∈ ([.pair 16, .pair 0, .pair 1, .pair 2] : List (Value Empty)),
      v.Outside 3 8 shadowed.pairs.size := by
    rw [size]
    decide
  refine ⟨by grind, blocked _ (outside _ (by simp)), fun id => blocked _ (apart.symbolValue _),
    fun b held => blocked _ (apart.cdr (outside b ?_))⟩
  grind

end SmallLisp
