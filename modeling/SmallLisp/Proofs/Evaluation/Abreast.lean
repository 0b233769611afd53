import SmallLisp.Proofs.Evaluation.Sides
import SmallLisp.Proofs.Evaluation.Twins

/-! # Environments side by side

Two environments cannot be told apart if every key has the same binding in both. An expression that is
evaluated side by side in two such environments has the same result and the same effects, or comes to
no end in both. Binding parameters puts the same bindings in front of both environments, in cells that
are hidden from programs.
-/

namespace SmallLisp

variable {F : Type}

namespace Store

variable {s t : Store F} {env : Value F} {items : List (Value F)}

/-- The environment has these elements, and its pairs are hidden. -/
structure Chain (s : Store F) (held : Value F → Prop) (veil : Veil F) (env : Value F)
    (items : List (Value F)) : Prop where
  listed : s.Listed env items
  short : items.length ≤ s.walkBound
  spine : ∀ c, s.OnSpine env c → veil.hidden c
  items : ∀ item ∈ items, held item ∨ veil.data item

/-- A list of hidden pairs lasts. -/
theorem Lasts.listed {hidden : Nat → Prop} (lasts : s.Lasts hidden t)
    (there : ∀ p, hidden p → p < s.pairs.size) (listed : s.Listed env items)
    (spine : ∀ c, s.OnSpine env c → hidden c) :
    t.Listed env items ∧ ∀ c, t.OnSpine env c → hidden c := by
  induction listed with
  | nil solid =>
      refine ⟨.nil solid, fun c on => ?_⟩
      cases on <;> cases solid
  | @cons p items _ ih =>
      have hides := spine p .here
      obtain ⟨rest, others⟩ := ih fun c on => spine c (.further on)
      rw [← lasts.cells p hides] at rest others
      rw [← lasts.cars p (there p hides)]
      refine ⟨.cons rest, fun c on => ?_⟩
      cases on with
      | here => exact hides
      | further on => exact others c on

theorem Lasts.chain {held : Value F → Prop} {veil next : Veil F} (lasts : s.Lasts veil.hidden t)
    (there : ∀ p, veil.hidden p → p < s.pairs.size) (hidden : ∀ p, veil.hidden p → next.hidden p)
    (data : ∀ v, veil.data v → next.data v) (chain : s.Chain held veil env items) :
    t.Chain held next env items := by
  obtain ⟨listed, spine⟩ := lasts.listed there chain.listed chain.spine
  refine ⟨listed, Nat.le_trans chain.short (Nat.succ_le_succ lasts.size),
    fun c on => hidden c (spine c on), fun item among => ?_⟩
  exact (chain.items item among).imp_right (data item)

/-- A new hidden pair makes a chain longer. -/
theorem Chain.cons {held : Value F → Prop} {veil next : Veil F} {v : Value F}
    (chain : s.Chain held veil env items) (there : ∀ p, veil.hidden p → p < s.pairs.size)
    (hidden : ∀ p, veil.hidden p → next.hidden p) (data : ∀ v, veil.data v → next.data v)
    (hides : next.hidden s.pairs.size) (datum : next.data v) :
    (s.cons v env).2.Chain held next (s.cons v env).1 (v :: items) := by
  have lasts : s.Lasts veil.hidden (s.cons v env).2 := lasts_cons there
  have rest := lasts.chain there hidden data chain
  have car : (s.cons v env).2.car (s.cons v env).1 = v := car_cons_size
  have size : (s.cons v env).2.walkBound = s.walkBound + 1 := by
    simp [walkBound, Store.cons]
  refine ⟨?_, ?_, fun c on => ?_, List.forall_mem_cons.mpr ⟨.inr datum, rest.items⟩⟩
  · have listed : (s.cons v env).2.Listed (s.cons v env).1
        ((s.cons v env).2.car (s.cons v env).1 :: items) := by
      apply Listed.cons
      rw [cdr_cons_size]
      exact rest.listed
    rw [car] at listed
    exact listed
  · rw [size]
    exact Nat.succ_le_succ chain.short
  · cases on with
    | here => exact hides
    | further on =>
        rw [cdr_cons_size] at on
        exact rest.spine c on

end Store

namespace Twins

variable [DecidableEq F] {start : Nat} {held : Value F → Prop} {w u : Twins F start held}
  {a b v key symbol : Value F} {items others : List (Value F)}

/-- The environments have the same binding for every key, each on its side. -/
structure Screen (w : Twins F start held) (a b : Value F) (items others : List (Value F)) :
    Prop where
  left : w.left.Chain held w.veil a items
  right : w.right.Chain held w.veil b others
  same : ∀ key, (w.left.keyed? key items).getD .nil = (w.left.keyed? key others).getD .nil

/-- The two environments cannot be told apart by looking up keys. -/
def Env (w : Twins F start held) (a b : Value F) : Prop :=
  ∃ items others, w.Screen a b items others

omit [DecidableEq F] in
/-- An element of an environment is no hidden pair. -/
theorem element_shown (w : Twins F start held) (element : held v ∨ w.veil.data v) :
    ∀ p, v = .pair p → p < w.left.pairs.size ∧ ¬ w.veil.hidden p := by
  rintro p rfl
  rcases element with holds | datum
  · exact (w.veiled.bound _ holds).2 p rfl
  · exact w.veiled.shown p datum

omit [DecidableEq F] in
theorem element_cdr (w : Twins F start held) (element : held v ∨ w.veil.data v) :
    w.veil.data (w.left.cdr v) := by
  rcases element with holds | datum
  · exact (w.veiled.bound _ holds).1
  · exact (w.veiled.halves datum).2

theorem keyed?_right (w : Twins F start held) (elements : ∀ v ∈ items, held v ∨ w.veil.data v) :
    w.right.keyed? key items = w.left.keyed? key items := by
  apply List.find?_congr
  intro item among
  rw [w.car_right fun p same => (w.element_shown (elements item among) p same).2]

theorem Le.keyed? (le : w.Le u) (elements : ∀ v ∈ items, held v ∨ w.veil.data v) :
    u.left.keyed? key items = w.left.keyed? key items := by
  apply List.find?_congr
  intro item among
  have place := w.element_shown (elements item among)
  cases item with
  | pair p => rw [le.left.cars p (place p rfl).1]
  | _ => rfl

theorem Env.mono (env : w.Env a b) (le : w.Le u) : u.Env a b := by
  obtain ⟨items, others, left, right, same⟩ := env
  refine ⟨items, others, le.left.chain w.veiled.there le.hidden le.data left,
    le.right.chain (fun p hides => w.size ▸ w.veiled.there p hides) le.hidden le.data right,
    fun key => ?_⟩
  rw [le.keyed? left.items, le.keyed? right.items]
  exact same key

/-- Looking up a key finds the same element on both sides. -/
theorem Env.assoc? (env : w.Env a b) (key : Value F) :
    ∃ r, w.left.assoc? key a = some r ∧ w.right.assoc? key b = some r ∧
      (∀ p, r = .pair p → ¬ w.veil.hidden p) ∧ w.veil.data (w.left.cdr r) := by
  obtain ⟨items, others, left, right, same⟩ := env
  refine ⟨(w.left.keyed? key items).getD .nil, left.listed.assoc? left.short, ?_, ?_⟩
  · rw [right.listed.assoc? right.short, w.keyed?_right right.items, same]
  · cases found : w.left.keyed? key items with
    | none => exact ⟨nofun, w.veiled.plain _ trivial⟩
    | some item =>
        have element := left.items item (Store.keyed?_some found).1
        exact ⟨fun p same => (w.element_shown element p same).2, w.element_cdr element⟩

theorem Env.value? (env : w.Env a b) :
    w.right.value? symbol b = w.left.value? symbol a ∧
      ∀ v, w.left.value? symbol a = some v → w.veil.data v := by
  obtain ⟨r, left, right, shown, datum⟩ := env.assoc? symbol
  simp only [Store.value?, left, right, Option.bind_eq_bind, Option.bind_some]
  cases r with
  | nil =>
      refine ⟨congrArg some ?_, ?_⟩
      · cases symbol with
        | symbol id => cases id <;> rfl
        | _ => rfl
      · rintro v found
        cases found
        exact w.veiled.symbolValue symbol
  | _ =>
      refine ⟨congrArg some (w.cdr_right shown), ?_⟩
      rintro v found
      cases found
      exact datum

theorem Env.assign? (env : w.Env a b) (datum : w.veil.data v) :
    Option.Rel (fun s t => w.Leads s t fun _ => True) (w.left.assign? symbol v a)
      (w.right.assign? symbol v b) := by
  obtain ⟨r, left, right, shown, -⟩ := env.assoc? symbol
  simp only [Store.assign?, left, right, Option.bind_eq_bind, Option.bind_some]
  cases r with
  | nil => exact .some (leads_setSymbolValue datum)
  | _ => exact .some (leads_setCdr shown datum)

/-- A binding in front of both environments. -/
theorem Env.extend (env : w.Env a b) (datum : w.veil.data v) :
    (w.hide v a b).Env (w.left.cons v a).1 (w.right.cons v b).1 := by
  have le := w.hide_le v a b
  obtain ⟨items, others, left, right, same⟩ := env
  refine ⟨v :: items, v :: others, ?_, ?_, fun key => ?_⟩
  · exact left.cons w.veiled.there le.hidden le.data (.inr rfl) datum
  · exact right.cons (fun p hides => w.size ▸ w.veiled.there p hides) le.hidden le.data
      (.inr w.size) datum
  · simp only [Store.keyed?, List.find?_cons]
    split
    · rfl
    · have before := same key
      rw [← le.keyed? left.items, ← le.keyed? right.items] at before
      exact before

/-- Binding parameters to the same arguments leaves the environments alike. -/
theorem Env.bindEach {args : Value F} {params : List (Value F)} (env : w.Env a b)
    (data : ∀ v ∈ params, w.veil.data v) (datum : w.veil.data args) :
    w.Leads (w.left.bindEach args a params).2 (w.right.bindEach args b params).2 fun later =>
      later.Env (w.left.bindEach args a params).1 (w.right.bindEach args b params).1 := by
  induction params generalizing w a b args with
  | nil => exact ⟨w, .refl w, rfl, rfl, env⟩
  | cons param params ih =>
      obtain ⟨here, rest⟩ := List.forall_mem_cons.mp data
      have arg := (w.veiled.halves datum).1
      let bound := w.cons here arg
      have first : w.Le bound := cons_le here arg
      have binding : bound.veil.data (w.left.cons param (w.left.car args)).1 := .inr rfl
      let later := bound.hide (w.left.cons param (w.left.car args)).1 a b
      have le : w.Le later := first.trans (hide_le _ a b)
      have further : later.veil.data args := le.data _ datum
      obtain ⟨last, leLast, left, right, inner⟩ := ih ((env.mono first).extend binding)
        (fun v among => le.data v (rest v among)) (later.veiled.halves further).2
      -- on the other side the argument is the same, and so is the place of the binding
      have other : w.right.bindEach args b (param :: params) =
          later.right.bindEach (later.left.cdr args)
            (bound.right.cons (w.left.cons param (w.left.car args)).1 b).1 params := by
        have made : (w.right.cons param (w.left.car args)).1 =
            (w.left.cons param (w.left.car args)).1 := congrArg Value.pair w.size
        have cell : later.right =
            (bound.right.cons (w.right.cons param (w.left.car args)).1 b).2 := by
          rw [made]
          rfl
        rw [← later.cdr_right (later.shown further), cell, ← made, Store.bindEach,
          w.car_right (w.shown datum)]
        rfl
      rw [other]
      exact ⟨last, le.trans leLast, left, right, inner⟩

omit [DecidableEq F] in
/-- Data are the same on both sides. -/
theorem eq_of_forall₂ {P : Value F → Prop}
    (agree : List.Forall₂ (fun a b => b = a ∧ P a) items others) :
    others = items ∧ ∀ item ∈ items, P item := by
  induction agree with
  | nil => exact ⟨rfl, nofun⟩
  | cons here _ ih =>
      obtain ⟨rfl, holds⟩ := here
      exact ⟨congrArg _ ih.1, List.forall_mem_cons.mpr ⟨holds, ih.2⟩⟩

variable (F start held) in
/-- Twins as worlds: values correspond if they are the same datum. -/
def sides : Sides F Unit where
  World := Twins F start held
  le := Le
  Fits w m n := w.left = m.store ∧ w.right = n.store
  Agree w a b := b = a ∧ w.veil.data a
  Env := Env

theorem Leads.sides {s t : Store F} {post : Twins F start held → Prop} (leads : w.Leads s t post) :
    (sides F start held).Leads w ⟨s, ()⟩ ⟨t, ()⟩ post := by
  obtain ⟨later, le, left, right, holds⟩ := leads
  exact ⟨later, le, ⟨left, right⟩, holds⟩

theorem sides_lawful : (sides F start held).Lawful where
  refl := Le.refl
  trans := Le.trans
  agree_mono le := fun ⟨same, datum⟩ => ⟨same, le.data _ datum⟩
  alike := by
    rintro w _ v ⟨rfl, -⟩
    cases v with
    | pair p => exact .pair p p
    | _ => exact .solid rfl
  same := by
    rintro w _ a _ c ⟨rfl, -⟩ ⟨rfl, -⟩
    rfl
  nil w := ⟨rfl, w.veiled.plain _ trivial⟩
  bool w _ := ⟨rfl, w.veiled.plain _ trivial⟩
  number w _ := ⟨rfl, w.veiled.plain _ trivial⟩
  lambda w := ⟨rfl, w.veiled.plain _ trivial⟩
  car := by
    rintro w ⟨_, _⟩ ⟨_, _⟩ _ a ⟨rfl, rfl⟩ ⟨rfl, datum⟩
    exact ⟨w.car_right (w.shown datum), (w.veiled.halves datum).1⟩
  cdr := by
    rintro w ⟨_, _⟩ ⟨_, _⟩ _ a ⟨rfl, rfl⟩ ⟨rfl, datum⟩
    exact ⟨w.cdr_right (w.shown datum), (w.veiled.halves datum).2⟩
  get := by
    rintro w ⟨_, _⟩ ⟨_, _⟩ _ v _ key ⟨rfl, rfl⟩ ⟨rfl, datum⟩ ⟨rfl, -⟩
    exact ⟨w.get_right v key, w.veiled.get datum⟩
  listing := by
    rintro w ⟨_, _⟩ ⟨_, _⟩ _ a ⟨rfl, rfl⟩ ⟨rfl, datum⟩
    rw [w.listing_right]
    apply List.forall₂_same.mpr
    intro key among
    obtain ⟨e, entered, rfl⟩ := Store.exists_of_mem_listing among
    exact ⟨rfl, (w.veiled.entry datum entered).1⟩
  cons := by
    rintro w ⟨_, _⟩ ⟨_, _⟩ _ a _ c ⟨rfl, rfl⟩ ⟨rfl, first⟩ ⟨rfl, second⟩
    exact (leads_cons first second).sides
  setCdr := by
    rintro w ⟨_, _⟩ ⟨_, _⟩ _ a _ c ⟨rfl, rfl⟩ ⟨rfl, first⟩ ⟨rfl, second⟩
    exact (leads_setCdr (w.shown first) second).sides
  put := by
    rintro w ⟨_, _⟩ ⟨_, _⟩ _ a _ k _ c ⟨rfl, rfl⟩ ⟨rfl, -⟩ ⟨rfl, first⟩ ⟨rfl, second⟩
    exact (leads_put first second).sides
  clear := by
    rintro w ⟨_, _⟩ ⟨_, _⟩ _ a ⟨rfl, rfl⟩ ⟨rfl, -⟩
    exact leads_clear.sides
  makeDictionary := by
    rintro w ⟨_, _⟩ ⟨_, _⟩ ⟨rfl, rfl⟩
    obtain ⟨later, le, left, right, datum⟩ := w.leads_makeDictionary
    exact ⟨later, le, ⟨left, right⟩, rfl, datum⟩

theorem sides_lawfulEnv : (sides F start held).LawfulEnv where
  toLawful := sides_lawful
  env_mono le env := env.mono le
  value := by
    rintro w ⟨_, _⟩ ⟨_, _⟩ _ symbol e f ⟨rfl, rfl⟩ ⟨rfl, -⟩ env
    obtain ⟨same, data⟩ := env.value?
    rw [same]
    exact rel_self fun v found => ⟨rfl, data v found⟩
  assign := by
    rintro w ⟨_, _⟩ ⟨_, _⟩ _ symbol _ v e f ⟨rfl, rfl⟩ ⟨rfl, -⟩ ⟨rfl, datum⟩ env
    exact rel_imp (env.assign? datum) fun _ _ leads => leads.sides
  bind := by
    rintro w ⟨_, _⟩ ⟨_, _⟩ params params' _ args e f ⟨rfl, rfl⟩ paramsAgree ⟨rfl, datum⟩ env
    apply rel_bind (sides_lawful.elements ⟨rfl, rfl⟩ paramsAgree)
    intro items others each
    obtain ⟨rfl, data⟩ := eq_of_forall₂ each
    exact .some (env.bindEach data datum).sides

end Twins

end SmallLisp
