import SmallLisp.Proofs.Evaluation.Sides

/-! # What evaluation keeps

Evaluation reaches the store through few operations, and gets hold of a value only by one of them. A
property that these operations keep is therefore kept by the evaluation of every expression, however
deep. It is told by worlds. A world says how a machine looks and which values may be met in it, both as
data and as environments, and each operation leads to a later world. A machine with a property is
evaluated side by side with itself, and so the property is kept.
-/

namespace SmallLisp

variable {F σ α : Type}

/-- A family of worlds, ordered by what can still come. -/
structure Worlds (F σ : Type) where
  World : Type
  le : World → World → Prop
  /-- The machine looks as the world says. -/
  Fits : World → Machine F σ → Prop
  /-- The value may be met as an expression, an argument or a result. -/
  Good : World → Value F → Prop
  /-- The value may be met as an environment. -/
  Env : World → Value F → Prop

namespace Worlds

variable (K : Worlds F σ)

/-- The machine fits a later world that has the property. -/
def Leads (w : K.World) (m : Machine F σ) (post : K.World → Prop) : Prop :=
  ∃ later, K.le w later ∧ K.Fits later m ∧ post later

/-- What the operations on data do to the worlds. -/
structure Lawful [DecidableEq F] : Prop where
  refl (w : K.World) : K.le w w
  trans {u v w : K.World} : K.le u v → K.le v w → K.le u w
  good_mono {u w : K.World} {v : Value F} : K.le u w → K.Good u v → K.Good w v
  nil (w : K.World) : K.Good w .nil
  bool (w : K.World) (b : Bool) : K.Good w (.bool b)
  number (w : K.World) (x : Float) : K.Good w (.number x)
  lambda (w : K.World) : K.Good w Special.lambda.symbol
  car {w : K.World} {m : Machine F σ} {v : Value F} :
    K.Fits w m → K.Good w v → K.Good w (m.store.car v)
  cdr {w : K.World} {m : Machine F σ} {v : Value F} :
    K.Fits w m → K.Good w v → K.Good w (m.store.cdr v)
  entry {w : K.World} {m : Machine F σ} {d : Value F} {e : Value F × Value F} :
    K.Fits w m → K.Good w d → e ∈ m.store.entries d → K.Good w e.1 ∧ K.Good w e.2
  cons {w : K.World} {m : Machine F σ} {a b : Value F} : K.Fits w m → K.Good w a → K.Good w b →
    K.Leads w ⟨(m.store.cons a b).2, m.host⟩ fun later => K.Good later (m.store.cons a b).1
  setCdr {w : K.World} {m : Machine F σ} {p v : Value F} : K.Fits w m → K.Good w p → K.Good w v →
    K.Leads w ⟨m.store.setCdr p v, m.host⟩ fun _ => True
  put {w : K.World} {m : Machine F σ} {d k v : Value F} :
    K.Fits w m → K.Good w d → K.Good w k → K.Good w v →
    K.Leads w ⟨(m.store.put d k v).2, m.host⟩ fun _ => True
  clear {w : K.World} {m : Machine F σ} {d : Value F} : K.Fits w m → K.Good w d →
    K.Leads w ⟨(m.store.clear d).2, m.host⟩ fun _ => True
  makeDictionary {w : K.World} {m : Machine F σ} : K.Fits w m →
    K.Leads w ⟨m.store.makeDictionary.2, m.host⟩ fun later => K.Good later m.store.makeDictionary.1

/-- What the operations on data and on environments do to the worlds. -/
structure LawfulEnv [DecidableEq F] : Prop extends K.Lawful where
  env_mono {u w : K.World} {v : Value F} : K.le u w → K.Env u v → K.Env w v
  value {w : K.World} {m : Machine F σ} {symbol env v : Value F} :
    K.Fits w m → K.Good w symbol → K.Env w env → m.store.value? symbol env = some v → K.Good w v
  assign {w : K.World} {m : Machine F σ} {symbol v env : Value F} {s : Store F} :
    K.Fits w m → K.Good w symbol → K.Good w v → K.Env w env →
    m.store.assign? symbol v env = some s → K.Leads w ⟨s, m.host⟩ fun _ => True
  bind {w : K.World} {m : Machine F σ} {params args env inner : Value F} {s : Store F} :
    K.Fits w m → K.Good w params → K.Good w args → K.Env w env →
    m.store.bind? params args env = some (inner, s) →
    K.Leads w ⟨s, m.host⟩ fun later => K.Env later inner

variable {K} {w : K.World} {m : Machine F σ}

variable (K) in
/-- On a machine that fits the world the action leaves one that fits a later world, and there its
    result has the property. -/
def Safe (w : K.World) (a : Action F σ α) (post : K.World → α → Prop) : Prop :=
  ∀ m, K.Fits w m → ∀ x m', a m = some (x, m') → K.Leads w m' fun later => post later x

variable (K) in
/-- A machine side by side with itself. -/
def diagonal : Sides F σ where
  World := K.World
  le := K.le
  Fits w m n := m = n ∧ K.Fits w m
  Agree w a b := a = b ∧ K.Good w a
  Env w e f := e = f ∧ K.Env w e

variable (K) in
/-- The values are the same, and the property holds of them. -/
def Twice (post : K.World → α → Prop) (w : K.diagonal.World) (x y : α) : Prop :=
  x = y ∧ post w x

theorem Leads.diagonal {post : K.World → Prop} {twice : K.diagonal.World → Prop}
    (leads : K.Leads w m post) (imp : ∀ later, post later → twice later) :
    K.diagonal.Leads w m m twice := by
  obtain ⟨later, le, fits, holds⟩ := leads
  exact ⟨later, le, ⟨rfl, fits⟩, imp later holds⟩

theorem leads_of_diagonal {post : K.World → Prop} {twice : K.diagonal.World → Prop}
    (leads : K.diagonal.Leads w m m twice) (imp : ∀ later, twice later → post later) :
    K.Leads w m post := by
  obtain ⟨later, le, ⟨-, fits⟩, holds⟩ := leads
  exact ⟨later, le, fits, imp later holds⟩

theorem safe_iff_both {a : Action F σ α} {post : K.World → α → Prop} :
    K.Safe w a post ↔ K.diagonal.Both w a a (K.Twice post) := by
  constructor
  · rintro safe m _ ⟨rfl, fits⟩
    cases done : a m with
    | none => exact .none
    | some r => exact .some ((safe m fits r.1 r.2 done).diagonal fun _ holds => ⟨rfl, holds⟩)
  · intro both m fits x m' done
    have related := both m m ⟨rfl, fits⟩
    rw [done] at related
    cases related with
    | some leads => exact leads_of_diagonal leads fun _ holds => holds.2

theorem Safe.never {post : K.World → α → Prop} : K.Safe w Action.never post := by
  intro m _ x m' done
  cases done

variable (K) in
/-- What a function may ask of the evaluator is safe. -/
structure CallsSafe (calls : Calls F σ) : Prop where
  eval {w : K.World} {expr env : Value F} : K.Good w expr → K.Env w env →
    K.Safe w (calls.eval expr env) K.Good
  apply {w : K.World} {fn args env : Value F} : K.Good w fn → K.Good w args → K.Env w env →
    K.Safe w (calls.apply fn args env) K.Good

theorem callsSafe_iff_callsBoth {calls : Calls F σ} :
    K.CallsSafe calls ↔ K.diagonal.CallsBoth calls := by
  constructor
  · intro safe
    constructor
    · rintro w a _ e _ ⟨rfl, good⟩ ⟨rfl, env⟩
      exact safe_iff_both.mp (safe.eval good env)
    · rintro w a _ c _ e _ ⟨rfl, good⟩ ⟨rfl, args⟩ ⟨rfl, env⟩
      exact safe_iff_both.mp (safe.apply good args env)
  · intro both
    constructor
    · intro w expr env good goodEnv
      exact safe_iff_both.mpr (both.eval ⟨rfl, good⟩ ⟨rfl, goodEnv⟩)
    · intro w fn args env good goodArgs goodEnv
      exact safe_iff_both.mpr (both.apply ⟨rfl, good⟩ ⟨rfl, goodArgs⟩ ⟨rfl, goodEnv⟩)

variable (K) in
/-- The functions that the host adds are safe where the evaluator is. -/
def HostSafe (host : Host F σ) : Prop :=
  ∀ calls, K.CallsSafe calls → ∀ (w : K.World) (f : F) (args env : Value F),
    K.Good w args → K.Env w env → K.Safe w (host.call calls f args env) K.Good

theorem hostSafe_none (K : Worlds Empty Unit) : K.HostSafe Host.none :=
  fun _ _ _ f => f.elim

theorem HostSafe.diagonal {host : Host F σ} (safe : K.HostSafe host) : K.diagonal.HostBoth host := by
  rintro calls both w f args _ env _ ⟨rfl, good⟩ ⟨rfl, goodEnv⟩
  exact safe_iff_both.mp (safe calls (callsSafe_iff_callsBoth.mpr both) w f args env good goodEnv)

variable [DecidableEq F]

theorem Lawful.cadr (lawful : K.Lawful) {v : Value F} (fits : K.Fits w m) (good : K.Good w v) :
    K.Good w (m.store.cadr v) :=
  lawful.car fits (lawful.cdr fits good)

theorem Lawful.cddr (lawful : K.Lawful) {v : Value F} (fits : K.Fits w m) (good : K.Good w v) :
    K.Good w (m.store.cddr v) :=
  lawful.cdr fits (lawful.cdr fits good)

theorem Lawful.caddr (lawful : K.Lawful) {v : Value F} (fits : K.Fits w m) (good : K.Good w v) :
    K.Good w (m.store.caddr v) :=
  lawful.car fits (lawful.cddr fits good)

theorem Lawful.get (lawful : K.Lawful) {target key : Value F} (fits : K.Fits w m)
    (good : K.Good w target) : K.Good w (m.store.get target key) := by
  rw [Store.get]
  rcases m.store.getOr_cases target key .nil with same | same | ⟨e, entered, same⟩
  · exact same.symm ▸ lawful.nil w
  · exact same.symm ▸ lawful.nil w
  · exact same ▸ (lawful.entry fits good entered).2

/-- What is lawful is lawful side by side with itself. -/
theorem Lawful.diagonal (lawful : K.Lawful) : K.diagonal.Lawful where
  refl := lawful.refl
  trans := lawful.trans
  agree_mono le := fun ⟨same, good⟩ => ⟨same, lawful.good_mono le good⟩
  alike {_ a _} := by
    rintro ⟨rfl, -⟩
    cases a with
    | pair p => exact .pair p p
    | _ => exact .solid rfl
  same := by
    rintro w a _ c _ ⟨rfl, -⟩ ⟨rfl, -⟩
    rfl
  nil w := ⟨rfl, lawful.nil w⟩
  bool w b := ⟨rfl, lawful.bool w b⟩
  number w x := ⟨rfl, lawful.number w x⟩
  lambda w := ⟨rfl, lawful.lambda w⟩
  car := by
    rintro w m _ a _ ⟨rfl, fits⟩ ⟨rfl, good⟩
    exact ⟨rfl, lawful.car fits good⟩
  cdr := by
    rintro w m _ a _ ⟨rfl, fits⟩ ⟨rfl, good⟩
    exact ⟨rfl, lawful.cdr fits good⟩
  get := by
    rintro w m _ a _ k _ ⟨rfl, fits⟩ ⟨rfl, good⟩ ⟨rfl, -⟩
    exact ⟨rfl, lawful.get fits good⟩
  listing := by
    rintro w m _ a _ ⟨rfl, fits⟩ ⟨rfl, good⟩
    apply List.forall₂_same.mpr
    intro key among
    obtain ⟨e, entered, rfl⟩ := Store.exists_of_mem_listing among
    exact ⟨rfl, (lawful.entry fits good entered).1⟩
  cons := by
    rintro w m _ a _ c _ ⟨rfl, fits⟩ ⟨rfl, first⟩ ⟨rfl, second⟩
    exact (lawful.cons fits first second).diagonal fun _ good => ⟨rfl, good⟩
  setCdr := by
    rintro w m _ a _ c _ ⟨rfl, fits⟩ ⟨rfl, first⟩ ⟨rfl, second⟩
    exact (lawful.setCdr fits first second).diagonal fun _ => id
  put := by
    rintro w m _ a _ k _ c _ ⟨rfl, fits⟩ ⟨rfl, good⟩ ⟨rfl, key⟩ ⟨rfl, value⟩
    exact (lawful.put fits good key value).diagonal fun _ => id
  clear := by
    rintro w m _ a _ ⟨rfl, fits⟩ ⟨rfl, good⟩
    exact (lawful.clear fits good).diagonal fun _ => id
  makeDictionary := by
    rintro w m _ ⟨rfl, fits⟩
    exact (lawful.makeDictionary fits).diagonal fun _ good => ⟨rfl, good⟩

theorem LawfulEnv.diagonal (lawful : K.LawfulEnv) : K.diagonal.LawfulEnv where
  toLawful := lawful.toLawful.diagonal
  env_mono le := fun ⟨same, env⟩ => ⟨same, lawful.env_mono le env⟩
  value := by
    rintro w m _ a _ e _ ⟨rfl, fits⟩ ⟨rfl, good⟩ ⟨rfl, env⟩
    exact rel_self fun v found => ⟨rfl, lawful.value fits good env found⟩
  assign := by
    rintro w m _ a _ c _ e _ ⟨rfl, fits⟩ ⟨rfl, good⟩ ⟨rfl, value⟩ ⟨rfl, env⟩
    exact rel_self fun s done => (lawful.assign fits good value env done).diagonal fun _ => id
  bind := by
    rintro w m _ a _ c _ e _ ⟨rfl, fits⟩ ⟨rfl, params⟩ ⟨rfl, args⟩ ⟨rfl, env⟩
    exact rel_self fun r done =>
      (lawful.bind fits params args env done).diagonal fun _ inner => ⟨rfl, inner⟩

/-- Where an environment is met as data are, the laws for environments follow from those for data and
    for the slots of symbols. -/
theorem Lawful.withSlots (lawful : K.Lawful) (same : K.Env = K.Good)
    (slot : ∀ {w : K.World} {m : Machine F σ} {symbol : Value F}, K.Fits w m → K.Good w symbol →
      K.Good w (m.store.symbolValue symbol))
    (setSlot : ∀ {w : K.World} {m : Machine F σ} {symbol value : Value F}, K.Fits w m →
      K.Good w symbol → K.Good w value →
      K.Leads w ⟨m.store.setSymbolValue symbol value, m.host⟩ fun _ => True) : K.LawfulEnv := by
  have twice : K.diagonal.LawfulEnv := by
    apply lawful.diagonal.withSlots
    · funext w e f
      exact congrArg (e = f ∧ · w e) same
    · rintro w m _ a _ ⟨rfl, fits⟩ ⟨rfl, good⟩
      exact ⟨rfl, slot fits good⟩
    · rintro w m _ a _ c _ ⟨rfl, fits⟩ ⟨rfl, good⟩ ⟨rfl, value⟩
      exact (setSlot fits good value).diagonal fun _ => id
  exact
    { toLawful := lawful
      env_mono := fun le env => (twice.env_mono le ⟨rfl, env⟩).2
      value := fun fits good env found =>
        (of_rel_self (twice.value ⟨rfl, fits⟩ ⟨rfl, good⟩ ⟨rfl, env⟩) found).2
      assign := fun fits good value env done =>
        leads_of_diagonal (of_rel_self
          (twice.assign ⟨rfl, fits⟩ ⟨rfl, good⟩ ⟨rfl, value⟩ ⟨rfl, env⟩) done) fun _ => id
      bind := fun fits params args env done =>
        leads_of_diagonal (of_rel_self
          (twice.bind ⟨rfl, fits⟩ ⟨rfl, params⟩ ⟨rfl, args⟩ ⟨rfl, env⟩) done) fun _ inner => inner.2 }

theorem Lawful.builtin (lawful : K.Lawful) {calls : Calls F σ} (safe : K.CallsSafe calls)
    (b : Builtin) {args env : Value F} (good : K.Good w args) (goodEnv : K.Env w env) :
    K.Safe w (b.call calls args env) K.Good := by
  have both := callsSafe_iff_callsBoth.mp safe
  exact safe_iff_both.mpr (lawful.diagonal.builtin both b ⟨rfl, good⟩ ⟨rfl, goodEnv⟩)

variable (K) in
/-- Evaluation up to a depth is safe. -/
structure EvalSafe (host : Host F σ) (depth : Nat) : Prop where
  eval {w : K.World} {expr env : Value F} : K.Good w expr → K.Env w env →
    K.Safe w (evalWithin host depth expr env) K.Good
  form {w : K.World} {form env : Value F} : K.Good w form → K.Env w env →
    K.Safe w (evalForm host depth form env) K.Good
  conditional {w : K.World} {list env : Value F} : K.Good w list → K.Env w env →
    K.Safe w (evalIf host depth list env) K.Good
  list {w : K.World} {list env : Value F} : K.Good w list → K.Env w env →
    K.Safe w (evalList host depth list env) K.Good
  sequence {w : K.World} {last list env : Value F} : K.Good w last → K.Good w list → K.Env w env →
    K.Safe w (evalSequence host depth last list env) K.Good
  apply {w : K.World} {fn args env : Value F} : K.Good w fn → K.Good w args → K.Env w env →
    K.Safe w (applyWithin host depth fn args env) K.Good

/-- What the operations of the store keep, evaluation keeps at every depth. -/
theorem LawfulEnv.evalSafe {host : Host F σ} (lawful : K.LawfulEnv) (hostSafe : K.HostSafe host)
    (depth : Nat) : K.EvalSafe host depth := by
  have both := lawful.diagonal.evalBoth hostSafe.diagonal depth
  constructor
  · intro w expr env good goodEnv
    exact safe_iff_both.mpr (both.eval ⟨rfl, good⟩ ⟨rfl, goodEnv⟩)
  · intro w form env good goodEnv
    exact safe_iff_both.mpr (both.form ⟨rfl, good⟩ ⟨rfl, goodEnv⟩)
  · intro w list env good goodEnv
    exact safe_iff_both.mpr (both.conditional ⟨rfl, good⟩ ⟨rfl, goodEnv⟩)
  · intro w list env good goodEnv
    exact safe_iff_both.mpr (both.list ⟨rfl, good⟩ ⟨rfl, goodEnv⟩)
  · intro w last list env goodLast good goodEnv
    exact safe_iff_both.mpr (both.sequence ⟨rfl, goodLast⟩ ⟨rfl, good⟩ ⟨rfl, goodEnv⟩)
  · intro w fn args env good goodArgs goodEnv
    exact safe_iff_both.mpr (both.apply ⟨rfl, good⟩ ⟨rfl, goodArgs⟩ ⟨rfl, goodEnv⟩)

theorem LawfulEnv.evalGlobal {host : Host F σ} (lawful : K.LawfulEnv) (hostSafe : K.HostSafe host)
    {form : Value F} (good : K.Good w form) (empty : K.Env w .nil) :
    K.Safe w (host.evalGlobal form) K.Good :=
  (lawful.evalSafe hostSafe depthBound).eval good empty

end Worlds

/-- One change of a store, as evaluation makes them. -/
inductive Store.Changes [DecidableEq F] : Store F → Store F → Prop where
  | cons (s : Store F) (a b : Value F) : Changes s (s.cons a b).2
  | setCdr (s : Store F) (p v : Value F) : Changes s (s.setCdr p v)
  | setSymbolValue (s : Store F) (symbol v : Value F) : Changes s (s.setSymbolValue symbol v)
  | put (s : Store F) (d k v : Value F) : Changes s (s.put d k v).2
  | clear (s : Store F) (d : Value F) : Changes s (s.clear d).2
  | makeDictionary (s : Store F) : Changes s s.makeDictionary.2

namespace Worlds

/-- The worlds in which any value may be met and the machine keeps a property. -/
def keeping (kept : Machine F σ → Prop) : Worlds F σ where
  World := Unit
  le _ _ := True
  Fits _ m := kept m
  Good _ _ := True
  Env _ _ := True

variable [DecidableEq F] {kept : Machine F σ → Prop}

theorem keeping_leads {m : Machine F σ} {s : Store F} {post : (keeping kept).World → Prop}
    (changed : ∀ {m : Machine F σ} {s : Store F}, m.store.Changes s → kept m → kept ⟨s, m.host⟩)
    (change : m.store.Changes s) (holds : kept m) (result : post ()) :
    (keeping kept).Leads () ⟨s, m.host⟩ post :=
  ⟨(), trivial, changed change holds, result⟩

/-- What every single change keeps, all operations on data and environments keep. -/
theorem keeping_lawfulEnv
    (changed : ∀ {m : Machine F σ} {s : Store F}, m.store.Changes s → kept m → kept ⟨s, m.host⟩) :
    (keeping kept).LawfulEnv := by
  have lawful : (keeping kept).Lawful :=
    { refl := fun _ => trivial
      trans := fun _ _ => trivial
      good_mono := fun _ _ => trivial
      nil := fun _ => trivial
      bool := fun _ _ => trivial
      number := fun _ _ => trivial
      lambda := fun _ => trivial
      car := fun _ _ => trivial
      cdr := fun _ _ => trivial
      entry := fun _ _ _ => ⟨trivial, trivial⟩
      cons := fun holds _ _ => keeping_leads changed (.cons ..) holds trivial
      setCdr := fun holds _ _ => keeping_leads changed (.setCdr ..) holds trivial
      put := fun holds _ _ _ => keeping_leads changed (.put ..) holds trivial
      clear := fun holds _ => keeping_leads changed (.clear ..) holds trivial
      makeDictionary := fun holds => keeping_leads changed (.makeDictionary _) holds trivial }
  exact lawful.withSlots rfl (fun _ _ => trivial) fun holds _ _ =>
    keeping_leads changed (.setSymbolValue ..) holds trivial

/-- What every change and every function of the host keep, evaluation keeps. -/
theorem keeping_evalGlobal {host : Host F σ} {m m' : Machine F σ} {form v : Value F}
    (changed : ∀ {m : Machine F σ} {s : Store F}, m.store.Changes s → kept m → kept ⟨s, m.host⟩)
    (hostSafe : (keeping kept).HostSafe host) (holds : kept m)
    (done : host.evalGlobal form m = some (v, m')) : kept m' := by
  have safe : (keeping kept).Safe () (host.evalGlobal form) (keeping kept).Good :=
    (keeping_lawfulEnv changed).evalGlobal hostSafe trivial trivial
  obtain ⟨_, -, still, -⟩ := safe m holds v m' done
  exact still

end Worlds

end SmallLisp
