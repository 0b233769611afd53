import SmallLisp.Proofs.Evaluation.Scene

/-! # Operations on stores with roles

Operations on data leave environments alone, and what they make are data. Binding parameters makes
cells and bindings only. Assigning a symbol changes its first binding in the environment or else its
slot. So families of worlds whose data are apart from their environments are lawful.
-/

namespace SmallLisp

variable {F σ : Type}

namespace Store

variable {s : Store F} {v : Value F}

theorem symbolValue_setSymbolValue_of_ne {x y : Value F} (other : x ≠ y) :
    (s.setSymbolValue x v).symbolValue y = s.symbolValue y := by
  cases y with
  | symbol id =>
      cases x with
      | symbol target =>
          cases target <;> cases id <;>
            simp_all [Store.setSymbolValue, Store.symbolValue, symbol?, Array.getElem?_modify]
      | _ => rfl
  | _ => rfl

/-- All pairs of an intact store may be data. -/
theorem Intact.secludes (intact : s.Intact) : s.Secludes ⟨s.pairs.size, fun _ => .datum⟩ := by
  have datum : ∀ {v : Value F}, v.Outside 0 0 s.pairs.size →
      Roles.Datum ⟨s.pairs.size, fun _ => .datum⟩ v := by
    intro v outside
    cases v with
    | pair p => exact ⟨outside.1, rfl⟩
    | _ => trivial
  refine ⟨rfl, fun p pair found => ?_, fun id symbol found => ?_, fun d e entered => ?_⟩
  · obtain ⟨car, cdr⟩ := intact.apart.pairs p pair found (.inr (Nat.zero_le p))
    exact ⟨datum car, datum cdr⟩
  · exact datum (intact.apart.slots id symbol found)
  · obtain ⟨key, value⟩ := intact.apart.entries d e entered
    exact ⟨datum key, datum value⟩

def Intact.scene (intact : s.Intact) : Scene F :=
  ⟨_, s, intact.secludes⟩

end Store

namespace Scene

variable {w : Scene F} {a b v : Value F}

/-- The scene with one more pair. -/
def push (w : Scene F) (role : Role) (a b : Value F)
    (holds : w.roles.Holds role w.roles.size ⟨a, b⟩) : Scene F :=
  ⟨w.roles.push role, (w.store.cons a b).2, w.secludes.cons role holds⟩

theorem store_push {role : Role} (holds : w.roles.Holds role w.roles.size ⟨a, b⟩) :
    (w.push role a b holds).store = (w.store.cons a b).2 := rfl

theorem push_steady {role : Role} (holds : w.roles.Holds role w.roles.size ⟨a, b⟩) :
    w.Steady (w.push role a b holds) where
  roles := w.roles.le_push role
  cars _ lt := Store.car_cons_of_lt (w.secludes.size ▸ lt)
  cells _ plays := Store.cdr_cons_of_lt (w.secludes.size ▸ plays.1)
  slots _ := rfl
  bindings _ plays := Store.cdr_cons_of_lt (w.secludes.size ▸ plays.1)

theorem push_tame (holds : w.roles.Holds .datum w.roles.size ⟨a, b⟩) :
    w.Tame (w.push .datum a b holds) where
  toSteady := push_steady holds
  data p old new := by
    obtain rfl : p = w.roles.size := Nat.le_antisymm (Nat.le_of_lt_succ new) old
    exact (w.roles.plays_push .datum).2

theorem cons_fst (w : Scene F) (a b : Value F) : (w.store.cons a b).1 = .pair w.roles.size := by
  rw [← w.secludes.size]
  rfl

theorem push_datum (holds : w.roles.Holds .datum w.roles.size ⟨a, b⟩) :
    (w.push .datum a b holds).roles.Datum (w.store.cons a b).1 := by
  rw [cons_fst]
  exact w.roles.plays_push .datum

/-- The scene with another second half of a pair that is no cell. -/
def setCdr (w : Scene F) (p : Nat) (free : w.roles.of p ≠ .cell) (v : Value F)
    (datum : w.roles.Datum v) : Scene F :=
  ⟨w.roles, w.store.setCdr (.pair p) v, w.secludes.setCdr free datum⟩

theorem setCdr_le {p : Nat} (free : w.roles.of p ≠ .cell) (datum : w.roles.Datum v) :
    w.Le (w.setCdr p free v datum) where
  roles := .refl _
  cars _ _ := Store.car_setCdr _ _
  cells q plays := by
    apply Store.cdr_setCdr_of_ne
    rintro rfl
    exact free plays.2

theorem setCdr_tame {p : Nat} (free : w.roles.of p = .datum) (datum : w.roles.Datum v) :
    w.Tame (w.setCdr p (by simp [free]) v datum) where
  toLe := setCdr_le _ datum
  slots _ := rfl
  bindings q plays := by
    apply Store.cdr_setCdr_of_ne
    rintro rfl
    cases free.symm.trans plays.2
  data p old new := absurd new (Nat.not_lt.mpr old)

theorem le_of_pairs {t : Store F} (secludes : t.Secludes w.roles) (pairs : t.pairs = w.store.pairs) :
    w.Le ⟨w.roles, t, secludes⟩ where
  roles := .refl _
  cars p _ := by simp only [Store.car, pairs]
  cells p _ := by simp only [Store.cdr, pairs]

/-- A store with the same pairs and the same slots is in the same roles. -/
theorem tame_of_pairs {t : Store F} (secludes : t.Secludes w.roles)
    (pairs : t.pairs = w.store.pairs) (slots : ∀ v, t.symbolValue v = w.store.symbolValue v) :
    w.Tame ⟨w.roles, t, secludes⟩ where
  toLe := le_of_pairs secludes pairs
  slots := slots
  bindings p _ := by simp only [Store.cdr, pairs]
  data p old new := absurd new (Nat.not_lt.mpr old)

/-- What is loaded are data. -/
theorem load (w : Scene F) (d : Datum) :
    ∃ later : Scene F, later.store = (w.store.load d).2 ∧ w.Tame later ∧
      later.roles.Datum (w.store.load d).1 := by
  induction d generalizing w with
  | atom a =>
      have plain : ∀ place, ((w.store.load (.atom a)).1).Below place := w.store.below_loadAtom a
      have solid : ∀ r : Roles, r.Datum (w.store.load (.atom a)).1 := by
        intro r
        cases value : (w.store.load (.atom a)).1 with
        | pair p =>
            have below := plain 0
            rw [value] at below
            cases below
        | _ => trivial
      cases a with
      | symbol name =>
          exact ⟨_, rfl, tame_of_pairs (w.secludes.intern name) (Store.pairs_intern name w.store)
            (Store.symbolValue_intern name _), solid _⟩
      | _ => exact ⟨w, rfl, .refl w, trivial⟩
  | cons car cdr loadCar loadCdr =>
      obtain ⟨first, storeFirst, tameFirst, datumFirst⟩ := loadCar w
      obtain ⟨second, storeSecond, tameSecond, datumSecond⟩ := loadCdr first
      rw [storeFirst] at storeSecond datumSecond
      have holds : second.roles.Holds .datum second.roles.size
          ⟨(w.store.load car).1, ((w.store.load car).2.load cdr).1⟩ :=
        ⟨datumFirst.mono tameSecond.roles, datumSecond⟩
      have made := push_datum holds
      have tame := (tameFirst.trans tameSecond).trans (push_tame holds)
      have store := store_push holds
      rw [storeSecond] at made store
      exact ⟨_, store, tame, made⟩

theorem internAll (w : Scene F) (names : List String) :
    ∃ later : Scene F, later.store = w.store.internAll names ∧ w.Tame later := by
  induction names generalizing w with
  | nil => exact ⟨w, rfl, .refl w⟩
  | cons name names ih =>
      have tame := tame_of_pairs (w.secludes.intern name) (Store.pairs_intern name w.store)
        (Store.symbolValue_intern name _)
      obtain ⟨later, store, further⟩ := ih ⟨w.roles, (w.store.intern name).2, w.secludes.intern name⟩
      exact ⟨later, store, tame.trans further⟩

theorem read (w : Scene F) (text : String) :
    ∃ later : Scene F, later.store = (w.store.read text).2 ∧ w.Tame later ∧
      ∀ form ∈ (w.store.read text).1.toOption, later.roles.Datum form := by
  obtain ⟨named, store, tame⟩ := w.internAll (SmallLisp.read text).names
  unfold Store.read Store.loadReading
  cases (SmallLisp.read text).result with
  | error e => exact ⟨named, store, tame, by simp [Except.toOption]⟩
  | ok d =>
      obtain ⟨later, storeLater, further, datum⟩ := named.load d
      rw [store] at storeLater datum
      exact ⟨later, storeLater, tame.trans further, by simpa [Except.toOption] using datum⟩

variable [DecidableEq F]

/-- The symbol is bound in the environment, by a pair from `n` on. -/
def Guards (w : Scene F) (n : Nat) (env : Value F) (id : SymbolId) : Prop :=
  ∃ b, w.store.assoc? (.symbol id) env = some (.pair b) ∧ n ≤ b

theorem Guards.mono {u : Scene F} {n : Nat} {env : Value F} {id : SymbolId}
    (guards : u.Guards n env id) (environment : u.roles.Environment env) (le : u.Le w) :
    w.Guards n env id := by
  obtain ⟨b, found, late⟩ := guards
  exact ⟨b, (le.assoc? environment).trans found, late⟩

/-- A binding in front guards its symbol, and the symbols that the rest guards. -/
theorem Guards.front {n c b : Nat} {param env : Value F} {id : SymbolId}
    (cell : w.roles.Plays .cell c) (car : w.store.car (.pair c) = .pair b)
    (key : w.store.car (.pair b) = param) (cdr : w.store.cdr (.pair c) = env) (late : n ≤ b)
    (before : w.Guards n env id ∨ .symbol id = param) : w.Guards n (.pair c) id := by
  have found := w.assoc?_cell (.symbol id) cell
  rw [car, key, cdr] at found
  split at found
  · exact ⟨b, found, late⟩
  · next other =>
      rcases before with ⟨b, sought, late⟩ | rfl
      · exact ⟨b, found.trans sought, late⟩
      · exact absurd (Value.same_symbol_iff.mpr rfl) other

/-- What binding parameters does to a scene. -/
structure Binds (w later : Scene F) (params : List (Value F)) (env inner : Value F) : Prop
    extends Steady w later where
  environment : later.roles.Environment inner
  fresh : ∀ p, w.roles.size ≤ p → p < later.roles.size → later.roles.of p ≠ .datum
  guards : ∀ n id, n ≤ w.roles.size → w.Guards n env id ∨ .symbol id ∈ params →
    later.Guards n inner id

theorem Binds.nil {env : Value F} (environment : w.roles.Environment env) : w.Binds w [] env env where
  toSteady := .refl w
  environment := environment
  fresh p old new := absurd new (Nat.not_lt.mpr old)
  guards n id _ before := by
    rcases before with guards | among
    · exact guards
    · cases among

theorem Binds.cons {u : Scene F} {param env middle inner : Value F} {params : List (Value F)}
    (first : w.Binds u [param] env middle) {later : Scene F}
    (rest : u.Binds later params middle inner) : w.Binds later (param :: params) env inner where
  toSteady := first.toSteady.trans rest.toSteady
  environment := rest.environment
  fresh p old new := by
    by_cases early : p < u.roles.size
    · rw [rest.roles.of p early]
      exact first.fresh p old early
    · exact rest.fresh p (Nat.le_of_not_lt early) new
  guards n id le before := by
    apply rest.guards n id (Nat.le_trans le first.roles.size)
    rcases before with guards | among
    · exact .inl (first.guards n id le (.inl guards))
    · rcases List.mem_cons.mp among with same | among
      · exact .inl (first.guards n id le (.inr (List.mem_singleton.mpr same)))
      · exact .inr among

/-- One parameter takes a binding and a cell. -/
theorem bindOne (w : Scene F) {param arg env : Value F} (datum : w.roles.Datum param)
    (argDatum : w.roles.Datum arg) (environment : w.roles.Environment env) :
    ∃ later : Scene F,
      later.store = ((w.store.cons param arg).2.cons (w.store.cons param arg).1 env).2 ∧
      w.Binds later [param] env
        ((w.store.cons param arg).2.cons (w.store.cons param arg).1 env).1 := by
  have holdsBinding : w.roles.Holds .binding w.roles.size ⟨param, arg⟩ := ⟨datum, argDatum⟩
  let bound := w.push .binding param arg holdsBinding
  have first : w.Steady bound := push_steady holdsBinding
  have place := w.cons_fst param arg
  have below : env.Below bound.roles.size := by
    cases env with
    | pair p => exact Nat.lt_succ_of_lt environment.1
    | _ => trivial
  have holdsCell : bound.roles.Holds .cell bound.roles.size ⟨(w.store.cons param arg).1, env⟩ :=
    ⟨⟨w.roles.size, place, w.roles.plays_push .binding⟩, environment.mono first.roles, below⟩
  let later := bound.push .cell _ env holdsCell
  have second : bound.Steady later := push_steady holdsCell
  have cell : later.roles.Plays .cell bound.roles.size := bound.roles.plays_push .cell
  have inner : ((w.store.cons param arg).2.cons (w.store.cons param arg).1 env).1 =
      .pair bound.roles.size := bound.cons_fst _ env
  rw [inner]
  refine ⟨later, rfl, first.trans second, cell, ?_, ?_⟩
  · intro p old new
    by_cases early : p < bound.roles.size
    · obtain rfl : p = w.roles.size := Nat.le_antisymm (Nat.le_of_lt_succ early) old
      have binding : bound.roles.of w.roles.size = .binding := (w.roles.plays_push .binding).2
      rw [second.roles.of _ early, binding]
      decide
    · obtain rfl : p = bound.roles.size :=
        Nat.le_antisymm (Nat.le_of_lt_succ new) (Nat.le_of_not_lt early)
      rw [cell.2]
      decide
  · intro n id le before
    have carCell : later.store.car (.pair bound.roles.size) = .pair w.roles.size := by
      rw [← bound.secludes.size, ← place]
      exact Store.car_cons_size
    have cdrCell : later.store.cdr (.pair bound.roles.size) = env := by
      rw [← bound.secludes.size]
      exact Store.cdr_cons_size
    have carBinding : later.store.car (.pair w.roles.size) = param := by
      rw [second.cars _ (Nat.lt_succ_self _), ← w.secludes.size]
      exact Store.car_cons_size
    apply Guards.front cell carCell carBinding cdrCell le
    exact before.imp (·.mono environment (first.trans second).toLe) List.mem_singleton.mp

theorem bindEach (w : Scene F) {args env : Value F} {params : List (Value F)}
    (data : ∀ param ∈ params, w.roles.Datum param) (datum : w.roles.Datum args)
    (environment : w.roles.Environment env) :
    ∃ later : Scene F, later.store = (w.store.bindEach args env params).2 ∧
      w.Binds later params env (w.store.bindEach args env params).1 := by
  induction params generalizing w args env with
  | nil => exact ⟨w, rfl, .nil environment⟩
  | cons param params ih =>
      obtain ⟨here, others⟩ := List.forall_mem_cons.mp data
      obtain ⟨u, store, first⟩ := w.bindOne here (w.secludes.car datum) environment
      obtain ⟨later, last, rest⟩ := ih u (fun v among => (others v among).mono first.roles)
        (u.secludes.cdr (datum.mono first.roles)) first.environment
      rw [store] at last rest
      exact ⟨later, last, first.cons rest⟩

omit [DecidableEq F] in
theorem data_of_listed {items : List (Value F)} (listed : w.store.Listed v items)
    (datum : w.roles.Datum v) : ∀ item ∈ items, w.roles.Datum item := by
  induction listed with
  | nil => nofun
  | cons _ ih =>
      exact List.forall_mem_cons.mpr ⟨w.secludes.car datum, ih (w.secludes.cdr datum)⟩

theorem bind {params args env inner : Value F} {s : Store F} (datum : w.roles.Datum params)
    (argsDatum : w.roles.Datum args) (environment : w.roles.Environment env)
    (done : w.store.bind? params args env = some (inner, s)) :
    ∃ items later, w.store.elements? params = some items ∧ later.store = s ∧
      w.Binds later items env inner := by
  obtain ⟨items, walked, rest⟩ := Option.bind_eq_some_iff.mp done
  have data := data_of_listed (Store.elements?_eq_some_iff.mp walked).1 datum
  obtain ⟨later, store, binds⟩ := w.bindEach data argsDatum environment
  rw [Option.some.inj rest] at store binds
  exact ⟨items, later, walked, store, binds⟩

/-- Since the origin neither the slot of a guarded symbol nor a bound value of it was replaced. -/
structure Kept (guarded : SymbolId → Prop) (origin w : Scene F) : Prop where
  le : origin.Le w
  slots : ∀ id, guarded id →
    w.store.symbolValue (.symbol id) = origin.store.symbolValue (.symbol id)
  bindings : ∀ b id, guarded id → origin.roles.Plays .binding b →
    origin.store.car (.pair b) = .symbol id → w.store.cdr (.pair b) = origin.store.cdr (.pair b)

/-- Every guarded symbol is bound in the environment by a pair that was made after the origin. -/
structure Screens (guarded : SymbolId → Prop) (origin w : Scene F) (env : Value F) : Prop where
  environment : w.roles.Environment env
  guards : ∀ id, guarded id → w.Guards origin.roles.size env id

variable {guarded : SymbolId → Prop} {origin u : Scene F} {env symbol : Value F}

omit [DecidableEq F] in
theorem Kept.refl (guarded : SymbolId → Prop) (w : Scene F) : w.Kept guarded w :=
  ⟨.refl w, fun _ _ => rfl, fun _ _ _ _ _ => rfl⟩

omit [DecidableEq F] in
theorem Kept.steady (kept : origin.Kept guarded u) (steady : u.Steady w) :
    origin.Kept guarded w where
  le := kept.le.trans steady.toLe
  slots id guard := (steady.slots _).trans (kept.slots id guard)
  bindings b id guard plays bound :=
    (steady.bindings b (plays.mono kept.le.roles)).trans (kept.bindings b id guard plays bound)

theorem Screens.mono (screens : origin.Screens guarded u env) (le : u.Le w) :
    origin.Screens guarded w env :=
  ⟨screens.environment.mono le.roles, fun id guard =>
    (screens.guards id guard).mono screens.environment le⟩

/-- An assignment below a screen reaches neither the slot nor an old binding of a guarded symbol. -/
theorem Kept.assign {s : Store F} (kept : origin.Kept guarded w)
    (screens : origin.Screens guarded w env) (datum : w.roles.Datum v)
    (done : w.store.assign? symbol v env = some s) :
    ∃ later : Scene F, later.store = s ∧ w.Le later ∧ origin.Kept guarded later ∧
      later.roles = w.roles := by
  rcases w.assoc_cases symbol screens.environment with missing | ⟨b, found, plays, same⟩
  · simp only [Store.assign?, missing, Option.bind_eq_bind, Option.bind_some] at done
    cases done
    have pairs := Store.pairs_setSymbolValue symbol v w.store
    have le := le_of_pairs (w.secludes.setSymbolValue datum) pairs
    refine ⟨_, rfl, le, ⟨kept.le.trans le, ?_, ?_⟩, rfl⟩
    · intro id guard
      obtain ⟨b, found, -⟩ := screens.guards id guard
      have other : symbol ≠ .symbol id := by
        rintro rfl
        cases missing.symm.trans found
      exact (Store.symbolValue_setSymbolValue_of_ne other).trans (kept.slots id guard)
    · intro b id guard plays bound
      rw [← kept.bindings b id guard plays bound]
      simp only [Store.cdr, pairs]
  · simp only [Store.assign?, found, Option.bind_eq_bind, Option.bind_some] at done
    cases done
    have free : w.roles.of b ≠ .cell := by simp [plays.2]
    have le := setCdr_le free datum
    refine ⟨_, rfl, le, ⟨kept.le.trans le, kept.slots, ?_⟩, rfl⟩
    intro old id guard oldPlays bound
    obtain ⟨c, first, late⟩ := screens.guards id guard
    have other : b ≠ old := by
      rintro rfl
      rw [kept.le.cars b oldPlays.1, bound] at same
      obtain rfl := Value.same_symbol_iff.mp same
      cases found.symm.trans first
      exact Nat.not_lt.mpr late oldPlays.1
    exact (Store.cdr_setCdr_of_ne other).trans (kept.bindings old id guard oldPlays bound)

theorem value (environment : w.roles.Environment env)
    (found : w.store.value? symbol env = some v) : w.roles.Datum v := by
  rcases w.assoc_cases symbol environment with missing | ⟨b, bound, plays, -⟩
  · simp only [Store.value?, missing, Option.bind_eq_bind, Option.bind_some] at found
    cases found
    exact w.secludes.symbolValue symbol
  · simp only [Store.value?, bound, Option.bind_eq_bind, Option.bind_some] at found
    cases found
    exact (w.secludes.halves plays.1 (by simp [plays.2])).2

end Scene

/-! ### The worlds -/

namespace Worlds

/-- The worlds in which data are apart from environments. -/
def secluded (kept : Scene F → Prop) (env : Scene F → Value F → Prop) : Worlds F σ where
  World := Scene F
  le := Scene.Le
  Fits w m := w.store = m.store ∧ kept w
  Good w v := w.roles.Datum v
  Env := env

/-- The worlds in which the slots and the bound values of the guarded symbols stay as they are in the
    origin. -/
def guarded [DecidableEq F] (guarded : SymbolId → Prop) (origin : Scene F) : Worlds F σ :=
  secluded (origin.Kept guarded) (origin.Screens guarded)

variable [DecidableEq F] {kept : Scene F → Prop} {env : Scene F → Value F → Prop}

theorem secluded_lawful (stable : ∀ u w, kept u → u.Tame w → kept w) :
    (secluded kept env : Worlds F σ).Lawful := by
  have leads : ∀ {w : Scene F} {m : Machine F σ} {s : Store F} {post : Scene F → Prop}
      (later : Scene F), kept w → w.Tame later → later.store = s → post later →
      (secluded kept env : Worlds F σ).Leads w ⟨s, m.host⟩ post :=
    fun later still tame same holds => ⟨later, tame.toLe, ⟨same, stable _ _ still tame⟩, holds⟩
  exact
    { refl := Scene.Le.refl
      trans := Scene.Le.trans
      good_mono := fun le good => good.mono le.roles
      nil := fun _ => trivial
      bool := fun _ _ => trivial
      number := fun _ _ => trivial
      lambda := fun _ => trivial
      car := by
        rintro w ⟨_, host⟩ v ⟨rfl, -⟩ good
        exact w.secludes.car good
      cdr := by
        rintro w ⟨_, host⟩ v ⟨rfl, -⟩ good
        exact w.secludes.cdr good
      entry := by
        rintro w ⟨_, host⟩ v e ⟨rfl, -⟩ - entered
        cases v with
        | dictionary d => exact w.secludes.entries d e entered
        | _ => cases entered
      cons := by
        rintro w ⟨_, host⟩ a b ⟨rfl, still⟩ first second
        have holds : w.roles.Holds .datum w.roles.size ⟨a, b⟩ := ⟨first, second⟩
        exact leads _ still (Scene.push_tame holds) rfl (Scene.push_datum holds)
      setCdr := by
        rintro w ⟨_, host⟩ p v ⟨rfl, still⟩ target good
        cases p with
        | pair p => exact leads _ still (Scene.setCdr_tame target.2 good) rfl trivial
        | _ => exact leads w still (.refl w) rfl trivial
      put := by
        rintro w ⟨_, host⟩ d k v ⟨rfl, still⟩ - key value
        refine leads _ still (Scene.tame_of_pairs (w.secludes.put key value)
          (Store.pairs_put d k v w.store) ?_) rfl trivial
        cases d <;> exact fun _ => rfl
      clear := by
        rintro w ⟨_, host⟩ d ⟨rfl, still⟩ -
        refine leads _ still (Scene.tame_of_pairs w.secludes.clear (Store.pairs_clear d w.store) ?_)
          rfl trivial
        cases d <;> exact fun _ => rfl
      makeDictionary := by
        rintro w ⟨_, host⟩ ⟨rfl, still⟩
        exact leads _ still (Scene.tame_of_pairs w.secludes.makeDictionary rfl fun _ => rfl) rfl
          trivial }

theorem guarded_lawfulEnv (guarded : SymbolId → Prop) (origin : Scene F) :
    (Worlds.guarded guarded origin : Worlds F σ).LawfulEnv where
  toLawful := secluded_lawful fun _ _ kept tame => kept.steady tame.toSteady
  env_mono le screens := screens.mono le
  value := by
    rintro w ⟨_, host⟩ symbol env v ⟨rfl, -⟩ - screens found
    exact Scene.value screens.environment found
  assign := by
    rintro w ⟨_, host⟩ symbol v env s ⟨rfl, kept⟩ - datum screens done
    obtain ⟨later, store, le, still, -⟩ := kept.assign screens datum done
    exact ⟨later, le, ⟨store, still⟩, trivial⟩
  bind := by
    rintro w ⟨_, host⟩ params args env inner s ⟨rfl, kept⟩ datum argsDatum screens done
    obtain ⟨_, later, -, store, binds⟩ := Scene.bind datum argsDatum screens.environment done
    refine ⟨later, binds.toLe, ⟨store, kept.steady binds.toSteady⟩, binds.environment, ?_⟩
    exact fun id guard =>
      binds.guards _ id kept.le.roles.size (.inl (screens.guards id guard))

end Worlds

end SmallLisp
