import SmallLisp.Proofs.Evaluation.Fine
import SmallLisp.Proofs.Evaluation.Seclusion

/-! # Environments are private

In a session the pairs that bind parameters are known to the evaluator only. No program gets hold of
one of them, so what is bound to a parameter is replaced by assignments only. -/

namespace SmallLisp

/-- The deed replaces the value of a symbol. -/
def Deed.Assigns {F : Type} : Deed F → Prop
  | .define _ _ | .assign _ _ _ => True
  | _ => False

def Deed.Binds {F : Type} : Deed F → Prop
  | .bind _ _ _ => True
  | _ => False

namespace Scene

/-- What a deed does to the pairs of environments: binding parameters makes some, and assigning
    replaces what is bound. -/
structure Did (d : Deed Empty) (w later : Scene Empty) : Prop extends Le w later where
  fresh : ∀ p, w.roles.size ≤ p → p < later.roles.size → (later.roles.of p = .datum ↔ ¬ d.Binds)
  bindings : ¬ d.Assigns → ∀ p, w.roles.Plays .binding p →
    later.store.cdr (.pair p) = w.store.cdr (.pair p)

variable {w later : Scene Empty} {d : Deed Empty}

theorem Tame.did (tame : w.Tame later) (other : ¬ d.Binds) : w.Did d later where
  toLe := tame.toLe
  fresh p old new := iff_of_true (tame.data p old new) other
  bindings _ := tame.bindings

theorem Binds.did {params : List (Value Empty)} {fn args env outer inner : Value Empty}
    (binds : w.Binds later params outer inner) : w.Did (.bind fn args env) later where
  toLe := binds.toLe
  fresh p old new := iff_of_false (binds.fresh p old new) (· trivial)
  bindings _ := binds.bindings

/-- An assignment comes after operations on data. -/
theorem Tame.didAssign {u : Scene Empty} (tame : w.Tame u) (le : u.Le later)
    (roles : later.roles = u.roles) (assigns : d.Assigns) : w.Did d later where
  toLe := tame.toLe.trans le
  fresh p old new := by
    have other : ¬ d.Binds := by
      cases d with
      | bind => exact assigns.elim
      | _ => exact id
    rw [roles] at new ⊢
    exact iff_of_true (tame.data p old new) other
  bindings free := absurd assigns free

end Scene

namespace Worlds

/-- The worlds of sessions. -/
def sessions : Worlds Empty Unit :=
  guarded (fun _ => False) (Store.standard_grounded (F := Empty)).intact.scene

theorem sessions_lawfulEnv : sessions.LawfulEnv :=
  guarded_lawfulEnv _ _

variable {w : Scene Empty} {m m' : Machine Empty Unit} {d : Deed Empty} {v : Value Empty}

/-- A built-in function is an operation on data. -/
theorem sessions_builtin {b : Builtin} {args env : Value Empty} (fits : sessions.Fits w m)
    (good : w.roles.Datum args) (did : (Deed.builtin b args env).run m = some (v, m')) :
    ∃ later : Scene Empty, w.Tame later ∧ later.store = m'.store ∧ later.roles.Datum v := by
  have lawful : (secluded w.Tame fun _ _ => True : Worlds Empty Unit).Lawful :=
    secluded_lawful fun _ _ => .trans
  obtain ⟨later, -, ⟨store, tame⟩, answer⟩ :=
    lawful.builtin callsSafe_vain b good trivial m ⟨fits.1, .refl w⟩ v m' did
  exact ⟨later, tame, store, answer⟩

/-- What a deed with good values does. -/
theorem sessions_deed (fits : sessions.Fits w m) (good : sessions.GoodDeed w d)
    (did : d.run m = some (v, m')) :
    ∃ later : Scene Empty, w.Did d later ∧ sessions.Fits later m' ∧
      sessions.GoodAnswer d later v := by
  obtain ⟨store, kept⟩ := id fits
  obtain ⟨_, ⟨⟩⟩ := m
  subst store
  cases d with
  | value symbol env =>
      rw [Deed.run, Action.run_walk] at did
      obtain ⟨_, found, same⟩ := Option.map_eq_some_iff.mp did
      cases same
      exact ⟨w, (Scene.Tame.refl w).did id, fits, Scene.value good.2.environment found⟩
  | define form env =>
      obtain ⟨goodForm, goodEnv⟩ := good
      have holds : w.roles.Holds .datum w.roles.size
          ⟨Special.lambda.symbol, w.store.cddr form⟩ :=
        ⟨trivial, w.secludes.cdr (w.secludes.cdr goodForm)⟩
      have tame := Scene.push_tame holds
      have literal := Scene.push_datum holds
      simp only [Deed.run, Action.run_bind, Action.run_ask, Action.run_alter, Option.bind_some,
        Action.run_updateWalk] at did
      obtain ⟨_, done, same⟩ := Option.bind_eq_some_iff.mp did
      obtain ⟨s, assigned, rfl⟩ := Option.map_eq_some_iff.mp done
      cases same
      obtain ⟨later, store, le, still, roles⟩ := (kept.steady tame.toSteady).assign
        (goodEnv.mono tame.toLe) literal assigned
      exact ⟨later, tame.didAssign le roles trivial, ⟨store, still⟩, literal.mono le.roles⟩
  | assign form value env =>
      obtain ⟨-, goodValue, goodEnv⟩ := good
      simp only [Deed.run, Action.run_bind, Action.run_ask, Option.bind_some,
        Action.run_updateWalk] at did
      obtain ⟨_, done, same⟩ := Option.bind_eq_some_iff.mp did
      obtain ⟨s, assigned, rfl⟩ := Option.map_eq_some_iff.mp done
      cases same
      obtain ⟨later, store, le, still, roles⟩ := kept.assign goodEnv goodValue assigned
      exact ⟨later, (Scene.Tame.refl w).didAssign le roles trivial, ⟨store, still⟩,
        goodValue.mono le.roles⟩
  | bind fn args env =>
      obtain ⟨goodFn, goodArgs, goodEnv⟩ := good
      rw [Deed.run, Action.run_alterWalk] at did
      obtain ⟨_, done, same⟩ := Option.map_eq_some_iff.mp did
      cases same
      have params := w.secludes.car (w.secludes.cdr goodFn)
      obtain ⟨_, later, -, store, binds⟩ := Scene.bind params goodArgs goodEnv.environment done
      exact ⟨later, binds.did, ⟨store, kept.steady binds.toSteady⟩, binds.environment,
        fun _ guard => guard.elim⟩
  | collect first rest =>
      have holds : w.roles.Holds .datum w.roles.size ⟨first, rest⟩ := good
      cases did
      have tame := Scene.push_tame holds
      exact ⟨_, tame.did id, ⟨rfl, kept.steady tame.toSteady⟩, Scene.push_datum holds⟩
  | builtin b args env =>
      obtain ⟨later, tame, store, answer⟩ := sessions_builtin fits good.1 did
      exact ⟨later, tame.did id, ⟨store, kept.steady tame.toSteady⟩, answer⟩

end Worlds

open Worlds (sessions)

namespace Past

/-- What was met is as the roles say, and just the pairs of environments were made to bind
    parameters. -/
structure Recalls (past : Past) (r : Roles) : Prop where
  cells : ∀ c, c ∈ past.cells ↔ c < r.size ∧ r.of c ≠ .datum
  envs : ∀ env ∈ past.envs, r.Environment env
  seen : ∀ v ∈ past.seen, r.Datum v

variable {past : Past} {w later : Scene Empty} {v : Value Empty}

theorem Recalls.see (recalls : past.Recalls w.roles) (datum : w.roles.Datum v) :
    (past.see v).Recalls w.roles :=
  { recalls with seen := List.forall_mem_cons.mpr ⟨datum, recalls.seen⟩ }

theorem Recalls.start {t : Task Empty} (recalls : past.Recalls w.roles)
    (good : sessions.GoodTask w t) : (past.start t).Recalls w.roles where
  cells := recalls.cells
  envs := List.forall_mem_cons.mpr ⟨good.env.environment, recalls.envs⟩
  seen := List.forall_mem_append.mpr ⟨good.values, recalls.seen⟩

theorem Recalls.mono {r t : Roles} (recalls : past.Recalls r) (le : r.Le t)
    (data : ∀ p, r.size ≤ p → p < t.size → t.of p = .datum) : past.Recalls t where
  cells c := by
    rw [recalls.cells]
    constructor
    · rintro ⟨lt, other⟩
      exact ⟨Nat.lt_of_lt_of_le lt le.size, le.of c lt ▸ other⟩
    · rintro ⟨lt, other⟩
      by_cases early : c < r.size
      · exact ⟨early, le.of c early ▸ other⟩
      · exact absurd (data c (Nat.le_of_not_lt early) lt) other
  envs env among := (recalls.envs env among).mono le
  seen v among := (recalls.seen v among).mono le

theorem Recalls.did {d : Deed Empty} (recalls : past.Recalls w.roles) (did : w.Did d later)
    (good : sessions.GoodAnswer d later v) :
    (past.did d v w.roles.size later.roles.size).Recalls later.roles := by
  by_cases binds : d.Binds
  · cases d with
    | bind fn args env =>
        refine ⟨fun c => ?_, ?_, fun v among => (recalls.seen v among).mono did.roles⟩
        · have size := did.roles.size
          have fresh := did.fresh c
          simp only [Past.did, List.mem_append, List.mem_range'_1, recalls.cells]
          by_cases early : c < w.roles.size
          · rw [did.roles.of c early]
            constructor
            · rintro (⟨late, -⟩ | ⟨_, other⟩)
              · omega
              · exact ⟨by omega, other⟩
            · rintro ⟨_, other⟩
              exact .inr ⟨early, other⟩
          · have late := Nat.le_of_not_lt early
            constructor
            · intro made
              have lt : c < later.roles.size := by omega
              exact ⟨lt, fun datum => (fresh late lt).mp datum trivial⟩
            · rintro ⟨lt, -⟩
              omega
        · exact List.forall_mem_cons.mpr
            ⟨good.environment, fun env among => (recalls.envs env among).mono did.roles⟩
    | _ => exact binds.elim
  · have still := recalls.mono did.roles fun p old new => (did.fresh p old new).mpr binds
    cases d with
    | bind => exact absurd trivial binds
    | _ => exact still.see good

end Past

/-- The task that the plan begins with. -/
def Plan.task? {F : Type} : Plan F → Option (Task F)
  | .task t _ => some t
  | _ => none

theorem Plan.eq_task_of_task? {F : Type} {p : Plan F} {t : Task F} (begins : p.task? = some t) :
    ∃ next, p = .task t next := by
  cases p with
  | task _ next =>
      cases begins
      exact ⟨next, rfl⟩
  | _ => cases begins

def Plan.Assigns {F : Type} : Plan F → Prop
  | .deed d _ => d.Assigns
  | _ => False

namespace Session

/-- The value is one that programs have to do with: the content of a slot, a value bound in an
    environment, a form, an argument or a result. -/
inductive Visible (s : Session) : Value Empty → Prop where
  | slot (id : SymbolId) : Visible s (s.store.symbolValue (.symbol id))
  | bound {env binding : Value Empty} {bindings : List (Value Empty)} : env ∈ s.past.envs →
      s.store.elements? env = some bindings → binding ∈ bindings → Visible s (s.store.cdr binding)
  | form {v : Value Empty} : v ∈ s.forms → Visible s v
  | seen {v : Value Empty} : v ∈ s.past.seen → Visible s v
  | given {t : Task Empty} {next : Value Empty → Plan Empty} {v : Value Empty} :
      s.plan = .task t next → v ∈ t.values → Visible s v
  | result {v : Value Empty} : s.plan = .done v → Visible s v

/-- In the scene the store is as the session has it, and only data come up where programs are. -/
structure Sound (s : Session) (w : Scene Empty) : Prop where
  fits : sessions.Fits w ⟨s.store, ()⟩
  plan : sessions.Fine w s.plan
  pending : ∀ next ∈ s.pending, sessions.FineAfter w next
  forms : ∀ v ∈ s.forms, w.roles.Datum v
  past : s.past.Recalls w.roles

variable {s t : Session} {w : Scene Empty}

theorem Sound.next (sound : s.Sound w) (stepped : s.next = some t) :
    ∃ later : Scene Empty, t.Sound later ∧ w.Le later ∧
      (¬ s.plan.Assigns → ∀ p, w.roles.Plays .binding p →
        later.store.cdr (.pair p) = w.store.cdr (.pair p)) := by
  obtain ⟨store, forms, plan, pending, past⟩ := s
  obtain ⟨fits, fine, after, read, recalls⟩ := sound
  have lawful := Worlds.sessions_lawfulEnv
  cases plan with
  | done v =>
      have good := fine.good
      cases pending with
      | nil => cases stepped
      | cons next pending =>
          cases stepped
          obtain ⟨here, others⟩ := List.forall_mem_cons.mp after
          exact ⟨w, ⟨fits, here w v (.refl w) good, others, read, recalls.see good⟩, .refl w,
            fun _ _ _ => rfl⟩
  | look next =>
      cases stepped
      exact ⟨w, ⟨fits, fine.afterLook _ fits, after, read, recalls⟩, .refl w, fun _ _ _ => rfl⟩
  | task t next =>
      cases stepped
      obtain ⟨good, rest⟩ := fine.afterTask
      have around := List.forall_mem_cons.mpr ⟨rest, after⟩
      exact ⟨w, ⟨fits, lawful.plan good, around, read, recalls.start good⟩, .refl w,
        fun _ _ _ => rfl⟩
  | deed d next =>
      obtain ⟨good, rest⟩ := fine.afterDeed
      obtain ⟨⟨v, m⟩, run, same⟩ := Option.map_eq_some_iff.mp stepped
      cases same
      obtain ⟨later, did, fitsLater, answer⟩ := Worlds.sessions_deed fits good run
      have sizes : store.pairs.size = w.roles.size ∧ m.store.pairs.size = later.roles.size := by
        rw [← w.secludes.size, ← later.secludes.size, fits.1, fitsLater.1]
        exact ⟨rfl, rfl⟩
      refine ⟨later, ⟨fitsLater, rest later v did.toLe answer, ?_, ?_, ?_⟩, did.toLe,
        did.bindings⟩
      · exact fun next among u v le => after next among u v (did.toLe.trans le)
      · exact fun v among => (read v among).mono did.roles
      · rw [sizes.1, sizes.2]
        exact recalls.did did answer

theorem Sound.moves (sound : s.Sound w) (moves : s.Moves t) :
    ∃ later : Scene Empty, t.Sound later ∧ w.Le later ∧
      (¬ s.plan.Assigns → ∀ p, w.roles.Plays .binding p →
        later.store.cdr (.pair p) = w.store.cdr (.pair p)) := by
  cases moves with
  | step stepped => exact sound.next stepped
  | @read v text rests =>
      obtain ⟨store, kept⟩ := sound.fits
      obtain ⟨later, storeLater, tame, datum⟩ := w.read text
      rw [store] at storeLater datum
      have fine := sound.plan
      rw [rests.1] at fine
      have good : later.roles.Datum v := fine.good.mono tame.roles
      refine ⟨later, ⟨⟨storeLater, kept.steady tame.toSteady⟩, ?_, ?_, ?_, ?_⟩, tame.toLe,
        fun _ => tame.bindings⟩
      · rw [Session.read, rests.1]
        exact .done good
      · exact fun next among u v le => sound.pending next among u v (tame.toLe.trans le)
      · have loaded : ∀ v ∈ (s.store.read text).1.toOption.toList, later.roles.Datum v :=
          fun v among => datum v (Option.mem_toList.mp among)
        exact List.forall_mem_append.mpr
          ⟨loaded, fun v among => (sound.forms v among).mono tame.roles⟩
      · exact sound.past.mono tame.roles tame.data
  | @evaluate v form rests known =>
      have fine := sound.plan
      rw [rests.1] at fine
      have good : sessions.GoodTask w (.eval form .nil) :=
        ⟨sound.forms form known, trivial, fun _ guard => guard.elim⟩
      exact ⟨w, ⟨sound.fits, .lastTask good, sound.pending, sound.forms,
        sound.past.see fine.good⟩, .refl w, fun _ _ _ => rfl⟩

theorem Reached.sound (reached : s.Reached) : ∃ w, s.Sound w := by
  induction reached with
  | start =>
      refine ⟨Store.standard_grounded.intact.scene, ⟨rfl, .refl _ _⟩, .done trivial, nofun, nofun, ?_⟩
      refine ⟨fun c => ?_, nofun, nofun⟩
      exact iff_of_false List.not_mem_nil fun other => other.2 rfl
  | move _ moves ih =>
      obtain ⟨w, sound⟩ := ih
      obtain ⟨later, still, -⟩ := sound.moves moves
      exact ⟨later, still⟩

end Session

/-! ### What programs have to do with -/

theorem Scene.datum_of_reaches {F : Type} {w : Scene F} {v x : Value F}
    (reaches : w.store.Reaches v x) (datum : w.roles.Datum v) : w.roles.Datum x := by
  induction reaches with
  | refl => exact datum
  | car _ ih => exact ih (w.secludes.car datum)
  | cdr _ ih => exact ih (w.secludes.cdr datum)
  | slot _ ih => exact ih (w.secludes.symbolValue _)
  | key entered _ ih => exact ih (w.secludes.entries _ _ entered).1
  | entry entered _ ih => exact ih (w.secludes.entries _ _ entered).2

theorem Scene.onSpine {F : Type} {w : Scene F} {env : Value F} {c : Nat}
    (spine : w.store.OnSpine env c) (environment : w.roles.Environment env) :
    w.roles.Plays .cell c := by
  induction spine with
  | here => exact environment
  | further _ ih => exact ih (w.secludes.cell environment).2.1

namespace Session

variable {s t : Session} {w : Scene Empty} {v env : Value Empty}

/-- An environment is a list of bindings. -/
theorem Sound.bindings (sound : s.Sound w) (environment : w.roles.Environment env) :
    ∃ bindings, s.store.elements? env = some bindings ∧
      ∀ b ∈ bindings, ∃ p, b = .pair p ∧ w.roles.Plays .binding p := by
  obtain ⟨bindings, listed, short, plays⟩ := w.listed environment
  rw [sound.fits.1] at listed short
  exact ⟨bindings, Store.elements?_eq_some_iff.mpr ⟨listed, short⟩, plays⟩

theorem Sound.visible (sound : s.Sound w) (visible : s.Visible v) : w.roles.Datum v := by
  have store : w.store = s.store := sound.fits.1
  cases visible with
  | slot id =>
      rw [← store]
      exact w.secludes.symbolValue _
  | bound met walked among =>
      obtain ⟨bindings, again, plays⟩ := sound.bindings (sound.past.envs _ met)
      cases walked.symm.trans again
      obtain ⟨p, rfl, plays⟩ := plays _ among
      rw [← store]
      exact (w.secludes.halves plays.1 (by simp [plays.2])).2
  | form known => exact sound.forms v known
  | seen met => exact sound.past.seen v met
  | given task among =>
      have fine := sound.plan
      rw [task] at fine
      exact fine.afterTask.1.values v among
  | result done =>
      have fine := sound.plan
      rw [done] at fine
      exact fine.good

/-- The results of the evaluator are met at points of sessions. -/
theorem Reached.eval {form : Value Empty} {m : Machine Empty Unit} {last : Value Empty}
    (reached : s.Reached) (rests : s.Rests last) (known : form ∈ s.forms)
    (done : Host.none.evalGlobal form ⟨s.store, ()⟩ = some (v, m)) :
    ∃ t : Session, t.Reached ∧ t.Rests v ∧ t.store = m.store := by
  have begun := reached.move (.evaluate rests known)
  obtain ⟨n, t, went, ended, store⟩ :=
    (ends_iff_eval { s with past := s.past.see last } form v m.store rests.2).mpr ⟨depthBound, done⟩
  exact ⟨t, begun.after went, ended, store⟩

/-- The pairs made to bind parameters are those of environments. No value that programs have to do
    with leads to one of them, and what is bound is replaced by assignments only. So it is at all
    points of sessions, and the end of every evaluation is one of them. -/
theorem cells_are_private (reached : s.Reached) :
    (∀ c ∈ s.past.cells, ∀ v, s.Visible v → ¬ s.store.Reaches v (.pair c)) ∧
    (∀ env ∈ s.past.envs, (∀ c, s.store.OnSpine env c → c ∈ s.past.cells) ∧
      ∃ bindings, s.store.elements? env = some bindings ∧
        ∀ b ∈ bindings, ∃ c ∈ s.past.cells, b = .pair c) ∧
    (∀ t, s.Moves t → ∀ c ∈ s.past.cells,
      t.store.cdr (.pair c) ≠ s.store.cdr (.pair c) → s.plan.Assigns) ∧
    (∀ last, s.Rests last → ∀ form ∈ s.forms, ∀ v m,
      Host.none.evalGlobal form ⟨s.store, ()⟩ = some (v, m) →
        ∃ t : Session, t.Reached ∧ t.Rests v ∧ t.store = m.store) := by
  obtain ⟨w, sound⟩ := reached.sound
  have store : w.store = s.store := sound.fits.1
  have cells := sound.past.cells
  refine ⟨?_, ?_, ?_, fun last rests form known v m done => reached.eval rests known done⟩
  · intro c among v visible reaches
    rw [← store] at reaches
    have datum : w.roles.Plays .datum c := Scene.datum_of_reaches reaches (sound.visible visible)
    exact ((cells c).mp among).2 datum.2
  · intro env met
    constructor
    · intro c spine
      rw [← store] at spine
      have plays := Scene.onSpine spine (sound.past.envs env met)
      exact (cells c).mpr ⟨plays.1, by simp [plays.2]⟩
    · obtain ⟨bindings, walked, plays⟩ := sound.bindings (sound.past.envs env met)
      refine ⟨bindings, walked, fun b among => ?_⟩
      obtain ⟨c, rfl, plays⟩ := plays b among
      exact ⟨c, (cells c).mpr ⟨plays.1, by simp [plays.2]⟩, rfl⟩
  · intro t moves c among changed
    obtain ⟨later, still, le, bindings⟩ := sound.moves moves
    have storeLater : later.store = t.store := still.fits.1
    obtain ⟨lt, other⟩ := (cells c).mp among
    rw [← store, ← storeLater] at changed
    by_contra free
    apply changed
    cases role : w.roles.of c with
    | datum => exact absurd role other
    | cell => exact le.cells c ⟨lt, role⟩
    | binding => exact bindings free c ⟨lt, role⟩

/-- The point that evaluating the first form of a text comes to after a number of steps. -/
def point? (text : String) (n : Nat) : Option Session :=
  (start.read text).forms.head?.bind fun form =>
    ({ (start.read text).evaluate form with past := start.past.see .nil } : Session).after n

theorem reached_of_point? {text : String} {n : Nat} (found : point? text n = some s) :
    s.Reached := by
  obtain ⟨form, known, went⟩ := Option.bind_eq_some_iff.mp found
  have read : (start.read text).Reached := Reached.start.move (.read text ⟨rfl, rfl⟩)
  exact (read.move (.evaluate ⟨rfl, rfl⟩ (List.mem_of_head? known))).after went

theorem cells_are_private_assigned : ∃ s : Session, s.Reached ∧ s.past.cells = [10, 11] ∧
    s.store.elements? (.pair 11) = some [.pair 10] ∧
    ∀ v, s.Visible v → ¬ s.store.Reaches v (.pair 10) ∧ ¬ s.store.Reaches v (.pair 11) := by
  have facts : (point? "((lambda (x) (setq x 2)) 5)" 29).map
      (fun s => (s.past.cells, s.store.elements? (.pair 11))) =
        some ([10, 11], some [.pair 10]) := by decide +kernel
  obtain ⟨s, found, same⟩ := Option.map_eq_some_iff.mp facts
  obtain ⟨cells, bindings⟩ := Prod.mk.inj same
  have reached := reached_of_point? found
  have hidden := (cells_are_private reached).1
  rw [cells] at hidden
  exact ⟨s, reached, cells, bindings, fun v visible =>
    ⟨hidden 10 (by simp) v visible, hidden 11 (by simp) v visible⟩⟩

end Session

/-! ### Calls leave the parameters of the caller alone -/

/-- The body of a function literal is evaluated below a screen of its parameters. -/
theorem Scene.literal_keeps {w : Scene Empty} {m m' : Machine Empty Unit} {p depth : Nat}
    {args env v : Value Empty} (store : w.store = m.store)
    (datum : w.roles.Datum (.pair p : Value Empty))
    (argsDatum : w.roles.Datum args) (environment : w.roles.Environment env)
    (literal : m.store.car (.pair p) = Special.lambda.symbol)
    (done : applyWithin Host.none depth (.pair p) args env m = some (v, m')) :
    ∃ params later, m.store.elements? (m.store.cadr (.pair p)) = some params ∧
      later.store = m'.store ∧ w.Kept (fun id => .symbol id ∈ params) later := by
  obtain ⟨_, ⟨⟩⟩ := m
  subst store
  cases depth with
  | zero => cases done
  | succ depth =>
      have same : (Special.lambda.symbol : Value Empty).same Special.lambda.symbol = true :=
        Value.same_symbol_iff.mpr rfl
      simp only [applyWithin, Action.run_bind, Action.run_ask, Option.bind_some, literal,
        if_pos same, Action.run_alterWalk] at done
      obtain ⟨_, bound, body⟩ := Option.bind_eq_some_iff.mp done
      obtain ⟨⟨inner, _⟩, found, rfl⟩ := Option.map_eq_some_iff.mp bound
      obtain ⟨params, below, walked, storeBelow, binds⟩ :=
        bind (w.secludes.car (w.secludes.cdr datum)) argsDatum environment found
      let K : Worlds Empty Unit := .guarded (fun id => .symbol id ∈ params) w
      have kept : w.Kept (fun id => .symbol id ∈ params) below :=
        (Kept.refl _ w).steady binds.toSteady
      have screens : w.Screens (fun id => .symbol id ∈ params) below inner :=
        ⟨binds.environment, fun id param => binds.guards _ id (Nat.le_refl _) (.inr param)⟩
      have lawful : K.LawfulEnv := Worlds.guarded_lawfulEnv _ w
      have safe := lawful.evalSafe K.hostSafe_none depth
      have bodyDatum : below.roles.Datum (below.store.cddr (.pair p)) :=
        below.secludes.cdr (below.secludes.cdr (datum.mono binds.roles))
      rw [storeBelow] at bodyDatum
      obtain ⟨later, -, ⟨storeLater, still⟩, -⟩ :=
        safe.sequence (lawful.nil below) bodyDatum screens _ ⟨storeBelow, kept⟩ v m' body
      exact ⟨params, later, walked, storeLater, still⟩

namespace Session

variable {s : Session} {v env : Value Empty}

/-- A call of a function literal leaves the slot of each parameter as it is, and the value of every
    binding of it in the environment of the call. -/
theorem parameters_isolate_caller {next : Value Empty → Plan Empty} {fn args : Value Empty}
    {params : List (Value Empty)} {id : SymbolId} {depth : Nat} {m : Machine Empty Unit}
    (reached : s.Reached) (called : s.plan = .task (.apply fn args env) next)
    (literal : s.store.car fn = Special.lambda.symbol)
    (listed : s.store.elements? (s.store.cadr fn) = some params) (param : .symbol id ∈ params)
    (done : applyWithin Host.none depth fn args env ⟨s.store, ()⟩ = some (v, m)) :
    m.store.symbolValue (.symbol id) = s.store.symbolValue (.symbol id) ∧
      ∃ bindings, s.store.elements? env = some bindings ∧
        ∀ b ∈ bindings, s.store.car b = .symbol id → m.store.cdr b = s.store.cdr b := by
  obtain ⟨w, sound⟩ := reached.sound
  have store : w.store = s.store := sound.fits.1
  have fine := sound.plan
  rw [called] at fine
  obtain ⟨datum, argsDatum, screens⟩ := fine.afterTask.1
  cases fn with
  | pair p =>
      obtain ⟨_, later, walked, storeLater, kept⟩ :=
        Scene.literal_keeps store datum argsDatum screens.environment literal done
      cases listed.symm.trans walked
      have slot := kept.slots id param
      rw [store, storeLater] at slot
      obtain ⟨bindings, walkedEnv, plays⟩ := sound.bindings screens.environment
      refine ⟨slot, bindings, walkedEnv, fun b among bound => ?_⟩
      obtain ⟨b, rfl, plays⟩ := plays b among
      rw [← store] at bound
      have value := kept.bindings b id param plays bound
      rw [store, storeLater] at value
      exact value
  | _ => cases literal

/-- The inner call assigns its own parameter, which has the name of the outer one. -/
theorem parameters_isolate_caller_nested : ∃ (s : Session) (next : Value Empty → Plan Empty)
    (m : Machine Empty Unit), s.Reached ∧
    s.plan = .task (.apply (.pair 7) (.pair 18) (.pair 17)) next ∧
    applyWithin Host.none 9 (.pair 7) (.pair 18) (.pair 17) ⟨s.store, ()⟩ = some (.number 2, m) ∧
    s.store.elements? (.pair 17) = some [.pair 16] ∧
    m.store.symbolValue (.symbol (.interned 30)) = s.store.symbolValue (.symbol (.interned 30)) ∧
    m.store.cdr (.pair 16) = s.store.cdr (.pair 16) := by
  have met : (point? "((lambda (x) ((lambda (x) (setq x 2)) 5)) 7)" 40).map
      (fun s => (s.plan.task?, s.store.car (.pair 7), s.store.elements? (s.store.cadr (.pair 7)))) =
      some (some (.apply (.pair 7) (.pair 18) (.pair 17)), Special.lambda.symbol,
        some [.symbol (.interned 30)]) := by decide +kernel
  have held : (point? "((lambda (x) ((lambda (x) (setq x 2)) 5)) 7)" 40).map
      (fun s => (s.store.elements? (.pair 17), s.store.car (.pair 16),
        (applyWithin Host.none 9 (.pair 7) (.pair 18) (.pair 17) ⟨s.store, ()⟩).map Prod.fst)) =
      some (some [.pair 16], .symbol (.interned 30), some (.number 2)) := by decide +kernel
  obtain ⟨s, found, same⟩ := Option.map_eq_some_iff.mp met
  simp only [found, Option.map_some, Option.some.injEq, Prod.mk.injEq] at same held
  obtain ⟨task, literal, params⟩ := same
  obtain ⟨bindings, bound, answer⟩ := held
  obtain ⟨next, called⟩ := Plan.eq_task_of_task? task
  obtain ⟨⟨_, m⟩, done, rfl⟩ := Option.map_eq_some_iff.mp answer
  have reached := reached_of_point? found
  obtain ⟨slot, others, walked, kept⟩ := parameters_isolate_caller reached called literal params
    (List.mem_singleton.mpr rfl) done
  cases bindings.symm.trans walked
  exact ⟨s, next, m, reached, called, done, bindings, slot,
    kept (.pair 16) (List.mem_singleton.mpr rfl) bound⟩

end Session

end SmallLisp
