import SmallLisp.Proofs.Evaluation.Plan

/-! # Sessions step by step

In a session texts are read and the forms that were read are evaluated, one after another, on a machine
that starts with the built-in functions only. Evaluation is told step by step: the rest of the plan of
the innermost task, and what follows each task around it. So every point of a session is a state, also
inside an evaluation that never ends. A state remembers what was met and made on the way.

The steps are those of the evaluator: an evaluation comes to its end by steps exactly if the evaluator
has a result at some depth, and the result and the store are the same.
-/

namespace SmallLisp

namespace Task

variable {F : Type}

/-- The environment that the task is done in. -/
def env : Task F → Value F
  | .eval _ env | .form _ env | .conditional _ env | .list _ env | .sequence _ _ env
  | .apply _ _ env => env

/-- The expressions, arguments and results that the task is given. -/
def values : Task F → List (Value F)
  | .eval v _ | .form v _ | .conditional v _ | .list v _ => [v]
  | .sequence last items _ => [last, items]
  | .apply fn args _ => [fn, args]

end Task

/-- What was met and made in a session so far, latest first. -/
structure Past where
  /-- The pairs made to bind parameters. -/
  cells : List Nat
  /-- The environments that tasks were done in. -/
  envs : List (Value Empty)
  /-- The forms, arguments and results that were met. -/
  seen : List (Value Empty)

namespace Past

def see (v : Value Empty) (past : Past) : Past :=
  { past with seen := v :: past.seen }

def start (t : Task Empty) (past : Past) : Past :=
  { past with envs := t.env :: past.envs, seen := t.values ++ past.seen }

/-- Remember the answer of a deed, and for a binding of parameters the pairs from `lo` up to `hi` that
    it has made. -/
def did (d : Deed Empty) (answer : Value Empty) (lo hi : Nat) (past : Past) : Past :=
  match d with
  | .bind _ _ _ =>
      { past with cells := List.range' lo (hi - lo) ++ past.cells, envs := answer :: past.envs }
  | _ => past.see answer

end Past

structure Session where
  store : Store Empty
  /-- The forms that were read. -/
  forms : List (Value Empty)
  /-- What is left to do for the innermost task. The result of a session at rest is the last one. -/
  plan : Plan Empty
  /-- What follows the tasks that are being done, innermost first. -/
  pending : List (Value Empty → Plan Empty)
  past : Past

namespace Session

def start : Session :=
  ⟨.standard, [], .done .nil, [], ⟨[], [], []⟩⟩

/-- The next step of an evaluation. There is none at its end, nor in a walk that never ends. -/
def next (s : Session) : Option Session :=
  match s.plan with
  | .done v =>
      match s.pending with
      | [] => none
      | next :: pending => some { s with plan := next v, pending := pending, past := s.past.see v }
  | .look next => some { s with plan := next s.store }
  | .deed d next =>
      (d.run ⟨s.store, ()⟩).map fun r =>
        { s with
          store := r.2.store
          plan := next r.1
          past := s.past.did d r.1 s.store.pairs.size r.2.store.pairs.size }
  | .task t next =>
      some { s with plan := t.plan, pending := next :: s.pending, past := s.past.start t }

/-- Read the first form of a text. -/
def read (text : String) (s : Session) : Session :=
  { s with
    store := (s.store.read text).2
    forms := (s.store.read text).1.toOption.toList ++ s.forms }

/-- Begin to evaluate a form in the empty environment. -/
def evaluate (form : Value Empty) (s : Session) : Session :=
  { s with plan := .task (.eval form .nil) .done }

/-- The session is at rest, with the result of the last evaluation. -/
def Rests (s : Session) (v : Value Empty) : Prop :=
  s.plan = .done v ∧ s.pending = []

/-- How a session goes on. -/
inductive Moves : Session → Session → Prop where
  | step {s t : Session} : s.next = some t → Moves s t
  | read {s : Session} {v : Value Empty} (text : String) : s.Rests v → Moves s (s.read text)
  | evaluate {s : Session} {v form : Value Empty} : s.Rests v → form ∈ s.forms →
      Moves s { s.evaluate form with past := s.past.see v }

/-- The points of all sessions. -/
inductive Reached : Session → Prop where
  | start : Reached start
  | move {s t : Session} : Reached s → Moves s t → Reached t

/-- The state after a number of steps. -/
def after (s : Session) : Nat → Option Session
  | 0 => some s
  | n + 1 => s.next.bind (·.after n)

theorem Reached.after {s t : Session} {n : Nat} (reached : s.Reached) (went : s.after n = some t) :
    t.Reached := by
  induction n generalizing s with
  | zero =>
      cases went
      exact reached
  | succ n ih =>
      obtain ⟨u, stepped, rest⟩ := Option.bind_eq_some_iff.mp went
      exact ih (reached.move (.step stepped)) rest

theorem after_add {s t : Session} {m n : Nat} (went : s.after m = some t) :
    s.after (m + n) = t.after n := by
  induction m generalizing s with
  | zero =>
      cases went
      rw [Nat.zero_add]
  | succ m ih =>
      obtain ⟨u, stepped, rest⟩ := Option.bind_eq_some_iff.mp went
      rw [Nat.succ_add, after, stepped, Option.bind_some, ih rest]

/-! ### The steps are those of the evaluator -/

/-- Steps lead to the same state with another plan, another store and a longer past. -/
def Comes (s : Session) (plan : Plan Empty) (store : Store Empty) : Prop :=
  ∃ n past, s.after n = some ⟨store, s.forms, plan, s.pending, past⟩

theorem Comes.refl (s : Session) : s.Comes s.plan s.store :=
  ⟨0, s.past, rfl⟩

theorem Comes.trans {s : Session} {plan₁ plan₂ : Plan Empty} {store₁ store₂ : Store Empty}
    (sooner : s.Comes plan₁ store₁)
    (later : ∀ past, Comes ⟨store₁, s.forms, plan₁, s.pending, past⟩ plan₂ store₂) :
    s.Comes plan₂ store₂ := by
  obtain ⟨n, past₁, went⟩ := sooner
  obtain ⟨k, past₂, further⟩ := later past₁
  exact ⟨n + k, past₂, (after_add went).trans further⟩

/-- What performing tasks gives, steps lead to. -/
def Follows (perform : Task Empty → Action Empty Unit (Value Empty)) : Prop :=
  ∀ (s : Session) t next v m, s.plan = .task t next → perform t ⟨s.store, ()⟩ = some (v, m) →
    s.Comes (next v) m.store

theorem comes_of_run {perform : Task Empty → Action Empty Unit (Value Empty)}
    (follows : Follows perform) {s : Session} {v : Value Empty} {m : Machine Empty Unit}
    (done : s.plan.run perform ⟨s.store, ()⟩ = some (v, m)) : s.Comes (.done v) m.store := by
  obtain ⟨store, forms, plan, pending, past⟩ := s
  induction plan generalizing store past with
  | done w =>
      cases done
      exact .refl _
  | look next ih =>
      have stepped : Comes ⟨store, forms, .look next, pending, past⟩ (next store) store :=
        ⟨1, past, rfl⟩
      exact stepped.trans fun past => ih store store past done
  | deed d next ih =>
      obtain ⟨w, between, did, rest⟩ := Action.exists_of_bind done
      have stepped : Comes ⟨store, forms, .deed d next, pending, past⟩ (next w) between.store := by
        refine ⟨1, past.did d w store.pairs.size between.store.pairs.size, ?_⟩
        simp only [after, Session.next, did, Option.map_some, Option.bind_some]
      exact stepped.trans fun past => ih w between.store past rest
  | task t next ih =>
      obtain ⟨w, between, performed, rest⟩ := Action.exists_of_bind done
      have stepped :=
        follows ⟨store, forms, .task t next, pending, past⟩ t next w between rfl performed
      exact stepped.trans fun past => ih w between.store past rest

/-- A task is begun, done and followed by what comes after it. -/
theorem follows_run (depth : Nat) : Follows (Task.run Host.none depth) := by
  induction depth with
  | zero =>
      intro s t next v m _ done
      rw [Task.run_zero] at done
      cases done
  | succ depth ih =>
      intro s t next v m task done
      rw [Task.run_succ] at done
      obtain ⟨store, forms, plan, pending, past⟩ := s
      cases task
      obtain ⟨n, later, went⟩ :=
        comes_of_run (s := ⟨store, forms, t.plan, next :: pending, past.start t⟩) ih done
      have begun : (⟨store, forms, .task t next, pending, past⟩ : Session).after (1 + n) =
          some ⟨m.store, forms, .done v, next :: pending, later⟩ := (after_add rfl).trans went
      exact ⟨1 + n + 1, later.see v, (after_add begun).trans rfl⟩

/-- Steps that come to the end of the session come to the end of the plan first. -/
theorem run_of_after {n : Nat} {s t : Session} {w : Value Empty} (went : s.after n = some t)
    (rests : t.Rests w) :
    ∃ depth v m k past, k ≤ n ∧
      s.plan.run (Task.run Host.none depth) ⟨s.store, ()⟩ = some (v, m) ∧
      (⟨m.store, s.forms, .done v, s.pending, past⟩ : Session).after k = some t := by
  -- the tasks of the plan take fewer steps, and so does what follows each of them
  induction n using Nat.strongRecOn generalizing s with
  | ind n ih =>
      obtain ⟨store, forms, plan, pending, past⟩ := s
      cases n with
      | zero =>
          cases went
          obtain ⟨atEnd, -⟩ := rests
          cases atEnd
          exact ⟨0, w, ⟨store, ()⟩, 0, past, Nat.le_refl _, rfl, rfl⟩
      | succ n =>
          obtain ⟨u, stepped, rest⟩ := Option.bind_eq_some_iff.mp went
          cases plan with
          | done v => exact ⟨0, v, ⟨store, ()⟩, n + 1, past, Nat.le_refl _, rfl, went⟩
          | look next =>
              cases stepped
              obtain ⟨depth, v, m, k, later, short, done, ends⟩ := ih n (Nat.lt_succ_self n) rest
              exact ⟨depth, v, m, k, later, by omega, done, ends⟩
          | deed d next =>
              obtain ⟨⟨a, between⟩, did, same⟩ := Option.map_eq_some_iff.mp stepped
              cases same
              obtain ⟨depth, v, m, k, later, short, done, ends⟩ := ih n (Nat.lt_succ_self n) rest
              refine ⟨depth, v, m, k, later, by omega, ?_, ends⟩
              rw [Plan.run, Action.run_bind, did]
              exact done
          | task t next =>
              cases stepped
              obtain ⟨depth₁, a, between, k₁, past₁, short₁, inner, outer⟩ :=
                ih n (Nat.lt_succ_self n) rest
              cases k₁ with
              | zero =>
                  cases outer
                  cases rests.2
              | succ k₁ =>
                  obtain ⟨depth₂, v, m, k, later, short₂, done, ends⟩ := ih k₁ (by omega) outer
                  refine ⟨max (depth₁ + 1) depth₂, v, m, k, later, by omega, ?_, ends⟩
                  have performed := t.run_mono (Nat.le_max_left (depth₁ + 1) depth₂)
                    ((congrFun (t.run_succ depth₁) _).trans inner)
                  rw [Plan.run, Action.run_bind, performed]
                  exact Plan.run_mono (fun t _ _ => t.run_mono (Nat.le_max_right _ _)) done

/-- An evaluation in a session comes to its end exactly if the evaluator has a result, with the same
    value and the same store. -/
theorem ends_iff_eval (s : Session) (form v : Value Empty) (store : Store Empty)
    (pending : s.pending = []) :
    (∃ n t, (s.evaluate form).after n = some t ∧ t.Rests v ∧ t.store = store) ↔
      ∃ depth, evalWithin Host.none depth form .nil ⟨s.store, ()⟩ = some (v, ⟨store, ()⟩) := by
  constructor
  · rintro ⟨n, t, went, rests, rfl⟩
    obtain ⟨depth, w, m, k, past, -, done, ends⟩ := run_of_after went rests
    rw [Session.evaluate, Plan.run_task_done] at done
    have last : (⟨m.store, s.forms, .done w, [], past⟩ : Session).after k = some t := by
      rw [← pending]
      exact ends
    cases k with
    | zero =>
        cases last
        cases rests.1
        exact ⟨depth, done⟩
    | succ k => cases last
  · rintro ⟨depth, done⟩
    obtain ⟨n, past, went⟩ := follows_run depth (s.evaluate form) _ _ v _ rfl done
    exact ⟨n, _, went, ⟨rfl, pending⟩, rfl⟩

end Session

end SmallLisp
