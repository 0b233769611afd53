import SmallLisp.Interpreter
import SmallLisp.Proofs.Machine.Actions

/-! # What the evaluator does, part by part

The evaluator can be asked for six kinds of tasks. Each task is done by a plan: a tree of looks at the
store, of deeds that may change it and of further tasks, each with what follows it. A plan is not
recursive, so that what holds of deeds can be shown of all plans at once. Carrying out the plans, one
depth after another, is evaluation on a machine without functions of a host.
-/

namespace SmallLisp

variable {F σ : Type}

/-- What the evaluator can be asked for. -/
inductive Task (F : Type) where
  | eval (expr env : Value F)
  | form (form env : Value F)
  /-- The second or third element of a list, chosen by the first. -/
  | conditional (list env : Value F)
  /-- The values of all elements of a list. -/
  | list (list env : Value F)
  /-- The value of the last element of a list, or `last`. -/
  | sequence (last list env : Value F)
  | apply (fn args env : Value F)
  deriving DecidableEq

/-- What the evaluator itself does to the store, between its tasks. -/
inductive Deed (F : Type) where
  /-- Find the value of a symbol. -/
  | value (symbol env : Value F)
  /-- Carry out `def`. -/
  | define (form env : Value F)
  /-- Carry out `setq` once the value is known. -/
  | assign (form value env : Value F)
  /-- Bind the parameters of a function literal; the answer is an environment. -/
  | bind (fn args env : Value F)
  /-- Put a value in front of a list of values. -/
  | collect (value values : Value F)
  /-- Call a built-in function that asks for no task. -/
  | builtin (b : Builtin) (args env : Value F)

/-- How a task is done. -/
inductive Plan (F : Type) where
  | done (v : Value F)
  | look (next : Store F → Plan F)
  | deed (d : Deed F) (next : Value F → Plan F)
  | task (t : Task F) (next : Value F → Plan F)

def Task.run [DecidableEq F] (host : Host F σ) (depth : Nat) : Task F → Action F σ (Value F)
  | .eval expr env => evalWithin host depth expr env
  | .form whole env => evalForm host depth whole env
  | .conditional items env => evalIf host depth items env
  | .list items env => evalList host depth items env
  | .sequence last items env => evalSequence host depth last items env
  | .apply fn args env => applyWithin host depth fn args env

/-- A function that asks for tasks in vain. -/
def Calls.vain : Calls F σ :=
  ⟨fun _ _ => Action.never, fun _ _ _ => Action.never⟩

def Deed.run [DecidableEq F] : Deed F → Action F σ (Value F)
  | .value symbol env => Action.walk (·.value? symbol env)
  | .define form env => do
      let name ← Action.ask (·.cadr form)
      let literal ← Action.alter fun s => s.cons Special.lambda.symbol (s.cddr form)
      Action.updateWalk (·.assign? name literal env)
      return literal
  | .assign form v env => do
      let name ← Action.ask (·.cadr form)
      Action.updateWalk (·.assign? name v env)
      return v
  | .bind fn args env => Action.alterWalk fun s => s.bind? (s.cadr fn) args env
  | .collect v values => Action.alter (·.cons v values)
  | .builtin b args env => b.call .vain args env

/-- Carry out a plan, given how tasks are performed. -/
def Plan.run [DecidableEq F] (perform : Task F → Action F σ (Value F)) :
    Plan F → Action F σ (Value F)
  | .done v => return v
  | .look next => do
      let m ← get
      (next m.store).run perform
  | .deed d next => do
      let v ← d.run
      (next v).run perform
  | .task t next => do
      let v ← perform t
      (next v).run perform

def Task.plan : Task Empty → Plan Empty
  | .eval expr env =>
      match expr with
      | .pair _ => .task (.form expr env) .done
      | .symbol _ | .native _ | .dictionary _ => .deed (.value expr env) .done
      | _ => .done expr
  | .form whole env =>
      .look fun s =>
        match Special.ofHead? (s.car whole) with
        | some .define => .deed (.define whole env) .done
        | some .conditional => .task (.conditional (s.cdr whole) env) .done
        | some .lambda => .done whole
        | some .sequence => .task (.sequence .nil (s.cdr whole) env) .done
        | some .quote => .done (s.cadr whole)
        | some .assign =>
            .task (.eval (s.caddr whole) env) fun v => .deed (.assign whole v env) .done
        | none =>
            .task (.eval (s.car whole) env) fun fn =>
              .look fun s =>
                .task (.list (s.cdr whole) env) fun args => .task (.apply fn args env) .done
  | .conditional items env =>
      .look fun s =>
        .task (.eval (s.car items) env) fun test =>
          .look fun s =>
            .task (.eval (if test.isTrue then s.cadr items else s.caddr items) env) .done
  | .list items env =>
      match items with
      | .pair _ =>
          .look fun s =>
            .task (.eval (s.car items) env) fun v =>
              .task (.list (s.cdr items) env) fun values => .deed (.collect v values) .done
      | _ => .done .nil
  | .sequence last items env =>
      match items with
      | .pair _ =>
          .look fun s =>
            .task (.eval (s.car items) env) fun v =>
              .task (.sequence v (s.cdr items) env) .done
      | _ => .done last
  | .apply fn args env =>
      match fn with
      | .native (.builtin .apply) =>
          .look fun s => .task (.apply (s.car args) (s.cadr args) env) .done
      | .native (.builtin b) => .deed (.builtin b args env) .done
      | .native (.host f) => f.elim
      | .pair _ =>
          .look fun s =>
            if (s.car fn).same Special.lambda.symbol then
              .deed (.bind fn args env) fun inner =>
                .look fun s => .task (.sequence .nil (s.cddr fn) inner) .done
            else .done .nil
      | _ => .done .nil

/-- A built-in function other than `apply` asks for no task. -/
theorem Builtin.call_eq_vain [DecidableEq F] {b : Builtin} (other : b ≠ .apply)
    (calls : Calls F σ) (args env : Value F) : b.call calls args env = b.call .vain args env := by
  cases b with
  | apply => exact absurd rfl other
  | _ => rfl

theorem Task.run_zero [DecidableEq F] (host : Host F σ) (t : Task F) :
    t.run host 0 = Action.never := by
  cases t with
  | eval expr env => rw [Task.run, evalWithin]
  | form whole env => rw [Task.run, evalForm]
  | conditional items env => rw [Task.run, evalIf]
  | list items env => rw [Task.run, evalList]
  | sequence last items env => rw [Task.run, evalSequence]
  | apply fn args env => rw [Task.run, applyWithin]

/-! The last task or deed of a plan gives the result of the whole plan. -/

theorem Plan.run_task_done [DecidableEq F] (perform : Task F → Action F σ (Value F)) (t : Task F) :
    (Plan.task t .done).run perform = perform t :=
  bind_pure (perform t)

theorem Plan.run_deed_done [DecidableEq F] (perform : Task F → Action F σ (Value F)) (d : Deed F) :
    (Plan.deed d .done).run perform = d.run :=
  bind_pure d.run

theorem Task.run_form_succ (whole env : Value Empty) (depth : Nat) :
    (Task.form whole env).run Host.none (depth + 1) =
      (Task.form whole env).plan.run (Task.run Host.none depth) := by
  rw [Task.run, evalForm, Task.plan]
  funext m
  simp only [Plan.run, Action.run_bind, Action.run_get, Action.run_ask, Option.bind_some]
  cases Special.ofHead? (m.store.car whole) with
  | none =>
      simp only [Plan.run, bind_pure]
      rfl
  | some special =>
      cases special with
      | lambda | quote => rfl
      | define => simp only [Plan.run, Deed.run, bind_pure]
      | conditional | sequence | assign =>
          simp only [Plan.run, Deed.run, bind_pure]
          rfl

/-- A built-in function is a deed, but for the one that applies functions. -/
theorem Task.run_apply_succ (fn args env : Value Empty) (depth : Nat) :
    (Task.apply fn args env).run Host.none (depth + 1) =
      (Task.apply fn args env).plan.run (Task.run Host.none depth) := by
  cases fn with
  | native f =>
      cases f with
      | builtin b =>
          by_cases application : b = .apply
          · subst application
            rw [Task.run, applyWithin, Task.plan]
            simp only [Plan.run, bind_pure]
            rfl
          · rw [Task.run, applyWithin, Builtin.call_eq_vain application, Task.plan,
              Plan.run_deed_done, Deed.run]
            exact application
      | host f => exact f.elim
  | pair p =>
      rw [Task.run, applyWithin, Task.plan]
      funext m
      simp only [Plan.run, Action.run_bind, Action.run_get, Action.run_ask, Option.bind_some]
      split
      · simp only [Plan.run, bind_pure]
        rfl
      · rfl
  | _ => rfl

/-- A task is done by carrying out its plan, each task of the plan one depth further down. -/
theorem Task.run_succ (t : Task Empty) (depth : Nat) :
    t.run Host.none (depth + 1) = t.plan.run (Task.run Host.none depth) := by
  cases t with
  | eval expr env =>
      cases expr with
      | pair p =>
          rw [Task.run, evalWithin, Task.plan, Plan.run_task_done]
          rfl
      | symbol | native | dictionary =>
          rw [Task.run, evalWithin, Task.plan, Plan.run_deed_done]
          rfl
      | nil | bool | number | string | eof => rfl
  | form whole env => exact Task.run_form_succ whole env depth
  | conditional items env =>
      rw [Task.run, evalIf, Task.plan]
      simp only [Plan.run, bind_pure]
      rfl
  | list items env =>
      cases items with
      | pair p =>
          rw [Task.run, evalList, Task.plan]
          simp only [Plan.run, bind_pure]
          rfl
      | _ => rfl
  | sequence last items env =>
      cases items with
      | pair p =>
          rw [Task.run, evalSequence, Task.plan]
          simp only [Plan.run, bind_pure]
          rfl
      | _ => rfl
  | apply fn args env => exact Task.run_apply_succ fn args env depth

/-! ### More depth changes no result -/

theorem Plan.run_mono [DecidableEq F] {perform other : Task F → Action F σ (Value F)}
    (mono : ∀ t m r, perform t m = some r → other t m = some r) {p : Plan F} {m : Machine F σ}
    {r : Value F × Machine F σ} (done : p.run perform m = some r) : p.run other m = some r := by
  induction p generalizing m with
  | done v => exact done
  | look next ih => exact ih m.store done
  | deed d next ih =>
      obtain ⟨v, between, did, rest⟩ := Action.exists_of_bind done
      rw [Plan.run, Action.run_bind, did]
      exact ih v rest
  | task t next ih =>
      obtain ⟨v, between, performed, rest⟩ := Action.exists_of_bind done
      rw [Plan.run, Action.run_bind, mono t m _ performed]
      exact ih v rest

theorem Task.run_mono_succ (t : Task Empty) {depth : Nat} {m : Machine Empty Unit}
    {r : Value Empty × Machine Empty Unit} (done : t.run Host.none depth m = some r) :
    t.run Host.none (depth + 1) m = some r := by
  induction depth generalizing t m r with
  | zero =>
      rw [Task.run_zero] at done
      cases done
  | succ depth ih =>
      rw [Task.run_succ] at done ⊢
      exact Plan.run_mono (fun t m r => ih t) done

theorem Task.run_mono (t : Task Empty) {depth more : Nat} (le : depth ≤ more)
    {m : Machine Empty Unit} {r : Value Empty × Machine Empty Unit}
    (done : t.run Host.none depth m = some r) : t.run Host.none more m = some r := by
  induction le with
  | refl => exact done
  | step _ ih => exact t.run_mono_succ ih

end SmallLisp
