import SmallLisp.Proofs.Evaluation.Session
import SmallLisp.Proofs.Evaluation.Worlds

/-! # What comes up in plans

A plan is fine in a world if only values that may be met there, or in a later world, come up in it.
Where the worlds are lawful, the plan of every task with good values is fine.
-/

namespace SmallLisp.Worlds

variable (K : Worlds Empty Unit)

/-- What the task is given may be met. -/
def GoodTask (w : K.World) : Task Empty → Prop
  | .eval v env | .form v env | .conditional v env | .list v env => K.Good w v ∧ K.Env w env
  | .sequence last items env => K.Good w last ∧ K.Good w items ∧ K.Env w env
  | .apply fn args env => K.Good w fn ∧ K.Good w args ∧ K.Env w env

/-- What the deed is given may be met. -/
def GoodDeed (w : K.World) : Deed Empty → Prop
  | .value v env | .define v env => K.Good w v ∧ K.Env w env
  | .assign form v env => K.Good w form ∧ K.Good w v ∧ K.Env w env
  | .bind fn args env => K.Good w fn ∧ K.Good w args ∧ K.Env w env
  | .collect v values => K.Good w v ∧ K.Good w values
  | .builtin _ args env => K.Good w args ∧ K.Env w env

/-- The answer of the deed may be met as what it is. -/
def GoodAnswer (d : Deed Empty) (w : K.World) (v : Value Empty) : Prop :=
  match d with
  | .bind _ _ _ => K.Env w v
  | _ => K.Good w v

/-- Whatever comes up in the plan may be met. -/
inductive Fine : K.World → Plan Empty → Prop where
  | done {w : K.World} {v : Value Empty} : K.Good w v → Fine w (.done v)
  | look {w : K.World} {next : Store Empty → Plan Empty} :
      (∀ m, K.Fits w m → Fine w (next m.store)) → Fine w (.look next)
  | deed {w : K.World} {d : Deed Empty} {next : Value Empty → Plan Empty} : K.GoodDeed w d →
      (∀ later v, K.le w later → K.GoodAnswer d later v → Fine later (next v)) →
      Fine w (.deed d next)
  | task {w : K.World} {t : Task Empty} {next : Value Empty → Plan Empty} : K.GoodTask w t →
      (∀ later v, K.le w later → K.Good later v → Fine later (next v)) → Fine w (.task t next)

/-- What follows a task is fine in every later world. -/
def FineAfter (w : K.World) (next : Value Empty → Plan Empty) : Prop :=
  ∀ later v, K.le w later → K.Good later v → K.Fine later (next v)

variable {K} {w : K.World}

theorem GoodTask.values {t : Task Empty} (good : K.GoodTask w t) : ∀ v ∈ t.values, K.Good w v := by
  cases t with
  | eval | form | conditional | list => exact List.forall_mem_singleton.mpr good.1
  | sequence | apply =>
      exact List.forall_mem_cons.mpr ⟨good.1, List.forall_mem_singleton.mpr good.2.1⟩

theorem GoodTask.env {t : Task Empty} (good : K.GoodTask w t) : K.Env w t.env := by
  cases t with
  | eval | form | conditional | list => exact good.2
  | sequence | apply => exact good.2.2

theorem callsSafe_vain : K.CallsSafe .vain :=
  ⟨fun _ _ => Safe.never, fun _ _ _ => Safe.never⟩

/-! What a fine plan begins with. -/

section

variable {v : Value Empty} {next : Value Empty → Plan Empty}

theorem Fine.good (fine : K.Fine w (.done v)) : K.Good w v := by
  cases fine with
  | done good => exact good

theorem Fine.afterLook {next : Store Empty → Plan Empty} (fine : K.Fine w (.look next)) :
    ∀ m, K.Fits w m → K.Fine w (next m.store) := by
  cases fine with
  | look rest => exact rest

theorem Fine.afterDeed {d : Deed Empty} (fine : K.Fine w (.deed d next)) : K.GoodDeed w d ∧
    ∀ later v, K.le w later → K.GoodAnswer d later v → K.Fine later (next v) := by
  cases fine with
  | deed good rest => exact ⟨good, rest⟩

theorem Fine.afterTask {t : Task Empty} (fine : K.Fine w (.task t next)) :
    K.GoodTask w t ∧ K.FineAfter w next := by
  cases fine with
  | task good rest => exact ⟨good, rest⟩

end

theorem fineAfter_done : K.FineAfter w .done :=
  fun _ _ _ good => .done good

theorem Fine.lastTask {t : Task Empty} (good : K.GoodTask w t) : K.Fine w (.task t .done) :=
  .task good fineAfter_done

/-- The answer of a last deed is a result, unless it is an environment. -/
theorem Fine.lastDeed {d : Deed Empty} (good : K.GoodDeed w d)
    (result : ∀ later v, K.GoodAnswer d later v → K.Good later v) : K.Fine w (.deed d .done) :=
  .deed good fun later v _ answer => .done (result later v answer)

namespace LawfulEnv

variable (lawful : K.LawfulEnv)

include lawful

theorem plan_form {whole env : Value Empty} (good : K.Good w whole) (goodEnv : K.Env w env) :
    K.Fine w (Task.form whole env).plan := by
  rw [Task.plan]
  apply Fine.look
  intro m fits
  split
  · exact .lastDeed ⟨good, goodEnv⟩ fun _ _ answer => answer
  · exact .lastTask ⟨lawful.cdr fits good, goodEnv⟩
  · exact .done good
  · exact .lastTask ⟨lawful.nil w, lawful.cdr fits good, goodEnv⟩
  · exact .done (lawful.cadr fits good)
  · -- assign
    refine .task ⟨lawful.caddr fits good, goodEnv⟩ fun later v le goodValue => ?_
    exact .lastDeed ⟨lawful.good_mono le good, goodValue, lawful.env_mono le goodEnv⟩
      fun _ _ answer => answer
  · -- a call
    refine .task ⟨lawful.car fits good, goodEnv⟩ fun u fn le goodFn => ?_
    apply Fine.look
    intro m fits
    have goodEnv := lawful.env_mono le goodEnv
    refine .task ⟨lawful.cdr fits (lawful.good_mono le good), goodEnv⟩
      fun v args leArgs goodArgs => ?_
    exact .lastTask ⟨lawful.good_mono leArgs goodFn, goodArgs, lawful.env_mono leArgs goodEnv⟩

theorem plan_conditional {items env : Value Empty} (good : K.Good w items)
    (goodEnv : K.Env w env) : K.Fine w (Task.conditional items env).plan := by
  rw [Task.plan]
  apply Fine.look
  intro m fits
  refine .task ⟨lawful.car fits good, goodEnv⟩ fun later test le _ => ?_
  apply Fine.look
  intro m fits
  have goodItems := lawful.good_mono le good
  apply Fine.lastTask
  refine ⟨?_, lawful.env_mono le goodEnv⟩
  split
  · exact lawful.cadr fits goodItems
  · exact lawful.caddr fits goodItems

theorem plan_list {items env : Value Empty} (good : K.Good w items) (goodEnv : K.Env w env) :
    K.Fine w (Task.list items env).plan := by
  cases items with
  | pair p =>
      apply Fine.look
      intro m fits
      refine .task ⟨lawful.car fits good, goodEnv⟩ fun u v le goodValue => ?_
      refine .task ⟨lawful.good_mono le (lawful.cdr fits good), lawful.env_mono le goodEnv⟩
        fun later values leRest goodValues => ?_
      exact .lastDeed ⟨lawful.good_mono leRest goodValue, goodValues⟩ fun _ _ answer => answer
  | _ => exact .done (lawful.nil w)

theorem plan_sequence {last items env : Value Empty} (goodLast : K.Good w last)
    (good : K.Good w items) (goodEnv : K.Env w env) :
    K.Fine w (Task.sequence last items env).plan := by
  cases items with
  | pair p =>
      apply Fine.look
      intro m fits
      refine .task ⟨lawful.car fits good, goodEnv⟩ fun later v le goodValue => ?_
      exact .lastTask ⟨goodValue, lawful.good_mono le (lawful.cdr fits good),
        lawful.env_mono le goodEnv⟩
  | _ => exact .done goodLast

theorem plan_apply {fn args env : Value Empty} (good : K.Good w fn) (goodArgs : K.Good w args)
    (goodEnv : K.Env w env) : K.Fine w (Task.apply fn args env).plan := by
  cases fn with
  | native f =>
      cases f with
      | builtin b =>
          cases b with
          | apply =>
              apply Fine.look
              intro m fits
              exact .lastTask ⟨lawful.car fits goodArgs, lawful.cadr fits goodArgs, goodEnv⟩
          | _ => exact .lastDeed ⟨goodArgs, goodEnv⟩ fun _ _ answer => answer
      | host f => exact f.elim
  | pair p =>
      apply Fine.look
      intro m fits
      split
      · refine .deed ⟨good, goodArgs, goodEnv⟩ fun later inner le goodInner => ?_
        apply Fine.look
        intro m fits
        exact .lastTask ⟨lawful.nil later, lawful.cddr fits (lawful.good_mono le good), goodInner⟩
      · exact .done (lawful.nil w)
  | _ => exact .done (lawful.nil w)

/-- The plan of a task with good values is fine. -/
theorem plan {t : Task Empty} (good : K.GoodTask w t) : K.Fine w t.plan := by
  cases t with
  | eval expr env =>
      cases expr with
      | pair p => exact .lastTask good
      | symbol | native | dictionary => exact .lastDeed good fun _ _ answer => answer
      | nil | bool | number | string | eof => exact .done good.1
  | form whole env => exact lawful.plan_form good.1 good.2
  | conditional items env => exact lawful.plan_conditional good.1 good.2
  | list items env => exact lawful.plan_list good.1 good.2
  | sequence last items env => exact lawful.plan_sequence good.1 good.2.1 good.2.2
  | apply fn args env => exact lawful.plan_apply good.1 good.2.1 good.2.2

end LawfulEnv

end SmallLisp.Worlds
