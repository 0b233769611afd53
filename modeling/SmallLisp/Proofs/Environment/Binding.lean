import SmallLisp.Proofs.Environment.Association

/-! # Binding parameters

A call puts a pair in front of the environment for each parameter, in order, so the last of several
equal parameters is found first. The pairs are new: a parameter is assigned in its new pair, and what
is no parameter is looked up and assigned in the environment behind, also if that one never ends.
-/

namespace SmallLisp.Store

variable {F : Type} {s : Store F} {args env param : Value F} {formals actuals : List (Value F)}

theorem bindEach_cons (inside : args.Below s.pairs.size) (params : List (Value F)) :
    s.bindEach args env (param :: params) =
      (s.grow (s.binding param (s.car args) env)).bindEach (s.cdr args)
        (.pair (s.pairs.size + 1)) params := by
  have rest := cdr_grow (s.binding param (s.car args) env) inside
  rw [grow_binding] at rest ⊢
  rw [← rest]
  simp [bindEach, Store.cons]

/-- Nothing refers to a pair that is not there, also not the arguments and the environment. -/
structure Ready (args env : Value F) (s : Store F) : Prop where
  intact : s.Intact
  args : args.Below s.pairs.size
  env : env.Below s.pairs.size

theorem Ready.bound (ready : s.Ready args env) (inside : param.Below s.pairs.size) :
    (s.grow (s.binding param (s.car args) env)).Ready (s.cdr args) (.pair (s.pairs.size + 1)) := by
  obtain ⟨car, cdr⟩ := ready.intact.halves ready.args
  refine ⟨?_, ?_, ?_⟩
  · rw [grow_binding]
    have one : (s.cons param (s.car args)).2.pairs.size = s.pairs.size + 1 := Array.size_push ..
    refine (ready.intact.cons inside car).cons ?_ (ready.env.mono ?_)
    · rw [Value.Below, one]
      exact Nat.lt_succ_self _
    · omega
  · exact cdr.mono (size_le_grow _ s)
  · rw [Value.Below, size_grow_binding]
    exact Nat.lt_succ_self _

/-- The arguments that are left for the other parameters. -/
theorem Ready.listed (ready : s.Ready args env) (listed : s.Listed args actuals) :
    (s.grow (s.binding param (s.car args) env)).Listed (s.cdr args) actuals.tail :=
  listed.cdr.grow ready.intact (ready.intact.halves ready.args).2 _

theorem bindEach_grows (formals : List (Value F)) (s : Store F) (args env : Value F) :
    ∃ more, (s.bindEach args env formals).2 = s.grow more := by
  induction formals generalizing s args env with
  | nil => exact ⟨#[], by simp [bindEach, grow]⟩
  | cons param params ih =>
      rw [bindEach]
      obtain ⟨more, grown⟩ := ih ((s.cons param (s.car args)).2.cons (.pair s.pairs.size) env).2
        (((s.cons param (s.car args)).2.cons (.pair s.pairs.size) env).2.cdr args)
        (.pair (s.pairs.size + 1))
      refine ⟨s.binding param (s.car args) env ++ more, ?_⟩
      rw [← grow_grow, grow_binding, ← grown]
      simp [Store.cons]

/-- The first parameters are bound before the others, to the first arguments. -/
theorem Ready.bindEach_append (ready : s.Ready args env) (listed : s.Listed args actuals)
    (inside : ∀ param ∈ formals, param.Below s.pairs.size) :
    ∃ more rest inner, (s.grow more).Ready rest inner ∧
      (s.grow more).Listed rest (actuals.drop formals.length) ∧
      ∀ others, s.bindEach args env (formals ++ others) =
        (s.grow more).bindEach rest inner others := by
  induction formals generalizing s args env actuals with
  | nil =>
      have same : s.grow #[] = s := by simp [grow]
      refine ⟨#[], args, env, ?_, ?_, fun others => ?_⟩ <;> rw [same]
      · exact ready
      · exact listed
      · rfl
  | cons param params ih =>
      obtain ⟨first, others⟩ := List.forall_mem_cons.mp inside
      obtain ⟨more, rest, inner, done, left, split⟩ := ih (ready.bound first) (ready.listed listed)
        fun q among => (others q among).mono (size_le_grow _ s)
      rw [grow_grow] at done left split
      refine ⟨_, rest, inner, done, ?_, fun others => ?_⟩
      · rwa [List.drop_tail] at left
      · rw [List.cons_append, bindEach_cons ready.args, split]

variable [DecidableEq F] {key : Value F}

/-- The new pair is found for its parameter, and the environment behind is searched for other keys. -/
theorem Ready.assoc?_binding (ready : s.Ready args env) (param value key : Value F) :
    (s.grow (s.binding param value env)).assoc? key (.pair (s.pairs.size + 1)) =
      if param.same key then some (.pair s.pairs.size) else s.assoc? key env := by
  have entry := pairs_binding s param value env
  have link := pairs_binding_succ s param value env
  have keyed : (s.grow (s.binding param value env)).Keyed key (s.pairs.size + 1) ↔
      param.same key = true := by
    unfold Keyed
    rw [car_of_found link, car_of_found entry]
  simp only [assoc?_pair, keyed, car_of_found link, cdr_of_found link,
    assoc?_grow ready.intact ready.env]

theorem Ready.assoc?_bindEach (ready : s.Ready args env)
    (inside : ∀ param ∈ formals, param.Below s.pairs.size)
    (free : ∀ param ∈ formals, param.same key = false) :
    (s.bindEach args env formals).2.assoc? key (s.bindEach args env formals).1 =
      s.assoc? key env := by
  induction formals generalizing s args env with
  | nil => rfl
  | cons param params ih =>
      obtain ⟨first, others⟩ := List.forall_mem_cons.mp inside
      obtain ⟨differs, rest⟩ := List.forall_mem_cons.mp free
      rw [bindEach_cons ready.args, ih (ready.bound first) ?_ rest, ready.assoc?_binding, differs]
      · rfl
      · exact fun q among => (others q among).mono (size_le_grow _ s)

/-- The last parameter with the key is found, in a new pair that has the argument at its position. -/
theorem Ready.assoc?_parameter {before after : List (Value F)} (ready : s.Ready args env)
    (listed : s.Listed args actuals)
    (inside : ∀ q ∈ before ++ param :: after, q.Below s.pairs.size)
    (same : param.same key = true) (last : ∀ q ∈ after, q.same key = false) :
    ∃ p, s.pairs.size ≤ p ∧ p < (s.bindEach args env (before ++ param :: after)).2.pairs.size ∧
      (s.bindEach args env (before ++ param :: after)).2.assoc? key
        (s.bindEach args env (before ++ param :: after)).1 = some (.pair p) ∧
      (s.bindEach args env (before ++ param :: after)).2.cdr (.pair p) =
        actuals[before.length]?.getD .nil := by
  obtain ⟨early, late⟩ := List.forall_mem_append.mp inside
  obtain ⟨first, later⟩ := List.forall_mem_cons.mp late
  obtain ⟨more, rest, inner, ready, left, split⟩ := ready.bindEach_append listed early
  have longer := size_le_grow more s
  rw [split]
  generalize s.grow more = t at ready left longer
  have bound := ready.bound (first.mono longer)
  -- the parameters behind only make the store grow
  obtain ⟨others, grown⟩ := bindEach_grows after (t.grow (t.binding param (t.car rest) inner))
    (t.cdr rest) (.pair (t.pairs.size + 1))
  have there : (.pair t.pairs.size : Value F).Below
      (t.grow (t.binding param (t.car rest) inner)).pairs.size := by
    rw [Value.Below, size_grow_binding]
    omega
  rw [bindEach_cons ready.args]
  refine ⟨t.pairs.size, longer, ?_, ?_, ?_⟩
  · rw [grown]
    exact there.mono (size_le_grow others _)
  · rw [bound.assoc?_bindEach ?_ last, ready.assoc?_binding, same]
    · rfl
    · exact fun q among => (later q among).mono (Nat.le_trans longer (size_le_grow _ t))
  · rw [grown, cdr_grow others there, cdr_of_found (pairs_binding ..), left.car, List.getElem?_drop]
    rfl

/-! ### Values and assignments -/

omit [DecidableEq F] in
theorem setCdr_grow {target : Value F} (more : Array (Pair F)) (inside : target.Below s.pairs.size)
    (v : Value F) : (s.grow more).setCdr target v = (s.setCdr target v).grow more := by
  cases target with
  | pair p =>
      have early : p < s.pairs.size := inside
      simp only [setCdr, grow, mk.injEq, and_true]
      apply Array.ext_getElem?
      intro i
      simp only [Array.getElem?_modify, Array.getElem?_append, Array.size_modify]
      -- among the new pairs there is none to modify
      by_cases old : i < s.pairs.size
      · simp only [old, if_true]
      · have other : p ≠ i := by omega
        simp only [old, other, if_false]
  | _ => rfl

omit [DecidableEq F] in
theorem setSymbolValue_grow (more : Array (Pair F)) (s : Store F) (target v : Value F) :
    (s.grow more).setSymbolValue target v = (s.setSymbolValue target v).grow more := by
  cases target with
  | symbol id => cases id <;> rfl
  | _ => rfl

omit [DecidableEq F] in
/-- A new pair can be written without a change of what was there. -/
theorem keptBut_setCdr_grow {p : Nat} (more : Array (Pair F)) (new : s.pairs.size ≤ p)
    (v : Value F) : s.KeptBut [] ((s.grow more).setCdr (.pair p) v) := by
  intro place free there
  rw [content?_setCdr ?_, keptBut_grow more s place free there]
  rintro rfl
  have early := isSome_content?_cdr.mp there
  omega

/-- A key that has the same pair in both environments has the same value. -/
theorem value?_grow {inner : Value F} {more : Array (Pair F)} (ready : s.Ready args env)
    (same : (s.grow more).assoc? key inner = s.assoc? key env) :
    (s.grow more).value? key inner = s.value? key env := by
  rw [value?, value?, same]
  cases found : s.assoc? key env with
  | none => rfl
  | some entry =>
      have old := cdr_grow more (ready.intact.assoc? ready.env found)
      cases entry with
      | nil => rfl
      | _ => exact congrArg some old

/-- It is assigned in the same place too. -/
theorem assign?_grow {inner : Value F} {more : Array (Pair F)} (ready : s.Ready args env)
    (same : (s.grow more).assoc? key inner = s.assoc? key env) (v : Value F) :
    (s.grow more).assign? key v inner = (s.assign? key v env).map (grow more) := by
  rw [assign?, assign?, same]
  cases found : s.assoc? key env with
  | none => rfl
  | some entry =>
      have old := setCdr_grow more (ready.intact.assoc? ready.env found) v
      cases entry with
      | nil => exact congrArg some (setSymbolValue_grow more s key v)
      | _ => exact congrArg some old

omit [DecidableEq F] in
theorem exists_last_of_mem (mem : param ∈ formals) :
    ∃ before after, formals = before ++ param :: after ∧ param ∉ after := by
  obtain ⟨after, before, split, absent⟩ := List.eq_append_cons_of_mem (List.mem_reverse.mpr mem)
  refine ⟨before.reverse, after.reverse, ?_, by simpa using absent⟩
  rw [← List.reverse_reverse formals, split]
  simp

/-- Binding the parameters always ends, and changes nothing that is there. A parameter has the argument
    at its last position, or `nil` if there are fewer arguments, and assigning it writes a new pair, so
    it changes nothing that was there before. All other symbols have the value that they have in the
    environment behind, and assigning them does what it does there. -/
theorem bind_extends_environment {params : Value F} (ready : s.Ready args env)
    (inside : params.Below s.pairs.size) (listed : s.Listed params formals)
    (given : s.Listed args actuals) (id : SymbolId) :
    ∃ inner more, s.bind? params args env = some (inner, s.grow more) ∧
      s.KeptBut [] (s.grow more) ∧
      (.symbol id ∈ formals →
        ∃ before after, formals = before ++ .symbol id :: after ∧ .symbol id ∉ after ∧
          (s.grow more).value? (.symbol id) inner = some (actuals[before.length]?.getD .nil) ∧
          ∀ v, ∃ p t, (s.grow more).assign? (.symbol id) v inner = some t ∧
            (s.grow more).Writes (.cdr p) v t ∧ s.KeptBut [] t) ∧
      (.symbol id ∉ formals →
        (s.grow more).value? (.symbol id) inner = s.value? (.symbol id) env ∧
        ∀ v, (s.grow more).assign? (.symbol id) v inner =
          (s.assign? (.symbol id) v env).map (grow more)) := by
  have below := ready.intact.listed listed inside
  have others : ∀ params : List (Value F), .symbol id ∉ params →
      ∀ param ∈ params, param.same (.symbol id) = false := by
    intro params absent param among
    apply Bool.eq_false_iff.mpr
    intro same
    exact absent (Value.eq_of_same same nofun ▸ among)
  obtain ⟨more, grown⟩ := bindEach_grows formals s args env
  have ended := elements?_eq_some_iff_listed.mpr listed
  refine ⟨(s.bindEach args env formals).1, more, ?_, keptBut_grow more s, fun mem => ?_,
    fun absent => ?_⟩
  · simp [bind?, ended, ← grown]
  · obtain ⟨before, after, rfl, last⟩ := exists_last_of_mem mem
    obtain ⟨p, new, there, found, argument⟩ :=
      ready.assoc?_parameter given below (decide_eq_true rfl) (others after last)
    rw [grown] at there found argument
    refine ⟨before, after, rfl, last, ?_, fun v =>
      ⟨p, _, ?_, writes_setCdr there v, keptBut_setCdr_grow more new v⟩⟩
    · rw [value?, found, ← argument]
      rfl
    · rw [assign?, found]
      rfl
  · have same := ready.assoc?_bindEach below (others formals absent)
    rw [grown] at same
    exact ⟨value?_grow ready same, assign?_grow ready same⟩

/-- The list of the parameters `(a b a . c)`, the arguments `(1 2)` and the environment
    `((a . 9) (d . 8))`. -/
def application : Datum :=
  .cons
    (.cons (.atom (.symbol "a")) (.cons (.atom (.symbol "b"))
      (.cons (.atom (.symbol "a")) (.atom (.symbol "c")))))
    (.cons (.cons (.atom (.number 1)) (.cons (.atom (.number 2)) (.atom .nil)))
      (.cons
        (.cons (.cons (.atom (.symbol "a")) (.atom (.number 9)))
          (.cons (.cons (.atom (.symbol "d")) (.atom (.number 8))) (.atom .nil)))
        (.atom .nil)))

/-- There is no argument for the second `a`, so `a` is `nil`. The value of `d` stays that of the
    environment. -/
theorem bind_extends_environment_repeated :
    ∃ s : Store Empty, ((Store.empty : Store Empty).load application).2 = s ∧
      s.Listed (.pair 2) [.symbol (.interned 0), .symbol (.interned 1), .symbol (.interned 0)] ∧
      s.Listed (.pair 4) [.number 1, .number 2] ∧
      (∃ inner more, s.bind? (.pair 2) (.pair 4) (.pair 8) = some (inner, s.grow more) ∧
        (s.grow more).value? (.symbol (.interned 0)) inner = some .nil) ∧
      ∃ inner more, s.bind? (.pair 2) (.pair 4) (.pair 8) = some (inner, s.grow more) ∧
        (s.grow more).value? (.symbol (.interned 3)) inner =
          s.value? (.symbol (.interned 3)) (.pair 8) := by
  obtain ⟨intact, -⟩ := (empty_grounded : (Store.empty : Store Empty).Grounded).intact.load application
  have size : ((Store.empty : Store Empty).load application).2.pairs.size = 12 := by decide +kernel
  have inside : ∀ p < 12, (.pair p : Value Empty).Below
      ((Store.empty : Store Empty).load application).2.pairs.size :=
    fun p lt => Nat.lt_of_lt_of_eq lt size.symm
  have params : ((Store.empty : Store Empty).load application).2.Listed (.pair 2)
      [.symbol (.interned 0), .symbol (.interned 1), .symbol (.interned 0)] :=
    elements?_eq_some_iff_listed.mp (by decide +kernel)
  have args : ((Store.empty : Store Empty).load application).2.Listed (.pair 4)
      [.number 1, .number 2] := elements?_eq_some_iff_listed.mp (by decide +kernel)
  have ready : ((Store.empty : Store Empty).load application).2.Ready (.pair 4) (.pair 8) :=
    ⟨intact, inside 4 (by decide), inside 8 (by decide)⟩
  obtain ⟨inner, more, bound, -, mine, -⟩ :=
    bind_extends_environment ready (inside 2 (by decide)) params args (.interned 0)
  obtain ⟨before, after, split, last, value, -⟩ := mine (by decide)
  have position : before.length = 2 := by
    rcases before with _ | ⟨_, _ | ⟨_, _ | ⟨_, _⟩⟩⟩
    · cases split
      exact absurd (by decide) last
    · simp at split
    · rfl
    · simp at split
  obtain ⟨inner', more', bound', -, -, others⟩ :=
    bind_extends_environment ready (inside 2 (by decide)) params args (.interned 3)
  rw [position] at value
  exact ⟨_, rfl, params, args, ⟨inner, more, bound, value⟩, inner', more', bound',
    (others (by decide)).1⟩

end SmallLisp.Store
