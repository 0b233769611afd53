import SmallLisp.Machine

/-! # How actions run -/

namespace SmallLisp

section

variable {α β γ δ : Type} {R : α → β → Prop} {S : γ → δ → Prop} {r : Option α} {t : Option β}

theorem rel_imp_of_eq {other : α → β → Prop} (rel : Option.Rel R r t)
    (imp : ∀ x y, r = some x → t = some y → R x y → other x y) : Option.Rel other r t := by
  cases rel with
  | none => exact .none
  | some related => exact .some (imp _ _ rfl rfl related)

theorem rel_imp {other : α → β → Prop} (rel : Option.Rel R r t)
    (imp : ∀ x y, R x y → other x y) : Option.Rel other r t :=
  rel_imp_of_eq rel fun x y _ _ => imp x y

theorem rel_bind {f : α → Option γ} {g : β → Option δ} (rel : Option.Rel R r t)
    (rest : ∀ x y, R x y → Option.Rel S (f x) (g y)) : Option.Rel S (r.bind f) (t.bind g) := by
  cases rel with
  | none => exact .none
  | some related => exact rest _ _ related

theorem rel_map {f : α → γ} {g : β → δ} (rel : Option.Rel R r t)
    (imp : ∀ x y, R x y → S (f x) (g y)) : Option.Rel S (r.map f) (t.map g) := by
  cases rel with
  | none => exact .none
  | some related => exact .some (imp _ _ related)

theorem rel_getD {x : α} {y : β} (rel : Option.Rel R r t) (otherwise : R x y) :
    R (r.getD x) (t.getD y) := by
  cases rel with
  | none => exact otherwise
  | some related => exact related

theorem rel_self {R : α → α → Prop} {r : Option α} (related : ∀ x, r = some x → R x x) :
    Option.Rel R r r := by
  cases r with
  | none => exact .none
  | some x => exact .some (related x rfl)

theorem of_rel_self {R : α → α → Prop} {r : Option α} {x : α} (rel : Option.Rel R r r)
    (same : r = some x) : R x x := by
  rw [same] at rel
  cases rel with
  | some related => exact related

theorem rel_eq_iff {r t : Option α} : Option.Rel Eq r t ↔ r = t := by
  constructor
  · rintro (rfl | _) <;> rfl
  · rintro rfl
    exact rel_self fun _ _ => rfl

end

namespace Action

variable {F σ α β : Type} {m m' : Machine F σ}

theorem run_bind (a : Action F σ α) (f : α → Action F σ β) (m : Machine F σ) :
    (a >>= f) m = (a m).bind fun r => f r.1 r.2 := rfl

theorem run_get (m : Machine F σ) : (get : Action F σ (Machine F σ)) m = some (m, m) := rfl

theorem run_ask (f : Store F → α) (m : Machine F σ) : ask f m = some (f m.store, m) := rfl

theorem run_walk (f : Store F → Option α) (m : Machine F σ) :
    walk f m = (f m.store).map fun x => (x, m) := by
  rw [walk, run_bind, run_get, Option.bind_some]
  cases f m.store <;> rfl

theorem run_alter (f : Store F → α × Store F) (m : Machine F σ) :
    alter f m = some ((f m.store).1, ⟨(f m.store).2, m.host⟩) := rfl

theorem run_updateWalk (f : Store F → Option (Store F)) (m : Machine F σ) :
    updateWalk f m = (f m.store).map fun s => ((), ⟨s, m.host⟩) := by
  rw [updateWalk, run_bind, run_get, Option.bind_some]
  cases f m.store <;> rfl

theorem run_alterWalk (f : Store F → Option (α × Store F)) (m : Machine F σ) :
    alterWalk f m = (f m.store).map fun r => (r.1, ⟨r.2, m.host⟩) := by
  rw [alterWalk, run_bind, run_get, Option.bind_some]
  cases f m.store <;> rfl

/-- An action that has ended has first come through its first part. -/
theorem exists_of_bind {a : Action F σ α} {f : α → Action F σ β} {y : β}
    (done : (a >>= f) m = some (y, m')) :
    ∃ x between, a m = some (x, between) ∧ f x between = some (y, m') := by
  rw [run_bind] at done
  cases first : a m with
  | none =>
      rw [first] at done
      cases done
  | some r =>
      rw [first] at done
      exact ⟨r.1, r.2, rfl, done⟩

theorem eq_of_bind_pure {a : Action F σ α} {x y : β}
    (done : (a >>= fun _ => pure x) m = some (y, m')) : y = x := by
  obtain ⟨_, _, -, last⟩ := exists_of_bind done
  cases last
  rfl

/-! ### Actions that only look -/

/-- The action leaves the machine as it is. -/
def Reads (a : Action F σ α) : Prop :=
  ∀ m x m', a m = some (x, m') → m' = m

theorem Reads.pure (x : α) : Reads (Pure.pure x : Action F σ α) := by
  intro m y m' done
  cases done
  rfl

theorem Reads.bind {a : Action F σ α} {f : α → Action F σ β} (first : a.Reads)
    (rest : ∀ x, (f x).Reads) : (a >>= f).Reads := by
  intro m y m' done
  obtain ⟨x, between, started, finished⟩ := exists_of_bind done
  rw [rest x between y m' finished, first m x between started]

theorem Reads.walk (f : Store F → Option α) : (Action.walk f : Action F σ α).Reads := by
  intro m x m' done
  rw [run_walk] at done
  obtain ⟨y, -, same⟩ := Option.map_eq_some_iff.mp done
  cases same
  rfl

theorem Reads.get : (MonadState.get : Action F σ (Machine F σ)).Reads := by
  intro m x m' done
  cases done
  rfl

theorem Reads.mapM {f : α → Action F σ β} (each : ∀ x, (f x).Reads) (items : List α) :
    (items.mapM f).Reads := by
  induction items with
  | nil => exact .pure []
  | cons item items ih =>
      rw [List.mapM_cons]
      exact .bind (each item) fun _ => .bind ih fun _ => .pure _

theorem Reads.pretty (margin : Layout.Margin) (v : Value F) :
    (Action.pretty margin v : Action F σ String).Reads :=
  .bind (.walk _) fun _ => .pure _

end Action

end SmallLisp
