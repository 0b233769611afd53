import SmallLisp.Proofs.Evaluation.Forms
import SmallLisp.Proofs.Store.Places
import SmallLisp.Proofs.Store.Walks

/-! # Stores that grow

New pairs stand behind the old ones. What an intact store holds refers to old pairs only, so no answer
about an old value changes when the store grows.
-/

namespace SmallLisp.Store

variable {F D : Type} {s : Store F} {env v w : Value F} {items : List (Value F)}

theorem Intact.listed (intact : s.Intact) (listed : s.Listed env items)
    (inside : env.Below s.pairs.size) : ∀ item ∈ items, item.Below s.pairs.size := by
  induction listed with
  | nil => nofun
  | cons _ ih =>
      obtain ⟨car, cdr⟩ := intact.halves inside
      exact List.forall_mem_cons.mpr ⟨car, ih cdr⟩

theorem Intact.onSpine {c : Nat} (intact : s.Intact) (on : s.OnSpine env c)
    (inside : env.Below s.pairs.size) : c < s.pairs.size := by
  induction on with
  | here => exact inside
  | further _ ih => exact ih (intact.halves inside).2

theorem Intact.cons (intact : s.Intact) (first : v.Below s.pairs.size)
    (second : w.Below s.pairs.size) : (s.cons v w).2.Intact := by
  rw [← Value.outside_zero_iff] at first second
  exact ⟨Nat.le_refl 0, intact.apart.cons first second, fun _ _ _ lt => by omega⟩

theorem Intact.load (intact : s.Intact) (d : Datum) :
    (s.load d).2.Intact ∧ (s.load d).1.Below (s.load d).2.pairs.size := by
  obtain ⟨block, below⟩ := Block.load (Block.move intact (Nat.le_refl _)) d
  exact ⟨(block.release block.ordered (Nat.le_refl _)).move (Nat.zero_le _), below⟩

/-- The store with more pairs at its end. -/
def grow (more : Array (Pair F)) (s : Store F D) : Store F D :=
  { s with pairs := s.pairs ++ more }

theorem grow_empty (s : Store F D) : s.grow #[] = s := by
  simp [grow]

theorem cons_grow (v w : Value F) (s : Store F D) : (s.cons v w).2 = s.grow #[⟨v, w⟩] := by
  simp [Store.cons, grow]

theorem grow_grow (first second : Array (Pair F)) (s : Store F D) :
    (s.grow first).grow second = s.grow (first ++ second) := by
  simp [grow]

theorem size_le_grow (more : Array (Pair F)) (s : Store F) :
    s.pairs.size ≤ (s.grow more).pairs.size := by
  simp [grow]

theorem keptBut_grow (more : Array (Pair F)) (s : Store F) : s.KeptBut [] (s.grow more) := by
  intro place _ there
  cases place with
  | car p =>
      have inside := isSome_content?_car.mp there
      simp [content?, grow, Array.getElem?_append_left inside]
  | cdr p =>
      have inside := isSome_content?_cdr.mp there
      simp [content?, grow, Array.getElem?_append_left inside]
  | name id | slot id => cases id <;> rfl
  | entries => rfl

theorem car_grow (more : Array (Pair F)) (inside : v.Below s.pairs.size) :
    (s.grow more).car v = s.car v := by
  cases v with
  | pair p => exact (keptBut_grow more s).car List.not_mem_nil inside
  | _ => rfl

theorem cdr_grow (more : Array (Pair F)) (inside : v.Below s.pairs.size) :
    (s.grow more).cdr v = s.cdr v := by
  cases v with
  | pair p => exact (keptBut_grow more s).cdr List.not_mem_nil inside
  | _ => rfl

theorem Listed.grow (listed : s.Listed v items) (intact : s.Intact) (inside : v.Below s.pairs.size)
    (more : Array (Pair F)) : (s.grow more).Listed v items :=
  listed.of_same fun c on =>
    have inside : (.pair c : Value F).Below s.pairs.size := intact.onSpine on inside
    ⟨car_grow more inside, cdr_grow more inside⟩

/-- The pair of a key and its value, and the pair that puts it in front of a list. -/
def binding (s : Store F) (key value rest : Value F) : Array (Pair F) :=
  #[⟨key, value⟩, ⟨.pair s.pairs.size, rest⟩]

theorem grow_binding (s : Store F) (key value rest : Value F) :
    s.grow (s.binding key value rest) =
      ((s.cons key value).2.cons (.pair s.pairs.size) rest).2 := by
  simp [cons_grow, grow_grow, binding]

theorem size_grow_binding (s : Store F) (key value rest : Value F) :
    (s.grow (s.binding key value rest)).pairs.size = s.pairs.size + 2 := by
  simp [Store.grow, binding]

theorem pairs_binding (s : Store F) (key value rest : Value F) :
    (s.grow (s.binding key value rest)).pairs[s.pairs.size]? = some ⟨key, value⟩ := by
  simp [Store.grow, binding]

theorem pairs_binding_succ (s : Store F) (key value rest : Value F) :
    (s.grow (s.binding key value rest)).pairs[s.pairs.size + 1]? =
      some ⟨.pair s.pairs.size, rest⟩ := by
  simp [Store.grow, binding]

theorem list_grow (items : List (Value F)) (s : Store F D) :
    ∃ more, (s.list items).2 = s.grow more := by
  induction items with
  | nil => exact ⟨#[], (grow_empty s).symm⟩
  | cons item items ih =>
      obtain ⟨more, grown⟩ := ih
      refine ⟨more ++ #[⟨item, (s.list items).1⟩], ?_⟩
      rw [← grow_grow, ← grown, ← cons_grow]
      rfl

/-- A list of values that was put into the store has these elements, also when the store grows on. -/
theorem list_listed (items : List (Value F)) (s : Store F D) (more : Array (Pair F)) :
    ((s.list items).2.grow more).Listed (s.list items).1 items := by
  induction items generalizing more with
  | nil => exact .nil rfl
  | cons item items ih =>
      have front : s.list (item :: items) = (s.list items).2.cons item (s.list items).1 := rfl
      have listed := ih (#[⟨item, (s.list items).1⟩] ++ more)
      rw [← grow_grow, ← cons_grow, ← front] at listed
      have found : ((s.list (item :: items)).2.grow more).pairs[(s.list items).2.pairs.size]? =
          some ⟨item, (s.list items).1⟩ := by
        rw [front, cons_grow, grow_grow]
        simp [grow, Array.getElem?_append]
      rw [← cdr_of_found found] at listed
      have cell := listed.cons
      rwa [car_of_found found] at cell

variable [DecidableEq F] {key : Value F}

theorem searchWithin_grow (intact : s.Intact) (inside : v.Below s.pairs.size)
    (more : Array (Pair F)) (bound : Nat) (last : Value F) :
    (s.grow more).searchWithin key bound last v = s.searchWithin key bound last v := by
  induction bound generalizing v last with
  | zero =>
      cases v with
      | pair p => rw [searchWithin_zero, searchWithin_zero]
      | _ => rw [searchWithin_of_solid rfl, searchWithin_of_solid rfl]
  | succ bound ih =>
      cases v with
      | pair p =>
          obtain ⟨car, cdr⟩ := intact.halves inside
          have keyed : (s.grow more).Keyed key p ↔ s.Keyed key p := by
            unfold Keyed
            rw [car_grow more inside, car_grow more car]
          simp only [searchWithin_pair, keyed, car_grow more inside, cdr_grow more inside, ih cdr]
      | _ => rw [searchWithin_of_solid rfl, searchWithin_of_solid rfl]

/-- A key has in an old list what it had, also if the list never ends. -/
theorem assoc?_grow (intact : s.Intact) (inside : v.Below s.pairs.size) (more : Array (Pair F)) :
    (s.grow more).assoc? key v = s.assoc? key v := by
  have longer : s.walkBound ≤ (s.grow more).walkBound := Nat.succ_le_succ (size_le_grow more s)
  rw [assoc?_eq_answer, assoc?_eq_answer, search?, search?, searchWithin_grow intact inside,
    searchWithin_of_walkBound_le longer]

theorem below_of_searchWithin {bound : Nat} {last e : Value F} (intact : s.Intact)
    (inside : v.Below s.pairs.size) (ended : s.searchWithin key bound last v = some (.found e)) :
    e.Below s.pairs.size := by
  induction bound generalizing v last with
  | zero =>
      cases v with
      | pair p =>
          rw [searchWithin_zero] at ended
          cases ended
      | _ =>
          rw [searchWithin_of_solid rfl] at ended
          cases ended
  | succ bound ih =>
      cases v with
      | pair p =>
          obtain ⟨car, cdr⟩ := intact.halves inside
          rw [searchWithin_pair] at ended
          split at ended
          · cases ended
            exact car
          · exact ih cdr ended
      | _ =>
          rw [searchWithin_of_solid rfl] at ended
          cases ended

theorem Intact.assoc? {e : Value F} (intact : s.Intact) (inside : v.Below s.pairs.size)
    (found : s.assoc? key v = some e) : e.Below s.pairs.size := by
  rw [assoc?_eq_answer] at found
  obtain ⟨r, ended, rfl⟩ := Option.map_eq_some_iff.mp found
  cases r with
  | found e => exact below_of_searchWithin intact inside ended
  | missing => trivial

end SmallLisp.Store
