import SmallLisp.Environment

/-! # Ways through the store

A list leads from pair to pair along the second halves, and its elements are found from it by first
halves. More can be reached from a value by all halves, slots and entries. A walk along a list gives
what the way of the list says, whenever the walk ends.
-/

namespace SmallLisp

/-- A symbol is the same as itself only. -/
theorem Value.same_symbol_iff {F : Type} [DecidableEq F] {id : SymbolId} {v : Value F} :
    (Value.symbol id).same v = true ↔ v = .symbol id := by
  simp [Value.same, eq_comm]

namespace Store

variable {F D : Type} {s : Store F}

theorem found_of_lt {p : Nat} (lt : p < s.pairs.size) :
    s.pairs[p]? = some ⟨s.car (.pair p), s.cdr (.pair p)⟩ := by
  simp [Store.car, Store.cdr, lt]

section

variable {a b v : Value F} {p q : Nat}

theorem car_cons_of_lt (lt : p < s.pairs.size) :
    (s.cons a b).2.car (.pair p) = s.car (.pair p) := by
  simp [Store.cons, Store.car, Array.getElem?_push, Nat.ne_of_lt lt]

theorem cdr_cons_of_lt (lt : p < s.pairs.size) :
    (s.cons a b).2.cdr (.pair p) = s.cdr (.pair p) := by
  simp [Store.cons, Store.cdr, Array.getElem?_push, Nat.ne_of_lt lt]

theorem car_cons_size : (s.cons a b).2.car (.pair s.pairs.size) = a := by
  simp [Store.cons, Store.car]

theorem cdr_cons_size : (s.cons a b).2.cdr (.pair s.pairs.size) = b := by
  simp [Store.cons, Store.cdr]

theorem car_setCdr (target v : Value F) : (s.setCdr target v).car (.pair p) = s.car (.pair p) := by
  cases target with
  | pair q =>
      by_cases same : q = p
      · simp only [Store.setCdr, Store.car, Array.getElem?_modify, if_pos same]
        cases s.pairs[p]? <;> rfl
      · simp only [Store.setCdr, Store.car, Array.getElem?_modify, if_neg same]
  | _ => rfl

theorem cdr_setCdr_self (inside : p < s.pairs.size) : (s.setCdr (.pair p) v).cdr (.pair p) = v := by
  simp only [Store.setCdr, Store.cdr, Array.getElem?_modify, if_true,
    Array.getElem?_eq_getElem inside, Option.map_some]

theorem cdr_setCdr_of_ne (other : q ≠ p) :
    (s.setCdr (.pair q) v).cdr (.pair p) = s.cdr (.pair p) := by
  simp [Store.setCdr, Store.cdr, Array.getElem?_modify, other]

end

/-- The elements of a list, up to the first value that is no pair. -/
inductive Listed (s : Store F D) : Value F → List (Value F) → Prop where
  | nil {v : Value F} : v.isPair = false → Listed s v []
  | cons {p : Nat} {items : List (Value F)} : Listed s (s.cdr (.pair p)) items →
      Listed s (.pair p) (s.car (.pair p) :: items)

/-- The pair is one of those that make up the list. -/
inductive OnSpine (s : Store F) : Value F → Nat → Prop where
  | here {p : Nat} : OnSpine s (.pair p) p
  | further {p q : Nat} : OnSpine s (s.cdr (.pair p)) q → OnSpine s (.pair p) q

/-- The list has a last pair, which is this one. -/
def EndsAt (s : Store F) (v : Value F) (last : Nat) : Prop :=
  s.OnSpine v last ∧ (s.cdr (.pair last)).isPair = false

/-- The second value can be reached from the first one. -/
inductive Reaches (s : Store F) : Value F → Value F → Prop where
  | refl {v : Value F} : Reaches s v v
  | car {p : Nat} {v : Value F} : Reaches s (s.car (.pair p)) v → Reaches s (.pair p) v
  | cdr {p : Nat} {v : Value F} : Reaches s (s.cdr (.pair p)) v → Reaches s (.pair p) v
  | slot {id : SymbolId} {v : Value F} : Reaches s (s.symbolValue (.symbol id)) v →
      Reaches s (.symbol id) v
  | key {d : Nat} {e : Value F × Value F} {v : Value F} : e ∈ s.entries (.dictionary d) →
      Reaches s e.1 v → Reaches s (.dictionary d) v
  | entry {d : Nat} {e : Value F × Value F} {v : Value F} : e ∈ s.entries (.dictionary d) →
      Reaches s e.2 v → Reaches s (.dictionary d) v

theorem OnSpine.isPair {v : Value F} {c : Nat} (on : s.OnSpine v c) : v.isPair = true := by
  cases on <;> rfl

/-- The pairs of a list stand among others that lead to one another. -/
theorem OnSpine.among {v : Value F} {c : Nat} {cells : List Nat} (on : s.OnSpine v c)
    (first : v ∈ cells.map .pair)
    (next : ∀ p ∈ cells, s.cdr (.pair p) ∈ cells.map .pair ∨ (s.cdr (.pair p)).isPair = false) :
    c ∈ cells := by
  induction on with
  | here => simpa using first
  | @further p c rest ih =>
      rcases next p (by simpa using first) with further | solid
      · exact ih further
      · rw [rest.isPair] at solid
        cases solid

theorem elementsWithin_eq_some_iff {bound : Nat} {v : Value F} {items : List (Value F)} :
    s.elementsWithin bound v = some items ↔ s.Listed v items ∧ items.length ≤ bound := by
  constructor
  · intro found
    induction bound generalizing v items with
    | zero =>
        unfold elementsWithin at found
        cases v with
        | pair p => cases found
        | _ =>
            cases found
            exact ⟨.nil rfl, Nat.le_refl 0⟩
    | succ bound ih =>
        unfold elementsWithin at found
        cases v with
        | pair p =>
            obtain ⟨rest, walked, rfl⟩ := Option.map_eq_some_iff.mp found
            obtain ⟨listed, short⟩ := ih walked
            exact ⟨.cons listed, Nat.succ_le_succ short⟩
        | _ =>
            cases found
            exact ⟨.nil rfl, Nat.zero_le _⟩
  · rintro ⟨listed, short⟩
    induction listed generalizing bound with
    | @nil v solid =>
        unfold elementsWithin
        cases v with
        | pair => cases solid
        | _ => rfl
    | cons _ ih =>
        cases bound with
        | zero => cases short
        | succ bound =>
            unfold elementsWithin
            simp only [ih (Nat.le_of_succ_le_succ short), Option.map_some]

theorem elements?_eq_some_iff {v : Value F} {items : List (Value F)} :
    s.elements? v = some items ↔ s.Listed v items ∧ items.length ≤ s.walkBound :=
  elementsWithin_eq_some_iff

theorem Listed.unique {v : Value F} {items others : List (Value F)} (first : s.Listed v items)
    (second : s.Listed v others) : items = others := by
  induction first generalizing others with
  | nil solid =>
      cases second with
      | nil => rfl
      | cons => cases solid
  | cons _ ih =>
      cases second with
      | nil solid => cases solid
      | cons rest => rw [ih rest]

variable [DecidableEq F] {key : Value F}

/-- The first of the elements whose first half is the key. -/
def keyed? (s : Store F) (key : Value F) (items : List (Value F)) : Option (Value F) :=
  items.find? fun item => (s.car item).same key

theorem Listed.searchWithin {v : Value F} {items : List (Value F)} (listed : s.Listed v items)
    {bound : Nat} (short : items.length ≤ bound) (key last : Value F) :
    ∃ r, s.searchWithin key bound last v = some r ∧
      (∀ item, s.keyed? key items = some item → r = .found item) ∧
      (s.keyed? key items = none → ∃ end_, r = .missing end_ ∧
        (v.isPair = false ∧ end_ = last ∨ ∃ c, end_ = .pair c ∧ s.EndsAt v c)) := by
  induction listed generalizing bound last with
  | @nil v solid =>
      unfold Store.searchWithin
      cases v with
      | pair => cases solid
      | _ => exact ⟨_, rfl, nofun, fun _ => ⟨_, rfl, .inl ⟨rfl, rfl⟩⟩⟩
  | @cons p items _ ih =>
      cases bound with
      | zero => cases short
      | succ bound =>
          unfold Store.searchWithin
          simp only [keyed?, List.find?_cons]
          cases same : (s.car (s.car (.pair p))).same key with
          | true => exact ⟨_, rfl, by simp, by simp⟩
          | false =>
              obtain ⟨r, ended, found, missing⟩ := ih (Nat.le_of_succ_le_succ short) (.pair p)
              refine ⟨r, ended, found, fun none => ?_⟩
              obtain ⟨end_, same, ⟨solid, rfl⟩ | ⟨c, rfl, on, solid⟩⟩ := missing none
              · exact ⟨_, same, .inr ⟨p, rfl, .here, solid⟩⟩
              · exact ⟨_, same, .inr ⟨c, rfl, .further on, solid⟩⟩

/-- Looking up a key finds the first element that has it. -/
theorem Listed.assoc? {v : Value F} {items : List (Value F)} (listed : s.Listed v items)
    (short : items.length ≤ s.walkBound) :
    s.assoc? key v = some ((s.keyed? key items).getD .nil) := by
  obtain ⟨r, searched, found, missing⟩ := listed.searchWithin short key v
  unfold Store.assoc? search?
  rw [searched]
  cases first : s.keyed? key items with
  | some item =>
      rw [found item first]
      rfl
  | none =>
      obtain ⟨end_, rfl, -⟩ := missing first
      rfl

theorem keyed?_some {items : List (Value F)} {item : Value F}
    (found : s.keyed? key items = some item) : item ∈ items ∧ (s.car item).same key = true :=
  ⟨List.mem_of_find?_eq_some found, by simpa using List.find?_some found⟩

end Store

end SmallLisp
