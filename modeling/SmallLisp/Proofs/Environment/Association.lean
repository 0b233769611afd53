import Mathlib
import SmallLisp.Builtin
import SmallLisp.Proofs.Machine.Actions
import SmallLisp.Proofs.Store.Growth

/-! # Association lists

The elements of an association list are pairs of a key and a value. Looking up a key gives the first
element whose first half is the key. An element that is no pair counts as one with the key `nil`, so it
can be found when `nil` is looked up, and then it stands in the way of the pairs behind it.

Keeping a value under a key replaces the value of the first pair that has the key, or else appends a
pair. In a list of pairs this changes the value of this key only.
-/

namespace SmallLisp

variable {F : Type} [DecidableEq F]

theorem Value.same_comm (a b : Value F) : a.same b = b.same a := by
  cases a <;> cases b <;> simp [Value.same, eq_comm, BEq.comm]

theorem Value.same_nil (a : Value F) : a.same .nil = decide (a = .nil) := by
  cases a <;> rfl

/-- Only numbers can be the same as another value. -/
theorem Value.eq_of_same {a b : Value F} (same : a.same b = true) (other : b.kind ≠ .number) :
    a = b := by
  cases b with
  | number => exact absurd rfl other
  | _ => cases a <;> simp_all [Value.same]

theorem Value.same_trans {a b c : Value F} (first : a.same b = true) (second : b.same c = true) :
    a.same c = true := by
  cases b with
  | number y =>
      cases a with
      | number x =>
          cases c with
          | number z => exact PartialEquivBEq.trans first second
          | _ => simp [Value.same] at second
      | _ => simp [Value.same] at first
  | _ =>
      obtain rfl := Value.eq_of_same first (by simp [Value.kind])
      exact second

namespace Store

variable {s t : Store F} {key value alist item : Value F} {items : List (Value F)}

theorem keyed?_congr (cars : ∀ item ∈ items, t.car item = s.car item) (key : Value F) :
    t.keyed? key items = s.keyed? key items := by
  apply List.find?_congr
  intro item among
  rw [cars item among]

/-- The first of the elements that is a pair with this key. -/
def keyedPair? (s : Store F) (key : Value F) : List (Value F) → Option Nat
  | [] => none
  | .pair p :: items =>
      if (s.car (.pair p)).same key then some p else s.keyedPair? key items
  | _ :: items => s.keyedPair? key items

/-- The first element with the key, if it is a pair, is the first pair with the key. -/
theorem keyed?_eq_keyedPair? (pair : ∀ item, s.keyed? key items = some item → item.isPair = true) :
    s.keyed? key items = (s.keyedPair? key items).map .pair := by
  induction items with
  | nil => rfl
  | cons item items ih =>
      simp only [keyed?, List.find?_cons] at pair ih ⊢
      cases same : (s.car item).same key with
      | true =>
          simp only [same] at pair
          cases item with
          | pair p => simp [keyedPair?, same]
          | _ => cases pair _ rfl
      | false =>
          simp only [same] at pair
          rw [ih pair]
          cases item with
          | pair p => simp [keyedPair?, same]
          | _ => rfl

theorem mem_of_keyedPair? {p : Nat} (found : s.keyedPair? key items = some p) :
    .pair p ∈ items ∧ (s.car (.pair p)).same key = true := by
  fun_induction keyedPair? s key items with
  | case1 => cases found
  | case2 q items same =>
      cases found
      exact ⟨List.mem_cons_self, same⟩
  | case3 q items differs ih => exact (ih found).imp_left (List.mem_cons_of_mem _)
  | case4 item items solid ih => exact (ih found).imp_left (List.mem_cons_of_mem _)

/-- Only a pair has a key other than `nil`. -/
theorem isPair_of_keyed (proper : key ≠ .nil) (same : (s.car item).same key = true) :
    item.isPair = true := by
  cases item with
  | pair => rfl
  | _ => exact absurd (by simpa [Store.car, Value.same] using same) proper.symm

/-- The element is no pair, and only pairs with other keys than `nil` come before it. -/
def Foremost (s : Store F) (junk : Value F) (items : List (Value F)) : Prop :=
  junk.isPair = false ∧ ∃ before after, items = before ++ junk :: after ∧
    ∀ item ∈ before, item.isPair = true ∧ s.car item ≠ .nil

theorem keyed?_of_foremost {junk : Value F} (foremost : s.Foremost junk items) :
    s.keyed? .nil items = some junk := by
  obtain ⟨solid, before, after, rfl, others⟩ := foremost
  refine List.find?_eq_some_iff_append.mpr ⟨?_, before, after, rfl, ?_⟩
  · cases junk with
    | pair => cases solid
    | _ => rfl
  · intro item among
    simp [Value.same_nil, (others item among).2]

theorem foremost_of_keyed? {junk : Value F} (found : s.keyed? .nil items = some junk)
    (solid : junk.isPair = false) : s.Foremost junk items := by
  obtain ⟨-, before, after, split, others⟩ := List.find?_eq_some_iff_append.mp found
  refine ⟨solid, before, after, split, fun item among => ?_⟩
  have proper : s.car item ≠ .nil := by
    simpa [Value.same_nil] using others item among
  cases item with
  | pair => exact ⟨rfl, proper⟩
  | _ => exact absurd rfl proper

/-- Looking up a key gives the first pair that has the key, or `nil` if there is none, except that for
    the key `nil` an element that is no pair and comes before all such pairs is given instead. -/
theorem assoc_gives_first_pair (listed : s.Listed alist items) (key : Value F) :
    ((key = .nil → ∀ junk, ¬ s.Foremost junk items) →
      s.assoc? key alist = some (((s.keyedPair? key items).map .pair).getD .nil)) ∧
    ∀ junk, s.Foremost junk items → s.assoc? .nil alist = some junk := by
  constructor
  · intro free
    rw [listed.assoc?_eq, keyed?_eq_keyedPair?]
    intro item found
    by_cases proper : key = .nil
    · subst proper
      cases pair : item.isPair with
      | true => rfl
      | false => exact absurd (foremost_of_keyed? found pair) (free rfl item)
    · exact isPair_of_keyed proper (keyed?_some found).2
  · intro junk foremost
    rw [listed.assoc?_eq, keyed?_of_foremost foremost]
    rfl

/-- The list `(7 ("k" . 1) (nil . 2))`. -/
def medley : Store Empty where
  pairs := #[⟨.string "k", .number 1⟩, ⟨.nil, .number 2⟩, ⟨.pair 1, .nil⟩, ⟨.pair 0, .pair 2⟩,
    ⟨.number 7, .pair 3⟩]
  interned := #[]
  loose := #[]
  dictionaries := #[]

/-- A text is found behind the number, but the number is found for `nil`. -/
theorem assoc_gives_first_pair_behind_atom :
    medley.Listed (.pair 4) [.number 7, .pair 0, .pair 1] ∧
      medley.assoc? (.string "k") (.pair 4) = some (.pair 0) ∧
      medley.Foremost (.number 7) [.number 7, .pair 0, .pair 1] ∧
      medley.assoc? .nil (.pair 4) = some (.number 7) := by
  have listed : medley.Listed (.pair 4) [.number 7, .pair 0, .pair 1] :=
    elements?_eq_some_iff_listed.mp (by decide +kernel)
  have foremost : medley.Foremost (.number 7) [.number 7, .pair 0, .pair 1] :=
    ⟨rfl, [], _, rfl, nofun⟩
  exact ⟨listed, (assoc_gives_first_pair listed (.string "k")).1 nofun, foremost,
    (assoc_gives_first_pair listed .nil).2 _ foremost⟩

/-- For `nil` an element that is no pair is given, although a pair with this key follows. -/
theorem assoc_gives_atom :
    ∃ (v : Value Empty) (t : Store Empty) (items : List (Value Empty)) (p : Nat),
      (Store.empty : Store Empty).read "(5 (nil . 1))" = (.ok v, t) ∧ t.Listed v items ∧
      t.keyedPair? .nil items = some p ∧ t.assoc? .nil v = some (.number 5) := by
  refine ⟨.pair 2, ((Store.empty : Store Empty).read "(5 (nil . 1))").2, [.number 5, .pair 0], 0,
    Prod.ext ?_ rfl, elements?_eq_some_iff_listed.mp ?_, ?_, ?_⟩
  all_goals decide +kernel

/-! ### Keeping a value -/

omit [DecidableEq F] in
/-- No element changes its key when something else than a first half is written. -/
theorem Writes.cars {place : Place} (writes : s.Writes place value t)
    (free : ∀ p, .car p ≠ place) (item : Value F) : t.car item = s.car item := by
  cases item with
  | pair q => exact writes.car (free q)
  | _ => rfl

omit [DecidableEq F] in
theorem Writes.listed {place : Place} (writes : s.Writes place value t)
    (listed : s.Listed alist items)
    (free : ∀ c, s.OnSpine alist c → .car c ≠ place ∧ .cdr c ≠ place) : t.Listed alist items :=
  listed.of_same fun c on => ⟨writes.car (free c on).1, writes.cdr (free c on).2⟩

theorem putassoc?_found (value : Value F) (cons : alist.isPair = true)
    (found : s.search? key alist = some (.found item)) :
    s.putassoc? key value alist = some (s.setCdr item value) := by
  simp [putassoc?, cons, found]

theorem putassoc?_missing {last : Value F} (value : Value F) (cons : alist.isPair = true)
    (missing : s.search? key alist = some (.missing last)) :
    s.putassoc? key value alist = some
      ((s.grow (s.binding key value .nil)).setCdr last (.pair (s.pairs.size + 1))) := by
  rw [grow_binding]
  simp [putassoc?, cons, missing, Store.cons, Store.list]

/-- The list has the value under the key in the second store, and under all other keys the pair that it
    had, with the same value. -/
structure Updated (key value alist : Value F) (s t : Store F) : Prop where
  here : ∃ p, t.assoc? key alist = some (.pair p) ∧ (t.car (.pair p)).same key = true ∧
    t.cdr (.pair p) = value
  others : ∀ other, other.same key = false →
    (∃ p, s.assoc? other alist = some (.pair p) ∧ t.assoc? other alist = some (.pair p) ∧
      t.cdr (.pair p) = s.cdr (.pair p)) ∨
    s.assoc? other alist = some .nil ∧ t.assoc? other alist = some .nil

/-- A key has what it had if its pair has, and if only other keys were added. -/
theorem assoc?_kept {other : Value F} {more : List (Value F)} (listed : s.Listed alist items)
    (pairs : ∀ item ∈ items, item.isPair = true) (after : t.Listed alist (items ++ more))
    (cars : ∀ item ∈ items, t.car item = s.car item)
    (cdrs : ∀ item ∈ items, (s.car item).same other = true → t.cdr item = s.cdr item)
    (new : ∀ item ∈ more, (t.car item).same other = false) :
    (∃ p, s.assoc? other alist = some (.pair p) ∧ t.assoc? other alist = some (.pair p) ∧
      t.cdr (.pair p) = s.cdr (.pair p)) ∨
    s.assoc? other alist = some .nil ∧ t.assoc? other alist = some .nil := by
  have added : t.keyed? other more = none := by
    refine List.find?_eq_none.mpr fun item among => ?_
    simp [new item among]
  have same : t.keyed? other (items ++ more) = s.keyed? other items := by
    have old := keyed?_congr cars other
    rw [keyed?] at old added ⊢
    rw [List.find?_append, old, added, Option.or_none]
  rw [listed.assoc?_eq, after.assoc?_eq, same]
  cases found : s.keyed? other items with
  | none => exact .inr ⟨rfl, rfl⟩
  | some item =>
      obtain ⟨among, keyed⟩ := keyed?_some found
      cases item with
      | pair p => exact .inl ⟨p, rfl, rfl, cdrs _ among keyed⟩
      | _ => cases pairs _ among

/-- The value of the first pair with the key is replaced. -/
theorem updated_of_writes {p : Nat} (listed : s.Listed alist items)
    (pairs : ∀ item ∈ items, item.isPair = true) (apart : ∀ c, s.OnSpine alist c → .pair c ∉ items)
    (found : s.keyed? key items = some (.pair p)) (writes : s.Writes (.cdr p) value t) :
    t.Listed alist items ∧ s.Updated key value alist t := by
  obtain ⟨among, keyed⟩ := keyed?_some found
  have cars := writes.cars nofun
  have after : t.Listed alist items := by
    refine writes.listed listed fun c on => ⟨nofun, fun same => ?_⟩
    cases same
    exact apart p on among
  refine ⟨after, ⟨p, ?_, ?_, writes.cdr_here⟩, fun other differs => ?_⟩
  · rw [after.assoc?_eq, keyed?_congr (fun item _ => cars item), found]
    rfl
  · rw [cars]
    exact keyed
  · have whole : t.Listed alist (items ++ []) := by rwa [List.append_nil]
    refine assoc?_kept listed pairs whole (fun item _ => cars item) (fun item _ same => ?_) nofun
    cases item with
    | pair q =>
        apply writes.cdr
        rintro ⟨⟩
        -- the pair would have both keys
        rw [Value.same_comm] at differs
        rw [Value.same_comm] at keyed
        rw [Value.same_trans keyed same] at differs
        cases differs
    | _ => rfl

omit [DecidableEq F] in
/-- The store in which a list that ends with this pair has a new last element. -/
theorem extended_by_entry {last : Nat} (intact : s.Intact) (inside : alist.Below s.pairs.size)
    (listed : s.Listed alist items) (ends : s.EndsAt alist last)
    (result : t = (s.grow (s.binding key value .nil)).setCdr (.pair last)
        (.pair (s.pairs.size + 1))) :
    s.KeptBut [.cdr last] t ∧ t.pairs[s.pairs.size]? = some ⟨key, value⟩ ∧
      t.Listed alist (items ++ [.pair s.pairs.size]) := by
  have there : ∀ c, s.OnSpine alist c → c < s.pairs.size := fun c on => intact.onSpine on inside
  have early : last < s.pairs.size := there last ends.1
  have inside : last < (s.grow (s.binding key value .nil)).pairs.size := by
    rw [size_grow_binding]
    omega
  have writes := writes_setCdr inside (.pair (s.pairs.size + 1))
  rw [← result] at writes
  have kept : s.KeptBut [.cdr last] t := (keptBut_grow _ s).write writes
  have entry : t.pairs[s.pairs.size]? = some ⟨key, value⟩ := by
    rw [result, pairs_setCdr_of_ne (Nat.ne_of_lt early), pairs_binding]
  have link : t.pairs[s.pairs.size + 1]? = some ⟨.pair s.pairs.size, .nil⟩ := by
    rw [result, pairs_setCdr_of_ne (by omega), pairs_binding_succ]
  have linked : t.Listed (t.cdr (.pair last)) [.pair s.pairs.size] := by
    rw [writes.cdr_here, ← car_of_found link]
    apply Listed.cons
    rw [cdr_of_found link]
    exact .nil rfl
  refine ⟨kept, entry, listed.extended ends (fun c on => ?_) (fun c on other => ?_) linked⟩
  · exact kept.car (by simp) (there c on)
  · exact kept.cdr (by simpa using other) (there c on)

/-- An entry for a new key is appended. -/
theorem updated_of_appended {last entry : Nat} (intact : s.Intact)
    (inside : alist.Below s.pairs.size) (proper : key.same key = true)
    (listed : s.Listed alist items) (pairs : ∀ item ∈ items, item.isPair = true)
    (apart : .pair last ∉ items) (missing : s.keyed? key items = none)
    (kept : s.KeptBut [.cdr last] t) (found : t.pairs[entry]? = some ⟨key, value⟩)
    (after : t.Listed alist (items ++ [.pair entry])) : s.Updated key value alist t := by
  have there := intact.listed listed inside
  have cars : ∀ item ∈ items, t.car item = s.car item := by
    intro item among
    cases item with
    | pair q => exact kept.car (by simp) (there _ among)
    | _ => rfl
  refine ⟨⟨entry, ?_, ?_, cdr_of_found found⟩, fun other differs => ?_⟩
  · have old := keyed?_congr cars key
    rw [keyed?, missing] at old
    rw [after.assoc?_eq, keyed?, List.find?_append, old]
    simp [car_of_found found, proper]
  · rw [car_of_found found]
    exact proper
  · refine assoc?_kept listed pairs after cars (fun item among _ => ?_) fun item among => ?_
    · cases item with
      | pair q =>
          refine kept.cdr (fun same => ?_) (there _ among)
          cases List.mem_singleton.mp same
          exact apart among
      | _ => rfl
    · rw [List.mem_singleton.mp among, car_of_found found, Value.same_comm]
      exact differs

/-- The function answers the value that it keeps. -/
theorem call_putassoc {σ : Type} {args : Value F} (done : s.putassoc? key value alist = some t)
    (calls : Calls F σ) (env : Value F) (host : σ) (first : s.car args = key)
    (second : s.cadr args = value) (third : s.caddr args = alist) :
    Builtin.putassoc.call calls args env ⟨s, host⟩ = some (value, ⟨t, host⟩) := by
  simp only [Builtin.call, Action.run_bind, Action.run_ask, Option.bind_some,
    Action.run_updateWalk, first, second, third, done, Option.map_some]
  rfl

/-- Keeping a value under a key in a list of pairs always ends, and answers the value. Afterwards the
    list has the value under this key, and under all other keys what it had. If the key was there, only
    the second half of its first pair is written. Otherwise only the second half of the last pair of the
    list is, and the list has one element more, a new pair of the key and the value. -/
theorem putassoc_updates_list (intact : s.Intact) (inside : alist.Below s.pairs.size)
    (proper : key.same key = true) (cons : alist.isPair = true) (listed : s.Listed alist items)
    (pairs : ∀ item ∈ items, item.isPair = true)
    (apart : ∀ c, s.OnSpine alist c → .pair c ∉ items) (value : Value F) :
    ∃ t, s.putassoc? key value alist = some t ∧
      (∀ (σ : Type) (calls : Calls F σ) (args env : Value F) (host : σ), s.car args = key →
        s.cadr args = value → s.caddr args = alist →
        Builtin.putassoc.call calls args env ⟨s, host⟩ = some (value, ⟨t, host⟩)) ∧
      s.Updated key value alist t ∧
      (∀ p, s.keyedPair? key items = some p →
        s.Writes (.cdr p) value t ∧ t.Listed alist items) ∧
      (s.keyedPair? key items = none → ∃ last entry, s.EndsAt alist last ∧
        s.KeptBut [.cdr last] t ∧ s.pairs.size ≤ entry ∧
        t.pairs[entry]? = some ⟨key, value⟩ ∧ t.Listed alist (items ++ [.pair entry])) := by
  have first : s.keyed? key items = (s.keyedPair? key items).map .pair :=
    keyed?_eq_keyedPair? fun item found => pairs item (keyed?_some found).1
  obtain ⟨r, ended, found, missing⟩ := listed.searchWithin listed.length_le key alist
  cases present : s.keyedPair? key items with
  | some p =>
      rw [present] at first
      obtain rfl := found _ first
      have done := putassoc?_found value cons ended
      have writes := writes_setCdr (intact.listed listed inside _ (keyed?_some first).1) value
      obtain ⟨after, updated⟩ := updated_of_writes listed pairs apart first writes
      refine ⟨_, done, fun _ calls args env host => call_putassoc done calls env host, updated,
        fun q same => ?_, nofun⟩
      cases same
      exact ⟨writes, after⟩
  | none =>
      rw [present] at first
      obtain ⟨end_, rfl, ⟨solid, -⟩ | ⟨last, rfl, ends⟩⟩ := missing first
      · rw [solid] at cons
        cases cons
      · have done := putassoc?_missing value cons ended
        obtain ⟨kept, entry, after⟩ := extended_by_entry intact inside listed ends rfl
        have updated := updated_of_appended intact inside proper listed pairs (apart last ends.1)
          first kept entry after
        exact ⟨_, done, fun _ calls args env host => call_putassoc done calls env host, updated,
          nofun, fun _ => ⟨last, s.pairs.size, ends, kept, Nat.le_refl _, entry, after⟩⟩

/-- The list `((0 . 1) ("k" . 2) (0 . 3) . 7)`. -/
def ledger : Datum :=
  .cons (.cons (.atom (.number 0)) (.atom (.number 1)))
    (.cons (.cons (.atom (.string "k")) (.atom (.number 2)))
      (.cons (.cons (.atom (.number 0)) (.atom (.number 3))) (.atom (.number 7))))

/-- Zeros of both signs are one key, whose first pair is written. A new key takes the place of what the
    list ends with. -/
theorem putassoc_updates_list_zeros :
    ∃ (s : Store Empty) (alist : Value Empty) (items : List (Value Empty)) (p : Nat),
      (Store.empty : Store Empty).load ledger = (alist, s) ∧ s.Listed alist items ∧
      (∃ t, s.putassoc? (.number (-0)) (.bool true) alist = some t ∧
        s.Writes (.cdr p) (.bool true) t ∧ t.Listed alist items) ∧
      ∃ t entry, s.putassoc? (.string "n") (.bool true) alist = some t ∧
        t.Listed alist (items ++ [.pair entry]) := by
  obtain ⟨intact, inside⟩ := (empty_grounded : (Store.empty : Store Empty).Grounded).intact.load ledger
  have alist : ((Store.empty : Store Empty).load ledger).1 = .pair 5 := by decide +kernel
  have listed : ((Store.empty : Store Empty).load ledger).2.Listed (.pair 5)
      [.pair 0, .pair 1, .pair 2] := elements?_eq_some_iff_listed.mp (by decide +kernel)
  have pairs : ∀ item ∈ ([.pair 0, .pair 1, .pair 2] : List (Value Empty)),
      item.isPair = true := by decide
  have apart : ∀ c, ((Store.empty : Store Empty).load ledger).2.OnSpine (.pair 5) c →
      .pair c ∉ ([.pair 0, .pair 1, .pair 2] : List (Value Empty)) := by
    intro c on
    have among : c ∈ [3, 4, 5] := on.among (by decide) (by decide +kernel)
    simp only [List.mem_cons, List.not_mem_nil, or_false] at among
    rcases among with rfl | rfl | rfl <;> decide
  have zero : (.number (-0) : Value Empty).same (.number (-0)) = true := by decide +kernel
  have text : (.string "n" : Value Empty).same (.string "n") = true := by decide +kernel
  rw [alist] at inside
  obtain ⟨t, done, -, -, present, -⟩ :=
    putassoc_updates_list intact inside zero rfl listed pairs apart (.bool true)
  obtain ⟨u, did, -, -, -, absent⟩ :=
    putassoc_updates_list intact inside text rfl listed pairs apart (.bool true)
  obtain ⟨writes, after⟩ := present 0 (by decide +kernel)
  obtain ⟨_, entry, -, -, -, -, longer⟩ := absent (by decide +kernel)
  exact ⟨_, _, _, 0, Prod.ext alist rfl, listed, ⟨t, done, writes, after⟩, u, entry, did, longer⟩

end Store

end SmallLisp
