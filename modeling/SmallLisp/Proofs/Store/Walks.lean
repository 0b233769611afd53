import SmallLisp.Proofs.Store.Paths

/-! # Walks that end

A walk along a list stops behind the first pair of some kind, or at the end of the list. From one pair
it always goes on in the same way, so a walk that stops passes no pair twice, and only the last pair
that it passes may be missing from the store. The bounds on walks are therefore never in the way: a
search that has no result within its bound has none at all.
-/

namespace SmallLisp.Store

variable {F : Type} {s : Store F} {stop : Nat → Prop} {v : Value F} {cells : List Nat}

/-- The pairs that a walk passes until it stops. -/
inductive Walks (s : Store F) (stop : Nat → Prop) : Value F → List Nat → Prop where
  | ends {v : Value F} : v.isPair = false → Walks s stop v []
  | stops {p : Nat} : stop p → Walks s stop (.pair p) [p]
  | next {p : Nat} {cells : List Nat} : ¬ stop p → Walks s stop (s.cdr (.pair p)) cells →
      Walks s stop (.pair p) (p :: cells)

theorem Walks.unique {others : List Nat} (first : s.Walks stop v cells)
    (second : s.Walks stop v others) : cells = others := by
  induction first generalizing others with
  | ends solid =>
      cases second with
      | ends => rfl
      | stops | next => cases solid
  | stops here =>
      cases second with
      | ends solid => cases solid
      | stops => rfl
      | next free => exact absurd here free
  | next free _ ih =>
      cases second with
      | ends solid => cases solid
      | stops here => exact absurd here free
      | next _ rest => rw [ih rest]

/-- From a pair that was passed the same walk goes on. -/
theorem Walks.suffix {c : Nat} (walks : s.Walks stop v cells) (passed : c ∈ cells) :
    ∃ rest, s.Walks stop (.pair c) rest ∧ rest.length ≤ cells.length := by
  induction walks with
  | ends => cases passed
  | stops here =>
      obtain rfl := List.mem_singleton.mp passed
      exact ⟨_, .stops here, Nat.le_refl _⟩
  | next free rest ih =>
      rcases List.mem_cons.mp passed with rfl | later
      · exact ⟨_, .next free rest, Nat.le_refl _⟩
      · obtain ⟨rest, walks, short⟩ := ih later
        exact ⟨rest, walks, Nat.le_succ_of_le short⟩

theorem Walks.nodup (walks : s.Walks stop v cells) : cells.Nodup := by
  induction walks with
  | ends => exact List.nodup_nil
  | stops => exact List.nodup_cons.mpr ⟨List.not_mem_nil, List.nodup_nil⟩
  | @next p cells free rest ih =>
      refine List.nodup_cons.mpr ⟨fun passed => ?_, ih⟩
      obtain ⟨others, again, short⟩ := rest.suffix passed
      rw [← (Walks.next free rest).unique again, List.length_cons] at short
      omega

theorem Walks.isPair {c : Nat} (walks : s.Walks stop v (c :: cells)) : v.isPair = true := by
  cases walks <;> rfl

theorem lt_of_isPair_cdr {p : Nat} (further : (s.cdr (.pair p)).isPair = true) :
    p < s.pairs.size := by
  apply Nat.lt_of_not_le
  intro beyond
  simp [Store.cdr, beyond, Value.isPair] at further

/-- Only the last pair may be missing from the store. -/
theorem Walks.inside (walks : s.Walks stop v cells) : ∀ c ∈ cells.dropLast, c < s.pairs.size := by
  induction walks with
  | ends | stops => nofun
  | @next p cells free rest ih =>
      cases cells with
      | nil => nofun
      | cons q cells =>
          rw [List.dropLast_cons_cons]
          exact List.forall_mem_cons.mpr ⟨lt_of_isPair_cdr rest.isPair, ih⟩

theorem Walks.length_le (walks : s.Walks stop v cells) : cells.length ≤ s.walkBound := by
  have nodup : cells.dropLast.Nodup := walks.nodup.sublist (List.dropLast_sublist cells)
  have subset : cells.dropLast ⊆ List.range s.pairs.size := fun c passed =>
    List.mem_range.mpr (walks.inside c passed)
  have short := nodup.length_le_of_subset subset
  rw [List.length_dropLast, List.length_range] at short
  rw [walkBound]
  omega

/-- A search along a list that passes at most so many pairs. Its second argument is the pair before the
    list. -/
structure Searches {α : Type} (s : Store F) (stop : Nat → Prop)
    (search : Nat → Value F → Value F → Option α) : Prop where
  ends {v : Value F} : v.isPair = false → ∀ last, ∃ x, ∀ bound, search bound last v = some x
  stops {p : Nat} : stop p → ∀ last, ∃ x, ∀ bound, search (bound + 1) last (.pair p) = some x
  next {p : Nat} : ¬ stop p → ∀ bound last,
    search (bound + 1) last (.pair p) = search bound (.pair p) (s.cdr (.pair p))
  zero : ∀ p last, search 0 last (.pair p) = none

section

variable {α : Type} {search : Nat → Value F → Value F → Option α}

/-- A search that stops does not depend on its bound. -/
theorem Walks.searched (walks : s.Walks stop v cells) (searches : s.Searches stop search) {bound : Nat}
    (long : cells.length ≤ bound) (last : Value F) :
    search bound last v = search cells.length last v := by
  induction walks generalizing bound last with
  | ends solid =>
      obtain ⟨x, ended⟩ := searches.ends solid last
      rw [ended, ended]
  | stops here =>
      obtain ⟨x, stopped⟩ := searches.stops here last
      cases bound with
      | zero => cases long
      | succ bound => rw [List.length_singleton, stopped, stopped]
  | next free _ ih =>
      cases bound with
      | zero => cases long
      | succ bound =>
          rw [List.length_cons, searches.next free, searches.next free,
            ih (Nat.le_of_succ_le_succ long)]

theorem Searches.walks {bound : Nat} {last : Value F} {r : α} (searches : s.Searches stop search)
    (ended : search bound last v = some r) : ∃ cells, s.Walks stop v cells := by
  induction bound generalizing v last with
  | zero =>
      cases v with
      | pair p =>
          rw [searches.zero] at ended
          cases ended
      | _ => exact ⟨[], .ends rfl⟩
  | succ bound ih =>
      cases v with
      | pair p =>
          by_cases here : stop p
          · exact ⟨[p], .stops here⟩
          · rw [searches.next here] at ended
            obtain ⟨cells, walks⟩ := ih ended
            exact ⟨p :: cells, .next here walks⟩
      | _ => exact ⟨[], .ends rfl⟩

/-- Two bounds that are enough for the walk, if it stops at all, give the same result. -/
theorem Searches.congr (searches : s.Searches stop search) {m n : Nat} (last : Value F)
    (enough : ∀ cells, s.Walks stop v cells → cells.length ≤ m ∧ cells.length ≤ n) :
    search m last v = search n last v := by
  by_cases stops : ∃ cells, s.Walks stop v cells
  · obtain ⟨cells, walks⟩ := stops
    obtain ⟨first, second⟩ := enough cells walks
    rw [walks.searched searches first, walks.searched searches second]
  · have never : ∀ bound, search bound last v = none := fun bound =>
      Option.eq_none_iff_forall_ne_some.mpr fun r ended => stops (searches.walks ended)
    rw [never, never]

theorem Searches.of_walkBound_le (searches : s.Searches stop search) {bound : Nat}
    (long : s.walkBound ≤ bound) (last : Value F) :
    search bound last v = search s.walkBound last v :=
  searches.congr last fun _ walks => ⟨Nat.le_trans walks.length_le long, walks.length_le⟩

end

theorem Listed.walks {items : List (Value F)} (listed : s.Listed v items) :
    ∃ cells, s.Walks (fun _ => False) v cells ∧ cells.length = items.length := by
  induction listed with
  | nil solid => exact ⟨[], .ends solid, rfl⟩
  | cons _ ih =>
      obtain ⟨cells, walks, length⟩ := ih
      exact ⟨_, .next not_false walks, congrArg (· + 1) length⟩

theorem Listed.length_le {items : List (Value F)} (listed : s.Listed v items) :
    items.length ≤ s.walkBound := by
  obtain ⟨cells, walks, length⟩ := listed.walks
  rw [← length]
  exact walks.length_le

/-- The elements of a list that ends are found. -/
theorem elements?_eq_some_iff_listed {items : List (Value F)} :
    s.elements? v = some items ↔ s.Listed v items := by
  rw [elements?_eq_some_iff]
  exact and_iff_left_of_imp Listed.length_le

theorem elementsWithin_of_walkBound_le {bound : Nat} (long : s.walkBound ≤ bound) :
    s.elementsWithin bound v = s.elements? v := by
  apply Option.ext
  intro items
  rw [elementsWithin_eq_some_iff, elements?_eq_some_iff_listed]
  exact and_iff_left_of_imp fun listed => Nat.le_trans listed.length_le long

theorem Listed.car {items : List (Value F)} (listed : s.Listed v items) :
    s.car v = items[0]?.getD .nil := by
  cases listed with
  | nil solid =>
      cases v with
      | pair => cases solid
      | _ => rfl
  | cons => rfl

theorem Listed.cdr {items : List (Value F)} (listed : s.Listed v items) :
    s.Listed (s.cdr v) items.tail := by
  cases listed with
  | nil solid =>
      cases v with
      | pair => cases solid
      | _ => exact .nil rfl
  | cons rest => exact rest

/-- A list stays as it is when none of its pairs changes. -/
theorem Listed.of_same {t : Store F} {items : List (Value F)} (listed : s.Listed v items)
    (same : ∀ c, s.OnSpine v c →
      t.car (.pair c) = s.car (.pair c) ∧ t.cdr (.pair c) = s.cdr (.pair c)) :
    t.Listed v items := by
  induction listed with
  | nil solid => exact .nil solid
  | @cons p items _ ih =>
      obtain ⟨car, cdr⟩ := same p .here
      rw [← car]
      apply Listed.cons
      rw [cdr]
      exact ih fun c on => same c (.further on)

/-- A list goes on with what its last pair is made to lead to. -/
theorem Listed.extended {t : Store F} {items more : List (Value F)} {last : Nat}
    (listed : s.Listed v items) (ends : s.EndsAt v last)
    (cars : ∀ c, s.OnSpine v c → t.car (.pair c) = s.car (.pair c))
    (cdrs : ∀ c, s.OnSpine v c → c ≠ last → t.cdr (.pair c) = s.cdr (.pair c))
    (linked : t.Listed (t.cdr (.pair last)) more) : t.Listed v (items ++ more) := by
  obtain ⟨on, solid⟩ := ends
  induction listed with
  | nil none =>
      rw [on.isPair] at none
      cases none
  | @cons p items rest ih =>
      rw [List.cons_append, ← cars p .here]
      apply Listed.cons
      by_cases here : p = last
      · subst here
        rw [rest.unique (.nil solid)]
        exact linked
      · rw [cdrs p .here here]
        cases on with
        | here => exact absurd rfl here
        | further on =>
            exact ih (fun c on => cars c (.further on)) (fun c on => cdrs c (.further on)) on

/-! ### Searches -/

variable [DecidableEq F] {key : Value F}

/-- The element at this pair of a list has the key. -/
def Keyed (s : Store F) (key : Value F) (p : Nat) : Prop :=
  (s.car (s.car (.pair p))).same key = true

instance (s : Store F) (key : Value F) (p : Nat) : Decidable (s.Keyed key p) :=
  inferInstanceAs (Decidable (_ = true))

theorem searchWithin_pair (bound p : Nat) (last : Value F) :
    s.searchWithin key (bound + 1) last (.pair p) =
      if s.Keyed key p then some (.found (s.car (.pair p)))
      else s.searchWithin key bound (.pair p) (s.cdr (.pair p)) := by
  rw [searchWithin]
  rfl

theorem searchWithin_of_solid (solid : v.isPair = false) (bound : Nat) (last : Value F) :
    s.searchWithin key bound last v = some (.missing last) := by
  unfold searchWithin
  cases v with
  | pair => cases solid
  | _ => rfl

theorem searchWithin_zero (p : Nat) (last : Value F) :
    s.searchWithin key 0 last (.pair p) = none := by
  rw [searchWithin]

theorem searchWithin_searches (s : Store F) (key : Value F) :
    s.Searches (s.Keyed key) (s.searchWithin key) where
  ends solid last := ⟨_, fun bound => searchWithin_of_solid solid bound last⟩
  stops here last := ⟨_, fun bound => (searchWithin_pair bound _ last).trans (if_pos here)⟩
  next free bound last := (searchWithin_pair bound _ last).trans (if_neg free)
  zero := searchWithin_zero

theorem searchWithin_of_walkBound_le {bound : Nat} (long : s.walkBound ≤ bound) (last : Value F) :
    s.searchWithin key bound last v = s.searchWithin key s.walkBound last v :=
  (s.searchWithin_searches key).of_walkBound_le long last

theorem membWithin_searches (s : Store F) (object : Value F) :
    s.Searches (fun p => (s.car (.pair p)).same object = true)
      fun bound _ v => s.membWithin object bound v where
  ends {v} solid _ := by
    refine ⟨false, fun bound => ?_⟩
    unfold membWithin
    cases v with
    | pair => cases solid
    | _ => rfl
  stops here _ := by
    refine ⟨true, fun bound => ?_⟩
    rw [membWithin]
    exact if_pos here
  next free bound _ := by
    rw [membWithin]
    exact if_neg free
  zero _ _ := by rw [membWithin]

theorem membWithin_of_walkBound_le {bound : Nat} (long : s.walkBound ≤ bound) (object : Value F) :
    s.membWithin object bound v = s.memb? object v :=
  (s.membWithin_searches object).of_walkBound_le long .nil

/-- What looking up a key answers when the search has ended so. -/
def Search.answer : Search F → Value F
  | .found element => element
  | .missing _ => .nil

theorem assoc?_eq_answer (s : Store F) (key v : Value F) :
    s.assoc? key v = (s.search? key v).map Search.answer := by
  unfold assoc?
  cases s.search? key v with
  | none => rfl
  | some r => cases r <;> rfl

/-- The pair before the list does not matter for the answer. -/
theorem answer_searchWithin (bound : Nat) (last other : Value F) :
    (s.searchWithin key bound last v).map Search.answer =
      (s.searchWithin key bound other v).map Search.answer := by
  cases v with
  | pair p =>
      cases bound with
      | zero => rw [searchWithin_zero, searchWithin_zero]
      | succ bound => rw [searchWithin_pair, searchWithin_pair]
  | _ =>
      rw [searchWithin_of_solid rfl, searchWithin_of_solid rfl]
      rfl

/-- Looking up a key in a list that ends gives the first element that has the key. -/
theorem Listed.assoc?_eq {items : List (Value F)} (listed : s.Listed v items) (key : Value F) :
    s.assoc? key v = some ((s.keyed? key items).getD .nil) :=
  listed.assoc? listed.length_le

/-- A key is looked up in the first element, then in the rest, also along a list that never ends. -/
theorem assoc?_pair (s : Store F) (key : Value F) (p : Nat) :
    s.assoc? key (.pair p) =
      if s.Keyed key p then some (s.car (.pair p)) else s.assoc? key (s.cdr (.pair p)) := by
  rw [assoc?_eq_answer, assoc?_eq_answer, search?, search?, walkBound, searchWithin_pair]
  split
  · rfl
  · next free =>
      have bounds : s.searchWithin key s.pairs.size (s.cdr (.pair p)) (s.cdr (.pair p)) =
          s.searchWithin key (s.pairs.size + 1) (s.cdr (.pair p)) (s.cdr (.pair p)) := by
        -- the pair that was passed leaves one pair less for the rest of the walk
        apply (s.searchWithin_searches key).congr
        intro cells walks
        have short := (Walks.next free walks).length_le
        rw [walkBound, List.length_cons] at short
        exact ⟨Nat.le_of_succ_le_succ short, Nat.le_of_succ_le short⟩
      rw [answer_searchWithin _ _ (s.cdr (.pair p)), bounds]

end SmallLisp.Store
