import Mathlib
import SmallLisp.Proofs.Environment.Association

/-! # Dictionaries over time

A dictionary is a map whose keys are compared by sameness. Whatever was done with it, it holds under a
key the value that was put last, and lists for each key the first one that was put. A key that is not
the same as itself is never found, so each one that is put is listed.

Sameness does not look into objects. So a dictionary keeps what it holds when the pairs that are its
keys change, even if they lead back to it. All this holds of every hash table: it promises to be a map
if keys that are the same are hashed alike, and they are.
-/

namespace SmallLisp

variable {F : Type}

namespace Table

variable {K V H : Type}

/-- The table is a map. Of keys that are the same it has one, which stays when its value changes. -/
structure IsMap (same : K → K → Bool) (T : Type) [Table T K V] : Prop where
  find?_clear (t : T) (key : K) : find? key (clear t) = none
  keys_clear (t : T) : keys (clear t) = []
  find?_insert (t : T) (k : K) (v : V) (key : K) :
    find? key (insert k v t) = if same k key then some v else find? key t
  keys_insert (t : T) (k : K) (v : V) :
    (keys (insert k v t)).Perm (if (keys t).any (same · k) then keys t else k :: keys t)

/-- What a hash table promises: it is a map, provided that keys that are the same have one digest. -/
def Promises (same : K → K → Bool) (digest : K → H) (T : Type) [Table T K V] : Prop :=
  (∀ a b, same a b = same b a) →
    (∀ {a b c}, same a b = true → same b c = true → same a c = true) →
    (∀ {a b}, same a b = true → digest a = digest b) → IsMap same T

/-- The table holds nothing. -/
structure Vacant {T : Type} [Table T K V] (t : T) : Prop where
  keys : Table.keys t = []
  find? (key : K) : Table.find? key t = none

theorem IsMap.vacant {same : K → K → Bool} {T : Type} [Table T K V] (map : IsMap same T) (t : T) :
    Vacant (clear t) :=
  ⟨map.keys_clear t, map.find?_clear t⟩

end Table

variable [DecidableEq F]

/-- Values are the same as themselves only, but the two zeros are the same, and not-a-number is not. -/
theorem Value.same_iff {a b : Value F} :
    a.same b = true ↔ (a = b ∧ a ≠ .number Float.nan) ∨
      (a = .number 0 ∧ b = .number (-0)) ∨ (a = .number (-0) ∧ b = .number 0) := by
  cases a with
  | number x =>
      cases b with
      | number y =>
          have positive : (0 : Float) ≠ Float.nan := by decide +kernel
          have negative : (-0 : Float) ≠ Float.nan := by decide +kernel
          rw [Value.same, Float.beq_iff_ne_nan_and_eq]
          grind
      | _ => simp [Value.same]
  | _ => simp [Value.same]

/-- Keys that are the same are hashed alike. -/
theorem Value.digest_of_same {a b : Value F} (same : a.same b = true) : a.digest = b.digest := by
  have zeros : (if (-0 : Float) == 0 then 0 else -0) = (if (0 : Float) == 0 then 0 else (0 : Float)) := by
    decide +kernel
  rcases Value.same_iff.mp same with ⟨rfl, -⟩ | ⟨rfl, rfl⟩ | ⟨rfl, rfl⟩
  · rfl
  · exact congrArg Value.number zeros.symm
  · exact congrArg Value.number zeros

theorem Value.same_congr {a b : Value F} (same : a.same b = true) (c : Value F) :
    a.same c = b.same c := by
  rw [Bool.eq_iff_iff]
  refine ⟨fun first => ?_, fun second => Value.same_trans same second⟩
  rw [Value.same_comm] at same
  exact Value.same_trans same first

/-- Keys that are not the same as themselves are all the same number. -/
theorem Value.filter_not_same (keys : List (Value F)) :
    keys.filter (fun k => !k.same k) =
      List.replicate (keys.countP fun k => !k.same k) (.number Float.nan) := by
  rw [List.countP_eq_length_filter, List.eq_replicate_iff]
  refine ⟨rfl, fun k among => ?_⟩
  have differs : ¬ k.same k = true := by simpa using List.of_mem_filter among
  rw [Value.same_iff] at differs
  grind

theorem Value.filter_not_same_of_perm {keys others : List (Value F)} (perm : keys.Perm others) :
    keys.filter (fun k => !k.same k) = others.filter fun k => !k.same k := by
  rw [Value.filter_not_same, Value.filter_not_same, perm.countP_eq]

namespace Table

variable {D : Type} [Table D (Value F) (Value F)] {t : D} {puts : List (Value F × Value F)}

/-- The table holds what was put into it, in this order: the last value of each key, and the first of
    the keys that are the same. -/
structure Holds (t : D) (puts : List (Value F × Value F)) : Prop where
  find? (key : Value F) : Table.find? key t = (puts.findRev? (·.1.same key)).map Prod.snd
  same (key : Value F) :
    (Table.keys t).filter (·.same key) = ((puts.map Prod.fst).find? (·.same key)).toList
  other : (Table.keys t).filter (fun k => !k.same k) = (puts.map Prod.fst).filter fun k => !k.same k

omit [DecidableEq F] in
theorem eq_toList_of_perm {keys : List (Value F)} {key : Option (Value F)}
    (perm : keys.Perm key.toList) : keys = key.toList := by
  cases key with
  | none => exact List.perm_nil.mp perm
  | some key => exact List.perm_singleton.mp perm

theorem Vacant.holds (vacant : Vacant t) : Holds t [] :=
  ⟨vacant.find?, fun _ => by rw [vacant.keys]; rfl, by rw [vacant.keys]; rfl⟩

namespace Holds

variable (map : IsMap Value.same D) (holds : Holds t puts) (k v : Value F)

include map holds

theorem find?_insert (key : Value F) :
    Table.find? key (Table.insert k v t) =
      ((puts ++ [(k, v)]).findRev? (·.1.same key)).map Prod.snd := by
  rw [map.find?_insert, holds.find?, List.findRev?_eq_find?_reverse,
    List.findRev?_eq_find?_reverse, List.reverse_concat, List.find?_cons]
  cases k.same key <;> rfl

theorem same_insert (key : Value F) :
    (Table.keys (Table.insert k v t)).filter (·.same key) =
      (((puts ++ [(k, v)]).map Prod.fst).find? (·.same key)).toList := by
  have told := (map.keys_insert t k v).filter (·.same key)
  suffices same : ((if (Table.keys t).any (·.same k) then Table.keys t else k :: Table.keys t).filter
      (·.same key)) = (((puts ++ [(k, v)]).map Prod.fst).find? (·.same key)).toList by
    rw [same] at told
    exact eq_toList_of_perm told
  rw [List.map_append, List.find?_append]
  cases same : k.same key with
  | false => split <;> simp [holds.same, same]
  | true =>
      have alike : (·.same k) = ((·.same key) : Value F → Bool) := by
        funext other
        rw [Value.same_comm, Value.same_congr same, Value.same_comm]
      have before := holds.same key
      rw [alike]
      cases first : (puts.map Prod.fst).find? (·.same key) with
      | some old =>
          rw [first] at before
          have listed : old ∈ (Table.keys t).filter (·.same key) := by simp [before]
          rw [if_pos (List.any_eq_true.mpr ⟨old, List.mem_filter.mp listed⟩), before]
          rfl
      | none =>
          rw [first] at before
          rw [if_neg (by simpa using before), List.filter_cons, if_pos same, before]
          simp [same]

theorem other_insert :
    (Table.keys (Table.insert k v t)).filter (fun key => !key.same key) =
      ((puts ++ [(k, v)]).map Prod.fst).filter fun key => !key.same key := by
  rw [Value.filter_not_same_of_perm (map.keys_insert t k v), List.map_append, List.filter_append,
    ← holds.other]
  split
  · next found =>
      obtain ⟨old, -, same⟩ := List.any_eq_true.mp found
      have itself : k.same k = true := Value.same_trans (by rwa [Value.same_comm] at same) same
      simp [itself]
  · rw [Value.filter_not_same_of_perm (List.perm_append_singleton k _).symm, List.filter_append]
    rfl

theorem insert : Holds (Table.insert k v t) (puts ++ [(k, v)]) :=
  ⟨holds.find?_insert map k v, holds.same_insert map k v, holds.other_insert map k v⟩

end Holds

end Table

namespace Dictionary

/-- If keys that are the same have one digest, an entry is found under the keys that are the same. -/
theorem isUnder_eq_same (alike : ∀ {a b : Value F}, a.same b = true → a.digest = b.digest)
    (key : Value F) (e : Value F × Value F) : isUnder key e = e.1.same key := by
  rw [isUnder, Bool.and_eq_right_iff_imp]
  exact fun same => decide_eq_true (alike same)

variable (comm : ∀ a b : Value F, a.same b = b.same a)
  (trans : ∀ {a b c : Value F}, a.same b = true → b.same c = true → a.same c = true)
  (alike : ∀ {a b : Value F}, a.same b = true → a.digest = b.digest)

include comm trans alike in
theorem find?_enter (entries : List (Value F × Value F)) (k v key : Value F) :
    ((enter k v entries).find? (isUnder key)).map Prod.snd =
      if k.same key then some v else (entries.find? (isUnder key)).map Prod.snd := by
  simp only [funext (isUnder_eq_same alike key)]
  fun_induction enter k v entries with
  | case1 => cases same : k.same key <;> simp [same]
  | case2 old rest under =>
      rw [isUnder_eq_same alike] at under
      have agree : old.1.same key = k.same key := by
        rw [Bool.eq_iff_iff]
        exact ⟨trans (comm .. ▸ under), trans under⟩
      cases same : k.same key <;> simp [agree, same]
  | case3 old rest other ih =>
      rw [isUnder_eq_same alike] at other
      rw [List.find?_cons, List.find?_cons]
      cases found : old.1.same key with
      | false => exact ih
      | true =>
          have apart : k.same key = false := by
            by_contra same
            exact other (trans found (comm .. ▸ (Bool.not_eq_false _ ▸ same)))
          simp [apart]

include alike in
theorem keys_enter (entries : List (Value F × Value F)) (k v : Value F) :
    (enter k v entries).map Prod.fst =
      if (entries.map Prod.fst).any (·.same k) then entries.map Prod.fst
      else entries.map Prod.fst ++ [k] := by
  fun_induction enter k v entries with
  | case1 => rfl
  | case2 old rest under =>
      rw [isUnder_eq_same alike] at under
      simp [under]
  | case3 old rest other ih =>
      rw [isUnder_eq_same alike] at other
      rw [List.map_cons, List.map_cons, List.any_cons, Bool.eq_false_of_not_eq_true other,
        Bool.false_or, ih]
      split <;> rfl

/-- Entries in a row are a hash table, however the keys are ordered. -/
theorem promises : Table.Promises Value.same Value.digest (Dictionary F) := by
  intro comm trans alike
  refine ⟨fun _ _ => rfl, fun d => ?_, fun d k v key => ?_, fun d k v => ?_⟩
  · exact List.perm_nil.mp (d.order.arrange_perm (d.changes + 1) [])
  · exact find?_enter comm trans alike d.entries k v key
  · have told : (d.put k v).keys.Perm ((enter k v d.entries).map Prod.fst) :=
      d.order.arrange_perm (d.changes + 1) _
    have before : d.keys.Perm (d.entries.map Prod.fst) := d.order.arrange_perm d.changes _
    refine told.trans ?_
    rw [keys_enter alike, ← before.any_eq]
    split
    · next known => exact (if_pos known ▸ before.symm)
    · next new =>
        exact (if_neg new ▸ (List.perm_append_singleton k _).trans (before.symm.cons k))

end Dictionary

/-- What can be done with a dictionary. -/
inductive Use (F : Type) where
  | put (key value : Value F)
  | get (key : Value F)
  | getOr (key default : Value F)
  | keys
  | clear

namespace Use

variable {D : Type} [Table D (Value F) (Value F)]

omit [DecidableEq F] in
/-- Use a dictionary: the answer, and the store afterwards. -/
def perform (dict : Value F) (s : Store F D) : Use F → Value F × Store F D
  | put key value => s.put dict key value
  | get key => (s.get dict key, s)
  | getOr key default => (s.getOr dict key default, s)
  | keys => s.keys dict
  | clear => s.clear dict

omit [DecidableEq F] in
/-- The use only looks at the dictionary. -/
def looks : Use F → Bool
  | get _ | getOr _ _ | keys => true
  | put _ _ | clear => false

omit [DecidableEq F] in
/-- Add a use to what has been put since the dictionary was cleared. -/
def record (puts : List (Value F × Value F)) : Use F → List (Value F × Value F)
  | put key value => puts ++ [(key, value)]
  | get _ | getOr _ _ | keys => puts
  | clear => []

omit [DecidableEq F] in
/-- What has been put since the dictionary was cleared last, oldest first. -/
def puts (uses : List (Use F)) : List (Value F × Value F) :=
  uses.foldl record []

omit [DecidableEq F] in
/-- Looking makes new pairs at most. -/
theorem perform_looks (use : Use F) (looks : use.looks = true) (dict : Value F) (s : Store F D) :
    ∃ more, (use.perform dict s).2 = s.grow more := by
  cases use with
  | get | getOr => exact ⟨#[], (Store.grow_empty s).symm⟩
  | keys => exact Store.list_grow _ s
  | put | clear => cases looks

/-- A use does to the dictionary what it adds to the record. -/
theorem perform_holds {s : Store F D} {d : Nat} {table : D} {before : List (Value F × Value F)}
    (map : Table.IsMap Value.same D) (use : Use F) (there : s.dictionaries[d]? = some table)
    (holds : Table.Holds table before) :
    ∃ later, (use.perform (.dictionary d) s).2.dictionaries[d]? = some later ∧
      Table.Holds later (use.record before) := by
  cases use with
  | put key value =>
      refine ⟨Table.insert key value table, ?_, holds.insert map key value⟩
      simp [perform, Store.put, Array.getElem?_modify, there]
  | clear =>
      refine ⟨Table.clear table, ?_, (map.vacant table).holds⟩
      simp [perform, Store.clear, Array.getElem?_modify, there]
  | get | getOr => exact ⟨table, there, holds⟩
  | keys =>
      obtain ⟨more, grown⟩ := keys.perform_looks rfl (.dictionary d) s
      rw [grown]
      exact ⟨table, there, holds⟩

end Use

namespace Store

variable {D : Type} [Table D (Value F) (Value F)]

/-- From the first store to the second one the dictionary was used so. Between two uses anything else
    in the store may have changed. -/
inductive History (d : Nat) (s : Store F D) : List (Use F) → Store F D → Prop where
  | start : History d s [] s
  | use {uses : List (Use F)} {t : Store F D} (use : Use F) : History d s uses t →
      History d s (uses ++ [use]) (use.perform (.dictionary d) t).2
  | meanwhile {uses : List (Use F)} {t u : Store F D} : u.dictionaries[d]? = t.dictionaries[d]? →
      History d s uses t → History d s uses u

variable {s t : Store F D} {d : Nat} {table : D} {uses : List (Use F)}

/-- A dictionary holds what was put into it since it was cleared. -/
theorem History.holds (map : Table.IsMap Value.same D) (there : s.dictionaries[d]? = some table)
    (vacant : Table.Vacant table) (history : s.History d uses t) :
    ∃ later, t.dictionaries[d]? = some later ∧ Table.Holds later (Use.puts uses) := by
  induction history with
  | start => exact ⟨table, there, vacant.holds⟩
  | use use _ ih =>
      obtain ⟨later, present, holds⟩ := ih
      rw [Use.puts, List.foldl_concat]
      exact use.perform_holds map present holds
  | meanwhile same _ ih => rwa [same]

/-- A dictionary that was empty is a map over sameness, whatever was done with it and whatever happened
    to the rest of the store. It has under each key the value that was put last since it was cleared,
    and lists the first of the keys that are the same, and every key that is not the same as itself.
    Looking at it changes nothing. -/
theorem dictionary_follows_history (promise : Table.Promises Value.same Value.digest D)
    (there : s.dictionaries[d]? = some table) (vacant : Table.Vacant table)
    (history : s.History d uses t) :
    (∀ key default, t.getOr (.dictionary d) key default =
      (((Use.puts uses).findRev? (·.1.same key)).map Prod.snd).getD default) ∧
    (∀ key, t.get (.dictionary d) key = t.getOr (.dictionary d) key .nil) ∧
    (∃ listed, (t.keys (.dictionary d)).2.Listed (t.keys (.dictionary d)).1 listed ∧
      (∀ key, listed.filter (·.same key) =
        (((Use.puts uses).map Prod.fst).find? (·.same key)).toList) ∧
      listed.filter (fun key => !key.same key) =
        ((Use.puts uses).map Prod.fst).filter fun key => !key.same key) ∧
    -- The store is the same afterwards, with the new pairs of a list at its end.
    (∀ use : Use F, use.looks = true →
      ∃ more, (use.perform (.dictionary d) t).2 = t.grow more) ∧
    -- Sameness is equality but for the zeros and for not-a-number, and a hash respects it.
    ∀ a b : Value F, (a.same b = true ↔ (a = b ∧ a ≠ .number Float.nan) ∨
      (a = .number 0 ∧ b = .number (-0)) ∨ (a = .number (-0) ∧ b = .number 0)) ∧
      (a.same b = true → a.digest = b.digest) := by
  have map := promise Value.same_comm Value.same_trans Value.digest_of_same
  obtain ⟨later, present, holds⟩ := history.holds map there vacant
  have listing : t.listing (.dictionary d) = (Table.keys later).reverse := by
    rw [Store.listing, present]
  refine ⟨fun key default => ?_, fun _ => rfl, ⟨(Table.keys later).reverse, ?_, fun key => ?_, ?_⟩,
    fun use looks => use.perform_looks looks (.dictionary d) t,
    fun a b => ⟨Value.same_iff, Value.digest_of_same⟩⟩
  · rw [Store.getOr, present, ← holds.find?]
    rfl
  · have listed := list_listed (t.listing (.dictionary d)) t #[]
    rwa [grow_empty, ← Store.keys, listing] at listed
  · exact Table.eq_toList_of_perm (holds.same key ▸ (List.reverse_perm _).filter _)
  · rw [Value.filter_not_same_of_perm (List.reverse_perm _), holds.other]

/-- A store with an empty dictionary and a pair of it. -/
def shelf : Store Empty where
  pairs := #[⟨.dictionary 0, .nil⟩]
  interned := #[]
  loose := #[]
  dictionaries := #[.empty .oldestFirst]

/-- Both zeros, a pair and not-a-number are put after a clearing. -/
def stocked : List (Use Empty) :=
  [.put (.string "old") .nil, .clear, .put (.number 0) (.bool false), .put (.pair 0) (.dictionary 0),
    .keys, .put (.number Float.nan) .nil, .put (.number (-0)) (.bool true),
    .put (.number Float.nan) .nil]

/-- A pair that is a key comes to hold itself before the keys are listed. The first zero stays the key,
    under which the last value is found. -/
theorem dictionary_follows_history_zeros :
    ∃ t, Table.Promises Value.same Value.digest (Dictionary Empty) ∧
      shelf.dictionaries[0]? = some (.empty .oldestFirst) ∧
      Table.Vacant (Dictionary.empty .oldestFirst : Dictionary Empty) ∧ shelf.History 0 stocked t ∧
      t.getOr (.dictionary 0) (.number 0) .nil = .bool true ∧
      t.get (.dictionary 0) (.pair 0) = .dictionary 0 ∧
      t.getOr (.dictionary 0) (.string "old") .eof = .eof ∧
      ∃ listed, (t.keys (.dictionary 0)).2.Listed (t.keys (.dictionary 0)).1 listed ∧
        listed.filter (·.same (.number (-0))) = [.number 0] ∧
        listed.filter (fun key => !key.same key) = [.number Float.nan, .number Float.nan] := by
  have there : shelf.dictionaries[0]? = some (.empty .oldestFirst) := rfl
  have vacant : Table.Vacant (Dictionary.empty .oldestFirst : Dictionary Empty) :=
    ⟨rfl, fun _ => rfl⟩
  have apart : ∀ s : Store Empty,
      (s.setCar (.pair 0) (.pair 0)).dictionaries[0]? = s.dictionaries[0]? := fun _ => rfl
  obtain ⟨t, history⟩ : ∃ t, shelf.History 0 stocked t :=
    have cleared := (History.start.use (.put (.string "old") .nil)).use .clear
    have filled := (cleared.use (.put (.number 0) (.bool false))).use (.put (.pair 0) (.dictionary 0))
    have listed := (filled.meanwhile (apart _)).use .keys
    ⟨_, ((listed.use (.put (.number Float.nan) .nil)).use (.put (.number (-0)) (.bool true))).use
      (.put (.number Float.nan) .nil)⟩
  obtain ⟨found, get, ⟨listed, list, same, other⟩, -⟩ :=
    dictionary_follows_history Dictionary.promises there vacant history
  refine ⟨t, Dictionary.promises, there, vacant, history, ?_, ?_, ?_, listed, list, ?_, ?_⟩
  · rw [found]
    decide +kernel
  · rw [get, found]
    decide +kernel
  · rw [found]
    decide +kernel
  · rw [same]
    decide +kernel
  · rw [other]
    decide +kernel

end Store

end SmallLisp
