import Mathlib.Data.List.Forall2
import Mathlib.Data.List.Induction
import SmallLisp.Store

/-! # Keys and entries of dictionaries

A dictionary tells its keys in an order of its own, each of them once. What holds of all entries holds
of all keys that are told and of all values that are found.
-/

namespace SmallLisp

variable {F K L : Type}

namespace KeyOrder

variable (order : KeyOrder) (changes : Nat)

theorem filterMap_range (keys : List K) :
    (List.range keys.length).filterMap (keys[·]?) = keys := by
  induction keys using List.reverseRecOn with
  | nil => rfl
  | append_singleton keys key ih =>
      have before : ∀ i ∈ List.range keys.length, (keys ++ [key])[i]? = keys[i]? := fun i inside =>
        List.getElem?_append_left (List.mem_range.mp inside)
      rw [List.length_append, List.length_singleton, List.range_succ, List.filterMap_append,
        List.filterMap_congr before, ih]
      simp

theorem arrange_perm (keys : List K) : (order.arrange changes keys).Perm keys := by
  have sorted := (order.complete changes keys.length).filterMap (keys[·]?)
  rwa [filterMap_range] at sorted

@[simp] theorem mem_arrange {keys : List K} {key : K} :
    key ∈ order.arrange changes keys ↔ key ∈ keys :=
  (order.arrange_perm changes keys).mem_iff

/-- Keys that are related place by place are told in the same order. -/
theorem arrange_forall₂ {R : K → L → Prop} {keys : List K} {others : List L}
    (related : List.Forall₂ R keys others) :
    List.Forall₂ R (order.arrange changes keys) (order.arrange changes others) := by
  rw [arrange, arrange, ← related.length_eq]
  induction order.places changes keys.length with
  | nil => exact .nil
  | cons i places ih =>
      rw [List.filterMap_cons, List.filterMap_cons]
      by_cases inside : i < keys.length
      · have also : i < others.length := related.length_eq ▸ inside
        rw [List.getElem?_eq_getElem inside, List.getElem?_eq_getElem also]
        exact .cons (related.get inside also) ih
      · have beyond : ¬ i < others.length := related.length_eq ▸ inside
        rw [List.getElem?_eq_none (Nat.le_of_not_lt inside),
          List.getElem?_eq_none (Nat.le_of_not_lt beyond)]
        exact ih

end KeyOrder

namespace Dictionary

theorem mem_keys {d : Dictionary F} {key : Value F} :
    key ∈ d.keys ↔ ∃ e ∈ d.entries, e.1 = key := by
  rw [keys, KeyOrder.mem_arrange, List.mem_map]

variable [DecidableEq F]

theorem exists_of_find? {d : Dictionary F} {key v : Value F} (found : d.find? key = some v) :
    ∃ e ∈ d.entries, e.2 = v := by
  obtain ⟨e, here, same⟩ := Option.map_eq_some_iff.mp found
  exact ⟨e, List.mem_of_find?_eq_some here, same⟩

/-- What holds of all entries and of what is put holds of all entries afterwards. -/
theorem forall_enter {P : Value F → Prop} {key value : Value F}
    {entries : List (Value F × Value F)} (old : ∀ e ∈ entries, P e.1 ∧ P e.2) (newKey : P key)
    (newValue : P value) : ∀ e ∈ enter key value entries, P e.1 ∧ P e.2 := by
  induction entries with
  | nil => exact List.forall_mem_singleton.mpr ⟨newKey, newValue⟩
  | cons first rest ih =>
      obtain ⟨here, others⟩ := List.forall_mem_cons.mp old
      unfold enter
      split
      · exact List.forall_mem_cons.mpr ⟨⟨here.1, newValue⟩, others⟩
      · exact List.forall_mem_cons.mpr ⟨here, ih others⟩

end Dictionary

namespace Store

variable {s : Store F} {target key : Value F}

theorem mem_entries_dictionary {d : Nat} {e : Value F × Value F} :
    e ∈ s.entries (.dictionary d) ↔
      ∃ dictionary, s.dictionaries[d]? = some dictionary ∧ e ∈ dictionary.entries := by
  rw [entries]
  cases s.dictionaries[d]? with
  | none => simp
  | some dictionary => simp

variable [DecidableEq F]

theorem exists_of_mem_listing (listed : key ∈ s.listing target) :
    ∃ e ∈ s.entries target, e.1 = key := by
  cases target with
  | dictionary d =>
      rw [listing] at listed
      cases there : s.dictionaries[d]? with
      | none =>
          rw [there] at listed
          cases listed
      | some dictionary =>
          rw [there, List.mem_reverse] at listed
          obtain ⟨e, entered, same⟩ := Dictionary.mem_keys.mp listed
          exact ⟨e, mem_entries_dictionary.mpr ⟨dictionary, there, entered⟩, same⟩
  | nil | bool | number | string | symbol | pair | native | eof => cases listed

theorem getOr_dictionary {d : Nat} {dictionary : Dictionary F}
    (there : s.dictionaries[d]? = some dictionary) (key default : Value F) :
    s.getOr (.dictionary d) key default = (dictionary.find? key).getD default := by
  rw [getOr, there]
  rfl

/-- An answer is the default, `nil` or the value of an entry. -/
theorem getOr_cases (s : Store F) (target key default : Value F) :
    s.getOr target key default = default ∨ s.getOr target key default = .nil ∨
      ∃ e ∈ s.entries target, e.2 = s.getOr target key default := by
  cases target with
  | dictionary d =>
      cases there : s.dictionaries[d]? with
      | none => exact .inl (by rw [getOr, there]; rfl)
      | some dictionary =>
          rw [getOr_dictionary there, entries, there]
          cases found : dictionary.find? key with
          | none => exact .inl rfl
          | some v => exact .inr (.inr (Dictionary.exists_of_find? found))
  | nil | bool | number | string | symbol | pair | native | eof => exact .inr (.inl rfl)

end Store

end SmallLisp
