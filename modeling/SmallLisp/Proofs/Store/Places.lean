import SmallLisp.Store

/-! # The places of a store

Each object has places that hold something: the two halves of a pair, the name and the slot of a
symbol, the entries of a dictionary. An operation writes at few places. What it leaves alone is told
for all places at once.
-/

namespace SmallLisp

variable {F : Type}

/-- A place that an object has. -/
inductive Place where
  | car (pair : Nat)
  | cdr (pair : Nat)
  | name (symbol : SymbolId)
  | slot (symbol : SymbolId)
  | entries (dictionary : Nat)
  deriving DecidableEq, Repr

/-- What stands at a place. -/
inductive Content (F : Type) where
  | value (v : Value F)
  | name (text : String)
  | entries (d : Dictionary F)

namespace Store

/-- What the store holds at a place; none if the object is not there. -/
def content? (s : Store F) : Place → Option (Content F)
  | .car p => s.pairs[p]?.map fun pair => .value pair.car
  | .cdr p => s.pairs[p]?.map fun pair => .value pair.cdr
  | .name id => (s.symbol? id).map fun symbol => .name symbol.name
  | .slot id => (s.symbol? id).map fun symbol => .value symbol.value
  | .entries d => s.dictionaries[d]?.map .entries

/-- The value at a place, `nil` if there is none. -/
def valueAt (s : Store F) (place : Place) : Value F :=
  match s.content? place with
  | some (.value v) => v
  | _ => .nil

/-- The second store holds the value at the place, and what the first one holds at all others. It has
    no more objects than the first one. -/
structure Writes (place : Place) (v : Value F) (s t : Store F) : Prop where
  here : t.content? place = some (.value v)
  elsewhere : ∀ other, other ≠ place → t.content? other = s.content? other

/-- Whatever the first store holds, except at these places, stands in the second one too. It may have
    more objects. -/
def KeptBut (changed : List Place) (s t : Store F) : Prop :=
  ∀ place, place ∉ changed → (s.content? place).isSome → t.content? place = s.content? place

variable {s t : Store F} {v : Value F} {p q : Nat} {place : Place}

theorem car_eq_valueAt (s : Store F) (p : Nat) : s.car (.pair p) = s.valueAt (.car p) := by
  rw [Store.car, valueAt, content?]
  cases s.pairs[p]? <;> rfl

theorem cdr_eq_valueAt (s : Store F) (p : Nat) : s.cdr (.pair p) = s.valueAt (.cdr p) := by
  rw [Store.cdr, valueAt, content?]
  cases s.pairs[p]? <;> rfl

theorem symbolValue_eq_valueAt (s : Store F) (id : SymbolId) :
    s.symbolValue (.symbol id) = s.valueAt (.slot id) := by
  rw [Store.symbolValue, valueAt, content?]
  cases s.symbol? id <;> rfl

theorem valueAt_of_content? (same : t.content? place = s.content? place) :
    t.valueAt place = s.valueAt place := by
  rw [valueAt, valueAt, same]

theorem content?_setCdr (other : place ≠ .cdr p) :
    (s.setCdr (.pair p) v).content? place = s.content? place := by
  cases place with
  | car q =>
      simp only [content?, setCdr, Array.getElem?_modify]
      split
      · cases s.pairs[q]? <;> rfl
      · rfl
  | cdr q =>
      have apart : p ≠ q := fun same => other (congrArg Place.cdr same.symm)
      simp only [content?, setCdr, Array.getElem?_modify, if_neg apart]
  | name | slot | entries => rfl

theorem pairs_setCdr_of_ne (other : q ≠ p) : (s.setCdr (.pair q) v).pairs[p]? = s.pairs[p]? := by
  simp only [setCdr, Array.getElem?_modify, if_neg other]

theorem writes_setCdr (inside : p < s.pairs.size) (v : Value F) :
    s.Writes (.cdr p) v (s.setCdr (.pair p) v) where
  here := by
    simp only [content?, setCdr, Array.getElem?_modify, if_true, Array.getElem?_eq_getElem inside,
      Option.map_some]
  elsewhere _ other := content?_setCdr other

/-- A symbol keeps its name when its slot is set, and all other symbols stay as they are. -/
theorem symbol?_setSymbolValue (s : Store F) (id other : SymbolId) (v : Value F) :
    (s.setSymbolValue (.symbol id) v).symbol? other =
      if id = other then (s.symbol? other).map fun symbol => { symbol with value := v }
      else s.symbol? other := by
  cases id <;> cases other <;>
    simp [setSymbolValue, symbol?, Array.getElem?_modify]

theorem content?_setSymbolValue {id : SymbolId} (other : place ≠ .slot id) :
    (s.setSymbolValue (.symbol id) v).content? place = s.content? place := by
  cases place with
  | slot x =>
      have apart : id ≠ x := fun same => other (congrArg Place.slot same.symm)
      simp only [content?, symbol?_setSymbolValue, if_neg apart]
  | name x =>
      simp only [content?, symbol?_setSymbolValue]
      split
      · cases s.symbol? x <;> rfl
      · rfl
  | car | cdr | entries => cases id <;> rfl

theorem writes_setSymbolValue {id : SymbolId} (known : (s.symbol? id).isSome) (v : Value F) :
    s.Writes (.slot id) v (s.setSymbolValue (.symbol id) v) where
  here := by
    obtain ⟨symbol, found⟩ := Option.isSome_iff_exists.mp known
    simp [content?, symbol?_setSymbolValue, found]
  elsewhere _ other := content?_setSymbolValue other

theorem content?_modify {d : Nat} (f : Dictionary F → Dictionary F) (other : place ≠ .entries d) :
    ({ s with dictionaries := s.dictionaries.modify d f } : Store F).content? place =
      s.content? place := by
  cases place with
  | entries e =>
      have apart : d ≠ e := fun same => other (congrArg Place.entries same.symm)
      simp only [content?, Array.getElem?_modify, if_neg apart]
  | car | cdr => rfl
  | name id | slot id => cases id <;> rfl

theorem Writes.valueAt_here (writes : s.Writes place v t) : t.valueAt place = v := by
  rw [valueAt, writes.here]

theorem Writes.valueAt_elsewhere {other : Place} (writes : s.Writes place v t)
    (apart : other ≠ place) : t.valueAt other = s.valueAt other :=
  valueAt_of_content? (writes.elsewhere other apart)

theorem Writes.car (writes : s.Writes place v t) (apart : .car p ≠ place) :
    t.car (.pair p) = s.car (.pair p) := by
  rw [car_eq_valueAt, car_eq_valueAt, writes.valueAt_elsewhere apart]

theorem Writes.cdr (writes : s.Writes place v t) (apart : .cdr p ≠ place) :
    t.cdr (.pair p) = s.cdr (.pair p) := by
  rw [cdr_eq_valueAt, cdr_eq_valueAt, writes.valueAt_elsewhere apart]

theorem Writes.cdr_here (writes : s.Writes (.cdr p) v t) : t.cdr (.pair p) = v := by
  rw [cdr_eq_valueAt, writes.valueAt_here]

theorem isSome_content?_car : (s.content? (.car p)).isSome ↔ p < s.pairs.size := by
  simp [content?]

theorem isSome_content?_cdr : (s.content? (.cdr p)).isSome ↔ p < s.pairs.size := by
  simp [content?]

section

variable {changed : List Place}

theorem KeptBut.car (kept : s.KeptBut changed t) (free : .car p ∉ changed)
    (inside : p < s.pairs.size) : t.car (.pair p) = s.car (.pair p) := by
  rw [car_eq_valueAt, car_eq_valueAt,
    valueAt_of_content? (kept _ free (isSome_content?_car.mpr inside))]

theorem KeptBut.cdr (kept : s.KeptBut changed t) (free : .cdr p ∉ changed)
    (inside : p < s.pairs.size) : t.cdr (.pair p) = s.cdr (.pair p) := by
  rw [cdr_eq_valueAt, cdr_eq_valueAt,
    valueAt_of_content? (kept _ free (isSome_content?_cdr.mpr inside))]

/-- Writing at one more place. -/
theorem KeptBut.write {u : Store F} (kept : s.KeptBut changed t) (writes : t.Writes place v u) :
    s.KeptBut (place :: changed) u := by
  intro other free there
  obtain ⟨apart, free⟩ := not_or.mp (mt List.mem_cons.mpr free)
  rw [writes.elsewhere other apart, kept other free there]

end

end Store

end SmallLisp
