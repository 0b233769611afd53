import SmallLisp.Interpreter
import SmallLisp.Proofs.Reading.Reread
import SmallLisp.Proofs.Store.Paths

/-! # Values that are finite trees

A value can be the root of a finite tree, whose pairs may be shared but not form a cycle. Such a
value is printed as the tree, and comparing two of them always ends. A store that only grows keeps
its trees, so what is read later stands beside them.
-/

namespace SmallLisp

/-- The number of pairs on the longest way down. -/
def Datum.depth : Datum → Nat
  | .atom _ => 0
  | .cons car cdr => max car.depth cdr.depth + 1

theorem Atom.Readable.literal {a : Atom} (readable : a.Readable) : a.Literal := by
  rcases readable with written | rfl
  · cases a with
    | nil | bool | number | string | symbol => trivial
    | native | dictionary | eof => cases written
  · trivial

namespace Store

variable {F : Type}

/-- The value is the root of the finite tree, each leaf being related to its atom. -/
inductive Tree (s : Store F) (leaf : Value F → Atom → Prop) : Value F → Datum → Prop where
  | leaf {v : Value F} {a : Atom} : leaf v a → Tree s leaf v (.atom a)
  | pair {p : Nat} {car cdr : Value F} {a b : Datum} : s.pairs[p]? = some ⟨car, cdr⟩ →
      Tree s leaf car a → Tree s leaf cdr b → Tree s leaf (.pair p) (.cons a b)

/-- The value is printed as the tree. -/
abbrev Shows (s : Store F) : Value F → Datum → Prop :=
  s.Tree fun v a => s.leaf? v = some a

/-- The value is printed as the atom, which has the property. A symbol is the one that the table
    has under its name. -/
structure Keeps (s : Store F) (P : Atom → Prop) (v : Value F) (a : Atom) : Prop where
  shown : s.leaf? v = some a
  property : P a
  interned : ∀ name, a = .symbol name → s.lookup? name = some v

variable {s t : Store F} {P Q : Atom → Prop} {v w : Value F} {d e : Datum}

theorem Tree.mono {leaf other : Value F → Atom → Prop} (imp : ∀ v a, leaf v a → other v a)
    (tree : s.Tree leaf v d) : s.Tree other v d := by
  induction tree with
  | leaf related => exact .leaf (imp _ _ related)
  | pair found _ _ carTree cdrTree => exact .pair found carTree cdrTree

theorem Tree.shows (tree : s.Tree (s.Keeps P) v d) : s.Shows v d :=
  tree.mono fun _ _ kept => kept.shown

theorem Tree.weaken (imp : ∀ a, P a → Q a) (tree : s.Tree (s.Keeps P) v d) :
    s.Tree (s.Keeps Q) v d :=
  tree.mono fun _ a kept => ⟨kept.shown, imp a kept.property, kept.interned⟩

theorem Tree.leaves (tree : s.Tree (s.Keeps P) v d) : d.Leaves P := by
  induction tree with
  | leaf kept => exact kept.property
  | pair _ _ _ carLeaves cdrLeaves => exact ⟨carLeaves, cdrLeaves⟩

theorem Shows.unique (first : s.Shows v d) (second : s.Shows v e) : d = e := by
  induction first generalizing e with
  | leaf shown =>
      cases second with
      | leaf other =>
          rw [shown] at other
          cases other
          rfl
      | pair => cases shown
  | pair found _ _ carSame cdrSame =>
      cases second with
      | leaf other => cases other
      | pair other carTree cdrTree =>
          rw [found] at other
          cases other
          rw [carSame carTree, cdrSame cdrTree]

/-- Pairs of the store, none of them twice, that are the roots of trees no larger than this one. -/
structure Path (s : Store F) (d : Datum) (path : List Nat) : Prop where
  length : path.length = d.depth
  nodup : path.Nodup
  inside : ∀ p ∈ path, p < s.pairs.size
  small : ∀ p ∈ path, ∃ e, s.Shows (.pair p) e ∧ sizeOf e ≤ sizeOf d

/-- A way down a tree passes no pair twice: the tree under a pair is larger than all trees further
    down. -/
theorem Shows.path (tree : s.Shows v d) : ∃ path, s.Path d path := by
  induction tree with
  | leaf => exact ⟨[], rfl, List.nodup_nil, nofun, nofun⟩
  | @pair p car cdr a b found carTree cdrTree carPath cdrPath =>
      have here : s.Shows (.pair p) (.cons a b) := .pair found carTree cdrTree
      obtain ⟨child, path, way, deeper, smaller⟩ : ∃ child path, s.Path child path ∧
          child.depth = max a.depth b.depth ∧ sizeOf child < sizeOf (Datum.cons a b) := by
        rcases Nat.le_total a.depth b.depth with le | le
        · obtain ⟨path, way⟩ := cdrPath
          exact ⟨b, path, way, by omega, by rw [Datum.cons.sizeOf_spec]; omega⟩
        · obtain ⟨path, way⟩ := carPath
          exact ⟨a, path, way, by omega, by rw [Datum.cons.sizeOf_spec]; omega⟩
      have fresh : p ∉ path := by
        intro mem
        obtain ⟨e, tree, small⟩ := way.small p mem
        rw [tree.unique here] at small
        omega
      refine ⟨p :: path, ?_, List.nodup_cons.mpr ⟨fresh, way.nodup⟩, ?_, ?_⟩
      · simp [way.length, deeper, Datum.depth]
      · exact List.forall_mem_cons.mpr ⟨(Array.getElem?_eq_some_iff.mp found).1, way.inside⟩
      · refine List.forall_mem_cons.mpr ⟨⟨_, here, Nat.le_refl _⟩, fun q mem => ?_⟩
        obtain ⟨e, tree, small⟩ := way.small q mem
        exact ⟨e, tree, by omega⟩

theorem Shows.depth_le (tree : s.Shows v d) : d.depth ≤ s.pairs.size := by
  obtain ⟨path, way⟩ := tree.path
  have subset : path ⊆ List.range s.pairs.size := fun p mem => List.mem_range.mpr (way.inside p mem)
  have short := way.nodup.length_le_of_subset subset
  rwa [way.length, List.length_range] at short

theorem car_of_found {D : Type} {s : Store F D} {p : Nat} {car cdr : Value F}
    (found : s.pairs[p]? = some ⟨car, cdr⟩) : s.car (.pair p) = car := by
  simp only [Store.car, found]

theorem cdr_of_found {D : Type} {s : Store F D} {p : Nat} {car cdr : Value F}
    (found : s.pairs[p]? = some ⟨car, cdr⟩) : s.cdr (.pair p) = cdr := by
  simp only [Store.cdr, found]

theorem Shows.datumWithin (tree : s.Shows v d) {bound : Nat} (deep : d.depth ≤ bound) :
    s.datumWithin bound v = some d := by
  induction tree generalizing bound with
  | leaf shown =>
      unfold Store.datumWithin
      rw [shown]
  | pair found _ _ carTree cdrTree =>
      simp only [Datum.depth] at deep
      obtain ⟨bound, rfl⟩ : ∃ n, bound = n + 1 := ⟨bound - 1, by omega⟩
      unfold Store.datumWithin
      simp [leaf?, car_of_found found, cdr_of_found found, carTree (by omega : _ ≤ bound),
        cdrTree (by omega : _ ≤ bound)]

/-- A value is printed as the tree that it is the root of. -/
theorem Shows.datum? (tree : s.Shows v d) : s.datum? v = some d :=
  tree.datumWithin (Nat.le_succ_of_le tree.depth_le)

/-! ### Growing stores -/

/-- The second store has all pairs and all symbols of the first one, in their places. -/
structure Extends (s t : Store F) : Prop where
  pairs : ∃ more, t.pairs = s.pairs ++ more
  interned : ∃ more, t.interned = s.interned ++ more

theorem Extends.refl (s : Store F) : s.Extends s :=
  ⟨⟨#[], by simp⟩, ⟨#[], by simp⟩⟩

theorem Extends.trans {u : Store F} (first : s.Extends t) (second : t.Extends u) : s.Extends u := by
  obtain ⟨⟨morePairs, pairs⟩, moreSymbols, symbols⟩ := first
  obtain ⟨⟨latePairs, laterPairs⟩, lateSymbols, laterSymbols⟩ := second
  exact ⟨⟨morePairs ++ latePairs, by rw [laterPairs, pairs, Array.append_assoc]⟩,
    ⟨moreSymbols ++ lateSymbols, by rw [laterSymbols, symbols, Array.append_assoc]⟩⟩

theorem Extends.found (extends_ : s.Extends t) {p : Nat} {pair : Pair F}
    (found : s.pairs[p]? = some pair) : t.pairs[p]? = some pair := by
  obtain ⟨more, pairs⟩ := extends_.pairs
  have inside : p < s.pairs.size := (Array.getElem?_eq_some_iff.mp found).1
  rw [pairs, Array.getElem?_append_left inside, found]

theorem Extends.car (extends_ : s.Extends t) {p : Nat} (inside : p < s.pairs.size) :
    t.car (.pair p) = s.car (.pair p) :=
  car_of_found (extends_.found (found_of_lt inside))

theorem Extends.cdr (extends_ : s.Extends t) {p : Nat} (inside : p < s.pairs.size) :
    t.cdr (.pair p) = s.cdr (.pair p) :=
  cdr_of_found (extends_.found (found_of_lt inside))

theorem Extends.size_le (extends_ : s.Extends t) : s.pairs.size ≤ t.pairs.size := by
  obtain ⟨more, pairs⟩ := extends_.pairs
  rw [pairs, Array.size_append]
  omega

theorem Extends.names (extends_ : s.Extends t) : s.names <+: t.names := by
  obtain ⟨more, symbols⟩ := extends_.interned
  rw [Store.names, Store.names, symbols, Array.toList_append, List.map_append]
  exact List.prefix_append _ _

theorem Extends.lookup? (extends_ : s.Extends t) {name : String}
    (found : s.lookup? name = some v) : t.lookup? name = some v := by
  obtain ⟨more, symbols⟩ := extends_.interned
  obtain ⟨i, here, rfl⟩ := Option.map_eq_some_iff.mp found
  simp [Store.lookup?, symbols, here]

theorem leaf?_of_lookup? {name : String} (found : s.lookup? name = some v) :
    s.leaf? v = some (.symbol name) := by
  obtain ⟨i, here, rfl⟩ := Option.map_eq_some_iff.mp found
  obtain ⟨inside, same, -⟩ := Array.findIdx?_eq_some_iff_getElem.mp here
  simp [leaf?, symbolName, symbol?, inside, beq_iff_eq.mp same]

theorem Keeps.extend {a : Atom} (kept : s.Keeps P v a) (extends_ : s.Extends t) :
    t.Keeps P v a := by
  refine ⟨?_, kept.property, fun name same => extends_.lookup? (kept.interned name same)⟩
  have shown := kept.shown
  cases v with
  | symbol id =>
      have found := extends_.lookup? (kept.interned _ (Option.some.inj shown).symm)
      rw [← shown]
      exact leaf?_of_lookup? found
  | nil | bool | number | string | native | dictionary | eof => exact shown
  | pair => cases shown

theorem Tree.extend (tree : s.Tree (s.Keeps P) v d) (extends_ : s.Extends t) :
    t.Tree (t.Keeps P) v d := by
  induction tree with
  | leaf kept => exact .leaf (kept.extend extends_)
  | pair found _ _ carTree cdrTree => exact .pair (extends_.found found) carTree cdrTree

/-- Pairs and symbols are all that was added, and the new symbols have an empty slot. -/
structure Grows (s t : Store F) : Prop extends s.Extends t where
  slots : ∀ v, t.symbolValue v = s.symbolValue v
  loose : t.loose = s.loose
  dictionaries : t.dictionaries = s.dictionaries
  orders : t.orders = s.orders

theorem Grows.refl (s : Store F) : s.Grows s :=
  ⟨.refl s, fun _ => rfl, rfl, rfl, rfl⟩

theorem Grows.trans {u : Store F} (first : s.Grows t) (second : t.Grows u) : s.Grows u where
  toExtends := first.toExtends.trans second.toExtends
  slots v := (second.slots v).trans (first.slots v)
  loose := second.loose.trans first.loose
  dictionaries := second.dictionaries.trans first.dictionaries
  orders := second.orders.trans first.orders

theorem symbolValue_intern (name : String) (s : Store F) (v : Value F) :
    (s.intern name).2.symbolValue v = s.symbolValue v := by
  cases v with
  | symbol id =>
      unfold Store.intern
      split
      · rfl
      · cases id with
        | loose i => rfl
        | interned i =>
            by_cases last : i = s.interned.size
            · simp [Store.symbolValue, symbol?, last]
            · simp only [Store.symbolValue, symbol?, Array.getElem?_push, if_neg last]
  | _ => rfl

theorem intern_grows (name : String) (s : Store F) : s.Grows (s.intern name).2 := by
  have slots := symbolValue_intern name s
  unfold intern at slots ⊢
  split at slots
  · exact .refl s
  · exact ⟨⟨⟨#[], by simp⟩, ⟨#[⟨name, .nil⟩], by simp⟩⟩, slots, rfl, rfl, rfl⟩

theorem lookup?_intern (name : String) (s : Store F) :
    (s.intern name).2.lookup? name = some (s.intern name).1 := by
  unfold intern
  split
  · next found => exact found
  · next missing =>
      have none : s.interned.findIdx? (·.name == name) = none := by simpa [lookup?] using missing
      simp [lookup?, Array.findIdx?_push, none]

theorem internAll_grows (names : List String) (s : Store F) : s.Grows (s.internAll names) := by
  induction names generalizing s with
  | nil => exact .refl s
  | cons name names ih => exact (intern_grows name s).trans (ih (s.intern name).2)

theorem cons_grows (car cdr : Value F) (s : Store F) : s.Grows (s.cons car cdr).2 :=
  ⟨⟨⟨#[⟨car, cdr⟩], by simp [cons]⟩, ⟨#[], by simp [cons]⟩⟩, fun _ => rfl, rfl, rfl, rfl⟩

theorem loadAtom_grows (s : Store F) (a : Atom) : s.Grows (s.loadAtom a).2 := by
  cases a with
  | symbol name => exact intern_grows name s
  | nil | bool | number | string | native | dictionary | eof => exact .refl s

theorem load_grows (s : Store F) (d : Datum) : s.Grows (s.load d).2 := by
  induction d generalizing s with
  | atom a => exact s.loadAtom_grows a
  | cons car cdr carGrows cdrGrows =>
      exact ((carGrows s).trans (cdrGrows _)).trans (cons_grows _ _ _)

theorem loadAll_grows (s : Store F) (data : List Datum) : s.Grows (s.loadAll data).2 := by
  induction data generalizing s with
  | nil => exact .refl s
  | cons d rest ih => exact (s.load_grows d).trans (ih (s.load d).2)

theorem loadReading_grows {α β : Type} {load : Store F → α → β × Store F} {r : Reading α}
    (grows : ∀ (s : Store F) (a : α), s.Grows (load s a).2) (s : Store F) :
    s.Grows (s.loadReading load r).2 := by
  have entered := s.internAll_grows r.names
  unfold loadReading
  cases r.result with
  | error e => exact entered
  | ok a => exact entered.trans (grows _ a)

theorem loadAtom_keeps (s : Store F) {a : Atom} (literal : a.Literal) (property : P a) :
    (s.loadAtom a).2.Keeps P (s.loadAtom a).1 a := by
  cases a with
  | symbol name =>
      have found := s.lookup?_intern name
      refine ⟨leaf?_of_lookup? found, property, fun other same => ?_⟩
      cases same
      exact found
  | nil | bool | number | string => exact ⟨rfl, property, nofun⟩
  | native | dictionary | eof => cases literal

/-- A datum that is put into the store is a tree there. -/
theorem load_tree (s : Store F) (literal : ∀ a, P a → a.Literal) (leaves : d.Leaves P) :
    (s.load d).2.Tree ((s.load d).2.Keeps P) (s.load d).1 d := by
  induction d generalizing s with
  | atom a => exact .leaf (s.loadAtom_keeps (literal a leaves) leaves)
  | cons a b carTree cdrTree =>
      have first := carTree s leaves.1
      have second := cdrTree (s.load a).2 leaves.2
      have grown := (cons_grows (s.load a).1 ((s.load a).2.load b).1 ((s.load a).2.load b).2).toExtends
      have found : ((s.load (.cons a b)).2).pairs[((s.load a).2.load b).2.pairs.size]? =
          some ⟨(s.load a).1, ((s.load a).2.load b).1⟩ := by simp [load, cons]
      exact .pair found (first.extend (((s.load a).2.load_grows b).toExtends.trans grown))
        (second.extend grown)

/-! ### Comparing -/

theorem Keeps.eq_loadAtom {a : Atom} (kept : s.Keeps Atom.Literal v a) :
    v = (s.loadAtom a).1 := by
  have shown := kept.shown
  cases v with
  | nil | bool | number | string =>
      cases shown
      rfl
  | symbol id =>
      cases shown
      simp [loadAtom, intern, kept.interned _ rfl]
  | pair => cases shown
  | native | dictionary | eof =>
      cases shown
      cases kept.property

variable [DecidableEq F]

theorem Keeps.same {a : Atom} (first : s.Keeps Atom.Readable v a)
    (second : s.Keeps Atom.Readable w a) : v.same w = true := by
  have same {v : Value F} (kept : s.Keeps Atom.Readable v a) : v = (s.loadAtom a).1 :=
    Keeps.eq_loadAtom ⟨kept.shown, kept.property.literal, kept.interned⟩
  obtain rfl : v = w := (same first).trans (same second).symm
  cases v with
  | number x =>
      cases first.shown
      rcases first.property with finite | same
      · exact Double.beq_self finite
      · cases same
  | nil | bool | string | symbol | pair | native | dictionary | eof => simp [Value.same]

theorem equalWithin_pair {p q bound : Nat} {car cdr otherCar otherCdr : Value F}
    (found : s.pairs[p]? = some ⟨car, cdr⟩) (other : s.pairs[q]? = some ⟨otherCar, otherCdr⟩) :
    s.equalWithin (bound + 1) (.pair p) (.pair q) = some true ↔
      s.equalWithin bound car otherCar = some true ∧
        s.equalWithin bound cdr otherCdr = some true := by
  rw [Store.equalWithin]
  simp only [Value.isPair, Bool.and_self, if_true, car_of_found found, cdr_of_found found,
    car_of_found other, cdr_of_found other]
  cases s.equalWithin bound car otherCar with
  | none => simp
  | some b => cases b <;> simp

/-- Two values that are the same tree are found equal. -/
theorem Tree.equalWithin (first : s.Tree (s.Keeps Atom.Readable) v d)
    (second : s.Tree (s.Keeps Atom.Readable) w d) {bound : Nat} (deep : d.depth ≤ bound) :
    s.equalWithin bound v w = some true := by
  induction first generalizing w bound with
  | @leaf v a kept =>
      cases second with
      | leaf other =>
          have solid : v.isPair = false := by
            have shown := kept.shown
            cases v with
            | pair => cases shown
            | _ => rfl
          unfold Store.equalWithin
          simp [solid, kept.same other]
  | pair found _ _ carTree cdrTree =>
      cases second with
      | pair other otherCar otherCdr =>
          simp only [Datum.depth] at deep
          obtain ⟨bound, rfl⟩ : ∃ n, bound = n + 1 := ⟨bound - 1, by omega⟩
          rw [equalWithin_pair found other]
          exact ⟨carTree otherCar (by omega), cdrTree otherCdr (by omega)⟩

theorem Tree.equal? (first : s.Tree (s.Keeps Atom.Readable) v d)
    (second : s.Tree (s.Keeps Atom.Readable) w d) : s.equal? v w = some true := by
  have deep := first.shows.depth_le
  have square := Nat.le_mul_self s.pairs.size
  exact first.equalWithin second (by omega)

/-- Values that are found equal have trees of the same size. -/
theorem Shows.pairs_eq (first : s.Shows v d) (second : s.Shows w e) {bound : Nat}
    (equal : s.equalWithin bound v w = some true) : d.pairs = e.pairs := by
  induction first generalizing w e bound with
  | @leaf v a shown =>
      cases second with
      | leaf => rfl
      | pair =>
          unfold Store.equalWithin at equal
          cases v with
          | pair => cases shown
          | _ => simp [Value.isPair, Value.same] at equal
  | pair found _ _ carTree cdrTree =>
      cases second with
      | @leaf w a shown =>
          unfold Store.equalWithin at equal
          cases w with
          | pair => cases shown
          | _ => simp [Value.isPair, Value.same] at equal
      | pair other otherCar otherCdr =>
          cases bound with
          | zero =>
              unfold Store.equalWithin at equal
              simp [Value.isPair] at equal
          | succ bound =>
              obtain ⟨carEqual, cdrEqual⟩ := (equalWithin_pair found other).mp equal
              simp only [Datum.pairs, carTree otherCar carEqual, cdrTree otherCdr cdrEqual]

end Store

end SmallLisp
