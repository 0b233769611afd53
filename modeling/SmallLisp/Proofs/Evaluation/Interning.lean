import SmallLisp.Proofs.Evaluation.Symbols

/-! # A symbol table in two parts

Names can be kept by an interner, which numbers them, and the symbols in a row beside it, each at the
number of its name. The two parts are asked one after the other, and nothing but the order of what is
done to them keeps them together. They stay together over every session, whatever is read, evaluated or
cleared in it, and do what the one table of a store does.
-/

namespace SmallLisp

/-- What can be asked of an interner. -/
class Interner (R : Type) where
  fresh : R
  /-- The number of a name that it knows. -/
  get? : String → R → Option Nat
  /-- The number of a name, which it knows from then on. -/
  getOrIntern : String → R → Nat × R
  /-- The names, in the order of their numbers. -/
  strings : R → List String

/-- Numbers are dense, and given out in the order in which the names are first interned. -/
structure Interner.Lawful (R : Type) [Interner R] : Prop where
  strings_fresh : strings (fresh : R) = []
  get?_eq (name : String) (r : R) : get? name r = (strings r).findIdx? (· == name)
  known {name : String} {r : R} {number : Nat} : get? name r = some number →
    (getOrIntern name r).1 = number ∧ strings (getOrIntern name r).2 = strings r
  new {name : String} {r : R} : get? name r = none →
    (getOrIntern name r).1 = (strings r).length ∧
      strings (getOrIntern name r).2 = strings r ++ [name]

/-- Make a symbol for the table. -/
def Store.enter {F : Type} (name : String) (s : Store F) : Value F × Store F :=
  (.symbol (.interned s.interned.size), { s with interned := s.interned.push ⟨name, .nil⟩ })

/-- A store with a symbol table in two parts. -/
structure Registry (R F : Type) where
  names : R
  symbols : Array (Value F)
  store : Store F

namespace Registry

variable {R F α β : Type}

/-- Change the store alone. -/
def onStore (f : Store F → α × Store F) (t : Registry R F) : α × Registry R F :=
  ((f t.store).1, { t with store := (f t.store).2 })

/-- Empty the global slots of the symbols in the row. -/
def clearValues (t : Registry R F) : Registry R F :=
  { t with store := t.symbols.toList.foldl (fun s symbol => s.setSymbolValue symbol .nil) t.store }

variable [Interner R]

def intern (name : String) (t : Registry R F) : Value F × Registry R F :=
  let (number, names) := Interner.getOrIntern name t.names
  match t.symbols[number]? with
  | some symbol => (symbol, { t with names := names })
  | none =>
      let (symbol, store) := t.store.enter name
      (symbol, ⟨names, t.symbols.push symbol, store⟩)

def lookup? (t : Registry R F) (name : String) : Option (Value F) := do
  let number ← Interner.get? name t.names
  t.symbols[number]?

def internAll (names : List String) (t : Registry R F) : Registry R F :=
  names.foldl (fun t name => (t.intern name).2) t

def setGlobal (name : String) (value : Value F) (t : Registry R F) : Registry R F :=
  let (symbol, t) := t.intern name
  { t with store := t.store.setSymbolValue symbol value }

def empty (orders : Nat → KeyOrder) : Registry R F :=
  ⟨Interner.fresh, #[], { Store.empty with orders := orders }⟩

/-- A store that knows the special forms. -/
def bare (orders : Nat → KeyOrder) : Registry R F :=
  (empty orders).internAll (Special.all.map Special.name)

/-- A store that knows the special forms, the built-in functions and `pi`. -/
def standard (orders : Nat → KeyOrder) : Registry R F :=
  let t := Builtin.all.foldl (fun t b => t.setGlobal b.name (.native (.builtin b))) (bare orders)
  t.setGlobal "pi" (.number 3.141592653589793)

def loadAtom (t : Registry R F) : Atom → Value F × Registry R F
  | .symbol name => t.intern name
  | a => t.onStore (·.loadAtom a)

def load (t : Registry R F) : Datum → Value F × Registry R F
  | .atom a => t.loadAtom a
  | .cons car cdr =>
      let (first, t) := t.load car
      let (second, t) := t.load cdr
      t.onStore (·.cons first second)

def loadAll (t : Registry R F) : List Datum → List (Value F) × Registry R F
  | [] => ([], t)
  | d :: rest =>
      let (v, t) := t.load d
      let (vs, t) := t.loadAll rest
      (v :: vs, t)

def loadReading (load : Registry R F → α → β × Registry R F) (r : Reading α) (t : Registry R F) :
    Except ReadError β × Registry R F :=
  let t := t.internAll r.names
  match r.result with
  | .error e => (.error e, t)
  | .ok a =>
      let (b, t) := load t a
      (.ok b, t)

def read (text : String) (t : Registry R F) : Except ReadError (Value F) × Registry R F :=
  t.loadReading load (SmallLisp.read text)

def readMany (text : String) (t : Registry R F) : Except ReadError (List (Value F)) × Registry R F :=
  t.loadReading loadAll (SmallLisp.readMany text)

/-- Both parts list the same names, and the row has at each number the symbol made at that number. -/
structure Aligned (t : Registry R F) : Prop where
  names : Interner.strings t.names = t.store.names
  row : t.symbols.toList = (List.range t.store.names.length).map fun i => .symbol (.interned i)

variable {t u : Registry R F} {name : String}

namespace Aligned

/-- What changes no name keeps the two parts together. -/
theorem withStore (aligned : t.Aligned) {s : Store F} (same : s.names = t.store.names) :
    Aligned { t with store := s } :=
  ⟨aligned.names.trans same.symm, same ▸ aligned.row⟩

theorem size (aligned : t.Aligned) : t.symbols.size = t.store.names.length := by
  rw [← Array.length_toList, aligned.row, List.length_map, List.length_range]

theorem symbol? (aligned : t.Aligned) (i : Nat) :
    t.symbols[i]? = (t.store.names[i]?).map fun _ => .symbol (.interned i) := by
  rw [← Array.getElem?_toList, aligned.row, List.getElem?_map]
  by_cases inside : i < t.store.names.length
  · simp [inside]
  · simp [Nat.le_of_not_lt inside]

theorem mem_symbols (aligned : t.Aligned) {v : Value F} (among : v ∈ t.symbols) :
    ∃ i < t.store.names.length, v = .symbol (.interned i) := by
  rw [← Array.mem_toList_iff, aligned.row] at among
  obtain ⟨i, inside, rfl⟩ := List.mem_map.mp among
  exact ⟨i, List.mem_range.mp inside, rfl⟩

/-- The row is told by the names. -/
theorem symbols_eq (first : t.Aligned) (second : u.Aligned) (same : u.store.names = t.store.names) :
    u.symbols = t.symbols := by
  rw [← Array.toList_inj, first.row, second.row, same]

theorem symbols_prefix (first : t.Aligned) (second : u.Aligned)
    (grown : t.store.names <+: u.store.names) : t.symbols.toList <+: u.symbols.toList := by
  obtain ⟨more, same⟩ := grown
  rw [first.row, second.row, ← same, List.length_append, List.range_add, List.map_append]
  exact List.prefix_append _ _

end Aligned

/-- The function on registries does what the function on stores does, and keeps the parts together. -/
def Refines (f : Registry R F → α × Registry R F) (g : Store F → α × Store F) : Prop :=
  ∀ t, t.Aligned → (f t).1 = (g t.store).1 ∧ (f t).2.store = (g t.store).2 ∧ (f t).2.Aligned

theorem Refines.andThen {f : Registry R F → α × Registry R F} {g : Store F → α × Store F}
    {h : α → Registry R F → β × Registry R F} {k : α → Store F → β × Store F}
    (first : Refines f g) (rest : ∀ x, Refines (h x) (k x)) :
    Refines (fun t => h (f t).1 (f t).2) (fun s => k (g s).1 (g s).2) := by
  intro t aligned
  obtain ⟨answer, store, still⟩ := first t aligned
  have later := rest (f t).1 (f t).2 still
  rw [store] at later
  dsimp only
  rw [← answer]
  exact later

theorem refines_pure (x : α) : Refines (fun t : Registry R F => (x, t)) fun s => (x, s) :=
  fun _ aligned => ⟨rfl, rfl, aligned⟩

theorem refines_onStore {g : Store F → α × Store F} (kept : ∀ s, (g s).2.names = s.names) :
    Refines (onStore g : Registry R F → α × Registry R F) g :=
  fun t aligned => ⟨rfl, rfl, aligned.withStore (kept t.store)⟩

variable (lawful : Interner.Lawful R)

include lawful

theorem Aligned.symbol_of_get? (aligned : t.Aligned) {number : Nat}
    (found : Interner.get? name t.names = some number) :
    t.symbols[number]? = some (.symbol (.interned number)) := by
  rw [lawful.get?_eq, aligned.names] at found
  obtain ⟨inside, -⟩ := List.findIdx?_eq_some_iff_getElem.mp found
  simp [aligned.symbol?, inside]

theorem Aligned.lookup? (aligned : t.Aligned) (name : String) :
    t.lookup? name = t.store.lookup? name := by
  rw [Store.lookup?_eq_names, ← aligned.names, ← lawful.get?_eq, Registry.lookup?]
  cases found : Interner.get? name t.names with
  | none => rfl
  | some number => exact aligned.symbol_of_get? lawful found

theorem refines_intern (name : String) :
    Refines (intern name : Registry R F → Value F × Registry R F) (Store.intern name) := by
  intro t aligned
  have looked := aligned.lookup? lawful name
  cases found : Interner.get? name t.names with
  | some number =>
      obtain ⟨same, kept⟩ := lawful.known found
      have here := aligned.symbol_of_get? lawful found
      have entered : t.store.intern name = (.symbol (.interned number), t.store) := by
        apply Store.intern_of_lookup?
        rw [← looked, Registry.lookup?, found]
        exact here
      have answer : t.intern name =
          (.symbol (.interned number), { t with names := (Interner.getOrIntern name t.names).2 }) := by
        simp only [intern, same, here]
      rw [answer, entered]
      exact ⟨rfl, rfl, kept.trans aligned.names, aligned.row⟩
  | none =>
      obtain ⟨last, added⟩ := lawful.new found
      have beyond : t.symbols[(Interner.strings t.names).length]? = none := by
        simp [aligned.symbol?, aligned.names]
      have entered : t.store.intern name = t.store.enter name := by
        have missing : t.store.lookup? name = none := by
          rw [← looked, Registry.lookup?, found]
          rfl
        simp only [Store.intern, missing, Store.enter]
      have answer : t.intern name = ((t.store.enter name).1,
          ⟨(Interner.getOrIntern name t.names).2, t.symbols.push (t.store.enter name).1,
            (t.store.enter name).2⟩) := by
        simp only [intern, last, beyond]
      have names : (t.store.enter name).2.names = t.store.names ++ [name] := by
        simp [Store.enter, Store.names]
      rw [answer, entered]
      refine ⟨rfl, rfl, ?_, ?_⟩
      · rw [added, aligned.names, names]
      · simp [aligned.row, List.range_succ, Store.enter, Store.names]

theorem internAll_refines (aligned : t.Aligned) (names : List String) :
    (t.internAll names).store = t.store.internAll names ∧ (t.internAll names).Aligned := by
  induction names generalizing t with
  | nil => exact ⟨rfl, aligned⟩
  | cons name names ih =>
      obtain ⟨-, store, still⟩ := refines_intern lawful name t aligned
      have rest := ih still
      rwa [store] at rest

theorem setGlobal_refines (aligned : t.Aligned) (name : String) (value : Value F) :
    (t.setGlobal name value).store = t.store.setGlobal name value ∧
      (t.setGlobal name value).Aligned := by
  obtain ⟨symbol, store, still⟩ := refines_intern lawful name t aligned
  have same : (t.intern name).2.store.setSymbolValue (t.intern name).1 value =
      (t.store.intern name).2.setSymbolValue (t.store.intern name).1 value := by rw [symbol, store]
  exact ⟨same, still.withStore (Store.names_setSymbolValue _ value _)⟩

theorem refines_loadAtom (a : Atom) :
    Refines (fun t : Registry R F => t.loadAtom a) (fun s => s.loadAtom a) := by
  cases a with
  | symbol name => exact refines_intern lawful name
  | nil | bool | number | string | native | dictionary | eof => exact refines_onStore fun _ => rfl

theorem refines_load (d : Datum) :
    Refines (fun t : Registry R F => t.load d) (fun s => s.load d) := by
  induction d with
  | atom a => exact refines_loadAtom lawful a
  | cons car cdr carLoads cdrLoads =>
      exact carLoads.andThen fun first => cdrLoads.andThen fun second => refines_onStore fun _ => rfl

theorem refines_loadAll (data : List Datum) :
    Refines (fun t : Registry R F => t.loadAll data) (fun s => s.loadAll data) := by
  induction data with
  | nil => exact refines_pure []
  | cons d rest ih =>
      exact (refines_load lawful d).andThen fun v => ih.andThen fun vs => refines_pure (v :: vs)

theorem refines_loadReading {load : Registry R F → α → β × Registry R F}
    {other : Store F → α → β × Store F} (loads : ∀ a, Refines (load · a) (other · a))
    (r : Reading α) : Refines (fun t => t.loadReading load r) (fun s => s.loadReading other r) := by
  intro t aligned
  obtain ⟨store, still⟩ := internAll_refines lawful aligned r.names
  unfold loadReading Store.loadReading
  cases r.result with
  | error e => exact ⟨rfl, store, still⟩
  | ok a =>
      obtain ⟨answer, loaded, whole⟩ := loads a (t.internAll r.names) still
      rw [store] at answer loaded
      exact ⟨congrArg Except.ok answer, loaded, whole⟩

theorem refines_read (text : String) :
    Refines (fun t : Registry R F => t.read text) (fun s => s.read text) :=
  refines_loadReading lawful (refines_load lawful) _

theorem refines_readMany (text : String) :
    Refines (fun t : Registry R F => t.readMany text) (fun s => s.readMany text) :=
  refines_loadReading lawful (refines_loadAll lawful) _

end Registry

/-- What can be asked of a machine that has no functions of a host. -/
inductive Operation where
  | read (text : String)
  | readMany (text : String)
  | symbolRef (name : String)
  | lookup (name : String)
  | setGlobal (name : String) (value : Value Empty)
  | call (name : String)
  | eval (expr env : Value Empty)
  | apply (fn args env : Value Empty)
  | clearValues

namespace Operation

/-- Do what is asked for, and give the values that are the answer. -/
def perform : Operation → Action Empty Unit (List (Value Empty))
  | read text => do
      match ← Action.alter (·.read text) with
      | .ok v => return [v]
      | .error _ => return []
  | readMany text => do
      match ← Action.alter (·.readMany text) with
      | .ok values => return values
      | .error _ => return []
  | symbolRef name => return [← Action.alter (·.intern name)]
  | lookup name => Action.ask fun s => (s.lookup? name).toList
  | setGlobal name value => do
      Action.update (·.setGlobal name value)
      return []
  | call name => return [← Host.none.callGlobal name]
  | eval expr env => return [← Host.none.eval expr env]
  | apply fn args env => return [← Host.none.apply fn args env]
  | clearValues => do
      Action.update Store.clearValues
      return []

def performAll : List Operation → Action Empty Unit Unit
  | [] => return
  | op :: rest => do
      let _ ← op.perform
      performAll rest

/-- The names that are asked of the symbol table. -/
def asked : Operation → List String
  | read text => (SmallLisp.read text).names
  | readMany text => (SmallLisp.readMany text).names
  | symbolRef name | setGlobal name _ | call name => [name]
  | lookup _ | eval _ _ | apply _ _ _ | clearValues => []

variable {m m' : Machine Empty Unit} {known : List String} {answer : List (Value Empty)}

theorem perform_read (text : String) (m : Machine Empty Unit) :
    ∃ answer, (read text).perform m = some (answer, ⟨(m.store.read text).2, m.host⟩) := by
  rw [perform, Action.run_bind, Action.run_alter, Option.bind_some]
  cases (m.store.read text).1 <;> exact ⟨_, rfl⟩

theorem perform_readMany (text : String) (m : Machine Empty Unit) :
    ∃ answer, (readMany text).perform m = some (answer, ⟨(m.store.readMany text).2, m.host⟩) := by
  rw [perform, Action.run_bind, Action.run_alter, Option.bind_some]
  cases (m.store.readMany text).1 <;> exact ⟨_, rfl⟩

/-- An operation adds its names to those that the table lists. -/
theorem perform_lists {op : Operation} (lists : m.store.Lists known)
    (done : op.perform m = some (answer, m')) : m'.store.Lists (known ++ op.asked) := by
  cases op with
  | read text =>
      obtain ⟨_, same⟩ := perform_read text m
      cases same.symm.trans done
      exact (lists.internAll _).of_names (Store.read_sameSymbols text m.store).names
  | readMany text =>
      obtain ⟨_, same⟩ := perform_readMany text m
      cases same.symm.trans done
      exact (lists.internAll _).of_names (Store.readMany_sameSymbols text m.store).names
  | symbolRef name =>
      cases done
      exact lists.intern name
  | lookup name =>
      cases done
      rwa [asked, List.append_nil]
  | setGlobal name value =>
      cases done
      exact lists.setGlobal name value
  | call name =>
      obtain ⟨v, last, called, ended⟩ := Action.exists_of_bind done
      cases ended
      exact (lists.intern name).of_names (Host.names_callGlobal called)
  | eval expr env =>
      obtain ⟨v, last, evaluated, ended⟩ := Action.exists_of_bind done
      cases ended
      rw [asked, List.append_nil]
      exact lists.of_names (Host.names_eval evaluated)
  | apply fn args env =>
      obtain ⟨v, last, applied, ended⟩ := Action.exists_of_bind done
      cases ended
      rw [asked, List.append_nil]
      exact lists.of_names (Host.names_apply applied)
  | clearValues =>
      cases done
      rw [asked, List.append_nil]
      exact lists.of_names (Store.names_clearValues m.store)

theorem performAll_lists {operations : List Operation} (lists : m.store.Lists known)
    (done : performAll operations m = some ((), m')) :
    m'.store.Lists (known ++ operations.flatMap Operation.asked) := by
  induction operations generalizing m known with
  | nil =>
      cases done
      rwa [List.flatMap_nil, List.append_nil]
  | cons op rest ih =>
      obtain ⟨answer, between, first, later⟩ := Action.exists_of_bind done
      have lists := ih (perform_lists lists first) later
      rwa [List.append_assoc] at lists

/-- A name keeps its symbol. -/
theorem performAll_lookup? {operations : List Operation} {name : String} {v : Value Empty}
    (lists : m.store.Lists known) (found : m.store.lookup? name = some v)
    (done : performAll operations m = some ((), m')) : m'.store.lookup? name = some v := by
  have later := performAll_lists lists done
  obtain ⟨i, -, rfl⟩ := Option.map_eq_some_iff.mp found
  have here := lists.lookup?_iff.mp found
  obtain ⟨added, same⟩ := lists.grows later
  rw [later.lookup?_iff, ← same, List.getElem?_append_left (List.getElem?_eq_some_iff.mp here).1]
  exact here

end Operation

namespace Registry

variable {R F α β : Type} {t : Registry R Empty} {operations : List Operation}

/-- What is done to a registry; it has no result when it never ends. -/
abbrev Act (R : Type) := StateT (Registry R Empty) Option

/-- Let the machine work, which does not know of the two parts. -/
def run (action : Action Empty Unit α) : Act R α := fun t =>
  (action ⟨t.store, ()⟩).map fun r => (r.1, { t with store := r.2.store })

variable [Interner R]

def perform : Operation → Act R (List (Value Empty))
  | .read text => do
      match ← modifyGet (read text) with
      | .ok v => return [v]
      | .error _ => return []
  | .readMany text => do
      match ← modifyGet (readMany text) with
      | .ok values => return values
      | .error _ => return []
  | .symbolRef name => return [← modifyGet (intern name)]
  | .lookup name => return ((← get).lookup? name).toList
  | .setGlobal name value => do
      modify (setGlobal name value)
      return []
  | .call name => do
      let symbol ← modifyGet (intern name)
      return [← run do Host.none.apply (← Action.walk (·.value? symbol .nil)) .nil .nil]
  | .eval expr env => return [← run (Host.none.eval expr env)]
  | .apply fn args env => return [← run (Host.none.apply fn args env)]
  | .clearValues => do
      modify clearValues
      return []

def performAll : List Operation → Act R Unit
  | [] => return
  | op :: rest => do
      let _ ← perform op
      performAll rest

/-- What is done to the registry is what is done to the machine, and keeps the parts together. -/
def Follows (x : Act R α) (y : Action Empty Unit α) : Prop :=
  ∀ t, t.Aligned → Option.Rel (fun r m => r.1 = m.1 ∧ r.2.store = m.2.store ∧ r.2.Aligned)
    (x t) (y ⟨t.store, ()⟩)

theorem follows_pure (a : α) : Follows (pure a : Act R α) (pure a) :=
  fun _ aligned => .some ⟨rfl, rfl, aligned⟩

theorem Follows.bind {x : Act R α} {y : Action Empty Unit α} {f : α → Act R β}
    {g : α → Action Empty Unit β} (first : Follows x y) (rest : ∀ a, Follows (f a) (g a)) :
    Follows (x >>= f) (y >>= g) := by
  intro t aligned
  have runs : (x >>= f) t = (x t).bind fun r => f r.1 r.2 := rfl
  rw [runs, Action.run_bind]
  apply rel_bind (first t aligned)
  rintro r ⟨a, ⟨s, ⟨⟩⟩⟩ ⟨rfl, rfl, still⟩
  exact rest _ _ still

theorem Refines.follows {f : Registry R Empty → α × Registry R Empty}
    {g : Store Empty → α × Store Empty} (refines : Refines f g) :
    Follows (modifyGet f) (Action.alter g) :=
  fun t aligned => .some (refines t aligned)

theorem follows_run {action : Action Empty Unit α}
    (kept : ∀ m a m', action m = some (a, m') → m'.store.names = m.store.names) :
    Follows (run action : Act R α) action := by
  intro t aligned
  rw [run]
  cases done : action ⟨t.store, ()⟩ with
  | none => exact .none
  | some r => exact .some ⟨rfl, rfl, aligned.withStore (kept _ r.1 r.2 done)⟩

omit [Interner R] in
theorem foldl_setSymbolValue (places : List Nat) (s : Store F) :
    places.foldl (fun s i => s.setSymbolValue (.symbol (.interned i)) .nil) s =
      { s with interned := places.foldl (fun cells i => cells.modify i fun cell =>
          { cell with value := .nil }) s.interned } := by
  induction places generalizing s with
  | nil => rfl
  | cons i places ih => exact ih _

omit [Interner R] in
theorem getElem?_foldl_modify (cells : Array (SymbolCell F)) (n i : Nat) :
    ((List.range n).foldl (fun cells i => cells.modify i fun cell =>
        { cell with value := .nil }) cells)[i]? =
      cells[i]?.map fun cell => if i < n then { cell with value := .nil } else cell := by
  induction n with
  | zero => simp
  | succ n ih =>
      rw [List.range_succ, List.foldl_append, List.foldl_cons, List.foldl_nil,
        Array.getElem?_modify, ih]
      cases cells[i]? with
      | none => simp
      | some cell =>
          by_cases here : n = i
          · simp [here]
          · have apart : i < n + 1 ↔ i < n := by omega
            simp [here, apart]

/-- Going through the row empties every slot of the table. -/
theorem Aligned.clearValues {t : Registry R F} (aligned : t.Aligned) :
    t.clearValues.store = t.store.clearValues ∧ t.clearValues.Aligned := by
  have size : t.store.names.length = t.store.interned.size := by simp [Store.names]
  have cells : (List.range t.store.interned.size).foldl (fun cells i => cells.modify i fun cell =>
      { cell with value := .nil }) t.store.interned = t.store.clearValues.interned := by
    apply Array.ext_getElem?
    intro i
    rw [getElem?_foldl_modify, Store.clearValues, Array.getElem?_map]
    cases found : t.store.interned[i]? with
    | none => rfl
    | some cell => simp [(Array.getElem?_eq_some_iff.mp found).1]
  have store : t.clearValues.store = t.store.clearValues := by
    simp only [Registry.clearValues, aligned.row, size, List.foldl_map, foldl_setSymbolValue, cells]
    rfl
  refine ⟨store, aligned.withStore ?_⟩
  rw [← Store.names_clearValues t.store, ← store]
  rfl

variable (lawful : Interner.Lawful R)

include lawful

theorem perform_follows (op : Operation) : Follows (perform op : Act R _) op.perform := by
  cases op with
  | read text =>
      refine (refines_read lawful text).follows.bind fun result => ?_
      cases result <;> exact follows_pure _
  | readMany text =>
      refine (refines_readMany lawful text).follows.bind fun result => ?_
      cases result <;> exact follows_pure _
  | symbolRef name => exact (refines_intern lawful name).follows.bind fun _ => follows_pure _
  | lookup name =>
      intro t aligned
      exact .some ⟨congrArg Option.toList (aligned.lookup? lawful name), rfl, aligned⟩
  | setGlobal name value =>
      intro t aligned
      exact .some ⟨rfl, setGlobal_refines lawful aligned name value⟩
  | call name =>
      have same : (Operation.call name).perform = (do
          let symbol ← Action.alter (·.intern name)
          return [← do Host.none.apply (← Action.walk (·.value? symbol .nil)) .nil .nil]) := by
        simp [Operation.perform, Host.callGlobal]
      rw [same]
      refine (refines_intern lawful name).follows.bind fun symbol => ?_
      refine (follows_run fun m v m' done => ?_).bind fun _ => follows_pure _
      obtain ⟨fn, looked, walked, applied⟩ := Action.exists_of_bind done
      cases Action.Reads.walk _ _ _ _ walked
      exact Host.names_apply applied
  | eval expr env =>
      exact (follows_run fun _ _ _ => Host.names_eval).bind fun _ => follows_pure _
  | apply fn args env =>
      exact (follows_run fun _ _ _ => Host.names_apply).bind fun _ => follows_pure _
  | clearValues =>
      intro t aligned
      exact .some ⟨rfl, aligned.clearValues⟩

/-- A session with the two parts goes as the session with the one table. -/
theorem performAll_follows (operations : List Operation) :
    Follows (performAll operations : Act R Unit) (Operation.performAll operations) := by
  induction operations with
  | nil => exact follows_pure ()
  | cons op rest ih => exact (perform_follows lawful op).bind fun _ => ih

theorem empty_aligned (orders : Nat → KeyOrder) : (empty orders : Registry R F).Aligned :=
  ⟨lawful.strings_fresh, rfl⟩

/-- The two parts belong together and list the names that were asked for. -/
structure Lists (t : Registry R F) (asked : List String) : Prop where
  aligned : t.Aligned
  lists : t.store.Lists asked

theorem bare_lists (orders : Nat → KeyOrder) :
    (bare orders : Registry R F).Lists (Special.all.map Special.name) := by
  have aligned := empty_aligned (F := F) lawful orders
  have lists : (empty orders : Registry R F).store.Lists [] := rfl
  obtain ⟨store, still⟩ := internAll_refines lawful aligned (Special.all.map Special.name)
  exact ⟨still, store ▸ lists.internAll _⟩

theorem Lists.setGlobal {t : Registry R F} {known : List String} (lists : t.Lists known)
    (name : String) (v : Value F) : (t.setGlobal name v).Lists (known ++ [name]) := by
  obtain ⟨store, still⟩ := setGlobal_refines lawful lists.aligned name v
  exact ⟨still, store ▸ lists.lists.setGlobal name v⟩

theorem Lists.setBuiltins {t : Registry R F} {known : List String} (lists : t.Lists known)
    (builtins : List Builtin) :
    (builtins.foldl (fun t b => t.setGlobal b.name (.native (.builtin b))) t).Lists
      (known ++ builtins.map Builtin.name) := by
  induction builtins generalizing t known with
  | nil => rwa [List.map_nil, List.append_nil]
  | cons b rest ih =>
      have later := ih (lists.setGlobal lawful b.name (.native (.builtin b)))
      rwa [List.append_assoc] at later

theorem standard_lists (orders : Nat → KeyOrder) :
    ∃ known, (standard orders : Registry R F).Lists known := by
  have built := (bare_lists (F := F) lawful orders).setBuiltins lawful Builtin.all
  exact ⟨_, built.setGlobal lawful "pi" (.number 3.141592653589793)⟩

omit lawful in
/-- What was done to the registry was done to the machine. -/
theorem Follows.done {x : Act R α} {y : Action Empty Unit α} {t' : Registry R Empty} {a : α}
    (follows : Follows x y) (aligned : t.Aligned) (done : x t = some (a, t')) :
    y ⟨t.store, ()⟩ = some (a, ⟨t'.store, ()⟩) ∧ t'.Aligned := by
  have related := follows t aligned
  rw [done] at related
  generalize y ⟨t.store, ()⟩ = m at related ⊢
  cases related with
  | @some _ m related =>
      obtain ⟨b, ⟨s, ⟨⟩⟩⟩ := m
      obtain ⟨rfl, rfl, still⟩ := related
      exact ⟨rfl, still⟩

theorem perform_lists {known : List String} {t' : Registry R Empty} {op : Operation}
    {answer : List (Value Empty)} (lists : t.Lists known) (done : perform op t = some (answer, t')) :
    t'.Lists (known ++ op.asked) := by
  obtain ⟨same, still⟩ := (perform_follows lawful op).done lists.aligned done
  exact ⟨still, Operation.perform_lists lists.lists same⟩

theorem performAll_lists {known : List String} {t' : Registry R Empty} (lists : t.Lists known)
    (done : performAll operations t = some ((), t')) :
    t'.Lists (known ++ operations.flatMap Operation.asked) := by
  obtain ⟨same, still⟩ := (performAll_follows lawful operations).done lists.aligned done
  exact ⟨still, Operation.performAll_lists lists.lists same⟩

omit lawful in
theorem perform_symbolRef (name : String) (t : Registry R Empty) :
    perform (.symbolRef name) t = some ([(t.intern name).1], (t.intern name).2) := rfl

/-- A name that was asked for keeps its symbol, and asking for it again changes nothing. -/
theorem symbolRef_again {known : List String} {name : String} {v : Value Empty}
    {t₁ t₂ : Registry R Empty} (lists : t.Lists known)
    (first : perform (.symbolRef name) t = some ([v], t₁))
    (later : performAll operations t₁ = some ((), t₂)) :
    ∃ t₃, perform (.symbolRef name) t₂ = some ([v], t₃) ∧
      Interner.strings t₃.names = Interner.strings t₂.names ∧ t₃.symbols = t₂.symbols ∧
      t₃.store = t₂.store := by
  have entered := perform_lists lawful lists first
  obtain ⟨answer, store, -⟩ := refines_intern lawful name t lists.aligned
  rw [perform_symbolRef, Option.some.injEq, Prod.mk.injEq, List.cons.injEq] at first
  obtain ⟨⟨rfl, -⟩, rfl⟩ := first
  have found : (t.intern name).2.store.lookup? name = some (t.intern name).1 := by
    rw [answer, store, Store.lookup?_intern]
  obtain ⟨same, still⟩ := (performAll_follows lawful operations).done entered.aligned later
  have kept : t₂.store.lookup? name = some (t.intern name).1 :=
    Operation.performAll_lookup? entered.lists found same
  obtain ⟨again, unchanged, last⟩ := refines_intern lawful name t₂ still
  rw [Store.intern_of_lookup? kept] at again unchanged
  refine ⟨(t₂.intern name).2, ?_, ?_, still.symbols_eq last (congrArg Store.names unchanged),
    unchanged⟩
  · rw [perform_symbolRef, again]
  · rw [last.names, still.names, unchanged]

/-- Over a whole session the interner and the row of symbols stay together: they list the names that
    were asked for, each once and in the order of the first requests, and every name keeps its
    symbol. -/
theorem symbols_in_order {orders : Nat → KeyOrder} {start : Registry R Empty}
    (origin : start = bare orders ∨ start = standard orders)
    (done : performAll operations start = some ((), t)) :
    Interner.strings t.names =
      (Interner.strings start.names ++ operations.flatMap Operation.asked).eraseDups ∧
    (Interner.strings t.names).Nodup ∧
    -- The symbol at a number has the name of that number, and is what the name is looked up as.
    (∀ i : Nat, (Interner.strings t.names)[i]? = (t.symbols[i]?).map t.store.symbolName) ∧
    (∀ name v, t.lookup? name = some v ↔
      ∃ i : Nat, (Interner.strings t.names)[i]? = some name ∧ t.symbols[i]? = some v) ∧
    -- Two symbols of the table are the same where their names are.
    (∀ v ∈ t.symbols, ∀ w ∈ t.symbols,
      (v.same w = true ↔ t.store.symbolName v = t.store.symbolName w)) ∧
    -- A name is found where it was asked for before.
    (∀ name, (t.lookup? name).isSome ↔
      name ∈ Interner.strings start.names ∨ ∃ op ∈ operations, name ∈ op.asked) ∧
    -- Both parts only grow at their end.
    (∀ more t', performAll more t = some ((), t') →
      Interner.strings t.names <+: Interner.strings t'.names ∧
        t.symbols.toList <+: t'.symbols.toList) ∧
    -- What a name gives once it always gives.
    (∀ name v t₁ more t₂, perform (.symbolRef name) t = some ([v], t₁) →
      performAll more t₁ = some ((), t₂) → ∃ t₃, perform (.symbolRef name) t₂ = some ([v], t₃) ∧
        Interner.strings t₃.names = Interner.strings t₂.names ∧ t₃.symbols = t₂.symbols ∧
        t₃.store = t₂.store) ∧
    -- Looking up, evaluating, applying and clearing enter nothing.
    (∀ (op : Operation) answer t', op.asked = [] → perform op t = some (answer, t') →
      Interner.strings t'.names = Interner.strings t.names ∧ t'.symbols = t.symbols) ∧
    -- Reading changes no slot, even where it fails.
    (∀ text v, (t.read text).2.store.symbolValue v = t.store.symbolValue v ∧
      (t.readMany text).2.store.symbolValue v = t.store.symbolValue v) := by
  obtain ⟨known, begun⟩ : ∃ known, start.Lists known := by
    rcases origin with same | same
    · rw [same]
      exact ⟨_, bare_lists lawful orders⟩
    · rw [same]
      exact standard_lists lawful orders
  have lists := performAll_lists lawful ⟨begun.aligned, begun.lists.itself⟩ done
  have aligned := lists.aligned
  have names := aligned.names
  refine ⟨?_, ?_, fun i => ?_, fun name v => ?_, fun v first w second => ?_, fun name => ?_,
    fun more t' later => ?_, fun name v t₁ more t₂ first later => ?_, fun op answer t' none performed => ?_,
    fun text v => ?_⟩
  · rw [names, begun.aligned.names]
    exact lists.lists
  · rw [names]
    exact lists.lists.nodup
  · rw [names, aligned.symbol?, Option.map_map]
    cases here : t.store.names[i]? with
    | none => rfl
    | some name => exact congrArg some (Store.symbolName_of_getElem? here).symm
  · rw [aligned.lookup? lawful, names]
    constructor
    · intro found
      obtain ⟨i, -, rfl⟩ := Option.map_eq_some_iff.mp found
      have here := lists.lists.lookup?_iff.mp found
      exact ⟨i, here, by rw [aligned.symbol?, here, Option.map_some]⟩
    · rintro ⟨i, here, there⟩
      rw [aligned.symbol?, here] at there
      cases there
      exact lists.lists.lookup?_iff.mpr here
  · obtain ⟨i, before, rfl⟩ := aligned.mem_symbols first
    obtain ⟨j, inside, rfl⟩ := aligned.mem_symbols second
    rw [lists.lists.symbolName_inj before inside]
    simp [Value.same]
  · rw [aligned.lookup? lawful, Store.isSome_lookup?, lists.lists.mem_names, List.mem_append,
      List.mem_flatMap, begun.aligned.names]
  · have next := performAll_lists lawful lists later
    have grown := lists.lists.grows next.lists
    rw [names, next.aligned.names]
    exact ⟨grown, aligned.symbols_prefix next.aligned grown⟩
  · exact symbolRef_again lawful lists first later
  · have next := perform_lists lawful lists performed
    have same : t'.store.names = t.store.names := by
      have later := next.lists
      rw [none, List.append_nil] at later
      exact later.trans lists.lists.symm
    exact ⟨by rw [names, next.aligned.names, same], aligned.symbols_eq next.aligned same⟩
  · rw [(refines_read lawful text t aligned).2.1, (refines_readMany lawful text t aligned).2.1]
    exact ⟨Store.symbolValue_read text t.store v, Store.symbolValue_readMany text t.store v⟩

end Registry

/-- Names in a row are an interner. -/
instance : Interner (List String) where
  fresh := []
  get? name names := names.findIdx? (· == name)
  getOrIntern name names :=
    match names.findIdx? (· == name) with
    | some number => (number, names)
    | none => (names.length, names ++ [name])
  strings := id

theorem Interner.list_lawful : Interner.Lawful (List String) where
  strings_fresh := rfl
  get?_eq _ _ := rfl
  known {name names number} found := by
    have here : names.findIdx? (· == name) = some number := found
    simp [getOrIntern, strings, here]
  new {name names} missing := by
    have absent : names.findIdx? (· == name) = none := missing
    simp [getOrIntern, strings, absent]

namespace Registry

/-- A reading that fails, a name asked for twice, an evaluation and a call. -/
def interrupted : List Operation :=
  [.read "(def x '(a b \"open", .symbolRef "b", .setGlobal "c" (.bool true),
    .eval (.symbol (.interned 7)) .nil, .clearValues, .call "d"]

/-- A machine with names in a row. -/
def beginning : Registry (List String) Empty :=
  standard fun _ => .oldestFirst

theorem interrupted_ends : (performAll interrupted beginning).isSome := by
  decide +kernel

theorem symbols_in_order_interrupted :
    Interner.Lawful (List String) ∧
    ∃ t, performAll interrupted beginning = some ((), t) ∧
      Interner.strings t.names = Interner.strings beginning.names ++ ["x", "a", "b", "c", "d"] ∧
      (t.lookup? "b").isSome ∧ ¬ (t.lookup? "open").isSome := by
  obtain ⟨⟨⟨⟩, t⟩, done⟩ := Option.isSome_iff_exists.mp interrupted_ends
  obtain ⟨names, -, -, -, -, known, -⟩ := symbols_in_order Interner.list_lawful (.inr rfl) done
  refine ⟨Interner.list_lawful, t, done, names.trans (by decide +kernel), (known "b").mpr ?_,
    mt (known "open").mp ?_⟩
  · decide +kernel
  · decide +kernel

end Registry

end SmallLisp
