import SmallLisp.Proofs.Evaluation.Forms
import SmallLisp.Proofs.Reading.Names

/-! # Names of symbols

The symbol table lists the names that were asked of it, each at the place where it was asked for first.
It only grows at its end, and a name keeps its symbol. Reading asks for the names that it meets, and the
data that are then put into the store need no further one. Evaluation asks for none.
-/

namespace SmallLisp

theorem eraseDups_concat (names : List String) (name : String) :
    (names ++ [name]).eraseDups =
      if name ∈ names then names.eraseDups else names.eraseDups ++ [name] := by
  rw [List.eraseDups_append]
  split
  · next known => simp [List.removeAll, known]
  · next new => simp [List.removeAll, new, List.eraseDups_cons]

theorem nodup_eraseDups (names : List String) : names.eraseDups.Nodup := by
  induction names using List.reverseRecOn with
  | nil => exact List.nodup_nil
  | append_singleton names name ih =>
      rw [eraseDups_concat]
      split
      · exact ih
      · next new =>
          rw [← List.concat_eq_append]
          exact ih.concat (mt List.mem_eraseDups.mp new)

theorem eraseDups_of_nodup {names : List String} (nodup : names.Nodup) : names.eraseDups = names := by
  induction names using List.reverseRecOn with
  | nil => rfl
  | append_singleton names name ih =>
      obtain ⟨before, -, apart⟩ := List.nodup_append.mp nodup
      have new : name ∉ names := fun among => apart name among name (List.mem_singleton_self name) rfl
      rw [eraseDups_concat, if_neg new, ih before]

namespace Store

variable {F : Type} {s t u : Store F} {v : Value F} {name : String} {asked : List String}

theorem isSome_lookup? : (s.lookup? name).isSome ↔ name ∈ s.names := by
  simp [lookup?_eq_names]

theorem intern_of_lookup? (found : s.lookup? name = some v) : s.intern name = (v, s) := by
  simp only [intern, found]

theorem intern_of_mem (known : name ∈ s.names) : (s.intern name).2 = s := by
  obtain ⟨v, found⟩ := Option.isSome_iff_exists.mp (isSome_lookup?.mpr known)
  rw [intern_of_lookup? found]

theorem names_intern_of_notMem (new : name ∉ s.names) :
    (s.intern name).2.names = s.names ++ [name] := by
  have missing : s.lookup? name = none := by
    rw [← Option.not_isSome_iff_eq_none, isSome_lookup?]
    exact new
  simp only [intern, missing, Store.names, Array.toList_push, List.map_append, List.map_cons,
    List.map_nil]

theorem names_clearValues (s : Store F) : s.clearValues.names = s.names := by
  simp [clearValues, Store.names, Function.comp_def]

theorem symbolName_of_getElem? {i : Nat} (here : s.names[i]? = some name) :
    s.symbolName (.symbol (.interned i)) = name := by
  rw [Store.names, List.getElem?_map, Array.getElem?_toList] at here
  obtain ⟨symbol, found, rfl⟩ := Option.map_eq_some_iff.mp here
  simp only [symbolName, symbol?, found]

/-- Where no name stands twice, the symbol at a place is the one that its name is looked up as. -/
theorem lookup?_of_getElem? {i : Nat} (nodup : s.names.Nodup) (here : s.names[i]? = some name) :
    s.lookup? name = some (.symbol (.interned i)) := by
  obtain ⟨inside, rfl⟩ := List.getElem?_eq_some_iff.mp here
  have first : s.names.findIdx? (· == s.names[i]) = some i := by
    refine List.findIdx?_eq_some_iff_getElem.mpr ⟨inside, beq_self_eq_true _, ?_⟩
    intro j before same
    have places := (nodup.getElem_inj_iff).mp (beq_iff_eq.mp same)
    omega
  rw [lookup?_eq_names, first]
  rfl

theorem names_intern_congr (same : s.names = t.names) (name : String) :
    (s.intern name).2.names = (t.intern name).2.names := by
  by_cases known : name ∈ t.names
  · rw [intern_of_mem known, intern_of_mem (same ▸ known), same]
  · rw [names_intern_of_notMem known, names_intern_of_notMem (same ▸ known), same]

theorem names_internAll_congr (same : s.names = t.names) (names : List String) :
    (s.internAll names).names = (t.internAll names).names := by
  induction names generalizing s t with
  | nil => exact same
  | cons name names ih => exact ih (names_intern_congr same name)

/-- The table lists the names that were asked for, each where it was asked for first. -/
def Lists (s : Store F) (asked : List String) : Prop :=
  s.names = asked.eraseDups

namespace Lists

theorem of_names (lists : s.Lists asked) (same : t.names = s.names) : t.Lists asked :=
  same.trans lists

theorem mem_names (lists : s.Lists asked) : name ∈ s.names ↔ name ∈ asked := by
  rw [lists, List.mem_eraseDups]

theorem nodup (lists : s.Lists asked) : s.names.Nodup := by
  rw [lists]
  exact nodup_eraseDups asked

/-- The table lists the names that it has. -/
theorem itself (lists : s.Lists asked) : s.Lists s.names :=
  (eraseDups_of_nodup lists.nodup).symm

theorem intern (lists : s.Lists asked) (name : String) :
    (s.intern name).2.Lists (asked ++ [name]) := by
  by_cases known : name ∈ s.names
  · rw [intern_of_mem known, Lists, eraseDups_concat, if_pos (lists.mem_names.mp known)]
    exact lists
  · rw [Lists, names_intern_of_notMem known, eraseDups_concat, if_neg (mt lists.mem_names.mpr known),
      lists]

theorem internAll (lists : s.Lists asked) (names : List String) :
    (s.internAll names).Lists (asked ++ names) := by
  induction names generalizing s asked with
  | nil => rwa [List.append_nil]
  | cons name names ih =>
      have rest := ih (lists.intern name)
      rwa [List.append_assoc] at rest

theorem setGlobal (lists : s.Lists asked) (name : String) (v : Value F) :
    (s.setGlobal name v).Lists (asked ++ [name]) :=
  (lists.intern name).of_names (names_setSymbolValue _ v _)

/-- What is asked for later comes behind. -/
theorem grows {more : List String} (lists : s.Lists asked) (later : t.Lists (asked ++ more)) :
    s.names <+: t.names := by
  rw [lists, later, List.eraseDups_append]
  exact List.prefix_append _ _

theorem lookup?_iff {i : Nat} (lists : s.Lists asked) :
    s.lookup? name = some (.symbol (.interned i)) ↔ s.names[i]? = some name := by
  refine ⟨fun found => ?_, lookup?_of_getElem? lists.nodup⟩
  rw [lookup?_eq_names] at found
  obtain ⟨j, first, same⟩ := Option.map_eq_some_iff.mp found
  cases same
  obtain ⟨inside, named, -⟩ := List.findIdx?_eq_some_iff_getElem.mp first
  rw [List.getElem?_eq_getElem inside, beq_iff_eq.mp named]

theorem symbolName_inj {i j : Nat} (lists : s.Lists asked) (first : i < s.names.length)
    (second : j < s.names.length) :
    s.symbolName (.symbol (.interned i)) = s.symbolName (.symbol (.interned j)) ↔ i = j := by
  rw [symbolName_of_getElem? (List.getElem?_eq_getElem first),
    symbolName_of_getElem? (List.getElem?_eq_getElem second), lists.nodup.getElem_inj_iff]

end Lists

/-- The two stores have the same symbols, with the same values. -/
structure SameSymbols (s t : Store F) : Prop where
  interned : t.interned = s.interned
  loose : t.loose = s.loose

namespace SameSymbols

theorem refl (s : Store F) : s.SameSymbols s :=
  ⟨rfl, rfl⟩

theorem trans (first : s.SameSymbols t) (second : t.SameSymbols u) : s.SameSymbols u :=
  ⟨second.interned.trans first.interned, second.loose.trans first.loose⟩

theorem names (same : s.SameSymbols t) : t.names = s.names := by
  rw [Store.names, same.interned, Store.names]

end SameSymbols

theorem loadAtom_sameSymbols {a : Atom} (known : a.Among s.names) :
    s.SameSymbols (s.loadAtom a).2 := by
  cases a with
  | symbol name =>
      rw [loadAtom, intern_of_mem known]
      exact .refl s
  | nil | bool | number | string | native | dictionary | eof => exact .refl s

/-- Loading enters no symbol where the table has them all. -/
theorem load_sameSymbols {d : Datum} (known : d.Among s.names) : s.SameSymbols (s.load d).2 := by
  induction d generalizing s with
  | atom a => exact loadAtom_sameSymbols known
  | cons car cdr carSame cdrSame =>
      have first := carSame known.1
      have second : (s.load car).2.SameSymbols ((s.load car).2.load cdr).2 := by
        apply cdrSame
        rw [first.names]
        exact known.2
      have both := first.trans second
      exact ⟨both.interned, both.loose⟩

theorem loadAll_sameSymbols {forms : List Datum} (known : ∀ d ∈ forms, d.Among s.names) :
    s.SameSymbols (s.loadAll forms).2 := by
  induction forms generalizing s with
  | nil => exact .refl s
  | cons d rest ih =>
      obtain ⟨here, others⟩ := List.forall_mem_cons.mp known
      have first := load_sameSymbols here
      apply first.trans
      apply ih
      rw [first.names]
      exact others

theorem subset_names_internAll (names : List String) (s : Store F) :
    names ⊆ (s.internAll names).names := by
  induction names generalizing s with
  | nil => exact List.nil_subset _
  | cons name names ih =>
      refine List.cons_subset.mpr ⟨?_, ih (s.intern name).2⟩
      have later := internAll_grows names (s.intern name).2
      rw [← isSome_lookup?]
      exact Option.isSome_of_mem (later.lookup? (s.lookup?_intern name))

/-- Reading enters the names that it met; what it loads then enters no other. -/
theorem loadReading_sameSymbols {α β : Type} {load : Store F → α → β × Store F} {r : Reading α}
    (loads : ∀ {t : Store F} {a}, r.result = .ok a → r.names ⊆ t.names →
      t.SameSymbols (load t a).2) (s : Store F) :
    (s.internAll r.names).SameSymbols (s.loadReading load r).2 := by
  unfold loadReading
  cases result : r.result with
  | error e => exact .refl _
  | ok a => exact loads result (subset_names_internAll r.names s)

theorem read_sameSymbols (text : String) (s : Store F) :
    (s.internAll (SmallLisp.read text).names).SameSymbols (s.read text).2 :=
  loadReading_sameSymbols (fun done known => load_sameSymbols ((read_among done).mono known)) s

theorem readMany_sameSymbols (text : String) (s : Store F) :
    (s.internAll (SmallLisp.readMany text).names).SameSymbols (s.readMany text).2 :=
  loadReading_sameSymbols
    (fun done known => loadAll_sameSymbols fun d here => (readMany_among done d here).mono known) s

theorem symbolValue_read (text : String) (s : Store F) (v : Value F) :
    (s.read text).2.symbolValue v = s.symbolValue v :=
  (loadReading_grows load_grows s).slots v

theorem symbolValue_readMany (text : String) (s : Store F) (v : Value F) :
    (s.readMany text).2.symbolValue v = s.symbolValue v :=
  (loadReading_grows loadAll_grows s).slots v

end Store

theorem Store.Changes.names_eq {F : Type} [DecidableEq F] {s t : Store F} (change : s.Changes t) :
    t.names = s.names := by
  cases change with
  | cons | makeDictionary => rfl
  | setCdr p => cases p <;> rfl
  | put d => cases d <;> rfl
  | clear d => cases d <;> rfl
  | setSymbolValue => exact Store.names_setSymbolValue _ _ _

namespace Host

variable {m m' : Machine Empty Unit} {v : Value Empty}

theorem naming_evalSafe (names : List String) :
    (Worlds.keeping fun m : Machine Empty Unit => m.store.names = names).EvalSafe none depthBound :=
  (Worlds.keeping_lawfulEnv fun change same => change.names_eq.trans same).evalSafe
    (Worlds.hostSafe_none _) depthBound

/-- Evaluation enters no symbol. -/
theorem names_eval {expr env : Value Empty} (done : none.eval expr env m = some (v, m')) :
    m'.store.names = m.store.names := by
  have safe := naming_evalSafe m.store.names
  obtain ⟨_, -, same, -⟩ := safe.eval (w := ()) trivial trivial m rfl v m' done
  exact same

theorem names_apply {fn args env : Value Empty} (done : none.apply fn args env m = some (v, m')) :
    m'.store.names = m.store.names := by
  have safe := naming_evalSafe m.store.names
  obtain ⟨_, -, same, -⟩ := safe.apply (w := ()) trivial trivial trivial m rfl v m' done
  exact same

/-- A call enters the name that is called and no other. -/
theorem names_callGlobal {name : String} (done : none.callGlobal name m = some (v, m')) :
    m'.store.names = (m.store.intern name).2.names := by
  obtain ⟨symbol, entered, interned, rest⟩ := Action.exists_of_bind done
  cases interned
  obtain ⟨fn, looked, walked, applied⟩ := Action.exists_of_bind rest
  cases Action.Reads.walk _ _ _ _ walked
  exact names_apply applied

end Host

end SmallLisp
