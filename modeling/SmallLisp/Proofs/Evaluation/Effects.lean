import SmallLisp.Proofs.Evaluation.Worlds
import SmallLisp.Proofs.Store.Growth

/-! # The effects of evaluation

Programs change the second halves of pairs, the slots of symbols and the entries of dictionaries, and
nothing else. In particular a pair keeps its first half, so that a binding or an entry of an
association list keeps its key.
-/

namespace SmallLisp

/-- No program changes what stands at the place. -/
def Place.isFixed : Place → Bool
  | .car _ | .name _ => true
  | .cdr _ | .slot _ | .entries _ => false

namespace Store

variable {F : Type} {s t u : Store F}

/-- All objects of the first store are in the second one, with the same content at fixed places. -/
def Spares (s t : Store F) : Prop :=
  ∀ place content, s.content? place = some content →
    ∃ later, t.content? place = some later ∧ (place.isFixed = true → later = content)

theorem Spares.refl (s : Store F) : s.Spares s :=
  fun _ content there => ⟨content, there, fun _ => rfl⟩

theorem Spares.trans (first : s.Spares t) (second : t.Spares u) : s.Spares u := by
  intro place content there
  obtain ⟨between, still, same⟩ := first place content there
  obtain ⟨later, last, again⟩ := second place between still
  exact ⟨later, last, fun fixed => (again fixed).trans (same fixed)⟩

theorem Spares.content? {place : Place} (spares : s.Spares t) (fixed : place.isFixed = true)
    (there : (s.content? place).isSome) : t.content? place = s.content? place := by
  obtain ⟨content, found⟩ := Option.isSome_iff_exists.mp there
  obtain ⟨later, still, same⟩ := spares place content found
  rw [still, found, same fixed]

theorem symbolName_of_content? {id : SymbolId}
    (same : t.content? (.name id) = s.content? (.name id)) :
    t.symbolName (.symbol id) = s.symbolName (.symbol id) := by
  simp only [Store.content?] at same
  simp only [symbolName]
  cases after : t.symbol? id <;> cases before : s.symbol? id <;> simp_all

theorem KeptBut.spares (kept : s.KeptBut [] t) : s.Spares t := by
  intro place content there
  have same := kept place List.not_mem_nil (by rw [there]; rfl)
  exact ⟨content, same.trans there, fun _ => rfl⟩

/-- One place that is not fixed may get another content. -/
theorem spares_of_elsewhere (place : Place) (free : place.isFixed = false)
    (still : (s.content? place).isSome → (t.content? place).isSome)
    (elsewhere : ∀ other, other ≠ place → t.content? other = s.content? other) : s.Spares t := by
  intro other content there
  by_cases here : other = place
  · subst here
    obtain ⟨later, found⟩ := Option.isSome_iff_exists.mp (still (by rw [there]; rfl))
    refine ⟨later, found, fun fixed => ?_⟩
    rw [free] at fixed
    cases fixed
  · exact ⟨content, (elsewhere other here).trans there, fun _ => rfl⟩

theorem setCdr_spares (target v : Value F) (s : Store F) : s.Spares (s.setCdr target v) := by
  cases target with
  | pair p =>
      refine spares_of_elsewhere (.cdr p) rfl (fun there => ?_) fun _ => content?_setCdr
      simpa [content?, Store.setCdr] using there
  | _ => exact .refl s

theorem setSymbolValue_spares (target v : Value F) (s : Store F) :
    s.Spares (s.setSymbolValue target v) := by
  cases target with
  | symbol id =>
      refine spares_of_elsewhere (.slot id) rfl (fun there => ?_) fun _ => content?_setSymbolValue
      simpa [content?, symbol?_setSymbolValue] using there
  | _ => exact .refl s

theorem modify_spares (d : Nat) (f : Dictionary F → Dictionary F) (s : Store F) :
    s.Spares { s with dictionaries := s.dictionaries.modify d f } := by
  refine spares_of_elsewhere (.entries d) rfl (fun there => ?_) fun _ => content?_modify f
  simpa [content?] using there

theorem makeDictionary_spares (s : Store F) : s.Spares s.makeDictionary.2 := by
  apply KeptBut.spares
  intro place _ there
  cases place with
  | entries d =>
      have inside : d < s.dictionaries.size := by simpa [content?] using there
      simp [content?, makeDictionary, Array.getElem?_push, Nat.ne_of_lt inside]
  | car | cdr => rfl
  | name id | slot id => cases id <;> rfl

/-- One change, as evaluation makes them. -/
theorem Changes.spares [DecidableEq F] (change : s.Changes t) : s.Spares t := by
  cases change with
  | cons a b =>
      rw [cons_grow]
      exact (keptBut_grow _ s).spares
  | setCdr target v => exact setCdr_spares target v s
  | setSymbolValue target v => exact setSymbolValue_spares target v s
  | put target key v =>
      cases target with
      | dictionary d => exact modify_spares d _ s
      | _ => exact .refl s
  | clear target =>
      cases target with
      | dictionary d => exact modify_spares d _ s
      | _ => exact .refl s
  | makeDictionary => exact makeDictionary_spares s

end Store

namespace Worlds

/-- Evaluation at every depth spares what a store holds. -/
theorem sparing_evalSafe (s : Store Empty) (depth : Nat) :
    (keeping fun m : Machine Empty Unit => s.Spares m.store).EvalSafe Host.none depth :=
  (keeping_lawfulEnv fun change spares => spares.trans change.spares).evalSafe (hostSafe_none _) depth

end Worlds

/-- Evaluating an expression and applying a function leave every pair its first half and every symbol its
    name, whatever the program and the environment are. No object is lost, and what has another content
    afterwards is the second half of a pair, the slot of a symbol or the entries of a dictionary. -/
theorem evaluation_keeps_cars {m m' : Machine Empty Unit} {depth : Nat} {v : Value Empty}
    (done : (∃ expr env, evalWithin Host.none depth expr env m = some (v, m')) ∨
      ∃ fn args env, applyWithin Host.none depth fn args env m = some (v, m')) :
    (∀ p < m.store.pairs.size, m'.store.car (.pair p) = m.store.car (.pair p)) ∧
    (∀ id, (m.store.symbol? id).isSome →
      m'.store.symbolName (.symbol id) = m.store.symbolName (.symbol id)) ∧
    ∀ place, (m.store.content? place).isSome → (m'.store.content? place).isSome ∧
      (m'.store.content? place ≠ m.store.content? place →
        (∃ p, place = .cdr p) ∨ (∃ id, place = .slot id) ∨ ∃ d, place = .entries d) := by
  have spares : m.store.Spares m'.store := by
    have safe := Worlds.sparing_evalSafe m.store depth
    rcases done with ⟨expr, env, evaluated⟩ | ⟨fn, args, env, applied⟩
    · obtain ⟨_, -, spares, -⟩ := safe.eval (w := ()) trivial trivial m (.refl _) v m' evaluated
      exact spares
    · obtain ⟨_, -, spares, -⟩ :=
        safe.apply (w := ()) trivial trivial trivial m (.refl _) v m' applied
      exact spares
  refine ⟨fun p inside => ?_, fun id known => ?_, fun place there => ⟨?_, fun changed => ?_⟩⟩
  · rw [Store.car_eq_valueAt, Store.car_eq_valueAt]
    apply Store.valueAt_of_content?
    exact spares.content? rfl (Store.isSome_content?_car.mpr inside)
  · apply Store.symbolName_of_content?
    exact spares.content? rfl (by simpa [Store.content?] using known)
  · obtain ⟨content, found⟩ := Option.isSome_iff_exists.mp there
    obtain ⟨later, still, -⟩ := spares place content found
    exact Option.isSome_of_mem still
  · cases place with
    | car | name => exact absurd (spares.content? rfl there) changed
    | cdr p => exact .inl ⟨p, rfl⟩
    | slot id => exact .inr (.inl ⟨id, rfl⟩)
    | entries d => exact .inr (.inr ⟨d, rfl⟩)

/-- The environment `((k . 1))`, and an expression that replaces what is bound there and what stands in a
    quoted list. -/
def replacing : Store Empty :=
  ((Store.standard.read "((k . 1))").2.read "(setq k (putassoc 'j nil '((j . 7))))").2

theorem evaluation_keeps_cars_replaced :
    ∃ v m', evalWithin Host.none 9 (.pair 14) (.pair 1) ⟨replacing, ()⟩ = some (v, m') ∧
      ∀ p ∈ [0, 4], replacing.cdr (.pair p) ≠ .nil ∧ m'.store.cdr (.pair p) = .nil ∧
        m'.store.car (.pair p) = replacing.car (.pair p) := by
  have ended : (evalWithin Host.none 9 (.pair 14) (.pair 1) ⟨replacing, ()⟩).map
      (fun r => [0, 4].map fun p => r.2.store.cdr (.pair p)) = some [.nil, .nil] := by
    decide +kernel
  have before : ∀ p ∈ [0, 4], p < replacing.pairs.size ∧ replacing.cdr (.pair p) ≠ .nil := by
    decide +kernel
  obtain ⟨⟨v, m'⟩, done, empty⟩ := Option.map_eq_some_iff.mp ended
  refine ⟨v, m', done, fun p among => ⟨(before p among).2, ?_, ?_⟩⟩
  · have all : ∀ x ∈ [0, 4].map fun p => m'.store.cdr (.pair p), x = .nil := by
      rw [empty]
      simp
    exact all _ (List.mem_map_of_mem among)
  · exact (evaluation_keeps_cars (.inl ⟨_, _, done⟩)).1 p (before p among).1

end SmallLisp
