import SmallLisp.Proofs.Reading.Names
import SmallLisp.Proofs.RoundTrip

/-! # What reading gives

Reading gives `eof` for a datum that is unfinished at the end of its text, and for every other one a
finite tree. A leaf of a tree comes from a token, so what can be a leaf is what the lexer can tell
apart: a string has no quote in it, and a symbol is a word that does not start like a number and is none
of the constants. No `eof` gets into a tree, as an unfinished datum leaves everything around it
unfinished.
-/

namespace SmallLisp

/-- What a leaf of a tree can be. -/
def Atom.Legible : Atom → Prop
  | .nil | .bool _ | .number _ => True
  | .string text => '"' ∉ text.toList
  | .symbol name => name ≠ "" ∧ (∀ c ∈ name.toList, isDelimiter c = false) ∧
      name ∉ ["nil", "true", "false"] ∧ startsNumeral name.toList = false
  | .native | .dictionary | .eof => False

theorem Atom.Readable.legible {a : Atom} (readable : a.Readable) : a.Legible := by
  rcases readable with written | rfl
  · cases a with
    | nil | bool | number => trivial
    | string text => exact written
    | symbol name =>
        obtain ⟨word, constant⟩ := written
        refine ⟨?_, word.solid, constant, word.notNumeral⟩
        rintro rfl
        exact word.nonempty rfl
    | native | dictionary | eof => cases written
  · have solid : ∀ c ∈ ['.'], isDelimiter c = false := List.forall_mem_singleton.mpr (by decide)
    exact ⟨by decide, solid, by decide, rfl⟩

/-- All data of a text are its forms, and one more where something is unfinished at its end. -/
theorem readMany_result {text : String} {data : List Datum}
    (done : (readMany text).result = .ok data) :
    data = (Stack.all [] (scan text).tokens).forms ∨
      data = (Stack.all [] (scan text).tokens).forms ++ [.eof] := by
  have same := Scan.atEnd_eq_ok done
  split at same
  · exact .inl same
  · exact .inr same

namespace Store

variable {F : Type} {s t : Store F} {P : Atom → Prop} {text : String}

/-- Data that are put into the store one after another are all trees in the end. -/
theorem loadAll_trees (s : Store F) (literal : ∀ a, P a → a.Literal) {data : List Datum}
    (leaves : ∀ d ∈ data, d.Leaves P) :
    ∀ v ∈ (s.loadAll data).1, ∃ d, (s.loadAll data).2.Tree ((s.loadAll data).2.Keeps P) v d := by
  induction data generalizing s with
  | nil => exact List.forall_mem_nil _
  | cons d data ih =>
      obtain ⟨here, others⟩ := List.forall_mem_cons.mp leaves
      have tree := s.load_tree literal here
      have later := ih (s.load d).2 others
      have grown := (s.load d).2.loadAll_grows data
      exact List.forall_mem_cons.mpr ⟨⟨d, tree.extend grown.toExtends⟩, later⟩

theorem read_legible {v : Value F} (done : s.read text = (.ok v, t)) :
    v = .eof ∨ ∃ d, t.Tree (t.Keeps Atom.Legible) v d := by
  by_cases eof : v = .eof
  · exact .inl eof
  · obtain ⟨d, form⟩ := form_of_read done eof
    obtain ⟨w, u, again, -, tree⟩ := s.read_tree form
    rw [done] at again
    cases again
    exact .inr ⟨d, tree.weaken fun _ readable => readable.legible⟩

theorem readMany_legible {values : List (Value F)} (done : s.readMany text = (.ok values, t)) :
    ∃ forms, (values = forms ∨ values = forms ++ [.eof]) ∧
      ∀ v ∈ forms, ∃ d, t.Tree (t.Keeps Atom.Legible) v d := by
  obtain ⟨data, result, loaded⟩ := loadReading_eq_ok done
  have trees := (s.internAll (SmallLisp.readMany text).names).loadAll_trees
    (fun _ readable => readable.literal) (all_readable text)
  have legible := fun v here => (trees v here).imp fun d tree =>
    tree.weaken fun _ readable => readable.legible
  rcases readMany_result result with rfl | rfl
  · rw [loaded] at legible
    exact ⟨values, .inl rfl, legible⟩
  · -- Loading `eof` behind the forms changes nothing in the store.
    rw [loadAll_append] at loaded
    obtain ⟨rfl, rfl⟩ := Prod.mk.inj loaded
    exact ⟨_, .inr rfl, legible⟩

/-- What reading the first datum of a text gives is `eof` or a finite tree of the store, and what reading
    all data gives are such trees and at most one `eof` behind them. The leaves of a tree are `nil`,
    booleans, numbers, strings without a quote, and symbols, each being the one that the table has under
    its name; the name is not empty, has no delimiter, is no constant and does not start like a number.
    The symbols that the table had before keep their places. -/
theorem reading_gives_trees (s : Store F) (text : String) :
    (∀ v t, s.read text = (.ok v, t) →
        s.Extends t ∧ (v = .eof ∨ ∃ d, t.Tree (t.Keeps Atom.Legible) v d)) ∧
      ∀ values t, s.readMany text = (.ok values, t) →
        s.Extends t ∧ ∃ forms, (values = forms ∨ values = forms ++ [.eof]) ∧
          ∀ v ∈ forms, ∃ d, t.Tree (t.Keeps Atom.Legible) v d := by
  refine ⟨fun v t done => ⟨?_, read_legible done⟩, fun values t done => ⟨?_, readMany_legible done⟩⟩
  · have grown : s.Extends (s.read text).2 := (loadReading_grows load_grows s).toExtends
    rwa [done] at grown
  · have grown : s.Extends (s.readMany text).2 := (loadReading_grows loadAll_grows s).toExtends
    rwa [done] at grown

/-- Behind a dotted list with a datum that is dropped, a dot is a symbol; a list is left open. -/
theorem reading_gives_trees_unfinished :
    let text := "(a . 'b c) . -1.5 (\"s\""
    let values : List (Value Empty) :=
      [.pair 2, .symbol (.interned 4), .number (-1.5), .eof]
    let t := ((empty : Store Empty).read text).2
    let u := ((empty : Store Empty).readMany text).2
    (empty : Store Empty).read text = (.ok (.pair 2), t) ∧
      (∃ d, t.Tree (t.Keeps Atom.Legible) (.pair 2) d) ∧
      (empty : Store Empty).readMany text = (.ok values, u) ∧
      ∃ forms, (values = forms ∨ values = forms ++ [.eof]) ∧
        ∀ v ∈ forms, ∃ d, u.Tree (u.Keeps Atom.Legible) v d := by
  intro text values t u
  have one : (empty : Store Empty).read text = (.ok (.pair 2), t) :=
    Prod.ext (by decide +kernel) rfl
  have all : (empty : Store Empty).readMany text = (.ok values, u) :=
    Prod.ext (by decide +kernel) rfl
  obtain ⟨first, many⟩ := reading_gives_trees (empty : Store Empty) text
  obtain ⟨-, eof | tree⟩ := first _ _ one
  · cases eof
  · exact ⟨one, tree, all, (many _ _ all).2⟩

end Store

end SmallLisp
