import SmallLisp.Interpreter
import SmallLisp.Proofs.Machine.Actions
import SmallLisp.Proofs.Store.Tables
import SmallLisp.Proofs.Store.Walks

/-! # Evaluation side by side

Two machines evaluate expressions that correspond to each other. Evaluation reaches the store through
few operations, so it is enough that these lead from machines that correspond to machines that
correspond. Then both evaluations end, with results that correspond, or neither does. How machines and
values correspond is told by worlds, and each operation leads to a later world. The induction over
evaluation is done here, once for all families of worlds.
-/

namespace SmallLisp

variable {F σ α β γ δ : Type}

/-- The values are both pairs, or they are the same. -/
inductive Value.Alike : Value F → Value F → Prop where
  | pair (p q : Nat) : Alike (.pair p) (.pair q)
  | solid {v : Value F} : v.isPair = false → Alike v v

namespace Value.Alike

variable {a b : Value F}

theorem isPair (alike : a.Alike b) : a.isPair = b.isPair := by
  cases alike <;> rfl

theorem isNil (alike : a.Alike b) : a.isNil = b.isNil := by
  cases alike <;> rfl

theorem isTrue (alike : a.Alike b) : a.isTrue = b.isTrue := by
  cases alike <;> rfl

theorem toNumber (alike : a.Alike b) : a.toNumber = b.toNumber := by
  cases alike <;> rfl

theorem ofHead? (alike : a.Alike b) : Special.ofHead? a = Special.ofHead? b := by
  cases alike <;> rfl

end Value.Alike

/-- The searches have ended alike. -/
inductive Store.Search.Rel (R : Value F → Value F → Prop) : Search F → Search F → Prop where
  | found {a b : Value F} : R a b → Rel R (.found a) (.found b)
  | missing {a b : Value F} : R a b → Rel R (.missing a) (.missing b)

/-- A family of worlds for two machines, ordered by what can still come. -/
structure Sides (F σ : Type) where
  World : Type
  le : World → World → Prop
  /-- The machines look as the world says. -/
  Fits : World → Machine F σ → Machine F σ → Prop
  /-- The values correspond as expressions, arguments or results. -/
  Agree : World → Value F → Value F → Prop
  /-- The values correspond as environments. -/
  Env : World → Value F → Value F → Prop

namespace Sides

variable (K : Sides F σ)

/-- The machines fit a later world that has the property. -/
def Leads (w : K.World) (m n : Machine F σ) (post : K.World → Prop) : Prop :=
  ∃ later, K.le w later ∧ K.Fits later m n ∧ post later

/-- What the operations on data do on the two sides. -/
structure Lawful [DecidableEq F] : Prop where
  refl (w : K.World) : K.le w w
  trans {u v w : K.World} : K.le u v → K.le v w → K.le u w
  agree_mono {u w : K.World} {a b : Value F} : K.le u w → K.Agree u a b → K.Agree w a b
  alike {w : K.World} {a b : Value F} : K.Agree w a b → a.Alike b
  same {w : K.World} {a b c d : Value F} :
    K.Agree w a b → K.Agree w c d → a.same c = b.same d
  nil (w : K.World) : K.Agree w .nil .nil
  bool (w : K.World) (b : Bool) : K.Agree w (.bool b) (.bool b)
  number (w : K.World) (x : Float) : K.Agree w (.number x) (.number x)
  lambda (w : K.World) : K.Agree w Special.lambda.symbol Special.lambda.symbol
  car {w : K.World} {m n : Machine F σ} {a b : Value F} :
    K.Fits w m n → K.Agree w a b → K.Agree w (m.store.car a) (n.store.car b)
  cdr {w : K.World} {m n : Machine F σ} {a b : Value F} :
    K.Fits w m n → K.Agree w a b → K.Agree w (m.store.cdr a) (n.store.cdr b)
  get {w : K.World} {m n : Machine F σ} {a b k l : Value F} : K.Fits w m n → K.Agree w a b →
    K.Agree w k l → K.Agree w (m.store.get a k) (n.store.get b l)
  listing {w : K.World} {m n : Machine F σ} {a b : Value F} : K.Fits w m n → K.Agree w a b →
    List.Forall₂ (K.Agree w) (m.store.listing a) (n.store.listing b)
  cons {w : K.World} {m n : Machine F σ} {a b c d : Value F} :
    K.Fits w m n → K.Agree w a b → K.Agree w c d →
    K.Leads w ⟨(m.store.cons a c).2, m.host⟩ ⟨(n.store.cons b d).2, n.host⟩ fun later =>
      K.Agree later (m.store.cons a c).1 (n.store.cons b d).1
  setCdr {w : K.World} {m n : Machine F σ} {a b c d : Value F} :
    K.Fits w m n → K.Agree w a b → K.Agree w c d →
    K.Leads w ⟨m.store.setCdr a c, m.host⟩ ⟨n.store.setCdr b d, n.host⟩ fun _ => True
  put {w : K.World} {m n : Machine F σ} {a b k l c d : Value F} :
    K.Fits w m n → K.Agree w a b → K.Agree w k l → K.Agree w c d →
    K.Leads w ⟨(m.store.put a k c).2, m.host⟩ ⟨(n.store.put b l d).2, n.host⟩ fun _ => True
  clear {w : K.World} {m n : Machine F σ} {a b : Value F} : K.Fits w m n → K.Agree w a b →
    K.Leads w ⟨(m.store.clear a).2, m.host⟩ ⟨(n.store.clear b).2, n.host⟩ fun _ => True
  makeDictionary {w : K.World} {m n : Machine F σ} : K.Fits w m n →
    K.Leads w ⟨m.store.makeDictionary.2, m.host⟩ ⟨n.store.makeDictionary.2, n.host⟩ fun later =>
      K.Agree later m.store.makeDictionary.1 n.store.makeDictionary.1

/-- What the operations on data and on environments do on the two sides. -/
structure LawfulEnv [DecidableEq F] : Prop extends K.Lawful where
  env_mono {u w : K.World} {a b : Value F} : K.le u w → K.Env u a b → K.Env w a b
  value {w : K.World} {m n : Machine F σ} {a b e f : Value F} :
    K.Fits w m n → K.Agree w a b → K.Env w e f →
    Option.Rel (K.Agree w) (m.store.value? a e) (n.store.value? b f)
  assign {w : K.World} {m n : Machine F σ} {a b c d e f : Value F} :
    K.Fits w m n → K.Agree w a b → K.Agree w c d → K.Env w e f →
    Option.Rel (fun s t => K.Leads w ⟨s, m.host⟩ ⟨t, n.host⟩ fun _ => True)
      (m.store.assign? a c e) (n.store.assign? b d f)
  bind {w : K.World} {m n : Machine F σ} {a b c d e f : Value F} :
    K.Fits w m n → K.Agree w a b → K.Agree w c d → K.Env w e f →
    Option.Rel (fun r q => K.Leads w ⟨r.2, m.host⟩ ⟨q.2, n.host⟩ fun later => K.Env later r.1 q.1)
      (m.store.bind? a c e) (n.store.bind? b d f)

variable {K} {w : K.World} {m n : Machine F σ}

theorem Leads.imp {post other : K.World → Prop} (leads : K.Leads w m n post)
    (imp : ∀ later, K.le w later → post later → other later) : K.Leads w m n other := by
  obtain ⟨later, le, fits, holds⟩ := leads
  exact ⟨later, le, fits, imp later le holds⟩

variable (K) in
/-- On machines that fit the world both actions end, in machines that fit a later world and with
    results that have the property there, or neither ends. -/
def Both (w : K.World) (x : Action F σ α) (y : Action F σ β) (post : K.World → α → β → Prop) : Prop :=
  ∀ m n, K.Fits w m n →
    Option.Rel (fun r q => K.Leads w r.2 q.2 fun later => post later r.1 q.1) (x m) (y n)

section

variable {post : K.World → α → β → Prop} {after : K.World → γ → δ → Prop}

theorem Both.never : K.Both w (Action.never : Action F σ α) (Action.never : Action F σ β) post :=
  fun _ _ _ => .none

/-- What is asked changes nothing, so the world stays. -/
theorem Both.askThen {f : Store F → α} {g : Store F → β} {h : α → Action F σ γ}
    {k : β → Action F σ δ} (answer : α → β → Prop)
    (asked : ∀ m n, K.Fits w m n → answer (f m.store) (g n.store))
    (rest : ∀ x y, answer x y → K.Both w (h x) (k y) after) :
    K.Both w (Action.ask f >>= h) (Action.ask g >>= k) after :=
  fun m n fits => rest _ _ (asked m n fits) m n fits

theorem Both.walkThen {f : Store F → Option α} {g : Store F → Option β} {h : α → Action F σ γ}
    {k : β → Action F σ δ} (answer : α → β → Prop)
    (walked : ∀ m n, K.Fits w m n → Option.Rel answer (f m.store) (g n.store))
    (rest : ∀ x y, answer x y → K.Both w (h x) (k y) after) :
    K.Both w (Action.walk f >>= h) (Action.walk g >>= k) after := by
  intro m n fits
  rw [Action.run_bind, Action.run_bind, Action.run_walk, Action.run_walk]
  apply rel_bind (rel_map (walked m n fits) fun x y related => ?_) fun r q related => ?_
  · exact fun r q => answer r.1 q.1 ∧ r.2 = m ∧ q.2 = n
  · exact ⟨related, rfl, rfl⟩
  · obtain ⟨related, rfl, rfl⟩ := related
    exact rest r.1 q.1 related _ _ fits

theorem Both.alter {f : Store F → α × Store F} {g : Store F → β × Store F}
    (leads : ∀ m n, K.Fits w m n →
      K.Leads w ⟨(f m.store).2, m.host⟩ ⟨(g n.store).2, n.host⟩ fun later =>
        post later (f m.store).1 (g n.store).1) :
    K.Both w (Action.alter f) (Action.alter g) post :=
  fun m n fits => .some (leads m n fits)

theorem Both.updateWalk {f g : Store F → Option (Store F)}
    (leads : ∀ m n, K.Fits w m n →
      Option.Rel (fun s t => K.Leads w ⟨s, m.host⟩ ⟨t, n.host⟩ fun _ => True) (f m.store)
        (g n.store)) :
    K.Both w (Action.updateWalk f) (Action.updateWalk g) fun _ _ _ => True := by
  intro m n fits
  rw [Action.run_updateWalk, Action.run_updateWalk]
  exact rel_map (leads m n fits) fun _ _ => id

theorem Both.alterWalk {f : Store F → Option (α × Store F)} {g : Store F → Option (β × Store F)}
    (leads : ∀ m n, K.Fits w m n →
      Option.Rel (fun r q => K.Leads w ⟨r.2, m.host⟩ ⟨q.2, n.host⟩ fun later => post later r.1 q.1)
        (f m.store) (g n.store)) :
    K.Both w (Action.alterWalk f) (Action.alterWalk g) post := by
  intro m n fits
  rw [Action.run_alterWalk, Action.run_alterWalk]
  exact rel_map (leads m n fits) fun _ _ => id

end

variable [DecidableEq F]

namespace Lawful

variable {post : K.World → α → β → Prop} {after : K.World → γ → δ → Prop} (lawful : K.Lawful)

include lawful

theorem pure {x : α} {y : β} (result : post w x y) :
    K.Both w (Pure.pure x : Action F σ α) (Pure.pure y) post :=
  fun _ _ fits => .some ⟨w, lawful.refl w, fits, result⟩

theorem leads_trans {m' n' : Machine F σ} {first second : K.World → Prop}
    (sooner : K.Leads w m n first)
    (later : ∀ u, K.le w u → K.Fits u m n → first u → K.Leads u m' n' second) :
    K.Leads w m' n' second := by
  obtain ⟨u, le, fits, holds⟩ := sooner
  obtain ⟨v, leLater, fitsLater, holdsLater⟩ := later u le fits holds
  exact ⟨v, lawful.trans le leLater, fitsLater, holdsLater⟩

theorem andThen {x : Action F σ α} {y : Action F σ β} {f : α → Action F σ γ} {g : β → Action F σ δ}
    (first : K.Both w x y post)
    (rest : ∀ later r q, K.le w later → post later r q → K.Both later (f r) (g q) after) :
    K.Both w (x >>= f) (y >>= g) after := by
  intro m n fits
  rw [Action.run_bind, Action.run_bind]
  apply rel_bind (first m n fits)
  rintro r q ⟨u, le, fits, holds⟩
  apply rel_imp (rest u r.1 q.1 le holds r.2 q.2 fits)
  rintro _ _ ⟨v, further, fits, holds⟩
  exact ⟨v, lawful.trans le further, fits, holds⟩

theorem ask {f : Store F → α} {g : Store F → β}
    (answer : ∀ m n, K.Fits w m n → post w (f m.store) (g n.store)) :
    K.Both w (Action.ask f) (Action.ask g) post :=
  fun m n fits => .some ⟨w, lawful.refl w, fits, answer m n fits⟩

theorem walk {f : Store F → Option α} {g : Store F → Option β}
    (answer : ∀ m n, K.Fits w m n → Option.Rel (post w) (f m.store) (g n.store)) :
    K.Both w (Action.walk f) (Action.walk g) post := by
  intro m n fits
  rw [Action.run_walk, Action.run_walk]
  exact rel_map (answer m n fits) fun x y related => ⟨w, lawful.refl w, fits, related⟩

theorem mapM {f : Value F → Action F σ γ} {g : Value F → Action F σ δ}
    {items others : List (Value F)}
    (each : ∀ {w a b}, K.Agree w a b → K.Both w (f a) (g b) fun _ _ _ => True)
    (agree : List.Forall₂ (K.Agree w) items others) :
    K.Both w (items.mapM f) (others.mapM g) fun _ _ _ => True := by
  induction items generalizing others w with
  | nil =>
      cases agree
      exact lawful.pure trivial
  | cons item items ih =>
      cases agree with
      | cons here rest =>
          rw [List.mapM_cons, List.mapM_cons]
          apply lawful.andThen (each here)
          intro later _ _ le _
          apply lawful.andThen (ih (rest.imp fun _ _ => lawful.agree_mono le))
          intro last _ _ _ _
          exact lawful.pure trivial

variable {a b c d k l : Value F}

theorem cadr (fits : K.Fits w m n) (agree : K.Agree w a b) :
    K.Agree w (m.store.cadr a) (n.store.cadr b) :=
  lawful.car fits (lawful.cdr fits agree)

theorem cddr (fits : K.Fits w m n) (agree : K.Agree w a b) :
    K.Agree w (m.store.cddr a) (n.store.cddr b) :=
  lawful.cdr fits (lawful.cdr fits agree)

theorem caddr (fits : K.Fits w m n) (agree : K.Agree w a b) :
    K.Agree w (m.store.caddr a) (n.store.caddr b) :=
  lawful.car fits (lawful.cddr fits agree)

theorem list {items others : List (Value F)} (fits : K.Fits w m n)
    (agree : List.Forall₂ (K.Agree w) items others) :
    K.Leads w ⟨(m.store.list items).2, m.host⟩ ⟨(n.store.list others).2, n.host⟩ fun later =>
      K.Agree later (m.store.list items).1 (n.store.list others).1 := by
  induction agree with
  | nil => exact ⟨w, lawful.refl w, fits, lawful.nil w⟩
  | cons here _ ih =>
      apply lawful.leads_trans ih
      intro u le fitsTail agreeTail
      exact lawful.cons fitsTail (lawful.agree_mono le here) agreeTail

theorem elementsWithin (fits : K.Fits w m n) (agree : K.Agree w a b) (bound : Nat) :
    Option.Rel (List.Forall₂ (K.Agree w)) (m.store.elementsWithin bound a)
      (n.store.elementsWithin bound b) := by
  induction bound generalizing a b with
  | zero =>
      unfold Store.elementsWithin
      cases lawful.alike agree with
      | pair => exact .none
      | solid solid =>
          cases a with
          | pair => cases solid
          | _ => exact .some .nil
  | succ bound ih =>
      unfold Store.elementsWithin
      cases lawful.alike agree with
      | pair =>
          exact rel_map (ih (lawful.cdr fits agree)) fun _ _ rest =>
            .cons (lawful.car fits agree) rest
      | solid solid =>
          cases a with
          | pair => cases solid
          | _ => exact .some .nil

theorem elements (fits : K.Fits w m n) (agree : K.Agree w a b) :
    Option.Rel (List.Forall₂ (K.Agree w)) (m.store.elements? a) (n.store.elements? b) := by
  rw [← Store.elementsWithin_of_walkBound_le (Nat.le_max_left _ n.store.walkBound),
    ← Store.elementsWithin_of_walkBound_le (Nat.le_max_right m.store.walkBound _)]
  exact lawful.elementsWithin fits agree _

theorem firstElements (fits : K.Fits w m n) (agree : K.Agree w a b) (count : Nat) :
    List.Forall₂ (K.Agree w) (m.store.firstElements count a) (n.store.firstElements count b) := by
  induction count generalizing a b with
  | zero =>
      unfold Store.firstElements
      exact .nil
  | succ count ih =>
      unfold Store.firstElements
      cases lawful.alike agree with
      | pair => exact .cons (lawful.car fits agree) (ih (lawful.cdr fits agree))
      | solid solid =>
          cases a with
          | pair => cases solid
          | _ => exact .nil

theorem searchWithin {last other : Value F} (fits : K.Fits w m n) (key : K.Agree w k l)
    (before : K.Agree w last other) (agree : K.Agree w a b) (bound : Nat) :
    Option.Rel (Store.Search.Rel (K.Agree w)) (m.store.searchWithin k bound last a)
      (n.store.searchWithin l bound other b) := by
  induction bound generalizing a b last other with
  | zero =>
      cases lawful.alike agree with
      | pair =>
          rw [Store.searchWithin_zero, Store.searchWithin_zero]
          exact .none
      | solid solid =>
          rw [Store.searchWithin_of_solid solid, Store.searchWithin_of_solid solid]
          exact .some (.missing before)
  | succ bound ih =>
      cases lawful.alike agree with
      | pair p q =>
          have car := lawful.car fits agree
          have keyed : m.store.Keyed k p ↔ n.store.Keyed l q := by
            rw [Store.Keyed, Store.Keyed, lawful.same (lawful.car fits car) key]
          rw [Store.searchWithin_pair, Store.searchWithin_pair]
          by_cases here : n.store.Keyed l q
          · rw [if_pos here, if_pos (keyed.mpr here)]
            exact .some (.found car)
          · rw [if_neg here, if_neg (mt keyed.mp here)]
            exact ih agree (lawful.cdr fits agree)
      | solid solid =>
          rw [Store.searchWithin_of_solid solid, Store.searchWithin_of_solid solid]
          exact .some (.missing before)

theorem search (fits : K.Fits w m n) (key : K.Agree w k l) (agree : K.Agree w a b) :
    Option.Rel (Store.Search.Rel (K.Agree w)) (m.store.search? k a) (n.store.search? l b) := by
  rw [Store.search?, Store.search?,
    ← Store.searchWithin_of_walkBound_le (Nat.le_max_left _ n.store.walkBound),
    ← Store.searchWithin_of_walkBound_le (Nat.le_max_right m.store.walkBound _)]
  exact lawful.searchWithin fits key agree agree _

theorem assoc (fits : K.Fits w m n) (key : K.Agree w k l) (agree : K.Agree w a b) :
    Option.Rel (K.Agree w) (m.store.assoc? k a) (n.store.assoc? l b) := by
  apply rel_bind (lawful.search fits key agree)
  intro r q ended
  cases ended with
  | found element => exact .some element
  | missing => exact .some (lawful.nil w)

theorem putassoc (fits : K.Fits w m n) (key : K.Agree w k l) (value : K.Agree w c d)
    (agree : K.Agree w a b) :
    Option.Rel (fun s t => K.Leads w ⟨s, m.host⟩ ⟨t, n.host⟩ fun _ => True)
      (m.store.putassoc? k c a) (n.store.putassoc? l d b) := by
  unfold Store.putassoc?
  rw [(lawful.alike agree).isPair]
  split
  · exact .some ⟨w, lawful.refl w, fits, trivial⟩
  · apply rel_bind (lawful.search fits key agree)
    intro r q ended
    cases ended with
    | found element => exact .some (lawful.setCdr fits element value)
    | missing last =>
        refine .some ?_
        apply lawful.leads_trans (lawful.cons fits key value)
        intro u le fitsEntry entry
        apply lawful.leads_trans (lawful.list fitsEntry (.cons entry .nil))
        intro v leCell fitsCell cell
        exact lawful.setCdr fitsCell (lawful.agree_mono (lawful.trans le leCell) last) cell

theorem membWithin (fits : K.Fits w m n) (object : K.Agree w c d) (agree : K.Agree w a b)
    (bound : Nat) : m.store.membWithin c bound a = n.store.membWithin d bound b := by
  induction bound generalizing a b with
  | zero =>
      unfold Store.membWithin
      cases lawful.alike agree with
      | pair => rfl
      | solid solid => cases a <;> rfl
  | succ bound ih =>
      unfold Store.membWithin
      cases lawful.alike agree with
      | pair =>
          simp only [lawful.same (lawful.car fits agree) object, ih (lawful.cdr fits agree)]
      | solid solid =>
          cases a with
          | pair => cases solid
          | _ => rfl

theorem memb (fits : K.Fits w m n) (object : K.Agree w c d) (agree : K.Agree w a b) :
    m.store.memb? c a = n.store.memb? d b := by
  rw [← Store.membWithin_of_walkBound_le (Nat.le_max_left _ n.store.walkBound),
    ← Store.membWithin_of_walkBound_le (Nat.le_max_right m.store.walkBound _)]
  exact lawful.membWithin fits object agree _

theorem keys (fits : K.Fits w m n) (agree : K.Agree w a b) :
    K.Leads w ⟨(m.store.keys a).2, m.host⟩ ⟨(n.store.keys b).2, n.host⟩ fun later =>
      K.Agree later (m.store.keys a).1 (n.store.keys b).1 :=
  lawful.list fits (lawful.listing fits agree)

theorem putAnswer (fits : K.Fits w m n) (agree : K.Agree w a b) (key : K.Agree w k l)
    (value : K.Agree w c d) :
    K.Leads w ⟨(m.store.put a k c).2, m.host⟩ ⟨(n.store.put b l d).2, n.host⟩ fun later =>
      K.Agree later (m.store.put a k c).1 (n.store.put b l d).1 := by
  apply (lawful.put fits agree key value).imp
  intro later le _
  cases lawful.alike agree with
  | pair => exact lawful.nil later
  | solid =>
      cases a with
      | dictionary => exact lawful.agree_mono le value
      | _ => exact lawful.nil later

theorem clearAnswer (fits : K.Fits w m n) (agree : K.Agree w a b) :
    K.Leads w ⟨(m.store.clear a).2, m.host⟩ ⟨(n.store.clear b).2, n.host⟩ fun later =>
      K.Agree later (m.store.clear a).1 (n.store.clear b).1 := by
  apply (lawful.clear fits agree).imp
  intro later le _
  cases lawful.alike agree with
  | pair => exact lawful.nil later
  | solid =>
      cases a with
      | dictionary => exact lawful.agree_mono le agree
      | _ => exact lawful.nil later

theorem map_toNumber {items others : List (Value F)}
    (agree : List.Forall₂ (K.Agree w) items others) :
    items.map Value.toNumber = others.map Value.toNumber := by
  induction agree with
  | nil => rfl
  | cons here _ ih => rw [List.map_cons, List.map_cons, (lawful.alike here).toNumber, ih]

theorem numbers (fits : K.Fits w m n) (agree : K.Agree w a b) :
    m.store.numbers? a = n.store.numbers? b := by
  apply rel_eq_iff.mp
  exact rel_map (lawful.elements fits agree) fun _ _ each => lawful.map_toNumber each

theorem reduce (fits : K.Fits w m n) (agree : K.Agree w a b) (none : Float) (one : Float → Float)
    (more : Float → Float → Float) :
    m.store.reduce? none one more a = n.store.reduce? none one more b := by
  rw [Store.reduce?, Store.reduce?, lawful.numbers fits agree,
    (lawful.alike (lawful.cdr fits agree)).isNil]

theorem numberAt (fits : K.Fits w m n) (agree : K.Agree w a b) :
    m.store.numberAt a = n.store.numberAt b := by
  funext i
  rw [Store.numberAt, Store.numberAt, ← Option.getD_map Value.toNumber,
    ← Option.getD_map Value.toNumber, ← List.getElem?_map, ← List.getElem?_map,
    lawful.map_toNumber (lawful.firstElements fits agree (i + 1))]

theorem isFunction (fits : K.Fits w m n) (agree : K.Agree w a b) :
    m.store.isFunction a = n.store.isFunction b := by
  cases lawful.alike agree with
  | pair => exact lawful.same (lawful.car fits agree) (lawful.lambda w)
  | solid solid =>
      cases a with
      | pair => cases solid
      | _ => rfl

/-- Where environments correspond as data do, the pairs that bind parameters are pairs like others. -/
theorem bindEach {e f : Value F} {params others : List (Value F)} (fits : K.Fits w m n)
    (agree : List.Forall₂ (K.Agree w) params others) (args : K.Agree w a b) (env : K.Agree w e f) :
    K.Leads w ⟨(m.store.bindEach a e params).2, m.host⟩ ⟨(n.store.bindEach b f others).2, n.host⟩
      fun later => K.Agree later (m.store.bindEach a e params).1 (n.store.bindEach b f others).1 := by
  induction params generalizing others w m n a b e f with
  | nil =>
      cases agree
      exact ⟨w, lawful.refl w, fits, env⟩
  | cons param params ih =>
      cases agree with
      | cons here rest =>
          apply lawful.leads_trans (lawful.cons fits here (lawful.car fits args))
          intro u leBinding fitsBinding binding
          apply lawful.leads_trans
            (lawful.cons fitsBinding binding (lawful.agree_mono leBinding env))
          intro v leCell fitsCell cell
          have le := lawful.trans leBinding leCell
          exact ih fitsCell (rest.imp fun _ _ => lawful.agree_mono le)
            (lawful.cdr fitsCell (lawful.agree_mono le args)) cell

/-- Where environments correspond as data do, the laws for environments follow from those for data and
    for the slots of symbols. -/
theorem withSlots (same : K.Env = K.Agree)
    (slot : ∀ {w : K.World} {m n : Machine F σ} {a b : Value F}, K.Fits w m n → K.Agree w a b →
      K.Agree w (m.store.symbolValue a) (n.store.symbolValue b))
    (setSlot : ∀ {w : K.World} {m n : Machine F σ} {a b c d : Value F}, K.Fits w m n →
      K.Agree w a b → K.Agree w c d →
      K.Leads w ⟨m.store.setSymbolValue a c, m.host⟩ ⟨n.store.setSymbolValue b d, n.host⟩ fun _ =>
        True) : K.LawfulEnv where
  toLawful := lawful
  env_mono le agree := by
    rw [same] at agree ⊢
    exact lawful.agree_mono le agree
  value fits symbol env := by
    rw [same] at env
    apply rel_bind (lawful.assoc fits symbol env)
    intro r q binding
    have cdr := lawful.cdr fits binding
    cases lawful.alike binding with
    | pair => exact .some cdr
    | solid =>
        cases r with
        | nil => exact .some (slot fits symbol)
        | _ => exact .some cdr
  assign fits symbol value env := by
    rw [same] at env
    apply rel_bind (lawful.assoc fits symbol env)
    intro r q binding
    have cdr := lawful.setCdr fits binding value
    cases lawful.alike binding with
    | pair => exact .some cdr
    | solid =>
        cases r with
        | nil => exact .some (setSlot fits symbol value)
        | _ => exact .some cdr
  bind fits params args env := by
    rw [same] at env ⊢
    apply rel_bind (lawful.elements fits params)
    intro items others each
    exact .some (lawful.bindEach fits each args env)

end Lawful

variable (K) in
/-- What a function may ask of the evaluator is done on both sides. -/
structure CallsBoth (calls : Calls F σ) : Prop where
  eval {w : K.World} {a b e f : Value F} : K.Agree w a b → K.Env w e f →
    K.Both w (calls.eval a e) (calls.eval b f) K.Agree
  apply {w : K.World} {a b c d e f : Value F} : K.Agree w a b → K.Agree w c d → K.Env w e f →
    K.Both w (calls.apply a c e) (calls.apply b d f) K.Agree

theorem Lawful.builtin (lawful : K.Lawful) {calls : Calls F σ} (both : K.CallsBoth calls)
    (builtin : Builtin) {a b e f : Value F} (agree : K.Agree w a b) (env : K.Env w e f) :
    K.Both w (builtin.call calls a e) (builtin.call calls b f) K.Agree := by
  unfold Builtin.call
  apply Both.askThen (K.Agree w) fun m n fits => lawful.car fits agree
  intro first first' agreeFirst
  apply Both.askThen (K.Agree w) fun m n fits => lawful.cadr fits agree
  intro second second' agreeSecond
  apply Both.askThen (K.Agree w) fun m n fits => lawful.caddr fits agree
  intro third third' agreeThird
  cases builtin with
  | multiply | add =>
      apply Both.walkThen Eq fun m n fits => rel_eq_iff.mpr (lawful.numbers fits agree)
      rintro x _ rfl
      exact lawful.pure (lawful.number w _)
  | subtract | divide =>
      apply Both.walkThen Eq fun m n fits => rel_eq_iff.mpr (lawful.reduce fits agree ..)
      rintro x _ rfl
      exact lawful.pure (lawful.number w _)
  | apply => exact both.apply agreeFirst agreeSecond env
  | assoc => exact lawful.walk fun m n fits => lawful.assoc fits agreeFirst agreeSecond
  | car => exact lawful.ask fun m n fits => lawful.car fits agreeFirst
  | cdr => exact lawful.ask fun m n fits => lawful.cdr fits agreeFirst
  | cons => exact .alter fun m n fits => lawful.cons fits agreeFirst agreeSecond
  | eq =>
      rw [lawful.same agreeFirst agreeSecond]
      exact lawful.pure (lawful.bool w _)
  | not =>
      rw [(lawful.alike agreeFirst).isTrue]
      exact lawful.pure (lawful.bool w _)
  | functionp =>
      apply Both.askThen Eq fun m n fits => lawful.isFunction fits agreeFirst
      rintro x _ rfl
      exact lawful.pure (lawful.bool w x)
  | memb =>
      apply Both.walkThen Eq fun m n fits =>
        rel_eq_iff.mpr (lawful.memb fits agreeFirst agreeSecond)
      rintro x _ rfl
      exact lawful.pure (lawful.bool w x)
  | putassoc =>
      apply lawful.andThen (Both.updateWalk fun m n fits =>
        lawful.putassoc fits agreeFirst agreeSecond agreeThird)
      intro later _ _ le _
      exact lawful.pure (lawful.agree_mono le agreeSecond)
  | clear => exact .alter fun m n fits => lawful.clearAnswer fits agreeFirst
  | get => exact lawful.ask fun m n fits => lawful.get fits agreeFirst agreeSecond
  | keys => exact .alter fun m n fits => lawful.keys fits agreeFirst
  | makeDict => exact .alter fun m n fits => lawful.makeDictionary fits
  | put => exact .alter fun m n fits => lawful.putAnswer fits agreeFirst agreeSecond agreeThird
  | lerp | mapRange | norm | wrap =>
      apply Both.askThen Eq fun m n fits => lawful.numberAt fits agree
      rintro x _ rfl
      exact lawful.pure (lawful.number w _)

variable (K) in
/-- The functions that the host adds do the same on both sides where the evaluator does. -/
def HostBoth (host : Host F σ) : Prop :=
  ∀ calls, K.CallsBoth calls → ∀ (w : K.World) (function : F) (a b e f : Value F),
    K.Agree w a b → K.Env w e f →
    K.Both w (host.call calls function a e) (host.call calls function b f) K.Agree

theorem hostBoth_none (K : Sides Empty Unit) : K.HostBoth Host.none :=
  fun _ _ _ function => function.elim

/-! ### Evaluation -/

variable (K) in
/-- Evaluation up to a depth does the same on both sides. -/
structure EvalBoth (host : Host F σ) (depth : Nat) : Prop where
  eval {w : K.World} {a b e f : Value F} : K.Agree w a b → K.Env w e f →
    K.Both w (evalWithin host depth a e) (evalWithin host depth b f) K.Agree
  form {w : K.World} {a b e f : Value F} : K.Agree w a b → K.Env w e f →
    K.Both w (evalForm host depth a e) (evalForm host depth b f) K.Agree
  conditional {w : K.World} {a b e f : Value F} : K.Agree w a b → K.Env w e f →
    K.Both w (evalIf host depth a e) (evalIf host depth b f) K.Agree
  list {w : K.World} {a b e f : Value F} : K.Agree w a b → K.Env w e f →
    K.Both w (evalList host depth a e) (evalList host depth b f) K.Agree
  sequence {w : K.World} {a b c d e f : Value F} : K.Agree w c d → K.Agree w a b → K.Env w e f →
    K.Both w (evalSequence host depth c a e) (evalSequence host depth d b f) K.Agree
  apply {w : K.World} {a b c d e f : Value F} : K.Agree w a b → K.Agree w c d → K.Env w e f →
    K.Both w (applyWithin host depth a c e) (applyWithin host depth b d f) K.Agree

variable {host : Host F σ} {depth : Nat}

theorem EvalBoth.calls (both : K.EvalBoth host depth) :
    K.CallsBoth ⟨evalWithin host depth, applyWithin host depth⟩ :=
  ⟨both.eval, both.apply⟩

theorem EvalBoth.zero : K.EvalBoth host 0 := by
  constructor <;> intros <;> exact Both.never

namespace LawfulEnv

variable (lawful : K.LawfulEnv) (both : K.EvalBoth host depth) {a b c d e f : Value F}

include lawful both

theorem evalWithin_succ (agree : K.Agree w a b) (env : K.Env w e f) :
    K.Both w (evalWithin host (depth + 1) a e) (evalWithin host (depth + 1) b f) K.Agree := by
  have form := both.form agree env
  have value : K.Both w (Action.walk (·.value? a e)) (Action.walk (·.value? b f)) K.Agree :=
    lawful.walk fun m n fits => lawful.value fits agree env
  cases lawful.alike agree with
  | pair =>
      rw [evalWithin, evalWithin]
      exact form
  | solid solid =>
      cases a with
      | pair => cases solid
      | symbol | native | dictionary =>
          rw [evalWithin, evalWithin]
          exact value
      | nil | bool | number | string | eof => exact lawful.pure agree

theorem evalForm_succ (agree : K.Agree w a b) (env : K.Env w e f) :
    K.Both w (evalForm host (depth + 1) a e) (evalForm host (depth + 1) b f) K.Agree := by
  rw [evalForm, evalForm]
  apply Both.askThen (K.Agree w) fun m n fits => lawful.car fits agree
  intro head head' agreeHead
  rw [(lawful.alike agreeHead).ofHead?]
  cases Special.ofHead? head' with
  | none =>
      apply lawful.andThen (both.eval agreeHead env)
      intro u fn fn' leFn agreeFn
      apply Both.askThen (K.Agree u) fun m n fits => lawful.cdr fits (lawful.agree_mono leFn agree)
      intro rest rest' agreeRest
      apply lawful.andThen (both.list agreeRest (lawful.env_mono leFn env))
      intro v args args' leArgs agreeArgs
      exact both.apply (lawful.agree_mono leArgs agreeFn) agreeArgs
        (lawful.env_mono leArgs (lawful.env_mono leFn env))
  | some special =>
      cases special with
      | define =>
          apply Both.askThen (K.Agree w) fun m n fits => lawful.cadr fits agree
          intro name name' agreeName
          apply lawful.andThen
          · apply Both.alter
            intro m n fits
            exact lawful.cons fits (lawful.lambda w) (lawful.cddr fits agree)
          intro later literal literal' le agreeLiteral
          apply lawful.andThen (Both.updateWalk fun m n fits => lawful.assign fits
            (lawful.agree_mono le agreeName) agreeLiteral (lawful.env_mono le env))
          intro last _ _ leLast _
          exact lawful.pure (lawful.agree_mono leLast agreeLiteral)
      | conditional =>
          apply Both.askThen (K.Agree w) fun m n fits => lawful.cdr fits agree
          intro rest rest' agreeRest
          exact both.conditional agreeRest env
      | lambda => exact lawful.pure agree
      | sequence =>
          apply Both.askThen (K.Agree w) fun m n fits => lawful.cdr fits agree
          intro rest rest' agreeRest
          exact both.sequence (lawful.nil w) agreeRest env
      | quote => exact lawful.ask fun m n fits => lawful.cadr fits agree
      | assign =>
          apply Both.askThen (K.Agree w) fun m n fits => lawful.caddr fits agree
          intro expr expr' agreeExpr
          apply lawful.andThen (both.eval agreeExpr env)
          intro later value value' le agreeValue
          apply Both.askThen (K.Agree later) fun m n fits =>
            lawful.cadr fits (lawful.agree_mono le agree)
          intro name name' agreeName
          apply lawful.andThen (Both.updateWalk fun m n fits => lawful.assign fits agreeName
            agreeValue (lawful.env_mono le env))
          intro last _ _ leLast _
          exact lawful.pure (lawful.agree_mono leLast agreeValue)

theorem evalIf_succ (agree : K.Agree w a b) (env : K.Env w e f) :
    K.Both w (evalIf host (depth + 1) a e) (evalIf host (depth + 1) b f) K.Agree := by
  rw [evalIf, evalIf]
  apply Both.askThen (K.Agree w) fun m n fits => lawful.car fits agree
  intro expr expr' agreeExpr
  apply lawful.andThen (both.eval agreeExpr env)
  intro later test test' le agreeTest
  have agreeList := lawful.agree_mono le agree
  rw [(lawful.alike agreeTest).isTrue]
  apply Both.askThen (K.Agree later)
  · intro m n fits
    split
    · exact lawful.cadr fits agreeList
    · exact lawful.caddr fits agreeList
  · intro branch branch' agreeBranch
    exact both.eval agreeBranch (lawful.env_mono le env)

theorem evalList_succ (agree : K.Agree w a b) (env : K.Env w e f) :
    K.Both w (evalList host (depth + 1) a e) (evalList host (depth + 1) b f) K.Agree := by
  cases lawful.alike agree with
  | pair =>
      rw [evalList, evalList]
      apply Both.askThen (K.Agree w) fun m n fits => lawful.cdr fits agree
      intro rest rest' agreeRest
      apply Both.askThen (K.Agree w) fun m n fits => lawful.car fits agree
      intro expr expr' agreeExpr
      apply lawful.andThen (both.eval agreeExpr env)
      intro u value value' le agreeValue
      apply lawful.andThen (both.list (lawful.agree_mono le agreeRest) (lawful.env_mono le env))
      intro v values values' leRest agreeValues
      exact .alter fun m n fits => lawful.cons fits (lawful.agree_mono leRest agreeValue) agreeValues
  | solid solid =>
      cases a with
      | pair => cases solid
      | _ => exact lawful.pure (lawful.nil w)

theorem evalSequence_succ (last : K.Agree w c d) (agree : K.Agree w a b) (env : K.Env w e f) :
    K.Both w (evalSequence host (depth + 1) c a e) (evalSequence host (depth + 1) d b f) K.Agree := by
  cases lawful.alike agree with
  | pair =>
      rw [evalSequence, evalSequence]
      apply Both.askThen (K.Agree w) fun m n fits => lawful.cdr fits agree
      intro rest rest' agreeRest
      apply Both.askThen (K.Agree w) fun m n fits => lawful.car fits agree
      intro expr expr' agreeExpr
      apply lawful.andThen (both.eval agreeExpr env)
      intro later value value' le agreeValue
      exact both.sequence agreeValue (lawful.agree_mono le agreeRest) (lawful.env_mono le env)
  | solid solid =>
      cases a with
      | pair => cases solid
      | _ => exact lawful.pure last

theorem applyWithin_succ (hostBoth : K.HostBoth host) (agree : K.Agree w a b)
    (args : K.Agree w c d) (env : K.Env w e f) :
    K.Both w (applyWithin host (depth + 1) a c e) (applyWithin host (depth + 1) b d f) K.Agree := by
  have bound : K.Both w (Action.alterWalk fun s => s.bind? (s.cadr a) c e)
      (Action.alterWalk fun s => s.bind? (s.cadr b) d f) K.Env :=
    .alterWalk fun m n fits => lawful.bind fits (lawful.cadr fits agree) args env
  cases lawful.alike agree with
  | pair =>
      rw [applyWithin, applyWithin]
      apply Both.askThen (K.Agree w) fun m n fits => lawful.car fits agree
      intro head head' agreeHead
      rw [lawful.same agreeHead (lawful.lambda w)]
      split
      · apply lawful.andThen bound
        intro later inner inner' le innerEnv
        apply Both.askThen (K.Agree later) fun m n fits => lawful.cddr fits (lawful.agree_mono le agree)
        intro body body' agreeBody
        exact both.sequence (lawful.nil later) agreeBody innerEnv
      · exact lawful.pure (lawful.nil w)
  | solid solid =>
      cases a with
      | pair => cases solid
      | native function =>
          cases function with
          | builtin builtin => exact lawful.builtin both.calls builtin args env
          | host function => exact hostBoth _ both.calls w function c d e f args env
      | _ => exact lawful.pure (lawful.nil w)

end LawfulEnv

/-- What the operations of the store do on both sides, evaluation does at every depth. -/
theorem LawfulEnv.evalBoth (lawful : K.LawfulEnv) (hostBoth : K.HostBoth host) (depth : Nat) :
    K.EvalBoth host depth := by
  induction depth with
  | zero => exact .zero
  | succ depth both =>
      exact
        { eval := lawful.evalWithin_succ both
          form := lawful.evalForm_succ both
          conditional := lawful.evalIf_succ both
          list := lawful.evalList_succ both
          sequence := lawful.evalSequence_succ both
          apply := lawful.applyWithin_succ both hostBoth }

theorem LawfulEnv.evalGlobal (lawful : K.LawfulEnv) (hostBoth : K.HostBoth host) {a b : Value F}
    (agree : K.Agree w a b) (empty : K.Env w .nil .nil) :
    K.Both w (host.evalGlobal a) (host.evalGlobal b) K.Agree :=
  (lawful.evalBoth hostBoth depthBound).eval agree empty

end Sides

end SmallLisp
