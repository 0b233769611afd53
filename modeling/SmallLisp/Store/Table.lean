import SmallLisp.Value

/-! # Tables

Dictionaries are hash tables. What the machine asks of them is little: to find, to keep, to forget and
to tell the keys. In which order a table tells them is its own affair. A `Dictionary` is a table that
keeps its entries in the order of their ages and tells its keys in an order that is given to it. -/

namespace SmallLisp

/-- What can be asked of a table that keeps values under keys. -/
class Table (T : Type) (K V : outParam Type) where
  find? : K → T → Option V
  /-- Keep a value under a key. -/
  insert : K → V → T → T
  clear : T → T
  keys : T → List K

/-- An order of the keys of a table. It may be another one after each change of the table. -/
structure KeyOrder where
  /-- The places of the keys, where the oldest one has place zero, after so many changes. -/
  places : (changes count : Nat) → List Nat
  complete : ∀ changes count, (places changes count).Perm (List.range count)

namespace KeyOrder

def oldestFirst : KeyOrder := ⟨fun _ count => List.range count, fun _ _ => .refl _⟩

/-- The keys, given oldest first, in this order. -/
def arrange {K : Type} (order : KeyOrder) (changes : Nat) (keys : List K) : List K :=
  (order.places changes keys.length).filterMap (keys[·]?)

end KeyOrder

/-- A dictionary: its entries, oldest first, how often it was changed, and the order of its keys. -/
structure Dictionary (F : Type) where
  entries : List (Value F × Value F)
  changes : Nat
  order : KeyOrder

namespace Dictionary

variable {F : Type}

def empty (order : KeyOrder) : Dictionary F := ⟨[], 0, order⟩

def clear (d : Dictionary F) : Dictionary F :=
  { d with entries := [], changes := d.changes + 1 }

def keys (d : Dictionary F) : List (Value F) :=
  d.order.arrange d.changes (d.entries.map Prod.fst)

variable [DecidableEq F]

/-- The entry is found under the key: its own key has the same digest, and is the same. -/
def isUnder (key : Value F) (entry : Value F × Value F) : Bool :=
  decide (entry.1.digest = key.digest) && entry.1.same key

def find? (key : Value F) (d : Dictionary F) : Option (Value F) :=
  (d.entries.find? (isUnder key)).map Prod.snd

/-- Keep a value in the entry under a key, or in a new one. The key of an old entry stays as it is. -/
def enter (key value : Value F) : List (Value F × Value F) → List (Value F × Value F)
  | [] => [(key, value)]
  | entry :: rest =>
      if isUnder key entry then (entry.1, value) :: rest else entry :: enter key value rest

def put (key value : Value F) (d : Dictionary F) : Dictionary F :=
  { d with entries := enter key value d.entries, changes := d.changes + 1 }

instance : Table (Dictionary F) (Value F) (Value F) := ⟨find?, put, clear, keys⟩

end Dictionary

end SmallLisp
