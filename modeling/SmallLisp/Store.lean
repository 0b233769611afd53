import SmallLisp.Store.Table

/-! # The store

The contents of all objects: the two halves of each pair, the name and the global slot of each
symbol, and the table of each dictionary. The symbol table is the sequence of interned symbols, in
which a symbol keeps its place for good. All accesses are lenient: what has no halves, no slot or no
entries answers `nil`, and writing to it does nothing. -/

namespace SmallLisp

structure Pair (F : Type) where
  car : Value F
  cdr : Value F
  deriving DecidableEq

structure SymbolCell (F : Type) where
  name : String
  value : Value F
  deriving DecidableEq

/-- The contents of all objects. Dictionaries are tables of a type `D`. -/
structure Store (F : Type) (D : Type := Dictionary F) where
  pairs : Array (Pair F)
  interned : Array (SymbolCell F)
  /-- The symbols outside the table. -/
  loose : Array (SymbolCell F)
  dictionaries : Array D
  /-- The order of the keys of each dictionary that will be made. -/
  orders : Nat → KeyOrder := fun _ => .oldestFirst

namespace Store

variable {F D : Type}

def empty : Store F := { pairs := #[], interned := #[], loose := #[], dictionaries := #[] }

/-! ### Pairs -/

def car (s : Store F D) : Value F → Value F
  | .pair p => match s.pairs[p]? with
      | some pair => pair.car
      | none => .nil
  | _ => .nil

def cdr (s : Store F D) : Value F → Value F
  | .pair p => match s.pairs[p]? with
      | some pair => pair.cdr
      | none => .nil
  | _ => .nil

def cadr (s : Store F D) (v : Value F) : Value F := s.car (s.cdr v)

def cddr (s : Store F D) (v : Value F) : Value F := s.cdr (s.cdr v)

def caddr (s : Store F D) (v : Value F) : Value F := s.car (s.cddr v)

def cons (car cdr : Value F) (s : Store F D) : Value F × Store F D :=
  (.pair s.pairs.size, { s with pairs := s.pairs.push ⟨car, cdr⟩ })

def setCar (target value : Value F) (s : Store F D) : Store F D :=
  match target with
  | .pair p => { s with pairs := s.pairs.modify p fun pair => { pair with car := value } }
  | _ => s

def setCdr (target value : Value F) (s : Store F D) : Store F D :=
  match target with
  | .pair p => { s with pairs := s.pairs.modify p fun pair => { pair with cdr := value } }
  | _ => s

def list : List (Value F) → Store F D → Value F × Store F D
  | [], s => (.nil, s)
  | item :: items, s =>
      let (tail, s) := s.list items
      s.cons item tail

/-! ### Symbols -/

def symbol? (s : Store F) : SymbolId → Option (SymbolCell F)
  | .interned i => s.interned[i]?
  | .loose i => s.loose[i]?

/-- The name of a symbol, empty for other values. -/
def symbolName (s : Store F) : Value F → String
  | .symbol id => match s.symbol? id with
      | some symbol => symbol.name
      | none => ""
  | _ => ""

def symbolValue (s : Store F) : Value F → Value F
  | .symbol id => match s.symbol? id with
      | some symbol => symbol.value
      | none => .nil
  | _ => .nil

def setSymbolValue (target value : Value F) (s : Store F) : Store F :=
  match target with
  | .symbol (.interned i) =>
      { s with interned := s.interned.modify i fun symbol => { symbol with value := value } }
  | .symbol (.loose i) =>
      { s with loose := s.loose.modify i fun symbol => { symbol with value := value } }
  | _ => s

/-- The symbol of the table that has this name. -/
def lookup? (s : Store F) (name : String) : Option (Value F) :=
  (s.interned.findIdx? (·.name == name)).map fun i => .symbol (.interned i)

/-- The symbol of the table that has this name, entered at its end if there is none. -/
def intern (name : String) (s : Store F) : Value F × Store F :=
  match s.lookup? name with
  | some symbol => (symbol, s)
  | none =>
      (.symbol (.interned s.interned.size), { s with interned := s.interned.push ⟨name, .nil⟩ })

def internAll (names : List String) (s : Store F) : Store F :=
  names.foldl (fun s name => (s.intern name).2) s

/-- Make a symbol outside the table. -/
def makeSymbol (name : String) (s : Store F) : Value F × Store F :=
  (.symbol (.loose s.loose.size), { s with loose := s.loose.push ⟨name, .nil⟩ })

/-- The names of the symbol table, in the order of interning. -/
def names (s : Store F) : List String :=
  s.interned.toList.map SymbolCell.name

/-- Empty the global slots of the symbol table. -/
def clearValues (s : Store F) : Store F :=
  { s with interned := s.interned.map fun symbol => { symbol with value := .nil } }

/-- The names and slots of the symbol table, empty slots left out. -/
def globals (s : Store F) : List (String × Value F) :=
  (s.interned.toList.map fun symbol => (symbol.name, symbol.value)).filter (!·.2.isNil)

/-! ### Dictionaries -/

/-- The entries of a dictionary, oldest first. -/
def entries (s : Store F) : Value F → List (Value F × Value F)
  | .dictionary d => match s.dictionaries[d]? with
      | some dictionary => dictionary.entries
      | none => []
  | _ => []

def makeDictionary (s : Store F) : Value F × Store F :=
  let id := s.dictionaries.size
  (.dictionary id, { s with dictionaries := s.dictionaries.push (.empty (s.orders id)) })

variable [Table D (Value F) (Value F)]

/-- The value that a dictionary keeps under a key, or else the default. What is no dictionary answers
    `nil`. -/
def getOr (s : Store F D) (target key default : Value F) : Value F :=
  match target with
  | .dictionary d => (s.dictionaries[d]? >>= Table.find? key).getD default
  | _ => .nil

def get (s : Store F D) (target key : Value F) : Value F :=
  s.getOr target key .nil

/-- Keep a value under a key; the answer is the value. -/
def put (target key value : Value F) (s : Store F D) : Value F × Store F D :=
  match target with
  | .dictionary d =>
      (value, { s with dictionaries := s.dictionaries.modify d (Table.insert key value) })
  | _ => (.nil, s)

/-- The keys of a dictionary. Each one is put in front of those that the table tells before it. -/
def listing (s : Store F D) : Value F → List (Value F)
  | .dictionary d => match s.dictionaries[d]? with
      | some table => (Table.keys table).reverse
      | none => []
  | _ => []

/-- A fresh list of the keys of a dictionary. -/
def keys (target : Value F) (s : Store F D) : Value F × Store F D :=
  s.list (s.listing target)

/-- Remove all entries; the answer is the dictionary. -/
def clear (target : Value F) (s : Store F D) : Value F × Store F D :=
  match target with
  | .dictionary d => (target, { s with dictionaries := s.dictionaries.modify d Table.clear })
  | _ => (.nil, s)

end Store

end SmallLisp
