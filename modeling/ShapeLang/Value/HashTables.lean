import ShapeLang.Lib.PositionIndex

/-!
# Hash maps and hash sets

A map keeps its keys and its values in two tables, in the order of insertion, and a hash index of
the positions. The tables grow by doubling. The keys are pushed by a function that gives up when the
execution's ceiling for one buffer is passed, the values by one that only records it; a position in
the index is a 32-bit number.

A value stands for the share of a heap object that its holder owns. An operation says which shares
it makes (`cloned`) and which it gives up (`released`). The keys are strings; an absent bucket of
the index reads as an empty one.
-/

namespace ShapeLang.Value

open ShapeLang.Lib

/-- The doubling of a table. -/
def newCap (cap : Nat) : Except TableFault Nat :=
  if cap = 0 then .ok 4
  else if cap * 2 < 2 ^ 32 then .ok (cap * 2)
  else .error .capacityOverflow

/-- `check_size`: without a ceiling every size is fine. -/
def checkSize (ceiling : Option Nat) (bytes : Nat) : Bool := ceiling.all fun limit => bytes ≤ limit

section

variable {T V : Type}

structure TypedArray (T : Type) where
  data : List T
  cap : Nat

namespace TypedArray

def new : TypedArray T := ⟨[], 0⟩

/-- A push of a pointer. When the ceiling does not allow the growth, nothing is written. -/
def push (ceiling : Option Nat) (array : TypedArray T) (val : T) : Except TableFault (TypedArray T) :=
  if array.data.length = array.cap then
    (newCap array.cap).map fun cap =>
      if checkSize ceiling (cap * 8) then ⟨array.data ++ [val], cap⟩ else array
  else .ok { array with data := array.data ++ [val] }

end TypedArray

structure HashMapData (V : Type) where
  keys : TypedArray String
  values : TypedArray V
  index : UInt64 → List Nat

namespace HashMapData

def new : HashMapData V := ⟨.new, .new, fun _ => []⟩

/-- A push onto the values, which grow in any case. -/
def valuesPush (values : TypedArray V) (value : V) : Except TableFault (TypedArray V) :=
  if values.data.length = values.cap then (newCap values.cap).map fun cap => ⟨values.data ++ [value], cap⟩
  else .ok { values with data := values.data ++ [value] }

section

variable (hash : String → UInt64) (ceiling : Option Nat)

def getIndex (map : HashMapData V) (key : String) : Except TableFault (Option Nat) :=
  (scan map.keys.data key (map.index (hash key))).map (Option.map Prod.snd)

/-- The value at a position that the index gave. -/
def valueAt (map : HashMapData V) (i : Nat) : Except TableFault V :=
  match map.values.data[i]? with
  | some value => .ok value
  | none => .error .outOfRange

/-- What an insertion did: the map, whether the key was new, the shares that were released. -/
structure Insertion (V : Type) where
  map : HashMapData V
  isNew : Bool
  released : List V

def insert (map : HashMapData V) (key : String) (value : V) : Except TableFault (Insertion V) := do
  match ← scan map.keys.data key (map.index (hash key)) with
  | some (_, i) =>
    let old ← map.valueAt i
    return ⟨{ map with values := { map.values with data := map.values.data.set i value } }, false, [old]⟩
  | none =>
    let newIdx := map.keys.data.length
    let keys ← map.keys.push ceiling key
    let values ← valuesPush map.values value
    let index := Function.update map.index (hash key) (map.index (hash key) ++ [newIdx])
    return ⟨{ keys, values, index }, true, []⟩

/-- The insertion through a raw pointer. -/
def insertAt (map : HashMapData V) (key : String) (value : V) : Except TableFault (Insertion V) :=
  map.insert hash ceiling key value

def remove (map : HashMapData V) (key : String) : Except TableFault (HashMapData V × Option V) := do
  match ← scan map.keys.data key (map.index (hash key)) with
  | none => return (map, none)
  | some (place, removedIdx) =>
    let index := Function.update map.index (hash key) (swapRemove (map.index (hash key)) place)
    let removed ← map.valueAt removedIdx
    let n := map.keys.data.length
    return ({ keys := { map.keys with data := shiftDown map.keys.data removedIdx n }
              values := { map.values with data := shiftDown map.values.data removedIdx n }
              index := renumber removedIdx index }, some removed)

/-- The share that is returned is a new one. -/
def getShare (map : HashMapData V) (key : String) : Except TableFault (Option V) := do
  match ← map.getIndex hash key with
  | none => return none
  | some i => return some (← map.valueAt i)

/-- A map with the shares that a merge has cloned for it and released. -/
structure Merge (V : Type) where
  map : HashMapData V
  cloned : List V
  released : List V

/-- The entry of the other map at `i` is cloned and inserted. -/
def mergeEntry (other : HashMapData V) (merged : Merge V) (i : Nat) : Except TableFault (Merge V) := do
  match other.keys.data[i]? with
  | none => .error .outOfRange
  | some key =>
    let value ← other.valueAt i
    let inserted ← merged.map.insert hash ceiling key value
    return ⟨inserted.map, merged.cloned ++ [value], merged.released ++ inserted.released⟩

def merge (map other : HashMapData V) : Except TableFault (Merge V) :=
  (List.range other.keys.data.length).foldlM (mergeEntry hash ceiling other) ⟨map, [], []⟩

end

/-- The shares that the end of a map releases. -/
def drop (map : HashMapData V) : List V := map.values.data

end HashMapData

inductive HashSetElementKind where
  | string
  | i64
deriving DecidableEq

def HashSetElementKind.name : HashSetElementKind → String
  | .string => "string"
  | .i64 => "int"

/-- The part of a set that its string operations use. -/
structure HashSetData where
  elementKind : HashSetElementKind
  keys : List String
  index : UInt64 → List Nat

namespace HashSetData

def new : HashSetData := ⟨.string, [], fun _ => []⟩

section

variable (hash : String → UInt64)

def contains (set : HashSetData) (key : String) : Except TableFault Bool :=
  if set.elementKind ≠ .string then .ok false
  else (scan set.keys key (set.index (hash key))).map Option.isSome

/-- The position is cast to 32 bits. -/
def insert (set : HashSetData) (key : String) : Except TableFault (HashSetData × Except String Bool) :=
  if set.elementKind ≠ .string then
    .ok (set, .error ("HashSetData::insert(string) called on " ++ set.elementKind.name ++ " set"))
  else do
    match ← scan set.keys key (set.index (hash key)) with
    | some _ => return (set, .ok false)
    | none =>
      let newIdx := set.keys.length
      let index := Function.update set.index (hash key) (set.index (hash key) ++ [newIdx % 2 ^ 32])
      return ({ set with keys := set.keys ++ [key], index }, .ok true)

def remove (set : HashSetData) (key : String) : Except TableFault (HashSetData × Bool) :=
  if set.elementKind ≠ .string then .ok (set, false)
  else do
    match ← scan set.keys key (set.index (hash key)) with
    | none => return (set, false)
    | some (place, removedIdx) =>
      let index := Function.update set.index (hash key) (swapRemove (set.index (hash key)) place)
      return ({ set with keys := set.keys.eraseIdx removedIdx, index := renumber removedIdx index }, true)

end

end HashSetData

end

end ShapeLang.Value
