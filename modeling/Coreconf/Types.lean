import Mathlib.Data.List.Basic
import Mathlib.Data.List.TakeWhile

set_option autoImplicit false

/- coreconfTypes.c: the values of the data model, and the chained hash map that
holds the members of a container by SID. -/
namespace Coreconf

/-- A C string: the bytes before its terminating NUL. -/
structure CString where
  bytes : List UInt8
  noNul : (0 : UInt8) ∉ bytes
deriving DecidableEq

/-- What a reader of a NUL-terminated buffer sees of it. -/
def CString.ofBuffer (buffer : List UInt8) : CString where
  bytes := buffer.takeWhile (· ≠ 0)
  noNul := by
    intro member
    simpa using List.mem_takeWhile_imp member

@[simp] theorem CString.ofBuffer_bytes (s : CString) : CString.ofBuffer s.bytes = s := by
  obtain ⟨bytes, noNul⟩ := s
  simp only [CString.ofBuffer, CString.mk.injEq]
  refine List.takeWhile_eq_self_iff.mpr fun byte member => ?_
  have other : byte ≠ 0 := fun same => noNul (same ▸ member)
  simpa using other

def HASHMAP_TABLE_SIZE : Nat := 100
def CORECONF_MAX_DEPTH : Nat := 20
def CORECONF_MAX_LOOP : Nat := 50

/-- An object of a chain; `none` is a NULL value pointer. -/
structure CoreconfObjectT (V : Type) where
  key : UInt64
  value : Option V

/-- `next` pointers are the order of a chain's list. -/
structure CoreconfHashMapT (V : Type) where
  table : List (List (CoreconfObjectT V))
  size : Nat

/-- A real is kept as the bits of its double. -/
inductive CoreconfValueT where
  | array (elements : List CoreconfValueT)
  | string (s : CString)
  | real (bits : UInt64)
  | int8 (i : Int8)
  | int16 (i : Int16)
  | int32 (i : Int32)
  | int64 (i : Int64)
  | uint8 (u : UInt8)
  | uint16 (u : UInt16)
  | uint32 (u : UInt32)
  | uint64 (u : UInt64)
  | true
  | false
  | null
  | hashmap (map : CoreconfHashMapT CoreconfValueT)

variable {V σ : Type}

/-- The product is a signed long, so the shift brings its sign in. -/
def hashKey (key : UInt32) : Nat :=
  ((key.toUInt64 * 2654435769).toInt64 >>> 32).toUInt64.toNat % HASHMAP_TABLE_SIZE

def createCoreconfHashmap : CoreconfHashMapT V where
  table := List.replicate HASHMAP_TABLE_SIZE []
  size := 0

def createCoreconfBoolean (value : Bool) : CoreconfValueT :=
  if value then .true else .false

/-- Outcome of the search `insertCoreconfHashMap` makes along a chain. -/
inductive ChainWalk (V : Type) where
  | updated (chain : List (CoreconfObjectT V))
  | absent
  | loopCountExceeded

def walkChain (key : UInt64) (value : Option V) : Nat → List (CoreconfObjectT V) → ChainWalk V
  | _, [] => .absent
  | loopCount, current :: next =>
      if loopCount > CORECONF_MAX_LOOP then .loopCountExceeded
      else if current.key = key then .updated ({ current with value := value } :: next)
      else
        match walkChain key value (loopCount + 1) next with
        | .updated chain => .updated (current :: chain)
        | .absent => .absent
        | .loopCountExceeded => .loopCountExceeded

/-- The chain a key belongs to. -/
def CoreconfHashMapT.chain (map : CoreconfHashMapT V) (key : UInt64) : List (CoreconfObjectT V) :=
  map.table.getD (hashKey key.toUInt32) []

def CoreconfHashMapT.setChain (map : CoreconfHashMapT V) (key : UInt64)
    (chain : List (CoreconfObjectT V)) : List (List (CoreconfObjectT V)) :=
  map.table.set (hashKey key.toUInt32) chain

def insertCoreconfHashMap (map : CoreconfHashMapT V) (key : UInt64) (value : Option V) :
    Int × CoreconfHashMapT V :=
  match walkChain key value 0 (map.chain key) with
  | .loopCountExceeded => (-1, map)
  | .updated chain => (0, { map with table := map.setChain key chain })
  | .absent =>
      (0, { table := map.setChain key ({ key := key, value := value } :: map.chain key)
            size := map.size + 1 })

/-- The chain without the first object of this key, if there is one. -/
def unlink (key : UInt64) : List (CoreconfObjectT V) → Option (List (CoreconfObjectT V))
  | [] => none
  | cur :: next => if cur.key = key then some next else (unlink key next).map (cur :: ·)

def deleteFromCoreconfHashMap (map : CoreconfHashMapT V) (key : UInt64) :
    Int × CoreconfHashMapT V :=
  match unlink key (map.chain key) with
  | none => (-1, map)
  | some chain => (0, { table := map.setChain key chain, size := map.size - 1 })

def getCoreconfHashMap (map : CoreconfHashMapT V) (key : UInt64) : Option V :=
  match (map.chain key).find? (·.key = key) with
  | none => none
  | some current => current.value

/-- The chain after a store through the value pointer of this key's object. -/
def overwrite (key : UInt64) (value : V) : List (CoreconfObjectT V) → List (CoreconfObjectT V)
  | [] => []
  | current :: next =>
      if current.key = key then { current with value := some value } :: next
      else current :: overwrite key value next

/-- A change of the value that `getCoreconfHashMap` points to. -/
def storeThroughGet (map : CoreconfHashMapT V) (key : UInt64) (value : V) : CoreconfHashMapT V :=
  { map with table := map.setChain key (overwrite key value (map.chain key)) }

def iterateCoreconfHashMap (map : CoreconfHashMapT V) (f : σ → CoreconfObjectT V → σ) (udata : σ) : σ :=
  map.table.foldl (fun udata chain => chain.foldl f udata) udata

def addToCoreconfArray (arr : List V) (value : V) : List V := arr ++ [value]

/-- The objects in the order in which the table is walked. -/
def CoreconfHashMapT.objects (map : CoreconfHashMapT V) : List (CoreconfObjectT V) :=
  map.table.flatten

theorem iterateCoreconfHashMap_eq (map : CoreconfHashMapT V) (f : σ → CoreconfObjectT V → σ)
    (udata : σ) : iterateCoreconfHashMap map f udata = map.objects.foldl f udata := by
  rw [iterateCoreconfHashMap, CoreconfHashMapT.objects, List.foldl_flatten]

theorem hashKey_lt (key : UInt32) : hashKey key < HASHMAP_TABLE_SIZE :=
  Nat.mod_lt _ (by decide)

end Coreconf
