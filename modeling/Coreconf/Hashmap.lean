import Coreconf.Fuel
import Mathlib.Algebra.Group.Nat.Defs
import Mathlib.Data.List.GetD

set_option autoImplicit false

/- hashmap.c: a table of buckets with open addressing, in which an entry that is further
from its home takes the bucket of one that is nearer. Sizes are unbounded but for the capacity
that a map is made with, and `alloc` tells whether `malloc` gives the memory that a resize asks
for. A loop round the table is given as many rounds as there are buckets; `none` is one that
these do not end. -/
namespace Coreconf

open Fuel (Step)

/-- The functions and seeds a map is made with; without a compare function the items of one
hash are equal. -/
structure ItemCalls (T : Type) where
  seed0 : UInt64
  seed1 : UInt64
  hash : T → UInt64 → UInt64 → UInt64
  compare : Option (T → T → Int)

/-- `dib` has 16 bits and `hash` 48. The item of a bucket that was not written yet is its
zero bytes, the default. -/
structure Bucket (T : Type) where
  hash : UInt64
  dib : Nat
  item : T

structure Hashmap (T : Type) extends ItemCalls T where
  cap : Nat
  nbuckets : Nat
  count : Nat
  mask : Nat
  growat : Nat
  shrinkat : Nat
  growpower : Nat
  oom : Bool
  buckets : List (Bucket T)

variable {T : Type}

def clipHash (hash : UInt64) : UInt64 := hash &&& 0xFFFFFFFFFFFF

def ItemCalls.getHash (calls : ItemCalls T) (key : T) : UInt64 :=
  clipHash (calls.hash key calls.seed0 calls.seed1)

def ItemCalls.equal (calls : ItemCalls T) (a b : T) : Bool :=
  match calls.compare with
  | none => true
  | some compare => compare a b == 0

variable [Inhabited T]

def emptyBucket : Bucket T := ⟨0, 0, default⟩

def bucketAt (buckets : List (Bucket T)) (i : Nat) : Bucket T := buckets.getD i emptyBucket

/-- The doubling of a capacity of 16 up to the one asked for. -/
def roundCap : Nat → Nat → Nat → Nat
  | 0, ncap, _ => ncap
  | n + 1, ncap, cap => if ncap < cap then roundCap n (ncap * 2) cap else ncap

namespace Hashmap

/-- The products with `GROW_AT` and `SHRINK_AT` lose their fractions. -/
def newWithAllocator (calls : ItemCalls T) (cap : Nat) : Hashmap T :=
  let cap := roundCap cap 16 cap
  { toItemCalls := calls
    cap := cap
    nbuckets := cap
    count := 0
    mask := cap - 1
    growat := cap * 60 / 100
    shrinkat := cap * 10 / 100
    growpower := 1
    oom := false
    buckets := List.replicate cap emptyBucket }

/-- Below 2^48, so that the product with a bucket size of less than 2^16 does not wrap. -/
abbrev Capacity := Fin 0x1000000000000

instance : OfNat Capacity 0 := ⟨⟨0, by decide⟩⟩

def new (calls : ItemCalls T) (cap : Capacity) : Hashmap T := newWithAllocator calls cap

def setGrowByPower (map : Hashmap T) (power : Nat) : Hashmap T :=
  { map with growpower := if power < 1 then 1 else if power > 16 then 16 else power }

/-- An entry on its way round the table. -/
structure Probe (T : Type) where
  buckets : List (Bucket T)
  entry : Bucket T
  i : Nat

/-- On from a bucket that is taken, with its entry if that is nearer to its home. -/
def Probe.advance (mask : Nat) (probe : Probe T) : Probe T :=
  let bucket := bucketAt probe.buckets probe.i
  let (buckets, entry) :=
    if bucket.dib < probe.entry.dib then (probe.buckets.set probe.i probe.entry, bucket)
    else (probe.buckets, probe.entry)
  ⟨buckets, { entry with dib := (entry.dib + 1) % 0x10000 }, (probe.i + 1) &&& mask⟩

/-- The loop of `resize0` for one entry. -/
def placeBody (mask : Nat) (probe : Probe T) : Option (Step (Probe T) (List (Bucket T))) :=
  if (bucketAt probe.buckets probe.i).dib = 0 then some (.done (probe.buckets.set probe.i probe.entry))
  else some (.next (probe.advance mask))

def place (mask nbuckets : Nat) (buckets : List (Bucket T)) (entry : Bucket T) : Option (List (Bucket T)) :=
  if entry.dib = 0 then some buckets
  else Fuel.loop (placeBody mask) nbuckets ⟨buckets, { entry with dib := 1 }, entry.hash.toNat &&& mask⟩

/-- Without memory the map stays as it is and the result is false. -/
def resize (alloc : Bool) (map : Hashmap T) (newCap : Nat) : Option (Bool × Hashmap T) :=
  if !alloc then some (false, map)
  else
    let map2 := newWithAllocator map.toItemCalls newCap
    (map.buckets.foldlM (place map2.mask map2.nbuckets) map2.buckets).map fun buckets =>
      (true,
        { map with
          buckets := buckets
          nbuckets := map2.nbuckets
          mask := map2.mask
          growat := map2.growat
          shrinkat := map2.shrinkat })

inductive SetExit (T : Type) where
  | inserted (buckets : List (Bucket T))
  | replaced (buckets : List (Bucket T)) (old : T)

def setBody (calls : ItemCalls T) (mask : Nat) (probe : Probe T) : Option (Step (Probe T) (SetExit T)) :=
  let bucket := bucketAt probe.buckets probe.i
  if bucket.dib = 0 then some (.done (.inserted (probe.buckets.set probe.i probe.entry)))
  else if probe.entry.hash = bucket.hash ∧ calls.equal probe.entry.item bucket.item then
    some (.done (.replaced (probe.buckets.set probe.i { bucket with item := probe.entry.item }) bucket.item))
  else some (.next (probe.advance mask))

def store (map : Hashmap T) (item : T) (hash : UInt64) : Option (Option T × Hashmap T) :=
  (Fuel.loop (setBody map.toItemCalls map.mask) map.nbuckets
    ⟨map.buckets, ⟨hash, 1, item⟩, hash.toNat &&& map.mask⟩).map fun
      | .inserted buckets => (none, { map with buckets := buckets, count := map.count + 1 })
      | .replaced buckets old => (some old, { map with buckets := buckets })

/-- The item that was replaced, or NULL, and the map afterwards. -/
def setWithHash (alloc : Bool) (map : Hashmap T) (item : T) (hash : UInt64) : Option (Option T × Hashmap T) :=
  let hash := clipHash hash
  let map := { map with oom := false }
  if map.count = map.growat then
    (resize alloc map (map.nbuckets * 2 ^ map.growpower)).bind fun (resized, map) =>
      if !resized then some (none, { map with oom := true }) else map.store item hash
  else map.store item hash

def set (alloc : Bool) (map : Hashmap T) (item : T) : Option (Option T × Hashmap T) :=
  map.setWithHash alloc item (map.getHash item)

/-- One bucket of the search that `hashmap_get_with_hash` and `hashmap_delete_with_hash`
make: it ends at an item that is equal, with its index, and at a bucket that is free. -/
def searchBody (map : Hashmap T) (key : T) (hash : UInt64) (i : Nat) : Option (Step Nat (Option Nat)) :=
  let bucket := bucketAt map.buckets i
  if bucket.dib = 0 then some (.done none)
  else if bucket.hash = hash ∧ map.equal key bucket.item then some (.done (some i))
  else some (.next ((i + 1) &&& map.mask))

def search (map : Hashmap T) (key : T) (hash : UInt64) : Option (Option Nat) :=
  Fuel.loop (map.searchBody key hash) map.nbuckets (hash.toNat &&& map.mask)

def getWithHash (map : Hashmap T) (key : T) (hash : UInt64) : Option (Option T) :=
  (map.search key (clipHash hash)).map fun found => found.map fun i => (bucketAt map.buckets i).item

def get (map : Hashmap T) (key : T) : Option (Option T) := map.getWithHash key (map.getHash key)

/-- The bucket that a position names, whatever is in it. -/
def probe (map : Hashmap T) (position : UInt64) : Option T :=
  let bucket := bucketAt map.buckets (position.toNat &&& map.mask)
  if bucket.dib = 0 then none else some bucket.item

/-- A bucket that is given up takes the entry of the next, one nearer to its home, as long as
that is not at home. -/
def shiftBody (mask : Nat) (hole : List (Bucket T) × Nat) : Option (Step (List (Bucket T) × Nat) (List (Bucket T))) :=
  let (buckets, prev) := hole
  let i := (prev + 1) &&& mask
  let bucket := bucketAt buckets i
  if bucket.dib ≤ 1 then some (.done (buckets.set prev { bucketAt buckets prev with dib := 0 }))
  else some (.next (buckets.set prev { bucket with dib := bucket.dib - 1 }, i))

/-- The item that was deleted, or NULL, and the map afterwards; a shrink that has no memory is
left. -/
def deleteWithHash (alloc : Bool) (map : Hashmap T) (key : T) (hash : UInt64) : Option (Option T × Hashmap T) :=
  let map := { map with oom := false }
  (map.search key (clipHash hash)).bind fun
    | none => some (none, map)
    | some i =>
        let bucket := bucketAt map.buckets i
        (Fuel.loop (shiftBody map.mask) map.nbuckets (map.buckets.set i { bucket with dib := 0 }, i)).bind
          fun buckets =>
            let map := { map with buckets := buckets, count := map.count - 1 }
            if map.nbuckets > map.cap ∧ map.count ≤ map.shrinkat then
              (resize alloc map (map.nbuckets / 2)).map fun (_, map) => (some bucket.item, map)
            else some (some bucket.item, map)

def delete (alloc : Bool) (map : Hashmap T) (key : T) : Option (Option T × Hashmap T) :=
  map.deleteWithHash alloc key (map.getHash key)

/-- A table whose smaller one cannot be had is kept, but only as many of its buckets are used. -/
def clear (updateCap : Bool) (map : Hashmap T) : Hashmap T :=
  let map := if updateCap then { map with count := 0, cap := map.nbuckets }
    else { map with count := 0, nbuckets := map.cap }
  { map with
    buckets := List.replicate map.nbuckets emptyBucket
    mask := map.nbuckets - 1
    growat := map.nbuckets * 75 / 100
    shrinkat := map.nbuckets * 10 / 100 }

/-- Whether the scan came to its end, and what `iter` makes of the items on the way. -/
def scan {σ : Type} (map : Hashmap T) (iter : σ → T → Bool × σ) (udata : σ) : Bool × σ :=
  go map.buckets udata
where
  go : List (Bucket T) → σ → Bool × σ
    | [], udata => (true, udata)
    | bucket :: rest, udata =>
        if bucket.dib = 0 then go rest udata
        else
          match iter udata bucket.item with
          | (false, udata) => (false, udata)
          | (true, udata) => go rest udata

/-- The item of the next bucket that is taken, from an index on, and the index behind it. -/
def iter (map : Hashmap T) (i : Nat) : Option (T × Nat) :=
  go (map.buckets.drop i) i
where
  go : List (Bucket T) → Nat → Option (T × Nat)
    | [], _ => none
    | bucket :: rest, i => if bucket.dib = 0 then go rest (i + 1) else some (bucket.item, i + 1)

/-- `while (hashmap_iter(map, &i, &item))`. -/
def iterate (map : Hashmap T) : Nat → Nat → List T
  | 0, _ => []
  | n + 1, i =>
      match map.iter i with
      | none => []
      | some (item, i) => item :: map.iterate n i

end Hashmap

end Coreconf
