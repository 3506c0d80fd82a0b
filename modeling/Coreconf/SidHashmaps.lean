import Coreconf.HashmapRuns
import Coreconf.KeyMappings
import Coreconf.ParentIndex

set_option autoImplicit false

/- The index of parents and the key mappings in the tables that the program has them in, with
hashmap.c's hash of a SID. The tables answer as the lists of items do. -/
namespace Coreconf

open Fuel (Step)

section Murmur

def rotl32 (x r : UInt32) : UInt32 := x <<< r ||| x >>> (32 - r)

def fmix32 (h : UInt32) : UInt32 :=
  let h := (h ^^^ h >>> 16) * 0x85ebca6b
  let h := (h ^^^ h >>> 13) * 0xc2b2ae35
  h ^^^ h >>> 16

/-- A word of a little-endian machine. Bytes behind the end are zero: the words of the tail
that have none are not mixed in, which is what a zero does. -/
def readWord (data : List UInt8) (i : Nat) : UInt32 :=
  (data.getD i 0).toUInt32 ^^^ (data.getD (i + 1) 0).toUInt32 <<< 8 ^^^ (data.getD (i + 2) 0).toUInt32 <<< 16 ^^^
    (data.getD (i + 3) 0).toUInt32 <<< 24

structure MurmurState where
  h1 : UInt32
  h2 : UInt32
  h3 : UInt32
  h4 : UInt32

def murmurC1 : UInt32 := 0x239b961b
def murmurC2 : UInt32 := 0xab0e9789
def murmurC3 : UInt32 := 0x38b34ae5
def murmurC4 : UInt32 := 0xa1e38b93

/-- The four words of a block or of the tail, each into its own lane. -/
def murmurMix (data : List UInt8) (state : MurmurState) : MurmurState where
  h1 := state.h1 ^^^ rotl32 (readWord data 0 * murmurC1) 15 * murmurC2
  h2 := state.h2 ^^^ rotl32 (readWord data 4 * murmurC2) 16 * murmurC3
  h3 := state.h3 ^^^ rotl32 (readWord data 8 * murmurC3) 17 * murmurC4
  h4 := state.h4 ^^^ rotl32 (readWord data 12 * murmurC4) 18 * murmurC1

/-- The loop over the blocks of 16 bytes; the fourth lane takes up the new first one. -/
def murmurBlocks : Nat → List UInt8 → MurmurState → MurmurState
  | 0, _, state => state
  | nblocks + 1, data, state =>
      let mixed := murmurMix data state
      let h1 := (rotl32 mixed.h1 19 + state.h2) * 5 + 0x561ccd1b
      let h2 := (rotl32 mixed.h2 17 + state.h3) * 5 + 0x0bcaa747
      let h3 := (rotl32 mixed.h3 15 + state.h4) * 5 + 0x96cd1c35
      let h4 := (rotl32 mixed.h4 13 + h1) * 5 + 0x32ac3b17
      murmurBlocks nblocks (data.drop 16) ⟨h1, h2, h3, h4⟩

def murmurSums (state : MurmurState) : MurmurState :=
  let h1 := state.h1 + state.h2 + state.h3 + state.h4
  ⟨h1, state.h2 + h1, state.h3 + h1, state.h4 + h1⟩

def mm86128 (data : List UInt8) (seed : UInt32) : UInt64 :=
  let nblocks := data.length / 16
  let len := UInt32.ofNat data.length
  let state := murmurMix (data.drop (nblocks * 16)) (murmurBlocks nblocks data ⟨seed, seed, seed, seed⟩)
  let state := murmurSums ⟨state.h1 ^^^ len, state.h2 ^^^ len, state.h3 ^^^ len, state.h4 ^^^ len⟩
  let state := murmurSums ⟨fmix32 state.h1, fmix32 state.h2, fmix32 state.h3, fmix32 state.h4⟩
  state.h2.toUInt64 <<< 32 ||| state.h1.toUInt64

def hashmapMurmur (data : List UInt8) (seed0 _seed1 : UInt64) : UInt64 := mm86128 data seed0.toUInt32

/-- "hello", as in the source's own test. -/
example : hashmapMurmur [0x68, 0x65, 0x6C, 0x6C, 0x6F] 1 2 = 1682575153221130884 := by decide

def bytesOf (i : UInt64) : List UInt8 := (List.range 8).map fun k => (i >>> (8 * UInt64.ofNat k)).toUInt8

end Murmur

def clookupHash (clookup : CLookupT) (seed0 seed1 : UInt64) : UInt64 :=
  hashmapMurmur (bytesOf clookup.childSID.toUInt64) seed0 seed1

def keyMappingHash (keyMapping : KeyMappingT) (seed0 seed1 : UInt64) : UInt64 :=
  hashmapMurmur (bytesOf keyMapping.key.toUInt64) seed0 seed1

instance : Inhabited CLookupT := ⟨⟨0, []⟩⟩
instance : Inhabited KeyMappingT := ⟨⟨0, []⟩⟩

/-- What hashmap_new is given for the index. -/
def clookupCalls : ItemCalls CLookupT :=
  ⟨0, 0, clookupHash, some fun a b => if clookupCompare a b then 1 else 0⟩

def keyMappingCalls : ItemCalls KeyMappingT :=
  ⟨0, 0, keyMappingHash, some fun a b => if keyMappingCompare a b then 1 else 0⟩

theorem clookupCalls_keyed : Hashmap.KeyedBy clookupCalls CLookupT.childSID := by
  refine Hashmap.keyedBy_of_compare _ rfl (fun a b same => ?_) fun a b => ?_
  · change hashmapMurmur (bytesOf a.childSID.toUInt64) 0 0 = hashmapMurmur (bytesOf b.childSID.toUInt64) 0 0
    rw [same]
  · by_cases same : a.childSID = b.childSID <;> simp [clookupCompare, same]

theorem keyMappingCalls_keyed : Hashmap.KeyedBy keyMappingCalls KeyMappingT.key := by
  refine Hashmap.keyedBy_of_compare _ rfl (fun a b same => ?_) fun a b => ?_
  · change hashmapMurmur (bytesOf a.key.toUInt64) 0 0 = hashmapMurmur (bytesOf b.key.toUInt64) 0 0
    rw [same]
  · by_cases same : a.key = b.key <;> simp [keyMappingCompare, same]

/-- What hashmap_get returns, and the table after a change of the item through the pointer. -/
def Hashmap.change {T : Type} [Inhabited T] (map : Hashmap T) (key : T) (f : T → T) : Option (Option T × Hashmap T) :=
  (map.search key (map.getHash key)).map fun
    | none => (none, map)
    | some i =>
        let bucket := bucketAt map.buckets i
        (some bucket.item, { map with buckets := map.buckets.set i { bucket with item := f bucket.item } })

/- The functions of `Coreconf` over tables. A table that grows gets the memory for it. -/
namespace SidHashmaps

def recordParent (clookupHashmap : Hashmap CLookupT) (childSID parentSID : Int64) : Option (Hashmap CLookupT) :=
  (clookupHashmap.change ⟨childSID, []⟩ fun clookup =>
    { clookup with dynamicLongList := addUniqueLong clookup.dynamicLongList parentSID }).bind fun
      | (none, clookupHashmap) => (clookupHashmap.set true ⟨childSID, addUniqueLong [] parentSID⟩).map Prod.snd
      | (some _, clookupHashmap) => some clookupHashmap

def buildLevels : Nat → Option CoreconfValueT → Hashmap CLookupT → Int64 → Option (Hashmap CLookupT)
  | 0, _, clookupHashmap, _ => some clookupHashmap
  | _ + 1, none, _, _ => none
  | levels + 1, some (.hashmap map), clookupHashmap, parentSID =>
      map.objects.foldlM (fun clookupHashmap current =>
        let childSIDValue := (current.key + parentSID.toUInt64).toInt64
        (recordParent clookupHashmap childSIDValue parentSID).bind fun clookupHashmap =>
          buildLevels levels current.value clookupHashmap childSIDValue) clookupHashmap
  | levels + 1, some (.array elements), clookupHashmap, parentSID =>
      elements.foldlM (fun clookupHashmap arrayElement =>
        buildLevels levels (some arrayElement) clookupHashmap parentSID) clookupHashmap
  | _ + 1, some _, clookupHashmap, _ => some clookupHashmap

def buildCLookupHashmapFromCoreconf (coreconfValue : CoreconfValueT) (clookupHashmap : Hashmap CLookupT)
    (parentSID : Int64) (recursionDepth : Nat) : Option (Hashmap CLookupT) :=
  buildLevels (MAX_CORECONF_RECURSION_DEPTH + 1 - recursionDepth) (some coreconfValue) clookupHashmap parentSID

def sidKeysOf (keyMappingHashMap : Hashmap KeyMappingT) (sid : Int64) : Option (Option DynamicLongListT) :=
  (keyMappingHashMap.get ⟨sid, []⟩).map fun found => found.map (·.dynamicLongList)

structure PathSearch where
  currentSID : Int64
  clookupHashmap : Hashmap CLookupT
  pathNodes : List PathNodeT

def requirementBody (keyMappingHashMap : Hashmap KeyMappingT) (search : PathSearch) :
    Option (Step PathSearch (Option (List PathNodeT) × Hashmap CLookupT)) :=
  if search.currentSID = 0 then some (.done (some search.pathNodes, search.clookupHashmap))
  else
    (search.clookupHashmap.change ⟨search.currentSID, []⟩ fun clookup =>
      { clookup with dynamicLongList := (popLong clookup.dynamicLongList).2 }).bind fun
        | (none, clookupHashmap) => some (.done (none, clookupHashmap))
        | (some clookup, clookupHashmap) =>
            let parentSID := (popLong clookup.dynamicLongList).1
            if parentSID ≠ 0 then
              (sidKeysOf keyMappingHashMap parentSID).map fun sidKeys =>
                .next ⟨parentSID, clookupHashmap, prependPathNode search.pathNodes parentSID sidKeys⟩
            else some (.next ⟨parentSID, clookupHashmap, search.pathNodes⟩)

def findRequirementForSID (fuel : Nat) (sid : UInt64) (clookupHashmap : Hashmap CLookupT)
    (keyMappingHashMap : Hashmap KeyMappingT) : Option (Option (List PathNodeT) × Hashmap CLookupT) :=
  (sidKeysOf keyMappingHashMap sid.toInt64).bind fun sidKeys =>
    Fuel.loop (requirementBody keyMappingHashMap) fuel
      ⟨sid.toInt64, clookupHashmap, prependPathNode [⟨0, none⟩] sid.toInt64 sidKeys⟩

def keyMappingHashMapToCBOR (keyMappingHashMap : Hashmap KeyMappingT) (st : EncodeState) : Option EncodeState :=
  (zcborMapStartEncode st).bind fun st =>
    (encodeKeyMappings (keyMappingHashMap.iterate (keyMappingHashMap.nbuckets + 1) 0) st).bind zcborMapEndEncode

structure KeyMappingLoop where
  keyMappingHashMap : Hashmap KeyMappingT
  loopCounter : Nat
  st : ZcborState

/-- What is returned, `none` for NULL, and the state that is left. -/
abbrev KeyMappingResult := Option (Hashmap KeyMappingT) × ZcborState

def storeKeyMapping (loop : KeyMappingLoop) (key : UInt64) :
    Bool × SidKeyLoop → Option (Step KeyMappingLoop KeyMappingResult)
  | (false, inner) => some (.done (none, inner.st))
  | (true, inner) =>
      match zcborListEndDecode inner.st with
      | (false, st) => some (.done (none, st))
      | (true, st) =>
          (loop.keyMappingHashMap.set true ⟨key.toInt64, inner.dynamicLongList⟩).map fun (_, keyMappingHashMap) =>
            .next ⟨keyMappingHashMap, inner.loopCounter + 1, st⟩

def keyMappingBody (fuel : Nat) (loop : KeyMappingLoop) : Option (Step KeyMappingLoop KeyMappingResult) :=
  if zcborArrayAtEnd loop.st then
    let (ended, st) := zcborMapEndDecode loop.st
    some (.done (if ended then some loop.keyMappingHashMap else none, st))
  else if loop.loopCounter > CORECONF_MAX_LOOP then some (.done (none, loop.st))
  else
    match zcborUint64Decode loop.st with
    | none => some (.done (none, loop.st))
    | some (key, st) =>
        match zcborListStartDecode st with
        | none => some (.done (none, st))
        | some st' => (Fuel.loop sidKeyBody fuel ⟨[], loop.loopCounter, st'⟩).bind (storeKeyMapping loop key)

def cborToKeyMappingHashMap (fuel : Nat) (st : ZcborState) : Option KeyMappingResult :=
  match zcborMapStartDecode st with
  | (false, st') => some (none, st')
  | (true, st') => Fuel.iterate keyMappingBody fuel ⟨Hashmap.new keyMappingCalls 0, 0, st'⟩

end SidHashmaps

section Mirrors

variable {T : Type} {key : T → Int64}

theorem find_key_iff {items : List T} (distinct : (items.map key).Nodup) {k : Int64} {a : T} :
    items.find? (fun found => k == key found) = some a ↔ a ∈ items ∧ key a = k := by
  induction items with
  | nil => simp
  | cons first rest ih =>
      obtain ⟨own, distinct⟩ := List.nodup_cons.mp distinct
      rw [List.find?_cons]
      by_cases same : k = key first
      · subst same
        have others : ∀ other ∈ rest, key other ≠ key first :=
          fun other member equal => own (equal ▸ List.mem_map_of_mem member)
        simp only [beq_self_eq_true, Option.some.injEq, List.mem_cons]
        constructor
        · rintro rfl
          exact ⟨Or.inl rfl, rfl⟩
        · rintro ⟨rfl | member, equal⟩
          · rfl
          · exact absurd equal (others a member)
      · rw [beq_false_of_ne same]
        simp only [ih distinct, List.mem_cons]
        constructor
        · rintro ⟨member, equal⟩
          exact ⟨Or.inr member, equal⟩
        · rintro ⟨rfl | member, equal⟩
          · exact absurd equal.symm same
          · exact ⟨member, equal⟩

variable [Inhabited T]

/-- The table holds the items of the list. -/
structure Mirrors (key : T → Int64) (map : Hashmap T) (items : List T) : Prop where
  wf : Hashmap.WellFormed key map
  keyed : Hashmap.KeyedBy map.toItemCalls key
  perm : map.items.Perm items

namespace Mirrors

variable {map : Hashmap T} {items : List T}

theorem distinct (mirrors : Mirrors key map items) : (items.map key).Nodup :=
  (mirrors.perm.map key).nodup_iff.mp mirrors.wf.distinct

theorem count (mirrors : Mirrors key map items) : map.count = items.length :=
  mirrors.wf.count.trans mirrors.perm.length_eq

theorem represents (mirrors : Mirrors key map items) :
    Hashmap.Represents key map fun k => items.find? fun found => k == key found := by
  intro k a
  rw [find_key_iff mirrors.distinct, mirrors.perm.mem_iff]

theorem of_represents (wf : Hashmap.WellFormed key map) (keyed : Hashmap.KeyedBy map.toItemCalls key)
    (distinct : (items.map key).Nodup)
    (represents : Hashmap.Represents key map fun k => items.find? fun found => k == key found) :
    Mirrors key map items := by
  refine ⟨wf, keyed, (List.perm_ext_iff_of_nodup wf.distinct.of_map distinct.of_map).mpr fun a => ?_⟩
  have bound := represents (key a) a
  rw [find_key_iff distinct] at bound
  simpa using bound.symm

theorem new {calls : ItemCalls T} (keyed : Hashmap.KeyedBy calls key) (cap : Hashmap.Capacity) :
    Mirrors key (Hashmap.new calls cap) [] :=
  of_represents (Hashmap.new_wellFormed calls cap) keyed List.nodup_nil (Hashmap.new_represents calls cap)

variable {compare : T → T → Bool} (byKey : ∀ a b, compare a b = (key a != key b))
include byKey

theorem get (mirrors : Mirrors key map items) (item : T) : map.get item = some (hashmapGet compare items item) := by
  rw [Hashmap.get_spec mirrors.wf mirrors.keyed mirrors.represents, hashmapGet_eq key byKey]

/-- A table and a list after the same set. -/
theorem stored (mirrors : Mirrors key map items) {map' : Hashmap T} (wf : Hashmap.WellFormed key map')
    (calls : map'.toItemCalls = map.toItemCalls) {item : T}
    (bound : Hashmap.Represents key map'
      (Function.update (fun k => items.find? fun found => k == key found) (key item) (some item))) :
    Mirrors key map' (hashmapSet compare items item) := by
  have distinct : ((hashmapSet compare items item).map key).Nodup := by
    rw [keys_set key byKey]
    split
    next => exact mirrors.distinct
    next absent =>
      rw [← List.concat_eq_append]
      exact mirrors.distinct.concat absent
  refine ⟨wf, calls ▸ mirrors.keyed, (List.perm_ext_iff_of_nodup wf.distinct.of_map distinct.of_map).mpr fun a => ?_⟩
  have inTable := bound (key a) a
  have inList := find_key_iff distinct (k := key a) (a := a)
  rw [← hashmapGet_eq key byKey, hashmapGet_set key byKey, hashmapGet_eq key byKey] at inList
  rw [Function.update_apply] at inTable
  simpa using inTable.symm.trans inList

theorem set (mirrors : Mirrors key map items) (small : items.length < 65535) (item : T) :
    ∃ map', map.set true item = some (hashmapGet compare items item, map') ∧
      Mirrors key map' (hashmapSet compare items item) := by
  obtain ⟨old, map', ran, wf, calls, ⟨none, -⟩ | ⟨-, rfl, bound⟩⟩ :=
    Hashmap.set_spec mirrors.wf mirrors.keyed mirrors.represents (mirrors.count ▸ small) true item
  · cases none
  · exact ⟨map', by rw [ran, hashmapGet_eq key byKey], mirrors.stored byKey wf calls bound⟩

/-- A change through the pointer is a set of the changed item. -/
theorem change (mirrors : Mirrors key map items) (item : T) {f : T → T} (kept : ∀ a, key (f a) = key a) :
    ∃ map', map.change item f = some (hashmapGet compare items item, map') ∧
      Mirrors key map' (match hashmapGet compare items item with
        | none => items
        | some found => hashmapSet compare items (f found)) := by
  rw [Hashmap.change, hashmapGet_eq key byKey]
  rcases Hashmap.search_item mirrors.wf mirrors.keyed mirrors.represents item with
    ⟨ran, absent⟩ | ⟨i, ran, stands, found⟩
  · rw [ran, absent]
    exact ⟨map, rfl, mirrors⟩
  · rw [ran, found]
    refine ⟨_, rfl, ?_⟩
    obtain ⟨hash, equal⟩ := (mirrors.keyed _ _).mpr (kept (bucketAt map.buckets i).item)
    have at_hash := (mirrors.wf.hashes _ (stands.mem_items mirrors.wf)).symm
    have changed : Hashmap.Stands map.nbuckets map.buckets map.toItemCalls
        (map.getHash (f (bucketAt map.buckets i).item)) (f (bucketAt map.buckets i).item) i :=
      ⟨stands.slot, stands.taken, hash.trans at_hash, equal⟩
    obtain ⟨wf, bound, -⟩ := Hashmap.overwrite_spec mirrors.wf mirrors.keyed mirrors.represents changed
    exact mirrors.stored byKey wf rfl bound

end Mirrors

end Mirrors

end Coreconf
