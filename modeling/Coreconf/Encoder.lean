import Coreconf.Types
import Coreconf.ZcborEncode

set_option autoImplicit false

/- serialization.c, from values to CBOR, and the requests and responses of get.c and
put.c that are one encoded map. -/
namespace Coreconf

/-- A put whose result is kept: what was written stays written. -/
def putResult (st : EncodeState) : Option EncodeState → Bool × EncodeState
  | some st' => (true, st')
  | none => (false, st)

mutual

def coreconfToCBOR : CoreconfValueT → EncodeState → Bool × EncodeState
  | .hashmap map, st =>
      match zcborMapStartEncode st with
      | none => (false, st)
      | some st' =>
          let st'' := serializeCoreconfMap map st'
          putResult st'' (zcborMapEndEncode st'')
  | .array elements, st =>
      match zcborListStartEncode st with
      | none => (false, st)
      | some st' =>
          match serializeCoreconfElements elements st' with
          | (false, st'') => (false, st'')
          | (true, st'') => putResult st'' (zcborListEndEncode st'')
  | .real bits, st => putResult st (zcborFloat64Put st bits)
  | .int8 i, st => putResult st (zcborInt32Put st i.toInt32)
  | .int16 i, st => putResult st (zcborInt32Put st i.toInt32)
  | .int32 i, st => putResult st (zcborInt32Put st i)
  | .int64 i, st => putResult st (zcborInt64Put st i)
  | .uint8 u, st => putResult st (zcborUint32Put st u.toUInt32)
  | .uint16 u, st => putResult st (zcborUint32Put st u.toUInt32)
  | .uint32 u, st => putResult st (zcborUint32Put st u)
  | .uint64 u, st => putResult st (zcborUint64Put st u)
  | .string s, st => putResult st (zcborTstrEncode st s.bytes)
  | .true, st => putResult st (zcborBoolPut st true)
  | .false, st => putResult st (zcborBoolPut st false)
  | .null, st => putResult st (zcborNilPut st)

def serializeCoreconfElements : List CoreconfValueT → EncodeState → Bool × EncodeState
  | [], st => (true, st)
  | element :: rest, st =>
      match coreconfToCBOR element st with
      | (false, st') => (false, st')
      | (true, st') => serializeCoreconfElements rest st'

/-- `iterateCoreconfHashMap` with `serializeCoreconfObject`. -/
def serializeCoreconfMap : CoreconfHashMapT CoreconfValueT → EncodeState → EncodeState
  | ⟨table, _⟩, st => serializeCoreconfTable table st

def serializeCoreconfTable :
    List (List (CoreconfObjectT CoreconfValueT)) → EncodeState → EncodeState
  | [], st => st
  | chain :: rest, st => serializeCoreconfTable rest (serializeCoreconfChain chain st)

def serializeCoreconfChain : List (CoreconfObjectT CoreconfValueT) → EncodeState → EncodeState
  | [], st => st
  | object :: rest, st => serializeCoreconfChain rest (serializeCoreconfObject object st)

/-- The callback has no result: a put that fails is skipped. A NULL value, which the
source dereferences, is skipped here. -/
def serializeCoreconfObject : CoreconfObjectT CoreconfValueT → EncodeState → EncodeState
  | ⟨key, none⟩, st => (putResult st (zcborUint64Put st key)).2
  | ⟨key, some value⟩, st => (coreconfToCBOR value (putResult st (zcborUint64Put st key)).2).2

end

theorem serializeCoreconfMap_eq (map : CoreconfHashMapT CoreconfValueT) (st : EncodeState) :
    serializeCoreconfMap map st =
      iterateCoreconfHashMap map (fun st object => serializeCoreconfObject object st) st := by
  have chain : ∀ (chain : List (CoreconfObjectT CoreconfValueT)) (st : EncodeState),
      serializeCoreconfChain chain st =
        chain.foldl (fun st object => serializeCoreconfObject object st) st := by
    intro chain
    induction chain with
    | nil => exact fun _ => rfl
    | cons object rest ih => exact fun st => ih _
  obtain ⟨table, size⟩ := map
  simp only [serializeCoreconfMap, iterateCoreconfHashMap]
  induction table generalizing st with
  | nil => rfl
  | cons bucket rest ih => rw [serializeCoreconfTable, chain, ih, List.foldl_cons]

/-- A value of a top-level map, or nil for a NULL one. -/
def encodeMember (value : Option CoreconfValueT) (st : EncodeState) : Option EncodeState :=
  match value with
  | none => zcborNilPut st
  | some value =>
      match coreconfToCBOR value st with
      | (true, st') => some st'
      | (false, _) => none

/-- The entries of a top-level map, every result checked. -/
def encodeMembers : List (CoreconfObjectT CoreconfValueT) → EncodeState → Option EncodeState
  | [], st => some st
  | object :: rest, st =>
      match zcborUint64Put st object.key with
      | none => none
      | some st' =>
          match encodeMember object.value st' with
          | none => none
          | some st'' => encodeMembers rest st''

/-- The bytes of a map, or `none` where the source returns 0. -/
def createMapPayload (bufferSize : Nat) (datastore : CoreconfValueT) : Option (List UInt8) :=
  match datastore with
  | .hashmap map =>
      match zcborMapStartEncode (zcborNewEncodeState bufferSize) with
      | none => none
      | some st =>
          match if map.size = 0 then some st else encodeMembers map.objects st with
          | none => none
          | some st' => (zcborMapEndEncode st').map (·.payload)
  | _ => none

def createGetResponse (bufferSize : Nat) (datastore : CoreconfValueT) : Option (List UInt8) :=
  createMapPayload bufferSize datastore

def createPutRequest (bufferSize : Nat) (datastore : CoreconfValueT) : Option (List UInt8) :=
  createMapPayload bufferSize datastore

end Coreconf
