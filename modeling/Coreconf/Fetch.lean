import Coreconf.Ipatch

set_option autoImplicit false

/- fetch.c: requests as a sequence of instance identifiers, and what an identifier names
in a datastore. -/
namespace Coreconf

open Fuel (Step)

inductive InstanceIdentifier where
  | simple (sid : UInt64)
  | withStrKey (sid : UInt64) (strKey : CString)
  | withIntKey (sid : UInt64) (intKey : Int64)
deriving DecidableEq

def InstanceIdentifier.sid : InstanceIdentifier → UInt64
  | simple sid => sid
  | withStrKey sid _ => sid
  | withIntKey sid _ => sid

/-- One identifier into what is left of the buffer. -/
def createFetchIid (bufferSize : Nat) (iid : InstanceIdentifier) : Option (List UInt8) :=
  let st := zcborNewEncodeState bufferSize
  match iid with
  | .simple sid => do
      let st ← zcborUint64Put st sid
      return st.payload
  | .withStrKey sid strKey => do
      let st ← zcborListStartEncode st
      let st ← zcborUint64Put st sid
      let st ← zcborTstrEncode st strKey.bytes
      let st ← zcborListEndEncode st
      return st.payload
  | .withIntKey sid intKey => do
      let st ← zcborListStartEncode st
      let st ← zcborUint64Put st sid
      let st ← zcborInt64Put st intKey
      let st ← zcborListEndEncode st
      return st.payload

def createFetchIids (bufferSize : Nat) : List InstanceIdentifier → Option (List UInt8)
  | [] => some []
  | iid :: rest => do
      let bytes ← createFetchIid bufferSize iid
      let later ← createFetchIids (bufferSize - bytes.length) rest
      return bytes ++ later

/-- `none` where the source returns 0. -/
def createFetchRequestWithIids (bufferSize : Nat) (iids : List InstanceIdentifier) :
    Option (List UInt8) :=
  if iids = [] then none else createFetchIids bufferSize iids

/-- The scan over the bytes of an array: a byte that looks like the head of a container
counts up, any other with its low five bits set counts down. -/
def scanArray : Nat → List UInt8 → List UInt8
  | 0, payload => payload
  | _, [] => []
  | depth + 1, byte :: rest =>
      if byte.toNat / 32 = 4 ∨ byte.toNat / 32 = 5 then scanArray (depth + 2) rest
      else if byte.toNat % 32 = 31 then scanArray depth rest
      else scanArray (depth + 1) rest

/-- What is left after an identifier, as the first pass sees it. -/
def skipIid (data : List UInt8) : Option (List UInt8) :=
  let st := zcborNewDecodeState 5 data 1
  match zcborUint64Decode st with
  | some (_, st) => some st.payload
  | none =>
      match zcborListStartDecode st with
      | none => none
      | some st => some (zcborListEndDecode { st with payload := scanArray 1 st.payload }).2.payload

structure CountLoop where
  count : Nat
  data : List UInt8

def countIidBody (loop : CountLoop) : Option (Step CountLoop Nat) :=
  if loop.data = [] then some (.done loop.count)
  else
    match skipIid loop.data with
    | none => some (.done loop.count)
    | some rest => some (.next ⟨loop.count + 1, rest⟩)

/-- An identifier and what is left after it, as the second pass reads it. -/
def decodeIid (data : List UInt8) : Option (InstanceIdentifier × List UInt8) :=
  let st := zcborNewDecodeState 5 data 1
  match zcborUint64Decode st with
  | some (sid, st) => some (.simple sid, st.payload)
  | none => do
      let st ← zcborListStartDecode st
      let (sid, st) ← zcborUint64Decode st
      let (iid, st) ← match zcborTstrDecode st with
        | some (zstr, st) => some (InstanceIdentifier.withStrKey sid (CString.ofBuffer zstr), st)
        | none => (zcborInt64Decode st).map fun (intKey, st) => (.withIntKey sid intKey, st)
      match zcborListEndDecode st with
      | (false, _) => none
      | (true, st) => some (iid, st.payload)

def decodeIids : Nat → List UInt8 → Option (List InstanceIdentifier)
  | 0, _ => some []
  | count + 1, data => do
      let (iid, rest) ← decodeIid data
      let iids ← decodeIids count rest
      return iid :: iids

/-- `some none` is a return of false. -/
def parseFetchRequestIids (fuel : Nat) (cborData : List UInt8) :
    Option (Option (List InstanceIdentifier)) :=
  (Fuel.loop countIidBody fuel ⟨0, cborData⟩).map fun count =>
    if count = 0 then none else decodeIids count cborData

def fetchValueByIid (dataSource : CoreconfValueT) (iid : InstanceIdentifier) : Option CoreconfValueT :=
  match dataSource with
  | .hashmap map =>
      match getCoreconfHashMap map iid.sid, iid with
      | none, _ => none
      | some value, .simple _ => some value
      | some (.array elements), .withStrKey _ strKey => elements.find? (holdsString strKey)
      | some (.array elements), .withIntKey _ intKey =>
          if 0 ≤ intKey ∧ intKey.toInt < elements.length then elements[intKey.toInt.toNat]? else none
      | some _, _ => none
  | _ => none

/-- One answer: a map of the SID and the value, or null where there is none. -/
def createFetchAnswer (bufferSize : Nat) (sid : UInt64) (value : Option CoreconfValueT) :
    Option (List UInt8) := do
  let st ← zcborMapStartEncode (zcborNewEncodeState bufferSize)
  let st ← zcborUint64Put st sid
  let st ← encodeMember value st
  let st ← zcborMapEndEncode st
  return st.payload

/-- The loop of both responses, over the SIDs and what is looked up for them. -/
def createFetchAnswers (bufferSize : Nat) : List (UInt64 × Option CoreconfValueT) → Option (List UInt8)
  | [] => some []
  | (sid, value) :: rest => do
      let bytes ← createFetchAnswer bufferSize sid value
      let later ← createFetchAnswers (bufferSize - bytes.length) rest
      return bytes ++ later

def createFetchResponse (bufferSize : Nat) (dataSource : CoreconfValueT) (sids : List UInt64) :
    Option (List UInt8) :=
  if sids = [] then none
  else
    createFetchAnswers bufferSize <| sids.map fun sid =>
      (sid, match dataSource with
        | .hashmap map => getCoreconfHashMap map sid
        | _ => none)

def createFetchResponseIids (bufferSize : Nat) (dataSource : CoreconfValueT)
    (iids : List InstanceIdentifier) : Option (List UInt8) :=
  if iids = [] then none
  else createFetchAnswers bufferSize (iids.map fun iid => (iid.sid, fetchValueByIid dataSource iid))

end Coreconf
