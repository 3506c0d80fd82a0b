import Coreconf.Fuel
import Coreconf.Types
import Coreconf.ZcborDecode

set_option autoImplicit false

/- serialization.c, from CBOR to values. `_parse_array` has a loop without a bound,
so the decoder is a function of a fuel; `none` is fuel that did not suffice. -/
namespace Coreconf

open Fuel (Step)

/-- `snprintf` with the precision `(int)len`, into `len + 1` bytes; a negative
precision is as if it were not given. -/
def formatTextString (value : List UInt8) : CString :=
  let precision := (Int32.ofNat value.length).toInt
  CString.ofBuffer (if precision < 0 then value else value.take precision.toNat)

/-- The branches of the switch that read one value without a member of its own. -/
def cborToCoreconfScalar (st : ZcborState) (majorType : ZcborMajorType) :
    Option (CoreconfValueT × ZcborState) :=
  match majorType with
  | .pint => (zcborUint64Decode st).map fun (u, st') => (.uint64 u, st')
  | .nint => (zcborInt64Decode st).map fun (i, st') => (.int64 i, st')
  | .bstr => (zcborBstrDecode st).map fun (zstr, st') => (.string (CString.ofBuffer zstr), st')
  | .tstr => (zcborTstrDecode st).map fun (zstr, st') => (.string (formatTextString zstr), st')
  | .simple =>
      match zcborFloat64Decode st with
      | some (doubleValue, st') => some (.real doubleValue, st')
      | none =>
          match zcborBoolDecode st with
          | some (boolValue, st') => some (createCoreconfBoolean boolValue, st')
          | none => (zcborNilExpect st).map fun st' => (.null, st')
  | _ => none

/-- A value that could not be read is NULL and consumes nothing. -/
def scalarResult (st : ZcborState) :
    Option (CoreconfValueT × ZcborState) → Option CoreconfValueT × ZcborState
  | some (value, st') => (some value, st')
  | none => (none, st)

/-- A decoder of one value: the value or NULL, and the state it leaves. -/
abbrev ValueDecoder := ZcborState → Nat → Option (Option CoreconfValueT × ZcborState)

/-- NULL is not added. -/
def storeElement (elements : List CoreconfValueT) : Option CoreconfValueT → List CoreconfValueT
  | none => elements
  | some arrayValue => addToCoreconfArray elements arrayValue

/-- NULL is not inserted, and the insertion's result is not looked at. -/
def storeMember (map : CoreconfHashMapT CoreconfValueT) (coreconfKey : UInt64) :
    Option CoreconfValueT → CoreconfHashMapT CoreconfValueT
  | none => map
  | some value => (insertCoreconfHashMap map coreconfKey (some value)).2

abbrev ArrayLoop := List CoreconfValueT × ZcborState

def parseArrayBody (decode : ValueDecoder) (indent : Nat) :
    ArrayLoop → Option (Step ArrayLoop (Bool × ArrayLoop))
  | (elements, st) =>
      if zcborArrayAtEnd st then
        let (result, st') := zcborListEndDecode st
        some (.done (result, elements, st'))
      else
        (decode st (indent + 1)).map fun (arrayValue, st') =>
          .next (storeElement elements arrayValue, st')

def parseArray (decode : ValueDecoder) (fuel : Nat) (st : ZcborState)
    (elements : List CoreconfValueT) (indent : Nat) : Option (Bool × ArrayLoop) :=
  match zcborListStartDecode st with
  | none => some (false, elements, st)
  | some st' => Fuel.loop (parseArrayBody decode indent) fuel (elements, st')

structure MapLoop where
  map : CoreconfHashMapT CoreconfValueT
  loopCount : Nat
  st : ZcborState

def parseMapBody (decode : ValueDecoder) (indent : Nat) (loop : MapLoop) :
    Option (Step MapLoop (Bool × MapLoop)) :=
  if zcborArrayAtEnd loop.st then
    let (result, st') := zcborMapEndDecode loop.st
    some (.done (result, { loop with st := st' }))
  else if loop.loopCount > CORECONF_MAX_LOOP then some (.done (false, loop))
  else
    match zcborUint64Decode loop.st with
    | none => some (.done (false, loop))
    | some (coreconfKey, st') =>
        (decode st' (indent + 1)).map fun (value, st'') =>
          .next ⟨storeMember loop.map coreconfKey value, loop.loopCount + 1, st''⟩

def parseMap (decode : ValueDecoder) (fuel : Nat) (st : ZcborState)
    (map : CoreconfHashMapT CoreconfValueT) (indent : Nat) : Option (Bool × MapLoop) :=
  match zcborMapStartDecode st with
  | (false, st') => some (false, ⟨map, 0, st'⟩)
  | (true, st') => Fuel.loop (parseMapBody decode indent) fuel ⟨map, 0, st'⟩

/-- The results of `parseArray` and `parseMap` are dropped here. -/
def cborToCoreconfValue : Nat → ValueDecoder
  | 0, _, _ => none
  | fuel + 1, st, indent =>
      if indent > CORECONF_MAX_DEPTH then some (none, st)
      else
        match majorTypeAt st.payload with
        | none => some (none, st)
        | some .list =>
            (parseArray (cborToCoreconfValue fuel) fuel st [] indent).map
              fun (_, elements, st') => (some (.array elements), st')
        | some .map =>
            (parseMap (cborToCoreconfValue fuel) fuel st createCoreconfHashmap indent).map
              fun (_, loop) => (some (.hashmap loop.map), loop.st)
        | some majorType =>
            some (scalarResult st (cborToCoreconfScalar st majorType))

/-- The body shared by the three functions that parse one value from a payload. -/
def parseRequest (fuel : Nat) (data : List UInt8) : Option (Option CoreconfValueT) :=
  if data = [] then some none
  else (cborToCoreconfValue fuel (zcborNewDecodeState 8 data 1) 0).map Prod.fst

def parseGetResponse (fuel : Nat) (data : List UInt8) : Option (Option CoreconfValueT) :=
  parseRequest fuel data

def parsePutRequest (fuel : Nat) (data : List UInt8) : Option (Option CoreconfValueT) :=
  parseRequest fuel data

def parseIpatchRequest (fuel : Nat) (data : List UInt8) : Option (Option CoreconfValueT) :=
  parseRequest fuel data

end Coreconf
