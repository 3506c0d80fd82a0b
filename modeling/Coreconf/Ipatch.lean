import Coreconf.Decoder
import Coreconf.Encoder

set_option autoImplicit false

/- ipatch.c: a payload is applied to the datastore entry by entry while it is read. -/
namespace Coreconf

open Fuel (Step)

/-- A hash map that holds the string under one of its keys. -/
def holdsString (keyStr : CString) : CoreconfValueT → Bool
  | .hashmap map => map.objects.any fun object =>
      match object.value with
      | some (.string s) => s == keyStr
      | _ => false
  | _ => false

def findListEntryByKey (elements : List CoreconfValueT) (keyStr : CString) : Option Nat :=
  elements.findIdx? (holdsString keyStr)

def removeArrayEntry (elements : List CoreconfValueT) (idx : Nat) : List CoreconfValueT :=
  elements.eraseIdx idx

def isNull : CoreconfValueT → Bool
  | .null => true
  | _ => false

/-- The branch of an unsigned integer key. -/
def applySidEntry (target : CoreconfHashMapT CoreconfValueT) (sid : UInt64) (val : CoreconfValueT) :
    CoreconfHashMapT CoreconfValueT :=
  if isNull val then (deleteFromCoreconfHashMap target sid).2
  else
    let val := match getCoreconfHashMap target sid, val with
      | some (.array _), .hashmap map => .array (addToCoreconfArray [] (.hashmap map))
      | _, _ => val
    (insertCoreconfHashMap target sid (some val)).2

/-- The array after an entry with an instance key. -/
def applyListEntry (elements : List CoreconfValueT) (keyStr : CString) (val : CoreconfValueT) :
    List CoreconfValueT :=
  match findListEntryByKey elements keyStr with
  | some idx => if isNull val then removeArrayEntry elements idx else elements.set idx val
  | none => if isNull val then elements else addToCoreconfArray elements val

/-- The branch of an array key; an entry without an array to go to is not counted. -/
def applyInstanceEntry (target : CoreconfHashMapT CoreconfValueT) (sid : UInt64) (keyStr : CString)
    (val : CoreconfValueT) : CoreconfHashMapT CoreconfValueT × Bool :=
  match getCoreconfHashMap target sid with
  | some (.array elements) =>
      (storeThroughGet target sid (.array (applyListEntry elements keyStr val)), true)
  | _ => (target, false)

inductive PatchKey where
  | sid (sid : UInt64)
  | listInstance (sid : UInt64) (keyStr : CString)
deriving DecidableEq

def applyEntry (target : CoreconfHashMapT CoreconfValueT) (key : PatchKey) (val : CoreconfValueT) :
    CoreconfHashMapT CoreconfValueT × Bool :=
  match key with
  | .sid sid => (applySidEntry target sid val, true)
  | .listInstance sid keyStr => applyInstanceEntry target sid keyStr val

/-- The 128-byte key buffer keeps 127 bytes. -/
def keyBuffer (zs : List UInt8) : CString := CString.ofBuffer (zs.take 127)

/-- A key and the state after it; without a key the entry loop is left in this state. -/
def decodePatchKey (st : ZcborState) : Option PatchKey × ZcborState :=
  match majorTypeAt st.payload with
  | some .pint =>
      match zcborUint64Decode st with
      | none => (none, st)
      | some (sid, st') => (some (.sid sid), st')
  | some .list =>
      match zcborListStartDecode st with
      | none => (none, st)
      | some st₁ =>
          match zcborUint64Decode st₁ with
          | none => (none, (zcborListEndDecode st₁).2)
          | some (sid, st₂) =>
              if majorTypeAt st₂.payload = some .tstr then
                match zcborTstrDecode st₂ with
                | none => (none, (zcborListEndDecode st₂).2)
                | some (zs, st₃) =>
                    match zcborListEndDecode st₃ with
                    | (false, st₄) => (none, st₄)
                    | (true, st₄) => (some (.listInstance sid (keyBuffer zs)), st₄)
              else (none, (zcborListEndDecode st₂).2)
  | _ => (none, st)

structure PatchLoop where
  target : CoreconfHashMapT CoreconfValueT
  count : Int
  st : ZcborState

/-- The loop over the entries of one map; leaving it by `goto` or at its end is the same. -/
def patchEntryBody (decode : ValueDecoder) (loop : PatchLoop) : Option (Step PatchLoop PatchLoop) :=
  if zcborArrayAtEnd loop.st then some (.done loop)
  else
    match decodePatchKey loop.st with
    | (none, st') => some (.done { loop with st := st' })
    | (some key, st') =>
        (decode st' 0).map fun
          | (none, st'') => .done { loop with st := st'' }
          | (some val, st'') =>
              let (target, counted) := applyEntry loop.target key val
              .next ⟨target, if counted then loop.count + 1 else loop.count, st''⟩

structure PatchMaps where
  target : CoreconfHashMapT CoreconfValueT
  count : Int
  ptr : List UInt8

/-- The loop over the maps of the payload. -/
def patchMapBody (decode : ValueDecoder) (fuel : Nat) (maps : PatchMaps) :
    Option (Step PatchMaps (Int × CoreconfHashMapT CoreconfValueT)) :=
  if maps.ptr = [] then some (.done (maps.count, maps.target))
  else
    match zcborMapStartDecode (zcborNewDecodeState 8 maps.ptr 1) with
    | (false, _) => some (.done (maps.count, maps.target))
    | (true, st) =>
        (Fuel.loop (patchEntryBody decode) fuel ⟨maps.target, maps.count, st⟩).map fun left =>
          .next ⟨left.target, left.count, (zcborMapEndDecode left.st).2.payload⟩

def applyIpatchRaw (fuel : Nat) (datastore : CoreconfValueT) (data : List UInt8) :
    Option (Int × CoreconfValueT) :=
  match datastore with
  | .hashmap target =>
      if data = [] then some (-1, datastore)
      else
        (Fuel.loop (patchMapBody (cborToCoreconfValue fuel) fuel) fuel ⟨target, 0, data⟩).map
          fun (count, target) => (count, .hashmap target)
  | _ => some (-1, datastore)

structure ApplyPatchCtx where
  target : CoreconfHashMapT CoreconfValueT
  error : Bool

/-- The copy is of the value itself, so a container is shared with the patch. -/
def applyOneSid (ctx : ApplyPatchCtx) (obj : CoreconfObjectT CoreconfValueT) : ApplyPatchCtx :=
  match obj.value with
  | none => ctx
  | some value =>
      if isNull value then { ctx with target := (deleteFromCoreconfHashMap ctx.target obj.key).2 }
      else
        match insertCoreconfHashMap ctx.target obj.key (some value) with
        | (0, target) => { ctx with target := target }
        | (_, target) => ⟨target, true⟩

def applyIpatch (datastore : CoreconfValueT) (patch : Option CoreconfValueT) : Int × CoreconfValueT :=
  match datastore, patch with
  | .hashmap targetMap, some (.hashmap patchMap) =>
      let ctx := iterateCoreconfHashMap patchMap applyOneSid ⟨targetMap, false⟩
      (if ctx.error then -1 else 0, .hashmap ctx.target)
  | _, _ => (-1, datastore)

def createIpatchRequest (bufferSize : Nat) (patch : CoreconfValueT) : Option (List UInt8) :=
  createMapPayload bufferSize patch

/-- A map of one entry with the key `[sid, key_str]`. -/
def createIpatchIidRequest (bufferSize : Nat) (sid : UInt64) (keyStr : CString)
    (val : Option CoreconfValueT) : Option (List UInt8) := do
  let st ← zcborMapStartEncode (zcborNewEncodeState bufferSize)
  let st ← zcborListStartEncode st
  let st ← zcborUint64Put st sid
  let st ← zcborTstrEncode st keyStr.bytes
  let st ← zcborListEndEncode st
  let st ← encodeMember val st
  let st ← zcborMapEndEncode st
  return st.payload

end Coreconf
