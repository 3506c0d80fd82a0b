import Coreconf.Decoder
import Coreconf.Encoder

set_option autoImplicit false

/- post.c: sequences of single-pair maps that name an RPC or an action. -/
namespace Coreconf

open Fuel (Step)

inductive PostIid where
  | sid
  | sidStrKey (strKey : CString)
deriving DecidableEq

structure PostItem where
  iid : PostIid
  sid : UInt64
  value : Option CoreconfValueT

def decodePostKey (st : ZcborState) : Option ((PostIid × UInt64) × ZcborState) :=
  match majorTypeAt st.payload with
  | some .pint => (zcborUint64Decode st).map fun (sid, st') => ((.sid, sid), st')
  | some .list => do
      let st ← zcborListStartDecode st
      let (sid, st) ← zcborUint64Decode st
      let (key, st) ← zcborTstrDecode st
      match zcborListEndDecode st with
      | (false, _) => none
      | (true, st) => some ((.sidStrKey (CString.ofBuffer key), sid), st)
  | _ => none

structure PostLoop where
  items : List PostItem
  ptr : List UInt8

/-- One item of the payload; `none` as a result is a return of false. -/
def postItemBody (decode : ValueDecoder) (loop : PostLoop) :
    Option (Step PostLoop (Option (List PostItem))) :=
  if loop.ptr = [] then some (.done (some loop.items))
  else
    match zcborMapStartDecode (zcborNewDecodeState 12 loop.ptr 1) with
    | (false, _) => some (.done none)
    | (true, st) =>
        if zcborArrayAtEnd st then some (.done none)
        else
          match decodePostKey st with
          | none => some (.done none)
          | some ((iid, sid), st') =>
              (decode st' 0).map fun
                | (none, _) => .done none
                | (some value, st'') =>
                    if !zcborArrayAtEnd st'' then .done none
                    else
                      match zcborMapEndDecode st'' with
                      | (false, _) => .done none
                      | (true, ended) =>
                          if ended.payload.length ≥ loop.ptr.length then .done none
                          else .next ⟨loop.items ++ [⟨iid, sid, some value⟩], ended.payload⟩

/-- `some none` is a return of false. -/
def parsePostItems (fuel : Nat) (data : List UInt8) : Option (Option (List PostItem)) :=
  if data = [] then some none
  else
    (Fuel.loop (postItemBody (cborToCoreconfValue fuel)) fuel ⟨[], data⟩).map fun
      | some items => if items = [] then none else some items
      | none => none

def encodePostKey (st : EncodeState) (item : PostItem) : Option EncodeState :=
  match item.iid with
  | .sid => zcborUint64Put st item.sid
  | .sidStrKey strKey => do
      let st ← zcborListStartEncode st
      let st ← zcborUint64Put st item.sid
      let st ← zcborTstrEncode st strKey.bytes
      zcborListEndEncode st

def createPostItem (bufferSize : Nat) (item : PostItem) : Option (List UInt8) := do
  let st ← zcborMapStartEncode (zcborNewEncodeState bufferSize)
  let st ← encodePostKey st item
  let st ← encodeMember item.value st
  let st ← zcborMapEndEncode st
  return st.payload

def createPostItemsFrom (bufferSize : Nat) : List PostItem → Option (List UInt8)
  | [] => some []
  | item :: rest => do
      let bytes ← createPostItem bufferSize item
      let later ← createPostItemsFrom (bufferSize - bytes.length) rest
      return bytes ++ later

/-- `none` where the source returns 0. -/
def createPostItems (bufferSize : Nat) (items : List PostItem) : Option (List UInt8) :=
  if items = [] then none else createPostItemsFrom bufferSize items

end Coreconf
