import Coreconf.Ipatch
import Coreconf.Post

set_option autoImplicit false

/- coreconf_server.c: the start-up datastore and the handlers of /c. A handler is a
function of a fuel because it decodes; `none` is fuel that did not suffice. -/
namespace Coreconf

def BUFFER_SIZE : Nat := 4096

def CF_YANG_DATA_CBOR : Nat := 140
def CF_YANG_IDENTIFIERS : Nat := 141
def CF_YANG_INSTANCES : Nat := 142

/-- The SIDs the server read from its files for the system module. -/
structure RuntimeSystemSids where
  module : UInt64
  clock : UInt64
  clockBoot : UInt64
  clockCurrent : UInt64
  ntpEnabled : UInt64
  ntpServer : UInt64
  ntpServerName : UInt64
  ntpServerPrefer : UInt64
  ntpServerUdp : UInt64
  ntpServerUdpAddress : UInt64
  loaded : Bool

structure RuntimeInterfacesSids where
  module : UInt64
  iface : UInt64
  ifaceDescription : UInt64
  ifaceEnabled : UInt64
  ifaceName : UInt64
  ifaceType : UInt64
  ifaceOperStatus : UInt64
  identityEthernetCsmacd : UInt64
  loaded : Bool

structure RuntimeOperationSids where
  rebootRpcSid : UInt64
  rebootInputDelay : UInt64
  resetActionSid : UInt64
  resetInputResetAt : UInt64
  resetOutputFinishedAt : UInt64

/-- What the handlers use of the process they run in: the dictionaries, the time, and the two
conversions of times. No handler but that of the reset action sees these, so they are left open
here; `Environment.utc` has those of coreconf_server.c. -/
structure Environment where
  sysSids : RuntimeSystemSids
  ifSids : RuntimeInterfacesSids
  opsSids : RuntimeOperationSids
  parseUtcTimestamp : CString → Option Int
  time : Int
  formatUtcTimestamp : Int → Option CString

/-- The operation SIDs of a server that finds no file of them. -/
def defaultOperationSids : RuntimeOperationSids := ⟨61000, 1, 60002, 1, 2⟩

/-- A server that finds none of its SID files; nothing then converts times. -/
def bareEnvironment : Environment where
  sysSids := ⟨0, 0, 0, 0, 0, 0, 0, 0, 0, 0, false⟩
  ifSids := ⟨0, 0, 0, 0, 0, 0, 0, 0, false⟩
  opsSids := defaultOperationSids
  parseUtcTimestamp _ := none
  time := 0
  formatUtcTimestamp _ := none

structure ServerState where
  datastore : Option CoreconfValueT
  dsExists : Bool

inductive ResponseCode where
  | created | deleted | changed | content
  | badRequest | notFound | conflict | unsupportedContentFormat | internalError
deriving DecidableEq, Repr

def ResponseCode.isError : ResponseCode → Bool
  | created | deleted | changed | content => false
  | _ => true

structure Response where
  code : ResponseCode
  contentFormat : Option Nat
  payload : List UInt8
deriving DecidableEq

/-- Without the option the format is 0xFFFF. -/
structure Request where
  contentFormat : Option Nat
  payload : List UInt8

def getContentFormat (req : Request) : Nat := req.contentFormat.getD 0xFFFF

/-- What a handler does besides its response and the datastore. -/
inductive Effect where
  | system (command : List UInt8)
  | pushNotificationMap (mapData : List UInt8)
  | pushNotificationSequence (seqData : List UInt8)
  | notifyStreamObservers

structure Outcome where
  state : ServerState
  response : Response
  effects : List Effect

def text (s : String) : List UInt8 := s.toUTF8.toList

/-- A string literal of the source as a value. -/
def createCoreconfString (s : String) : CoreconfValueT := .string (CString.ofBuffer (text s))

/-- A new map with these members inserted in order, no result looked at. -/
def mapOf (members : List (UInt64 × CoreconfValueT)) : CoreconfHashMapT CoreconfValueT :=
  members.foldl (fun map member => (insertCoreconfHashMap map member.1 (some member.2)).2)
    createCoreconfHashmap

def initIetfExampleDatastore (sys : RuntimeSystemSids) (ifs : RuntimeInterfacesSids) : ServerState :=
  if !sys.loaded || !ifs.loaded then ⟨none, false⟩
  else
    let clock := mapOf [
      (sys.clockBoot - sys.clock, createCoreconfString "2014-10-05T09:00:00Z"),
      (sys.clockCurrent - sys.clock, createCoreconfString "2016-10-26T12:16:31Z")]
    let iface := mapOf [
      (ifs.ifaceName - ifs.iface, createCoreconfString "eth0"),
      (ifs.ifaceDescription - ifs.iface, createCoreconfString "Ethernet adaptor"),
      (ifs.ifaceType - ifs.iface, .uint64 ifs.identityEthernetCsmacd),
      (ifs.ifaceEnabled - ifs.iface, createCoreconfBoolean true),
      (ifs.ifaceOperStatus - ifs.iface, .uint64 3)]
    let udp := mapOf [
      (sys.ntpServerUdpAddress - sys.ntpServerUdp, createCoreconfString "128.100.49.105")]
    let srv := mapOf [
      (sys.ntpServerName - sys.ntpServer, createCoreconfString "tac.nrc.ca"),
      (sys.ntpServerPrefer - sys.ntpServer, createCoreconfBoolean false),
      (sys.ntpServerUdp - sys.ntpServer, .hashmap udp)]
    let ds := mapOf [
      (sys.clock, .hashmap clock),
      (ifs.iface, .array (addToCoreconfArray [] (.hashmap iface))),
      (sys.ntpEnabled, createCoreconfBoolean false),
      (sys.ntpServer, .array (addToCoreconfArray [] (.hashmap srv)))]
    ⟨some (.hashmap ds), true⟩

/-- The argument of a head as `encode_error` writes it, cut to two bytes. -/
def encodeErrorUint (esid : Nat) : List UInt8 :=
  if esid < 24 then [UInt8.ofNat esid]
  else if esid < 256 then [0x18, UInt8.ofNat esid]
  else [0x19, UInt8.ofNat (esid / 256), UInt8.ofNat esid]

def encodeError (sz esid : Nat) (msg : List UInt8) : List UInt8 :=
  if sz < 16 + msg.length then []
  else
    [0xA1, 0x19, 0x04, 0x00, 0xA2, 0x04] ++ encodeErrorUint esid ++ [0x03] ++
      (if msg.length < 24 then [UInt8.ofNat (0x60 + msg.length)]
        else [0x78, UInt8.ofNat msg.length]) ++ msg

def sendError (code : ResponseCode) (esid : Nat) (msg : String) : Response :=
  match encodeError 512 esid (text msg) with
  | [] => ⟨code, none, []⟩
  | buf => ⟨code, some CF_YANG_DATA_CBOR, buf⟩

/-- An error leaves the state as it is and has no effect. -/
def reject (s : ServerState) (code : ResponseCode) (esid : Nat) (msg : String) : Outcome :=
  ⟨s, sendError code esid msg, []⟩

/-- `g_datastore && g_ds_exists`, as the datastore they find. -/
def ServerState.current (s : ServerState) : Option CoreconfValueT :=
  if s.dsExists then s.datastore else none

/-- The size that is read through `map_value`, which only a hash map has. -/
def mapSize : CoreconfValueT → Nat
  | .hashmap map => map.size
  | _ => 0

def handleGet (s : ServerState) : Outcome :=
  match s.current with
  | none => reject s .notFound 1013 "datastore empty — use PUT /c first"
  | some datastore =>
      if mapSize datastore = 0 then reject s .notFound 1013 "datastore empty — use PUT /c first"
      else
        match createGetResponse BUFFER_SIZE datastore with
        | none => reject s .internalError 1013 "serialize error"
        | some buf => ⟨s, ⟨.content, some CF_YANG_DATA_CBOR, buf⟩, []⟩

def handleIpatch (fuel : Nat) (s : ServerState) (req : Request) : Option Outcome :=
  if getContentFormat req ≠ CF_YANG_INSTANCES then
    some (reject s .unsupportedContentFormat 1012 "iPATCH requires CF=142 (yang-instances+cbor-seq)")
  else if req.payload = [] then some (reject s .badRequest 1012 "missing payload")
  else
    match s.current with
    | none => some (reject s .notFound 1019 "no datastore — use PUT /c first")
    | some datastore =>
        (applyIpatchRaw fuel datastore req.payload).map fun (n, datastore) =>
          ⟨{ s with datastore := some datastore }, ⟨.changed, none, []⟩,
            if n ≥ 0 then [.pushNotificationSequence req.payload, .notifyStreamObservers] else []⟩

def SID_PASSWORD : UInt64 := 1735

/-- `snprintf` into the 512-byte command buffer. -/
def rotateCommand (newPassword : CString) : List UInt8 :=
  (text "/usr/local/bin/rotate_password.sh iotadmin '" ++ newPassword.bytes ++ text "'").take 511

/-- The password rotation of a new datastore; the datastore is installed whatever
the script returns. -/
def rotatePassword (map : CoreconfHashMapT CoreconfValueT) : List Effect :=
  match getCoreconfHashMap map SID_PASSWORD with
  | some (.string newPassword) => [.system (rotateCommand newPassword)]
  | _ => []

def handlePut (fuel : Nat) (s : ServerState) (req : Request) : Option Outcome :=
  if getContentFormat req ≠ CF_YANG_DATA_CBOR then
    some (reject s .unsupportedContentFormat 1012 "PUT requires CF=140 (yang-data+cbor;id=sid)")
  else if req.payload = [] then some (reject s .badRequest 1012 "missing payload")
  else
    (parsePutRequest fuel req.payload).map fun
      | some (.hashmap map) =>
          ⟨⟨some (.hashmap map), true⟩, ⟨.changed, none, []⟩,
            rotatePassword map ++ [.pushNotificationMap req.payload, .notifyStreamObservers]⟩
      | _ => reject s .badRequest 1012 "bad CBOR datastore"

def handleDelete (s : ServerState) : Outcome :=
  match s.current with
  | none => reject s .notFound 1013 "datastore not found"
  | some _ =>
      ⟨⟨none, false⟩, ⟨.deleted, none, []⟩, [.pushNotificationMap [0xA0], .notifyStreamObservers]⟩

/-- The branch of handle_post for content format 140. -/
def handlePostCreate (fuel : Nat) (s : ServerState) (req : Request) : Option Outcome :=
  if req.payload = [] then some (reject s .badRequest 1012 "missing payload")
  else if s.current.isSome then
    some (reject s .conflict 1012 "datastore already exists - use PUT /c to replace")
  else
    (parsePutRequest fuel req.payload).map fun
      | some (.hashmap map) =>
          ⟨⟨some (.hashmap map), true⟩, ⟨.created, none, []⟩,
            [.pushNotificationMap req.payload, .notifyStreamObservers]⟩
      | _ => reject s .badRequest 1012 "POST requires CBOR datastore map"

/-- The error of a request item: code, SID and message. -/
abbrev PostError := ResponseCode × Nat × String

def invokeReboot (item : PostItem) : Except PostError PostItem :=
  match item.value with
  | some (.hashmap _) | some .null => .ok ⟨item.iid, item.sid, some .null⟩
  | _ => .error (.badRequest, 1012, "reboot RPC input must be map or null")

def invokeReset (env : Environment) (item : PostItem) : Except PostError PostItem :=
  match item.value with
  | some (.hashmap input) =>
      match getCoreconfHashMap input env.opsSids.resetInputResetAt with
      | some (.string resetAt) =>
          let resetBase := (env.parseUtcTimestamp resetAt).getD env.time
          match env.formatUtcTimestamp (resetBase + 3) with
          | none => .error (.internalError, 1013, "failed to format reset completion timestamp")
          | some resetFinishedAt =>
              match insertCoreconfHashMap createCoreconfHashmap env.opsSids.resetOutputFinishedAt
                (some (CoreconfValueT.string resetFinishedAt)) with
              | (0, output) => .ok ⟨item.iid, item.sid, some (.hashmap output)⟩
              | _ => .error (.internalError, 1013, "failed to build reset action response")
      | _ => .error (.badRequest, 1012, "reset action requires key 1 as string (reset-at)")
  | _ => .error (.badRequest, 1012, "reset action input must be a map")

def invoke (env : Environment) (item : PostItem) : Except PostError PostItem :=
  match item.iid with
  | .sid =>
      if item.sid = env.opsSids.rebootRpcSid then invokeReboot item
      else .error (.notFound, 1012, "unsupported RPC/action IID")
  | .sidStrKey _ =>
      if item.sid = env.opsSids.resetActionSid then invokeReset env item
      else .error (.notFound, 1012, "unsupported RPC/action IID")

/-- Invocations end at the first error. -/
def invokeAll (env : Environment) (items : List PostItem) : Except PostError (List PostItem) :=
  items.mapM (invoke env)

/-- The branch of handle_post for content format 142. -/
def handlePostInvoke (env : Environment) (fuel : Nat) (s : ServerState) (req : Request) :
    Option Outcome :=
  if req.payload = [] then some (reject s .badRequest 1012 "missing payload")
  else
    (parsePostItems fuel req.payload).map fun
      | none => reject s .badRequest 1012 "POST payload must be cbor-seq of single-pair maps"
      | some requests =>
          match invokeAll env requests with
          | .error (code, esid, msg) => reject s code esid msg
          | .ok responses =>
              match createPostItems BUFFER_SIZE responses with
              | none => reject s .internalError 1013 "failed to encode POST response"
              | some out => ⟨s, ⟨.changed, some CF_YANG_INSTANCES, out⟩, []⟩

def handlePost (env : Environment) (fuel : Nat) (s : ServerState) (req : Request) : Option Outcome :=
  if getContentFormat req = CF_YANG_DATA_CBOR then handlePostCreate fuel s req
  else if getContentFormat req ≠ CF_YANG_INSTANCES then
    some (reject s .unsupportedContentFormat 1012
      "POST requires CF=140 (yang-data+cbor) or CF=142 (yang-instances+cbor-seq)")
  else handlePostInvoke env fuel s req

/-- An instance identifier of a FETCH; the key keeps 127 bytes. -/
inductive FetchIid where
  | scalar (sid : UInt64)
  | list (sid : UInt64) (key : CString)
deriving DecidableEq

/-- At most so many identifiers; the loop ends at the first that is malformed. -/
def parseFetchIids : Nat → List UInt8 → List FetchIid
  | 0, _ => []
  | n + 1, ptr =>
      let st := zcborNewDecodeState 8 ptr 1
      match majorTypeAt ptr with
      | some .pint =>
          match zcborUint64Decode st with
          | none => []
          | some (sid, st) => .scalar sid :: parseFetchIids n st.payload
      | some .list =>
          match zcborListStartDecode st with
          | none => []
          | some st =>
              match zcborUint64Decode st with
              | none => []
              | some (sid, st) =>
                  match zcborTstrDecode st with
                  | none => []
                  | some (zs, st) =>
                      match zcborListEndDecode st with
                      | (false, _) => []
                      | (true, st) => .list sid (keyBuffer zs) :: parseFetchIids n st.payload
      | _ => []

/-- The leaf a SID names as a delta inside one of the top-level containers. -/
def findDeltaLeaf (root : CoreconfHashMapT CoreconfValueT) (sid : UInt64) : Option CoreconfValueT :=
  root.objects.findSome? fun object =>
    match object.value with
    | some (.hashmap map) =>
        if object.key ≤ sid then getCoreconfHashMap map (sid - object.key) else none
    | _ => none

/-- A put or an encoding whose result is not looked at. -/
def encodeUnchecked (st : EncodeState) (sid : UInt64) (value : CoreconfValueT) : EncodeState :=
  (coreconfToCBOR value (putResult st (zcborUint64Put st sid)).2).2

def fetchFindListEntry (elements : List CoreconfValueT) (keyStr : CString) : Option Nat :=
  elements.findIdx? (holdsString keyStr)

def encodeFetchIid (root : CoreconfHashMapT CoreconfValueT) (st : EncodeState) : FetchIid → EncodeState
  | .scalar sid =>
      match getCoreconfHashMap root sid with
      | some val => encodeUnchecked st sid val
      | none =>
          match findDeltaLeaf root sid with
          | some leaf => encodeUnchecked st sid leaf
          | none => st
  | .list sid key =>
      match getCoreconfHashMap root sid with
      | some (.array elements) =>
          match (fetchFindListEntry elements key).bind (elements[·]?) with
          | some entry =>
              let st := (putResult st (zcborUint64Put st sid)).2
              let st := (putResult st (zcborListStartEncode st)).2
              let st := (coreconfToCBOR entry st).2
              (putResult st (zcborListEndEncode st)).2
          | none => st
      | _ => st

def handleFetch (s : ServerState) (req : Request) : Outcome :=
  if getContentFormat req ≠ CF_YANG_IDENTIFIERS then
    reject s .unsupportedContentFormat 1012 "FETCH requires CF=141 (yang-identifiers+cbor-seq)"
  else if req.payload = [] then reject s .badRequest 1012 "missing IID list"
  else
    match s.current with
    | none => reject s .notFound 1019 "datastore empty — use PUT /c first"
    | some datastore =>
        match parseFetchIids 64 req.payload with
        | [] => reject s .badRequest 1012 "no IIDs in request"
        | iids =>
            let root := match datastore with
              | .hashmap map => map
              | _ => createCoreconfHashmap
            let enc := zcborNewEncodeState BUFFER_SIZE
            let enc := (putResult enc (zcborMapStartEncode enc)).2
            let enc := iids.foldl (encodeFetchIid root) enc
            let enc := (putResult enc (zcborMapEndEncode enc)).2
            ⟨s, ⟨.content, some CF_YANG_INSTANCES, enc.payload⟩, []⟩

inductive Method where
  | get | fetch | put | post | ipatch | delete
deriving DecidableEq, Repr

/-- The handler that libcoap calls for a request to /c. -/
def handle (env : Environment) (fuel : Nat) (s : ServerState) : Method → Request → Option Outcome
  | .get, _ => some (handleGet s)
  | .fetch, req => some (handleFetch s req)
  | .put, req => handlePut fuel s req
  | .post, req => handlePost env fuel s req
  | .ipatch, req => handleIpatch fuel s req
  | .delete, _ => some (handleDelete s)

end Coreconf
