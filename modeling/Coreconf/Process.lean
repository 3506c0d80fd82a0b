import Coreconf.EventQueue
import Coreconf.Fingerprint
import Coreconf.IpatchEvents

set_option autoImplicit false

/- The server as a process: the handlers of /c, /s and /sid over one datastore and one queue of
events. An error answer is an error object, and leaves no trace. -/
namespace Coreconf

open Cbor (Item Width Framing)

/-- `zcbor_tstr_put_lit` takes `sizeof` of its argument less one, which here is a pointer. -/
def zcborTstrPutLit (st : EncodeState) (literal : String) : Option EncodeState :=
  zcborTstrEncode st ((text literal ++ [0]).take 7)

def publishExamplePortFault (portName portFault : String) (queue : StreamQueue) : StreamQueue :=
  let enc := zcborNewEncodeState 256
  let enc := (putResult enc (zcborMapStartEncode enc)).2
  let enc := (putResult enc (zcborUint64Put enc 1)).2
  let enc := (putResult enc (zcborTstrPutLit enc portName)).2
  let enc := (putResult enc (zcborUint64Put enc 2)).2
  let enc := (putResult enc (zcborTstrPutLit enc portFault)).2
  let enc := (putResult enc (zcborMapEndEncode enc)).2
  queue.push (streamWrapNotificationInstance 300 60010 enc.payload)

def handleStreamGet (queue : StreamQueue) : Response :=
  ⟨.content, some CF_YANG_INSTANCES, streamEncodeSequence BUFFER_SIZE 8 queue⟩

def handleStreamFetch (fuel : Nat) (queue : StreamQueue) (req : Request) : Option Response :=
  let answer (filterSids : List UInt64) : Option Response :=
    (streamEncodeSequenceFiltered BUFFER_SIZE 8 filterSids fuel queue).map fun buf =>
      ⟨.content, some CF_YANG_INSTANCES, buf⟩
  if req.payload = [] then answer []
  else if getContentFormat req ≠ CF_YANG_IDENTIFIERS then
    some (sendError .unsupportedContentFormat 1012 "FETCH /s with payload requires CF=141")
  else
    (streamCollectFilterSids 64 fuel req.payload).bind fun
      | none => some (sendError .badRequest 1012 "FETCH /s filter payload has no valid IIDs")
      | some filterSids => answer filterSids

/-- stream_push_notification_map on the queue. -/
def pushNotificationMap (module : UInt64) (fuel : Nat) (queue : StreamQueue) (mapData : List UInt8) :
    Option StreamQueue :=
  if mapData = [] then some queue
  else
    (streamExtractFirstSidFromMap (zcborAnySkip fuel) mapData module).map fun notifSid =>
      queue.push (streamWrapNotificationInstance BUFFER_SIZE notifSid mapData)

/-- What an effect of a handler does to the queue. There is none where bytes behind the
payload would be queued. -/
def Effect.perform (env : Environment) (fuel : Nat) (queue : StreamQueue) : Effect → Option StreamQueue
  | system _ => some queue
  | notifyStreamObservers => some queue
  | pushNotificationMap mapData => Coreconf.pushNotificationMap env.sysSids.module fuel queue mapData
  | pushNotificationSequence seqData =>
      (streamPushNotificationSequence fuel seqData).bind fun slices =>
        slices.foldlM (fun queue slice =>
          if slice.start + slice.len ≤ seqData.length then
            Coreconf.pushNotificationMap env.sysSids.module fuel queue (slice.bytes seqData)
          else none) queue

structure Process where
  server : ServerState
  queue : StreamQueue

/-- The two example events are published before anything is read. -/
def Process.start (env : Environment) : Process where
  server := initIetfExampleDatastore env.sysSids env.ifSids
  queue := publishExamplePortFault "1/4/21" "Open pin 5"
    (publishExamplePortFault "0/4/21" "Open pin 2" .empty)

/-- A request with the resource it is for: /c, /s or /sid. -/
inductive ProcessRequest where
  | datastore (method : Method) (req : Request)
  | streamGet
  | streamFetch (req : Request)
  | sidInfo

def Process.respond (env : Environment) (fuel : Nat) (p : Process) : ProcessRequest → Option (Response × Process)
  | .datastore method req =>
      (handle env fuel p.server method req).bind fun outcome =>
        (outcome.effects.foldlM (Effect.perform env fuel) p.queue).map fun queue =>
          (outcome.response, ⟨outcome.state, queue⟩)
  | .streamGet => some (handleStreamGet p.queue, p)
  | .streamFetch req => (handleStreamFetch fuel p.queue req).map fun response => (response, p)
  | .sidInfo => some (handleSidInfo (computeSidFingerprint env.dictionary), p)

/-- The requests one after the other, each with its answer. -/
def Process.run (env : Environment) (fuel : Nat) (p : Process) : List ProcessRequest → Option (List Response × Process)
  | [] => some ([], p)
  | request :: rest =>
      (p.respond env fuel request).bind fun (response, p) =>
        (Process.run env fuel p rest).map fun (responses, p) => (response :: responses, p)

/-- The requests that were not answered with an error, with their answers. -/
def accepted (requests : List ProcessRequest) (responses : List Response) : List (ProcessRequest × Response) :=
  (requests.zip responses).filter fun answered => !answered.2.code.isError

section Errors

/-- `{1024: {4: esid, 3: msg}}`. -/
def errorItem (esid : Nat) (msg : List UInt8) : Item :=
  .map (.definite .immediate) [(.uint .two 1024, .map (.definite .immediate)
    [(.uint .immediate 4, .uint (Width.least esid) esid),
      (.uint .immediate 3, .tstr (if msg.length < 24 then .immediate else .one) msg)])]

/-- An answer with an error object as its payload. -/
def Response.IsErrorObject (response : Response) : Prop :=
  response.code.isError ∧ response.contentFormat = some CF_YANG_DATA_CBOR ∧
    ∃ esid msg, response.payload = (errorItem esid msg).encode ∧ (errorItem esid msg).WellFormed

theorem encodeErrorUint_eq {esid : Nat} (small : esid < 2 ^ 16) :
    encodeErrorUint esid = (Item.uint (Width.least esid) esid).encode := by
  rw [encodeErrorUint, Item.encode, Width.least]
  by_cases immediate : esid < 24
  · rw [if_pos immediate, if_pos immediate]
    simp [Cbor.head, Width.additional, Width.length, Cbor.beBytes]
  rw [if_neg immediate, if_neg immediate]
  by_cases one : esid < 256
  · rw [if_pos one, if_pos (show esid < 2 ^ 8 from one)]
    simp [Cbor.head, Width.additional, Width.length, Cbor.beBytes]
  · rw [if_neg one, if_neg (show ¬ esid < 2 ^ 8 from one), if_pos small]
    simp [Cbor.head, Width.additional, Width.length, Cbor.beBytes]

theorem toList_loop_length (bytes : ByteArray) (i : Nat) (r : List UInt8) :
    (ByteArray.toList.loop bytes i r).length = r.length + (bytes.size - i) := by
  fun_induction ByteArray.toList.loop bytes i r with
  | case1 i r inside ih =>
      rw [ih, List.length_cons]
      omega
  | case2 i r outside =>
      rw [List.length_reverse]
      omega

theorem text_length (s : String) : (text s).length = s.utf8ByteSize :=
  (toList_loop_length _ _ _).trans (Nat.zero_add _)

theorem encodeError_eq {esid : Nat} {msg : List UInt8} (small : esid < 2 ^ 16) (short : msg.length < 2 ^ 8) :
    encodeError 512 esid msg = (errorItem esid msg).encode ∧ (errorItem esid msg).WellFormed := by
  constructor
  · rw [encodeError, if_neg (by omega), encodeErrorUint_eq small]
    split
    next few => simp [errorItem, few, Item.encode, Item.encodeEntries, Framing.opening, Framing.closing, Cbor.head,
      Width.additional, Width.length, Cbor.beBytes, Cbor.string]
    next many => simp [errorItem, many, Item.encode, Item.encodeEntries, Framing.opening, Framing.closing, Cbor.head,
      Width.additional, Width.length, Cbor.beBytes, Cbor.string]
  · refine .map (show 1 < 24 by decide) (by simpa using .uint (show 1024 < 2 ^ 16 by decide)) ?_
    simp only [List.forall_mem_singleton]
    refine .map (show 2 < 24 by decide) ?_ ?_ <;> simp only [List.forall_mem_cons]
    · exact ⟨.uint (show 4 < 24 by decide), .uint (show 3 < 24 by decide), List.forall_mem_nil _⟩
    · refine ⟨.uint (Width.least_fits (by omega)), .tstr ?_, List.forall_mem_nil _⟩
      split
      next few => exact few
      next => exact short

theorem sendError_object {code : ResponseCode} (error : code.isError) {esid : Nat} (small : esid < 2 ^ 16)
    {msg : String} (short : msg.utf8ByteSize < 2 ^ 8) : (sendError code esid msg).IsErrorObject := by
  obtain ⟨bytes, wellFormed⟩ := encodeError_eq small (text_length msg ▸ short)
  have nonempty := Item.encode_ne_nil wellFormed
  rw [← bytes] at nonempty
  rw [sendError]
  split
  next nothing => exact absurd nothing nonempty
  next => exact ⟨error, rfl, esid, text msg, bytes, wellFormed⟩

/-- An error answer that has changed nothing. -/
structure Outcome.Denies (outcome : Outcome) (s : ServerState) : Prop where
  state : outcome.state = s
  effects : outcome.effects = []
  object : outcome.response.IsErrorObject

theorem reject_denies (s : ServerState) {code : ResponseCode} (error : code.isError) {esid : Nat}
    (small : esid < 2 ^ 16) {msg : String} (short : msg.utf8ByteSize < 2 ^ 8) : (reject s code esid msg).Denies s :=
  ⟨rfl, rfl, sendError_object error small short⟩

/-- An error of an invocation that fits an error object. -/
inductive PostError.Fits : PostError → Prop
  | mk {code esid msg} (error : code.isError) (small : esid < 2 ^ 16) (short : msg.utf8ByteSize < 2 ^ 8) :
      Fits (code, esid, msg)

theorem invokeReboot_error {item : PostItem} {error : PostError} (failed : invokeReboot item = .error error) :
    error.Fits := by
  rw [invokeReboot] at failed
  split at failed <;> cases failed
  exact .mk rfl (by decide) (by decide)

/-- The last two checks of the reset action, whatever the time formats to and the map takes. -/
theorem invokeReset_answer {formatted : Option CString} {item : PostItem} {error : PostError}
    {inserted : Option CoreconfValueT → Int × CoreconfHashMapT CoreconfValueT}
    (failed : (match formatted with
      | none => .error (.internalError, 1013, "failed to format reset completion timestamp")
      | some resetFinishedAt =>
          match inserted (some (CoreconfValueT.string resetFinishedAt)) with
          | (0, output) => .ok ⟨item.iid, item.sid, some (.hashmap output)⟩
          | _ => .error (.internalError, 1013, "failed to build reset action response")) =
        (Except.error error : Except PostError PostItem)) : error.Fits := by
  cases formatted with
  | none =>
      cases failed
      exact .mk rfl (by decide) (by decide)
  | some resetFinishedAt =>
      dsimp only at failed
      split at failed
      · cases failed
      · cases failed
        exact .mk rfl (by decide) (by decide)

theorem invokeReset_error {env : Environment} {item : PostItem} {error : PostError}
    (failed : invokeReset env item = .error error) : error.Fits := by
  rw [invokeReset] at failed
  split at failed
  · split at failed
    · exact invokeReset_answer failed
    · cases failed
      exact .mk rfl (by decide) (by decide)
  · cases failed
    exact .mk rfl (by decide) (by decide)

theorem invoke_error {env : Environment} {item : PostItem} {error : PostError}
    (failed : invoke env item = .error error) : error.Fits := by
  rw [invoke] at failed
  split at failed
  · split at failed
    · exact invokeReboot_error failed
    · cases failed
      exact .mk rfl (by decide) (by decide)
  · split at failed
    · exact invokeReset_error failed
    · cases failed
      exact .mk rfl (by decide) (by decide)

theorem invokeAll_error {env : Environment} {items : List PostItem} {error : PostError}
    (failed : invokeAll env items = .error error) : error.Fits := by
  induction items with
  | nil => cases failed
  | cons item rest ih =>
      rw [invokeAll, List.mapM_cons] at failed
      cases first : invoke env item with
      | error other =>
          rw [first] at failed
          cases failed
          exact invoke_error first
      | ok out =>
          rw [first] at failed
          cases later : rest.mapM (invoke env) with
          | error other =>
              rw [later] at failed
              cases failed
              exact ih later
          | ok outs =>
              rw [later] at failed
              cases failed

section Handlers

variable {env : Environment} {fuel : Nat} {s : ServerState} {req : Request} {outcome : Outcome}

theorem handleGet_denies (error : (handleGet s).response.code.isError) : (handleGet s).Denies s := by
  unfold handleGet at error ⊢
  split at error
  · exact reject_denies s rfl (by decide) (by decide)
  · split at error
    next empty =>
      rw [if_pos empty]
      exact reject_denies s rfl (by decide) (by decide)
    next members =>
      rw [if_neg members]
      split at error
      · exact reject_denies s rfl (by decide) (by decide)
      · cases error

theorem handleFetch_denies (error : (handleFetch s req).response.code.isError) : (handleFetch s req).Denies s := by
  unfold handleFetch at error ⊢
  split at error
  next format =>
    rw [if_pos format]
    exact reject_denies s rfl (by decide) (by decide)
  next format =>
    rw [if_neg format]
    split at error
    next nothing =>
      rw [if_pos nothing]
      exact reject_denies s rfl (by decide) (by decide)
    next payload =>
      rw [if_neg payload]
      split at error
      · exact reject_denies s rfl (by decide) (by decide)
      · split at error
        · exact reject_denies s rfl (by decide) (by decide)
        · cases error

theorem handleDelete_denies (error : (handleDelete s).response.code.isError) : (handleDelete s).Denies s := by
  unfold handleDelete at error ⊢
  split at error
  · exact reject_denies s rfl (by decide) (by decide)
  · cases error

theorem handlePut_denies (handled : handlePut fuel s req = some outcome) (error : outcome.response.code.isError) :
    outcome.Denies s := by
  rw [handlePut] at handled
  split at handled
  · cases handled
    exact reject_denies s rfl (by decide) (by decide)
  · split at handled
    · cases handled
      exact reject_denies s rfl (by decide) (by decide)
    · obtain ⟨parsed, -, rfl⟩ := Option.map_eq_some_iff.mp handled
      split at error
      · cases error
      · exact reject_denies s rfl (by decide) (by decide)

theorem handlePostCreate_denies (handled : handlePostCreate fuel s req = some outcome)
    (error : outcome.response.code.isError) : outcome.Denies s := by
  rw [handlePostCreate] at handled
  split at handled
  · cases handled
    exact reject_denies s rfl (by decide) (by decide)
  · split at handled
    · cases handled
      exact reject_denies s rfl (by decide) (by decide)
    · obtain ⟨parsed, -, rfl⟩ := Option.map_eq_some_iff.mp handled
      split at error
      · cases error
      · exact reject_denies s rfl (by decide) (by decide)

theorem handlePostInvoke_denies (handled : handlePostInvoke env fuel s req = some outcome)
    (error : outcome.response.code.isError) : outcome.Denies s := by
  rw [handlePostInvoke] at handled
  split at handled
  · cases handled
    exact reject_denies s rfl (by decide) (by decide)
  · obtain ⟨parsed, -, rfl⟩ := Option.map_eq_some_iff.mp handled
    cases parsed with
    | none => exact reject_denies s rfl (by decide) (by decide)
    | some requests =>
        cases invoked : invokeAll env requests with
        | error failed =>
            dsimp only
            rw [invoked]
            cases invokeAll_error invoked with
            | mk isError small short => exact reject_denies s isError small short
        | ok responses =>
            dsimp only at error ⊢
            rw [invoked] at error ⊢
            dsimp only at error ⊢
            split at error
            · exact reject_denies s rfl (by decide) (by decide)
            · cases error

theorem handleIpatch_denies (handled : handleIpatch fuel s req = some outcome)
    (error : outcome.response.code.isError) : outcome.Denies s := by
  rw [handleIpatch] at handled
  split at handled
  · cases handled
    exact reject_denies s rfl (by decide) (by decide)
  · split at handled
    · cases handled
      exact reject_denies s rfl (by decide) (by decide)
    · split at handled
      · cases handled
        exact reject_denies s rfl (by decide) (by decide)
      · obtain ⟨applied, -, rfl⟩ := Option.map_eq_some_iff.mp handled
        cases error

theorem handle_denies {method : Method} (handled : handle env fuel s method req = some outcome)
    (error : outcome.response.code.isError) : outcome.Denies s := by
  cases method with
  | get =>
      cases handled
      exact handleGet_denies error
  | fetch =>
      cases handled
      exact handleFetch_denies error
  | delete =>
      cases handled
      exact handleDelete_denies error
  | put => exact handlePut_denies handled error
  | ipatch => exact handleIpatch_denies handled error
  | post =>
      change handlePost env fuel s req = some outcome at handled
      rw [handlePost] at handled
      split at handled
      · exact handlePostCreate_denies handled error
      · split at handled
        · cases handled
          exact reject_denies s rfl (by decide) (by decide)
        · exact handlePostInvoke_denies handled error

end Handlers

end Errors

section Runs

variable {env : Environment} {fuel : Nat} {p p' : Process}

theorem handleStreamFetch_error {queue : StreamQueue} {req : Request} {response : Response}
    (handled : handleStreamFetch fuel queue req = some response) (error : response.code.isError) :
    response.IsErrorObject := by
  rw [handleStreamFetch] at handled
  dsimp only at handled
  split at handled
  · obtain ⟨buf, -, rfl⟩ := Option.map_eq_some_iff.mp handled
    cases error
  · split at handled
    · cases handled
      exact sendError_object rfl (by decide) (by decide)
    · obtain ⟨collected, -, answered⟩ := Option.bind_eq_some_iff.mp handled
      cases collected with
      | none =>
          cases answered
          exact sendError_object rfl (by decide) (by decide)
      | some filterSids =>
          obtain ⟨buf, -, rfl⟩ := Option.map_eq_some_iff.mp answered
          cases error

/-- One request: an error answer is an error object, and the process is as it was. -/
theorem Process.respond_error {request : ProcessRequest} {response : Response}
    (responded : p.respond env fuel request = some (response, p')) (error : response.code.isError) :
    response.IsErrorObject ∧ p' = p := by
  cases request with
  | datastore method req =>
      obtain ⟨outcome, handled, performed⟩ := Option.bind_eq_some_iff.mp responded
      obtain ⟨queue, folded, same⟩ := Option.map_eq_some_iff.mp performed
      cases same
      obtain ⟨state, effects, object⟩ := handle_denies handled error
      rw [effects] at folded
      cases folded
      exact ⟨object, by rw [state]⟩
  | streamGet =>
      cases responded
      cases error
  | streamFetch req =>
      obtain ⟨answer, handled, same⟩ := Option.map_eq_some_iff.mp responded
      cases same
      exact ⟨handleStreamFetch_error handled error, rfl⟩
  | sidInfo =>
      cases responded
      cases error

theorem Process.run_cons {request : ProcessRequest} {rest : List ProcessRequest} {responses : List Response}
    (ran : p.run env fuel (request :: rest) = some (responses, p')) :
    ∃ response later next, p.respond env fuel request = some (response, next) ∧
      next.run env fuel rest = some (later, p') ∧ responses = response :: later := by
  obtain ⟨⟨response, next⟩, responded, ranRest⟩ := Option.bind_eq_some_iff.mp ran
  obtain ⟨⟨later, last⟩, ranLater, same⟩ := Option.map_eq_some_iff.mp ranRest
  cases same
  exact ⟨response, later, next, responded, ranLater, rfl⟩

theorem Process.run_of_respond {request : ProcessRequest} {rest : List ProcessRequest} {response : Response}
    {later : List Response} {next : Process} (responded : p.respond env fuel request = some (response, next))
    (ranRest : next.run env fuel rest = some (later, p')) :
    p.run env fuel (request :: rest) = some (response :: later, p') := by
  rw [Process.run, responded, Option.bind_some]
  dsimp only
  rw [ranRest, Option.map_some]

/-- Every error answer of a run is an error object, and without the requests that were answered
with an error the others get the answers they got and the process ends as it did. -/
theorem rejected_requests_leave_no_trace {requests : List ProcessRequest} {responses : List Response}
    (ran : p.run env fuel requests = some (responses, p')) :
    (∀ response ∈ responses, response.code.isError → response.IsErrorObject) ∧
      p.run env fuel ((accepted requests responses).map Prod.fst) =
        some ((accepted requests responses).map Prod.snd, p') := by
  induction requests generalizing p responses with
  | nil =>
      cases ran
      exact ⟨List.forall_mem_nil _, rfl⟩
  | cons request rest ih =>
      obtain ⟨response, later, next, responded, ranRest, rfl⟩ := Process.run_cons ran
      obtain ⟨objects, without⟩ := ih ranRest
      rw [accepted, List.zip_cons_cons, List.filter_cons]
      cases error : response.code.isError with
      | true =>
          obtain ⟨object, rfl⟩ := Process.respond_error responded error
          exact ⟨List.forall_mem_cons.mpr ⟨fun _ => object, objects⟩, without⟩
      | false =>
          refine ⟨List.forall_mem_cons.mpr ⟨fun isError => ?_, objects⟩, ?_⟩
          · rw [error] at isError
            cases isError
          · exact Process.run_of_respond responded without

end Runs

private def mistyped : ProcessRequest := .datastore .put ⟨none, [0xA1, 0x01, 0x02]⟩

private def typed : ProcessRequest := .datastore .put ⟨some CF_YANG_DATA_CBOR, [0xA1, 0x01, 0x02]⟩

private def refusal : Response :=
  sendError .unsupportedContentFormat 1012 "PUT requires CF=140 (yang-data+cbor;id=sid)"

private def afterPut : Process where
  server := ⟨some (.hashmap (mapOf [(1, .uint64 2)])), true⟩
  queue := StreamQueue.empty.push (streamWrapNotificationInstance BUFFER_SIZE 1 [0xA1, 0x01, 0x02])

private theorem put_run : Process.run bareEnvironment 3 ⟨⟨none, false⟩, .empty⟩ [mistyped, typed] =
    some ([refusal, ⟨.changed, none, []⟩], afterPut) := rfl

private theorem put_accepted :
    accepted [mistyped, typed] [refusal, ⟨.changed, none, []⟩] = [(typed, ⟨.changed, none, []⟩)] := by
  have error : refusal.code.isError := (sendError_object rfl (by decide) (by decide)).1
  rw [accepted, List.zip_cons_cons, List.filter_cons_of_neg (by simp [error])]
  rfl

theorem mistyped_put_leaves_no_trace :
    (∀ response ∈ [refusal, ⟨.changed, none, []⟩], response.code.isError → response.IsErrorObject) ∧
      Process.run bareEnvironment 3 ⟨⟨none, false⟩, .empty⟩ [typed] = some ([⟨.changed, none, []⟩], afterPut) := by
  have without := rejected_requests_leave_no_trace put_run
  rwa [put_accepted] at without

end Coreconf
