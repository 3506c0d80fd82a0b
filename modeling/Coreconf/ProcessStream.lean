import Coreconf.Process
import Coreconf.StreamWrapper

set_option autoImplicit false

/- The stream over a whole run of the process: it tells of the accepted writes and of nothing
else, the newest first. -/
namespace Coreconf

open Cbor (Item Width Framing)
open Fuel (Returns Monotone Extends)

/-- A map that observers are told of, and the SID it is told under. -/
structure StreamEvent where
  sid : UInt64
  framing : Framing
  entries : List (Item × Item)

namespace StreamEvent

def payload (event : StreamEvent) : Item := .map event.framing event.entries

def bytes (event : StreamEvent) : List UInt8 := (eventItem event.sid event.payload).encode

/-- A map that the readers of the stream pass over, and that fits an event. -/
structure Sendable (event : StreamEvent) : Prop where
  wellFormed : event.payload.WellFormed
  skippable : event.payload.Skippable
  fits : event.bytes.length ≤ BUFFER_SIZE

theorem Sendable.nonempty {event : StreamEvent} (sendable : event.Sendable) : event.bytes ≠ [] :=
  Item.encode_ne_nil (eventItem_wellFormed event.sid sendable.wellFormed)

/-- A filter shows the event to who has named its SID. -/
theorem Sendable.matched {event : StreamEvent} (sendable : event.Sendable) (filterSids : List UInt64) :
    matched filterSids event.bytes = decide (event.sid ∈ filterSids) := by
  have buffer : BUFFER_SIZE = 4096 := rfl
  have small : event.bytes.length < 2 ^ 63 := sendable.fits.trans_lt (by omega)
  exact Returns.unique matchesFilter_monotone (matchesFilter_matched filterSids event.bytes)
    (eventItem_matched sendable.wellFormed sendable.skippable small filterSids)

end StreamEvent

/-- The event of a map, under the SID of its first key. -/
noncomputable def eventOf (module : UInt64) (framing : Framing) (entries : List (Item × Item)) : StreamEvent :=
  ⟨Item.eventSid module entries, framing, entries⟩

/-- The events of an accepted request whose payload is complete. After the maps of an iPATCH
there may be bytes of which the splitter takes no map. -/
inductive ProcessRequest.Tells (module : UInt64) : ProcessRequest → List StreamEvent → Prop
  | get {req} : Tells module (.datastore .get req) []
  | fetch {req} : Tells module (.datastore .fetch req) []
  | put {req framing entries} (payload : req.payload = (Item.map framing entries).encode)
      (sendable : (eventOf module framing entries).Sendable) :
      Tells module (.datastore .put req) [eventOf module framing entries]
  | create {req framing entries} (format : getContentFormat req = CF_YANG_DATA_CBOR)
      (payload : req.payload = (Item.map framing entries).encode)
      (sendable : (eventOf module framing entries).Sendable) :
      Tells module (.datastore .post req) [eventOf module framing entries]
  | invoke {req} (format : getContentFormat req ≠ CF_YANG_DATA_CBOR) : Tells module (.datastore .post req) []
  | ipatch {req} {maps : List (Framing × List (Item × Item))} {rest}
      (payload : req.payload = (maps.map fun map => (Item.map map.1 map.2).encode).flatten ++ rest)
      (sendable : ∀ map ∈ maps, (eventOf module map.1 map.2).Sendable) (unsliced : Unsliced rest) :
      Tells module (.datastore .ipatch req) (maps.map fun map => eventOf module map.1 map.2)
  | delete {req} : Tells module (.datastore .delete req) [eventOf module (.definite .immediate) []]
  | streamGet : Tells module .streamGet []
  | streamFetch {req} : Tells module (.streamFetch req) []
  | sidInfo : Tells module .sidInfo []

/-- zcbor_tstr_put_lit cuts the texts of the example events. -/
def portFaultEvent (portName portFault : String) : StreamEvent where
  sid := 60010
  framing := .indefinite
  entries :=
    [(.uint .immediate 1, .tstr .immediate ((text portName ++ [0]).take 7)),
      (.uint .immediate 2, .tstr .immediate ((text portFault ++ [0]).take 7))]

/-- What is told before the first request, the oldest first. -/
def startEvents : List StreamEvent := [portFaultEvent "0/4/21" "Open pin 2", portFaultEvent "1/4/21" "Open pin 5"]

theorem eventOf_empty_sendable (module : UInt64) : (eventOf module (.definite .immediate) []).Sendable where
  wellFormed := .map (show 0 < 24 by decide) (List.forall_mem_nil _) (List.forall_mem_nil _)
  skippable := .map (List.forall_mem_nil _) (List.forall_mem_nil _)
  fits := by
    have keySize := (Width.least module.toNat).length_le
    rw [StreamEvent.bytes, eventItem_length, Item.encode, Cbor.head_length, BUFFER_SIZE]
    have mapSize : (eventOf module (.definite .immediate) []).payload.encode.length = 1 := rfl
    have sid : (eventOf module (.definite .immediate) []).sid = module := rfl
    rw [mapSize, sid]
    omega

theorem portFault_sendable {portName portFault : String}
    (fits : (portFaultEvent portName portFault).bytes.length ≤ BUFFER_SIZE) :
    (portFaultEvent portName portFault).Sendable where
  wellFormed := by
    have short : ∀ bytes : List UInt8, (bytes.take 7).length < 24 := fun bytes =>
      (List.length_take_le 7 bytes).trans_lt (by decide)
    refine .map trivial ?_ ?_ <;> simp only [portFaultEvent, List.forall_mem_cons]
    · exact ⟨.uint (show 1 < 24 by decide), .uint (show 2 < 24 by decide), List.forall_mem_nil _⟩
    · exact ⟨.tstr (short _), .tstr (short _), List.forall_mem_nil _⟩
  skippable := by
    refine .map ?_ ?_ <;> simp only [portFaultEvent, List.forall_mem_cons]
    · exact ⟨.uint _ _, .uint _ _, List.forall_mem_nil _⟩
    · exact ⟨.tstr _ _, .tstr _ _, List.forall_mem_nil _⟩
  fits := fits

theorem startEvents_sendable : ∀ event ∈ startEvents, event.Sendable := by
  rw [startEvents, List.forall_mem_cons, List.forall_mem_singleton]
  exact ⟨portFault_sendable (by decide +kernel), portFault_sendable (by decide +kernel)⟩

theorem start_events (env : Environment) :
    (Process.start env).queue.events = startEvents.reverse.map StreamEvent.bytes := by
  change (publishExamplePortFault "1/4/21" "Open pin 5"
    (publishExamplePortFault "0/4/21" "Open pin 2" .empty)).events = _
  decide +kernel

section Push

variable {module : UInt64} {fuel : Nat} {queue queue' : StreamQueue}

/-- A complete map is queued as its event. -/
theorem pushNotificationMap_event {framing : Framing} {entries : List (Item × Item)}
    (sendable : (eventOf module framing entries).Sendable)
    (pushed : pushNotificationMap module fuel queue (Item.map framing entries).encode = some queue') :
    queue' = queue.push (eventOf module framing entries).bytes := by
  have limit : ZCBOR_LARGE_ELEM_COUNT = 2 ^ 64 - 1 - 15 := rfl
  have buffer : BUFFER_SIZE = 4096 := rfl
  have wellFormed : (Item.map framing entries).WellFormed := sendable.wellFormed
  have fits : (eventItem (Item.eventSid module entries) (.map framing entries)).encode.length ≤ BUFFER_SIZE :=
    sendable.fits
  have inner := encode_le_eventItem (Item.eventSid module entries) (.map framing entries)
  rw [pushNotificationMap, if_neg (Item.encode_ne_nil wellFormed)] at pushed
  obtain ⟨notifSid, extracted, rfl⟩ := Option.map_eq_some_iff.mp pushed
  have first := extractFirstSid_item module wellFormed
    (show (Item.map framing entries).encode.length ≤ ZCBOR_LARGE_ELEM_COUNT by omega)
  obtain rfl := Returns.unique (extractFirstSid_monotone module) ⟨fuel, extracted⟩ first
  rw [streamWrapNotificationInstance_item _ wellFormed, if_neg (not_lt.mpr fits)]
  rfl

/-- The slices of maps that follow one another. -/
def slicesOf (offset : Nat) : List (Framing × List (Item × Item)) → List Slice
  | [] => []
  | map :: rest =>
      let len := (Item.map map.1 map.2).encode.length
      ⟨offset, len⟩ :: slicesOf (offset + len) rest

theorem sequenceMaps_sliced {maps : List (Framing × List (Item × Item))} {rest : List UInt8}
    (sendable : ∀ map ∈ maps, (eventOf module map.1 map.2).Sendable) (unsliced : Unsliced rest) (offset : Nat)
    (slices : List Slice) :
    Returns (Fuel.iterate sequenceMapBody)
      ⟨(maps.map fun map => (Item.map map.1 map.2).encode).flatten ++ rest, offset, slices⟩
      (slices ++ slicesOf offset maps) := by
  induction maps generalizing offset slices with
  | nil =>
      rw [slicesOf, List.append_nil]
      exact unsliced.run offset slices
  | cons map later ih =>
      obtain ⟨first, others⟩ := List.forall_mem_cons.mp sendable
      have buffer : BUFFER_SIZE = 4096 := rfl
      have fits := first.fits
      have inner : (Item.map map.1 map.2).encode.length ≤ (eventOf module map.1 map.2).bytes.length :=
        encode_le_eventItem _ _
      obtain ⟨keys, values⟩ : (∀ entry ∈ map.2, entry.1.Skippable) ∧ ∀ entry ∈ map.2, entry.2.Skippable := by
        have skippable : (Item.map map.1 map.2).Skippable := first.skippable
        cases skippable with
        | map keys values => exact ⟨keys, values⟩
      have taken := Item.sequenceMap_item first.wellFormed keys values
        (show (Item.map map.1 map.2).encode.length < 2 ^ 63 by omega)
      rw [List.map_cons, List.flatten_cons, List.append_assoc]
      have next := ih others (offset + (Item.map map.1 map.2).encode.length)
        (slices ++ [⟨offset, (Item.map map.1 map.2).encode.length⟩])
      rw [List.append_assoc] at next
      exact Fuel.iterate_next sequenceMapBody_monotone (sequenceMapBody_complete taken rfl) next

/-- One slice after the other is queued as the event of its map. -/
theorem pushSlices_events {maps : List (Framing × List (Item × Item))} {before rest : List UInt8}
    (sendable : ∀ map ∈ maps, (eventOf module map.1 map.2).Sendable)
    (pushed : (slicesOf before.length maps).foldlM (fun queue slice =>
      let seqData := before ++ ((maps.map fun map => (Item.map map.1 map.2).encode).flatten ++ rest)
      if slice.start + slice.len ≤ seqData.length then pushNotificationMap module fuel queue (slice.bytes seqData)
      else none) queue = some queue') :
    queue' = (maps.map fun map => (eventOf module map.1 map.2).bytes).foldl StreamQueue.push queue := by
  induction maps generalizing before queue with
  | nil =>
      cases pushed
      rfl
  | cons map later ih =>
      obtain ⟨first, others⟩ := List.forall_mem_cons.mp sendable
      set encoded := (Item.map map.1 map.2).encode with encoded_eq
      set behind := (later.map fun map => (Item.map map.1 map.2).encode).flatten with behind_eq
      have whole : before ++ (((map :: later).map fun map => (Item.map map.1 map.2).encode).flatten ++ rest) =
          (before ++ encoded) ++ (behind ++ rest) := by
        rw [List.map_cons, List.flatten_cons, List.append_assoc, List.append_assoc]
      have inside : before.length + encoded.length ≤ ((before ++ encoded) ++ (behind ++ rest)).length := by
        rw [List.length_append, List.length_append]
        omega
      have cut : Slice.bytes ⟨before.length, encoded.length⟩ ((before ++ encoded) ++ (behind ++ rest)) = encoded := by
        rw [Slice.bytes, List.append_assoc, List.drop_left, List.take_left]
      rw [slicesOf, List.foldlM_cons] at pushed
      simp only [whole] at pushed
      rw [if_pos inside, cut] at pushed
      obtain ⟨middle, pushedFirst, pushedLater⟩ := Option.bind_eq_some_iff.mp pushed
      obtain rfl := pushNotificationMap_event first pushedFirst
      rw [← List.length_append] at pushedLater
      exact ih others pushedLater

end Push

section Step

variable {env : Environment} {fuel : Nat} {p p' : Process}

/-- What a process and the events told so far, the oldest first, have to do with each other. -/
structure Told (env : Environment) (p : Process) (history : List StreamEvent) : Prop where
  reached : Reachable env p.server
  sendable : ∀ event ∈ history, event.Sendable
  queue : p.queue.events = (history.reverse.take STREAM_MAX_EVENTS).map StreamEvent.bytes

theorem Told.start (env : Environment) : Told env (Process.start env) startEvents where
  reached := .start
  sendable := startEvents_sendable
  queue := start_events env

/-- Pushing the events of a request keeps the newest sixteen. -/
theorem Told.push {history events : List StreamEvent} (told : Told env p history)
    (sendable : ∀ event ∈ events, event.Sendable) (reached : Reachable env p'.server)
    (queue : p'.queue = (events.map StreamEvent.bytes).foldl StreamQueue.push p.queue) :
    Told env p' (history ++ events) where
  reached := reached
  sendable := List.forall_mem_append.mpr ⟨told.sendable, sendable⟩
  queue := by
    have nonempty : ∀ data ∈ events.map StreamEvent.bytes, data ≠ [] := by
      rintro data member
      obtain ⟨event, inside, rfl⟩ := List.mem_map.mp member
      exact (sendable event inside).nonempty
    have held : p.queue.events = (history.reverse.map StreamEvent.bytes).take STREAM_MAX_EVENTS := by
      rw [told.queue, List.map_take]
    rw [queue, pushAll_events nonempty held, List.reverse_append, List.map_take, List.map_append, List.map_reverse,
      List.map_reverse]

/-- The effects of a handler that tells of one map. -/
theorem perform_map {effects : List Effect} {framing : Framing} {entries : List (Item × Item)}
    {queue queue' : StreamQueue} (sendable : (eventOf env.sysSids.module framing entries).Sendable)
    (system : ∀ effect ∈ effects, ∃ command, effect = .system command)
    (performed : (effects ++ [Effect.pushNotificationMap (Item.map framing entries).encode,
      Effect.notifyStreamObservers]).foldlM (Effect.perform env fuel) queue = some queue') :
    queue' = queue.push (eventOf env.sysSids.module framing entries).bytes := by
  induction effects with
  | nil =>
      obtain ⟨middle, pushed, later⟩ := Option.bind_eq_some_iff.mp performed
      cases later
      exact pushNotificationMap_event sendable pushed
  | cons effect rest ih =>
      obtain ⟨⟨command, rfl⟩, others⟩ := List.forall_mem_cons.mp system
      exact ih others performed

theorem rotatePassword_system (map : CoreconfHashMapT CoreconfValueT) :
    ∀ effect ∈ rotatePassword map, ∃ command, effect = .system command := by
  rw [rotatePassword]
  split
  · exact List.forall_mem_singleton.mpr ⟨_, rfl⟩
  · exact List.forall_mem_nil _

theorem handleGet_silent (s : ServerState) : (handleGet s).effects = [] := by
  unfold handleGet
  split
  · rfl
  · split
    · rfl
    · split <;> rfl

theorem handleFetch_silent (s : ServerState) (req : Request) : (handleFetch s req).effects = [] := by
  unfold handleFetch
  split
  · rfl
  · split
    · rfl
    · split
      · rfl
      · split <;> rfl

theorem handlePostInvoke_silent {s : ServerState} {req : Request} {outcome : Outcome}
    (handled : handlePostInvoke env fuel s req = some outcome) : outcome.effects = [] := by
  unfold handlePostInvoke at handled
  split at handled
  · cases handled
    rfl
  · obtain ⟨parsed, -, same⟩ := Option.map_eq_some_iff.mp handled
    split at same
    · cases same
      rfl
    · split at same
      · cases same
        rfl
      · split at same <;> cases same <;> rfl

/-- The effects of the handlers that write. -/
theorem handlePut_effects {s : ServerState} {req : Request} {outcome : Outcome}
    (handled : handlePut fuel s req = some outcome) (accepts : outcome.response.code.isError = false) :
    ∃ map, outcome.effects = rotatePassword map ++ [.pushNotificationMap req.payload, .notifyStreamObservers] := by
  rw [handlePut] at handled
  split at handled
  · cases handled
    cases (reject_denies s rfl (by decide) (by decide)).object.1.symm.trans accepts
  · split at handled
    · cases handled
      cases (reject_denies s rfl (by decide) (by decide)).object.1.symm.trans accepts
    · obtain ⟨parsed, -, rfl⟩ := Option.map_eq_some_iff.mp handled
      split at accepts
      next map => exact ⟨map, rfl⟩
      next => cases (reject_denies s rfl (by decide) (by decide)).object.1.symm.trans accepts

theorem handlePostCreate_effects {s : ServerState} {req : Request} {outcome : Outcome}
    (handled : handlePostCreate fuel s req = some outcome) (accepts : outcome.response.code.isError = false) :
    outcome.effects = [.pushNotificationMap req.payload, .notifyStreamObservers] := by
  rw [handlePostCreate] at handled
  split at handled
  · cases handled
    cases (reject_denies s rfl (by decide) (by decide)).object.1.symm.trans accepts
  · split at handled
    · cases handled
      cases (reject_denies s rfl (by decide) (by decide)).object.1.symm.trans accepts
    · obtain ⟨parsed, -, rfl⟩ := Option.map_eq_some_iff.mp handled
      split at accepts
      · rfl
      · cases (reject_denies s rfl (by decide) (by decide)).object.1.symm.trans accepts

theorem handleDelete_effects {s : ServerState} (accepts : (handleDelete s).response.code.isError = false) :
    (handleDelete s).effects = [.pushNotificationMap [0xA0], .notifyStreamObservers] := by
  unfold handleDelete at accepts ⊢
  split at accepts
  · cases (reject_denies s rfl (by decide) (by decide)).object.1.symm.trans accepts
  · rfl

/-- A patch of a datastore is told whatever was applied, as the count is not negative. -/
theorem handleIpatch_effects {s : ServerState} (reached : Reachable env s) {req : Request} {outcome : Outcome}
    (handled : handleIpatch fuel s req = some outcome) (accepts : outcome.response.code.isError = false) :
    outcome.effects = [.pushNotificationSequence req.payload, .notifyStreamObservers] := by
  rcases handleIpatch_cases handled with ⟨-, error, -⟩ |
    ⟨datastore, n, datastore', -, nonempty, found, applied, -, -, effects⟩
  · cases error.symm.trans accepts
  · obtain ⟨root, current, -⟩ := reached.current (by rw [found]; rfl)
    obtain rfl := Option.some.inj (found.symm.trans current)
    rw [effects, if_pos (applyPayload_count nonempty ⟨fuel, applied⟩)]

/-- One request that is not answered with an error. -/
theorem Told.respond {history events : List StreamEvent} (told : Told env p history) {request : ProcessRequest}
    {response : Response} (responded : p.respond env fuel request = some (response, p'))
    (accepts : response.code.isError = false) (tells : request.Tells env.sysSids.module events) :
    Told env p' (history ++ events) := by
  cases request with
  | streamGet =>
      cases responded
      cases tells
      exact told.push (List.forall_mem_nil _) told.reached rfl
  | streamFetch req =>
      obtain ⟨answer, -, same⟩ := Option.map_eq_some_iff.mp responded
      cases same
      cases tells
      exact told.push (List.forall_mem_nil _) told.reached rfl
  | sidInfo =>
      cases responded
      cases tells
      exact told.push (List.forall_mem_nil _) told.reached rfl
  | datastore method req =>
      obtain ⟨outcome, handled, answered⟩ := Option.bind_eq_some_iff.mp responded
      obtain ⟨queue, performed, same⟩ := Option.map_eq_some_iff.mp answered
      cases same
      have reached : Reachable env outcome.state := .step told.reached ⟨fuel, handled⟩
      -- a handler without effects leaves the queue
      have silent (none : outcome.effects = []) : Told env ⟨outcome.state, queue⟩ (history ++ []) := by
        rw [none] at performed
        cases performed
        exact told.push (List.forall_mem_nil _) reached rfl
      cases tells with
      | get =>
          cases handled
          exact silent (handleGet_silent _)
      | fetch =>
          cases handled
          exact silent (handleFetch_silent _ _)
      | put payload sendable =>
          obtain ⟨map, effects⟩ := handlePut_effects handled accepts
          rw [effects, payload] at performed
          have pushed := perform_map sendable (rotatePassword_system map) performed
          exact told.push (List.forall_mem_singleton.mpr sendable) reached pushed
      | create format payload sendable =>
          change handlePost env fuel p.server req = some outcome at handled
          rw [handlePost, if_pos format] at handled
          rw [handlePostCreate_effects handled accepts, payload] at performed
          have pushed := @perform_map _ _ [] _ _ _ _ sendable (List.forall_mem_nil _) performed
          exact told.push (List.forall_mem_singleton.mpr sendable) reached pushed
      | invoke format =>
          change handlePost env fuel p.server req = some outcome at handled
          rw [handlePost, if_neg format] at handled
          split at handled
          · cases handled
            exact silent rfl
          · exact silent (handlePostInvoke_silent handled)
      | @ipatch _ maps rest payload sendable unsliced =>
          rw [handleIpatch_effects told.reached handled accepts] at performed
          obtain ⟨middle, pushed, later⟩ := Option.bind_eq_some_iff.mp performed
          cases later
          obtain ⟨slices, sliced, folded⟩ := Option.bind_eq_some_iff.mp pushed
          rw [payload] at sliced folded
          obtain rfl := Returns.unique streamPushNotificationSequence_monotone ⟨fuel, sliced⟩
            (sequenceMaps_sliced sendable unsliced 0 [])
          have events := @pushSlices_events _ _ _ _ maps [] rest sendable folded
          refine told.push ?_ reached (by rw [List.map_map]; exact events)
          rintro event member
          obtain ⟨map, inside, rfl⟩ := List.mem_map.mp member
          exact sendable map inside
      | delete =>
          cases handled
          rw [handleDelete_effects accepts] at performed
          have sendable := eventOf_empty_sendable env.sysSids.module
          have pushed := @perform_map _ _ [] _ _ _ _ sendable (List.forall_mem_nil _) performed
          exact told.push (List.forall_mem_singleton.mpr sendable) reached pushed

/-- A run, by induction over its requests; those answered with an error leave no trace. -/
theorem Told.run {history : List StreamEvent} (told : Told env p history) {requests : List ProcessRequest}
    {responses : List Response} {events : List (List StreamEvent)}
    (ran : p.run env fuel requests = some (responses, p'))
    (tells : List.Forall₂ (fun answered told => answered.1.Tells env.sysSids.module told)
      (accepted requests responses) events) : Told env p' (history ++ events.flatten) := by
  induction requests generalizing p history responses events with
  | nil =>
      cases ran
      cases tells
      exact told.push (List.forall_mem_nil _) told.reached rfl
  | cons request rest ih =>
      obtain ⟨response, later, next, responded, ranRest, rfl⟩ := Process.run_cons ran
      rw [accepted, List.zip_cons_cons, List.filter_cons] at tells
      cases error : response.code.isError with
      | true =>
          obtain ⟨-, rfl⟩ := Process.respond_error responded error
          rw [error] at tells
          exact ih told ranRest tells
      | false =>
          rw [error] at tells
          cases tells with
          | @cons _ first _ others tellsFirst tellsRest =>
              have step := told.respond responded error tellsFirst
              rw [List.flatten_cons, ← List.append_assoc]
              exact ih step ranRest tellsRest

end Step

section Observers

variable {env : Environment} {p : Process} {history : List StreamEvent}

theorem Told.nonempty (told : Told env p history) : ∀ event ∈ p.queue.events, event ≠ [] := by
  rw [told.queue]
  rintro data member
  obtain ⟨event, inside, rfl⟩ := List.mem_map.mp member
  exact (told.sendable event (List.mem_reverse.mp (List.mem_of_mem_take inside))).nonempty

/-- The events shown to a filter are those under its SIDs. -/
theorem Told.shown (told : Told env p history) (filterSids : List UInt64) :
    p.queue.events.filter (matched filterSids) =
      ((history.reverse.take STREAM_MAX_EVENTS).filter fun event => event.sid ∈ filterSids).map
        StreamEvent.bytes := by
  rw [told.queue, List.filter_map]
  congr 1
  refine List.filter_congr fun event member => ?_
  exact (told.sendable event (List.mem_reverse.mp (List.mem_of_mem_take member))).matched filterSids

def collectSids (n : Nat) (data : List UInt8) : Option (Option (List UInt64)) := streamCollectFilterSids 64 n data

theorem collectSids_monotone : Monotone collectSids := by
  refine Monotone.of_extends fun m n data le => ?_
  simp only [collectSids, streamCollectFilterSids]
  have looped := (Fuel.iterate_monotone (filterSids_monotone 64)).extends le ⟨[], data⟩
  exact .ite (.refl _) (looped.map _)

def encodeFiltered (filterSids : List UInt64) (n : Nat) (queue : StreamQueue) : Option (List UInt8) :=
  streamEncodeSequenceFiltered BUFFER_SIZE 8 filterSids n queue

theorem encodeFiltered_monotone (filterSids : List UInt64) : Monotone (encodeFiltered filterSids) := by
  refine Monotone.of_extends fun m n queue le => ?_
  simp only [encodeFiltered, streamEncodeSequenceFiltered]
  exact .ite (.refl _) (.ite (.refl _) ((matchesEncoded_monotone _ _ _ 0 0).extends le _))

theorem collected_nonempty {data : List UInt8} {filterSids : List UInt64}
    (collected : Returns collectSids data (some filterSids)) : data ≠ [] ∧ filterSids ≠ [] := by
  obtain ⟨n, ran⟩ := collected
  rw [collectSids, streamCollectFilterSids] at ran
  split at ran
  · cases ran
  next something =>
    obtain ⟨loop, -, same⟩ := Option.map_eq_some_iff.mp ran
    split at same
    · cases same
    next found =>
      cases same
      exact ⟨fun empty => something (Or.inl empty), found⟩

theorem Told.streamGet (told : Told env p history) :
    ∃ taken, LongestFitting BUFFER_SIZE ((history.reverse.take 8).map StreamEvent.bytes) taken ∧
      handleStreamGet p.queue = ⟨.content, some CF_YANG_INSTANCES, taken.flatten⟩ := by
  refine ⟨_, fitting_longest BUFFER_SIZE _, ?_⟩
  have newest : firstEvents 8 p.queue.events = (history.reverse.take 8).map StreamEvent.bytes := by
    rw [firstEvents, if_neg (by decide), told.queue, ← List.map_take, List.take_take]
    rfl
  rw [handleStreamGet, streamEncodeSequence_eq told.nonempty, newest]

theorem Told.streamFetch (told : Told env p history) {req : Request}
    (format : getContentFormat req = CF_YANG_IDENTIFIERS) {filterSids : List UInt64}
    (collected : Returns collectSids req.payload (some filterSids)) :
    ∃ taken, LongestFitting BUFFER_SIZE
        ((((history.reverse.take STREAM_MAX_EVENTS).filter fun event => event.sid ∈ filterSids).take 8).map
          StreamEvent.bytes) taken ∧
      ∃ fuel, handleStreamFetch fuel p.queue req = some ⟨.content, some CF_YANG_INSTANCES, taken.flatten⟩ := by
  refine ⟨_, fitting_longest BUFFER_SIZE _, ?_⟩
  obtain ⟨present, filtered⟩ := collected_nonempty collected
  have encoded := streamEncodeSequenceFiltered_returns told.nonempty BUFFER_SIZE 8 filtered
  rw [firstEvents, if_neg (by decide), told.shown, ← List.map_take] at encoded
  obtain ⟨n, ranCollect, ranEncode⟩ :=
    Returns.both collectSids_monotone (encodeFiltered_monotone filterSids) collected encoded
  refine ⟨n, ?_⟩
  rw [handleStreamFetch, if_neg present, if_neg (by simp [format]),
    show streamCollectFilterSids 64 n req.payload = _ from ranCollect, Option.bind_some]
  dsimp only
  rw [show streamEncodeSequenceFiltered BUFFER_SIZE 8 filterSids n p.queue = _ from ranEncode, Option.map_some]

end Observers

private def putOne : ProcessRequest := .datastore .put ⟨some CF_YANG_DATA_CBOR, [0xA1, 0x01, 0x02]⟩

private def deleteAll : ProcessRequest := .datastore .delete ⟨none, []⟩

private def afterDelete : Process where
  server := ⟨none, false⟩
  queue :=
    ((Process.start bareEnvironment).queue.push
      (streamWrapNotificationInstance BUFFER_SIZE 1 [0xA1, 0x01, 0x02])).push
        (streamWrapNotificationInstance BUFFER_SIZE 0 [0xA0])

private theorem delete_run : (Process.start bareEnvironment).run bareEnvironment 3 [putOne, deleteAll] =
    some ([⟨.changed, none, []⟩, ⟨.deleted, none, []⟩], afterDelete) := rfl

private theorem one_sendable :
    (eventOf 0 (.definite .immediate) [(.uint .immediate 1, .uint .immediate 2)]).Sendable := by
  have keyed : Item.eventSid 0 [(.uint .immediate 1, .uint .immediate 2)] = 1 := by
    rw [Item.eventSid, Item.readSid?, if_pos (.uint _ _)]
    rfl
  refine ⟨.map (show 1 < 24 by decide) ?_ ?_, .map ?_ ?_, ?_⟩
  · exact List.forall_mem_singleton.mpr (.uint (show 1 < 24 by decide))
  · exact List.forall_mem_singleton.mpr (.uint (show 2 < 24 by decide))
  · exact List.forall_mem_singleton.mpr (.uint _ _)
  · exact List.forall_mem_singleton.mpr (.uint _ _)
  · rw [StreamEvent.bytes, eventOf, keyed]
    decide

end Coreconf
