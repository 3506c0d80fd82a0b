import Coreconf.EventQueue

set_option autoImplicit false

/- The notification wrapper of coreconf_server.c against the zcbor functions that write and
read the same bytes. -/
namespace Coreconf

open Cbor (Item Framing Width)
open Fuel (Returns)

theorem cborEncodeUint_full (outSz : Nat) (value : UInt64) :
    cborEncodeUint outSz value =
      if (keyItem value).encode.length ≤ outSz then (keyItem value).encode else [] := by
  have enough := cborEncodeUint_eq (Nat.le_refl 9) value
  change _ = (keyItem value).encode at enough
  rw [← enough, cborEncodeUint, cborEncodeUint]
  by_cases immediate : value < 24
  · simp only [if_pos immediate]
    split <;> split <;> simp_all
  simp only [if_neg immediate]
  by_cases one : value ≤ 0xFF
  · simp only [if_pos one]
    split <;> split <;> simp_all
  simp only [if_neg one]
  by_cases two : value ≤ 0xFFFF
  · simp only [if_pos two]
    split <;> split <;> simp_all
  simp only [if_neg two]
  by_cases four : value ≤ 0xFFFFFFFF
  · simp only [if_pos four]
    split <;> split <;> simp_all
  simp only [if_neg four]
  split <;> split <;> simp_all

/-- The hand-written encoder writes what zcbor writes, or nothing where zcbor fails. -/
theorem cborEncodeUint_put (outSz : Nat) (value : UInt64) :
    (zcborUint64Put (zcborNewEncodeState outSz) value).map (·.payload) =
      if cborEncodeUint outSz value = [] then none else some (cborEncodeUint outSz value) := by
  have nonempty : (keyItem value).encode ≠ [] := Item.encode_ne_nil (.uint (Width.least_fits value.toNat_lt))
  have written : (zcborUint64Put (zcborNewEncodeState outSz) value).map (·.payload) =
      if (keyItem value).encode.length ≤ outSz then some (keyItem value).encode else none := by
    rw [zcborUint64Put_eq, ← put_newEncodeState]
    cases (zcborNewEncodeState outSz).put (keyItem value).encode <;> rfl
  rw [written, cborEncodeUint_full]
  by_cases fits : (keyItem value).encode.length ≤ outSz
  · rw [if_pos fits, if_pos fits, if_neg nonempty]
  · rw [if_neg fits, if_neg fits, if_pos rfl]

/-- An event is written wherever there is room for all of it. -/
theorem streamWrapNotificationInstance_fits {outSz : Nat} {sid : UInt64} {payloadMap : Item}
    (wellFormed : payloadMap.WellFormed) (fits : (eventItem sid payloadMap).encode.length ≤ outSz) :
    streamWrapNotificationInstance outSz sid payloadMap.encode = (eventItem sid payloadMap).encode := by
  have nonempty := Item.encode_ne_nil wellFormed
  have keyNonempty : (keyItem sid).encode ≠ [] := Item.encode_ne_nil (.uint (Width.least_fits sid.toNat_lt))
  have positive := List.length_pos_iff.mpr nonempty
  have total : (eventItem sid payloadMap).encode.length =
      1 + (keyItem sid).encode.length + payloadMap.encode.length := eventItem_length sid payloadMap
  have key : cborEncodeUint (outSz - 1) sid = (keyItem sid).encode := by
    rw [cborEncodeUint_full, if_pos (by omega)]
  rw [streamWrapNotificationInstance, if_neg (by simp only [nonempty, or_false]; omega), key]
  simp only [if_neg keyNonempty]
  rw [if_neg (by omega), eventItem_encode]
  rfl

/-- What the zcbor calls find in the bytes: a map of one entry, whose key is the SID, whose
value is the payload and is skipped to its end, which is that of the map and of the bytes. -/
structure ReadAsEntry (nStates : Nat) (event : List UInt8) (sid : UInt64) (payload : List UInt8) : Prop where
  read : ∃ start key value left,
    zcborMapStartDecode (zcborNewDecodeState nStates event 1) = (true, start) ∧
    zcborArrayAtEnd start = false ∧
    zcborUint64Decode start = some (sid, key) ∧
    key.payload = payload ∧
    Returns zcborAnySkip key (.skipped value 0) ∧
    zcborArrayAtEnd value = true ∧
    zcborMapEndDecode value = (true, left) ∧
    left.payload = []

section Event

variable {framing : Framing} {entries : List (Item × Item)} (wellFormed : Item.WellFormed (.map framing entries))
  (skippable : Item.Skippable (.map framing entries)) {sid : UInt64}
  (object : (eventItem sid (.map framing entries)).encode.length < 2 ^ 63)
include wellFormed skippable object

theorem eventItem_read {nStates : Nat} (room : 2 < nStates) :
    ReadAsEntry nStates (eventItem sid (.map framing entries)).encode sid (Item.map framing entries).encode := by
  set payload := Item.map framing entries with payload_eq
  set event := (eventItem sid payload).encode with event_eq
  set st := zcborNewDecodeState nStates event 1 with st_eq
  have limit : ZCBOR_LARGE_ELEM_COUNT = 2 ^ 64 - 1 - 15 := rfl
  have sizes : event.length = 1 + (keyItem sid).encode.length + payload.encode.length :=
    eventItem_length sid payload
  have at_entry : event = (Framing.definite .immediate).opening 5 1 ++ ((keyItem sid).encode ++ payload.encode) := by
    rw [event_eq, eventItem_encode]
    rfl
  have started := zcborMapStartDecode_new room (show (Framing.definite .immediate).Fits 1 from by decide)
    (show 1 < ZCBOR_MAX_ELEM_COUNT / 2 by decide) at_entry
  set start := st.entered (.definite .immediate) (2 * 1) ((keyItem sid).encode ++ payload.encode) with start_eq
  have inside : Inside (.definite .immediate) 2 start := entered_inside (by decide)
  have read : zcborUint64Decode start = some (sid, start.after payload.encode) := by
    have decoded := zcborUint64Decode_item (.uint (Width.least_fits sid.toNat_lt))
      (show start.payload = (keyItem sid).encode ++ payload.encode from rfl) inside.left
    rw [decoded]
    simp [Item.sid?]
  have behind : Inside (.definite .immediate) 1 (start.after payload.encode) := inside.after _
  have skipped : Returns zcborAnySkip (start.after payload.encode)
      (.skipped ((start.after payload.encode).after []) 0) :=
    zcborAnySkip_item wellFormed skippable (List.append_nil _).symm behind.left
      (show payload.encode.length ≤ ZCBOR_LARGE_ELEM_COUNT by omega)
  have ended : Inside (.definite .immediate) 0 ((start.after payload.encode).after []) := behind.after _
  have notEnd : zcborArrayAtEnd start = false := by
    have left := inside.left
    simp [zcborArrayAtEnd, inside.1, left]
  exact ⟨start, start.after payload.encode, _, _, started, notEnd, read, rfl, skipped, ended.atEnd rfl,
    ended.leave rfl rfl, rfl⟩

omit skippable in
theorem eventItem_firstSid (fallbackSid : UInt64) :
    Returns (extractFirstSid fallbackSid) (eventItem sid (.map framing entries)).encode sid := by
  have limit : ZCBOR_LARGE_ELEM_COUNT = 2 ^ 64 - 1 - 15 := rfl
  have first := extractFirstSid_item fallbackSid (eventItem_wellFormed sid wellFormed)
    (show (eventItem sid (.map framing entries)).encode.length ≤ ZCBOR_LARGE_ELEM_COUNT by omega)
  have keyed : Item.eventSid fallbackSid
      [(.uint (Width.least sid.toNat) sid.toNat, Item.map framing entries)] = sid := by
    rw [Item.eventSid, Item.readSid?, if_pos (.uint _ _)]
    simp [Item.iidSid?]
  rwa [keyed] at first

/-- The matcher comes to the SID of the event and to no other. -/
theorem eventItem_matched (filterSids : List UInt64) :
    Returns matchesFilter (filterSids, (eventItem sid (.map framing entries)).encode)
      (decide (sid ∈ filterSids)) := by
  have limit : ZCBOR_LARGE_ELEM_COUNT = 2 ^ 64 - 1 - 15 := rfl
  have eventFormed := eventItem_wellFormed sid wellFormed
  set item := eventItem sid (.map framing entries) with item_eq
  have atItems : AtItems [item] item.encode :=
    ⟨by simpa using eventFormed, [], by simp [Item.encodeItems], Or.inl rfl⟩
  have size : item.encode.length ≤ ZCBOR_LARGE_ELEM_COUNT := by omega
  have walk : filterSids ≠ [] → ∀ n,
      matchesFilter n (filterSids, item.encode) = Fuel.iterate (eventMapBody filterSids) n item.encode := by
    intro filtered n
    rw [matchesFilter, streamEventMatchesFilter, if_neg (by simp [filtered, Item.encode_ne_nil eventFormed])]
  by_cases listed : sid ∈ filterSids
  · rw [decide_eq_true listed]
    obtain ⟨n, ran⟩ := eventMaps_met listed (met_eventItem.mpr (Or.inl rfl)) atItems size
    exact ⟨n, by rwa [walk (List.ne_nil_of_mem listed)]⟩
  · rw [decide_eq_false listed]
    obtain ⟨found, n, ran⟩ := matchesFilter_terminates filterSids item.encode
    cases found with
    | false => exact ⟨n, ran⟩
    | true =>
        have filtered : filterSids ≠ [] := by
          rintro rfl
          simp [matchesFilter, streamEventMatchesFilter] at ran
        rw [walk filtered] at ran
        obtain ⟨other, inFilter, met⟩ := met_of_eventMaps ran atItems size
        obtain rfl | ⟨stuck, -⟩ := met_eventItem.mp met
        · exact absurd inFilter listed
        · exact absurd skippable stuck

end Event

/-- The wrapper writes a number as zcbor does, and an event that the zcbor readers take for the
map of the one entry: nothing in it but the SID and, to its end, the payload. -/
theorem event_read_as_entry {framing : Framing} {entries : List (Item × Item)}
    (wellFormed : Item.WellFormed (.map framing entries)) (skippable : Item.Skippable (.map framing entries))
    (sid : UInt64) {outSz : Nat} (object : outSz < 2 ^ 63)
    (fits : (eventItem sid (.map framing entries)).encode.length ≤ outSz) :
    (∀ size value, (zcborUint64Put (zcborNewEncodeState size) value).map (·.payload) =
      if cborEncodeUint size value = [] then none else some (cborEncodeUint size value)) ∧
    streamWrapNotificationInstance outSz sid (Item.map framing entries).encode =
      (eventItem sid (.map framing entries)).encode ∧
    (∀ nStates > 2, ReadAsEntry nStates
      (streamWrapNotificationInstance outSz sid (Item.map framing entries).encode) sid
      (Item.map framing entries).encode) ∧
    (∀ fallbackSid, Returns (extractFirstSid fallbackSid)
      (streamWrapNotificationInstance outSz sid (Item.map framing entries).encode) sid) ∧
    ∀ filterSids, Returns matchesFilter
      (filterSids, streamWrapNotificationInstance outSz sid (Item.map framing entries).encode)
      (decide (sid ∈ filterSids)) := by
  have written := streamWrapNotificationInstance_fits wellFormed fits
  have small := fits.trans_lt object
  rw [written]
  exact ⟨cborEncodeUint_put, rfl, fun nStates room => eventItem_read wellFormed skippable small room,
    eventItem_firstSid wellFormed small, eventItem_matched wellFormed skippable small⟩

/-- The event {60000: {_ 1: [_ 2]}}. -/
theorem event_read_60000 :
    streamWrapNotificationInstance 11 60000 [0xBF, 0x01, 0x9F, 0x02, 0xFF, 0xFF] =
        [0xA1, 0x19, 0xEA, 0x60, 0xBF, 0x01, 0x9F, 0x02, 0xFF, 0xFF] ∧
      Returns matchesFilter ([7, 60000],
        streamWrapNotificationInstance 11 60000 [0xBF, 0x01, 0x9F, 0x02, 0xFF, 0xFF]) true := by
  have wellFormed : Item.WellFormed (.map .indefinite
      [(.uint .immediate 1, .list .indefinite [.uint .immediate 2])]) := by
    refine .map trivial ?_ ?_ <;> simp only [List.forall_mem_cons]
    · exact ⟨.uint (by decide), by simp⟩
    · exact ⟨.list trivial (by simpa using .uint (show 2 < 24 by decide)), by simp⟩
  have skippable : Item.Skippable (.map .indefinite
      [(.uint .immediate 1, .list .indefinite [.uint .immediate 2])]) := by
    refine .map ?_ ?_ <;> simp only [List.forall_mem_cons]
    · exact ⟨.uint _ _, by simp⟩
    · exact ⟨.list (by simpa using .uint _ _), by simp⟩
  have all := event_read_as_entry wellFormed skippable 60000 (show 11 < 2 ^ 63 by decide) (by decide +kernel)
  exact ⟨by decide +kernel, all.2.2.2.2 [7, 60000]⟩

end Coreconf
