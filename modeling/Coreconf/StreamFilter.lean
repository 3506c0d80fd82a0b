import Coreconf.StreamWalk

set_option autoImplicit false

/- Which filters show a client the event that a map is queued as. -/
namespace Cbor.Item

/-- The SID that the event of a map is keyed under: that of its first key, if this is read. -/
noncomputable def eventSid (module : UInt64) : List (Item × Item) → UInt64
  | [] => module
  | entry :: _ => entry.1.readSid?.getD module

end Cbor.Item

namespace Coreconf

open Cbor (Item Framing Width)
open Fuel (Returns Monotone)

/-- The first SID is what the matcher reads in the first key. -/
theorem streamExtractFirstSid_eventKey {n : Nat} {mapData : List UInt8} {fallbackSid : UInt64} {st : ZcborState}
    (started : zcborMapStartDecode (zcborNewDecodeState 8 mapData 1) = (true, st))
    (inside : zcborArrayAtEnd st = false) :
    streamExtractFirstSidFromMap (zcborAnySkip n) mapData fallbackSid =
      (eventKeys n st).map fun
        | .error _ => fallbackSid
        | .ok (sid, _) => sid := by
  have nonempty : mapData ≠ [] := by
    rintro rfl
    cases started
  simp only [streamExtractFirstSidFromMap, if_neg nonempty, started, inside, Bool.false_eq_true, if_false, eventKeys,
    eventKey]
  split
  · cases zcborUint64Decode st with
    | none => rfl
    | some read => rfl
  · cases zcborListStartDecode st with
    | none => rfl
    | some inner =>
        simp only [Option.bind_some]
        cases zcborUint64Decode inner with
        | none => rfl
        | some read =>
            obtain ⟨sid, behind⟩ := read
            simp only
            cases zcborAnySkip n behind with
            | none => rfl
            | some skipped =>
                cases skipped with
                | skipped st past =>
                    simp only [Option.map_some]
                    cases ended : zcborListEndDecode st with
                    | mk closed left => cases closed <;> rfl
                | failed => rfl
                | restored => rfl
  · rfl

def extractFirstSid (module : UInt64) (n : Nat) (mapData : List UInt8) : Option UInt64 :=
  streamExtractFirstSidFromMap (zcborAnySkip n) mapData module

theorem extractFirstSid_item (module : UInt64) {framing : Framing} {entries : List (Item × Item)}
    (wellFormed : Item.WellFormed (.map framing entries))
    (size : (Item.map framing entries).encode.length ≤ ZCBOR_LARGE_ELEM_COUNT) :
    Returns (extractFirstSid module) (Item.map framing entries).encode (Item.eventSid module entries) := by
  have sizes := size
  simp only [Item.encode, List.length_append] at sizes
  cases wellFormed with
  | map fits keys values =>
      have shortest := length_le_encodeEntries keys values
      have limit : ZCBOR_LARGE_ELEM_COUNT = 2 ^ 64 - 1 - 15 := rfl
      have few : entries.length < ZCBOR_MAX_ELEM_COUNT / 2 := by
        rw [ZCBOR_MAX_ELEM_COUNT]
        omega
      have at_entries : (Item.map framing entries).encode =
          framing.opening 5 entries.length ++ (Item.encodeEntries entries ++ (framing.closing ++ [])) := by
        rw [Item.encode, List.append_assoc, List.append_nil]
      have started := zcborMapStartDecode_new (show 2 < 8 by decide) fits few at_entries
      set st := (zcborNewDecodeState 8 (Item.map framing entries).encode 1).entered framing (2 * entries.length)
        (Item.encodeEntries entries ++ (framing.closing ++ [])) with st_eq
      have inside : Inside framing (2 * entries.length) st := entered_inside (by omega)
      have stSize : st.payload.length ≤ ZCBOR_LARGE_ELEM_COUNT := by
        show (Item.encodeEntries entries ++ (framing.closing ++ [])).length ≤ ZCBOR_LARGE_ELEM_COUNT
        simp only [List.length_append, List.length_nil]
        omega
      cases entries with
      | nil =>
          have atEnd := inside.atEnd rfl
          refine ⟨0, ?_⟩
          have nonempty : (Item.map framing []).encode ≠ [] := by
            cases framing <;> simp [Item.encode, Framing.opening, Cbor.head]
          simp only [extractFirstSid, streamExtractFirstSidFromMap, if_neg nonempty, started, atEnd, if_true]
          rfl
      | cons entry others =>
          obtain ⟨key, value⟩ := entry
          have keyFormed := keys (key, value) List.mem_cons_self
          have valueFormed := values (key, value) List.mem_cons_self
          have at_key : st.payload =
              key.encode ++ (value.encode ++ (Item.encodeEntries others ++ (framing.closing ++ []))) := by
            show Item.encodeEntries ((key, value) :: others) ++ (framing.closing ++ []) = _
            rw [Item.encodeEntries, List.append_assoc, List.append_assoc]
          rw [List.length_cons, Nat.mul_succ] at inside
          have notEnd : zcborArrayAtEnd st = false := Bool.eq_false_iff.mpr (inside.not_atEnd keyFormed at_key)
          have same := fun n => @streamExtractFirstSid_eventKey n _ module _ started notEnd
          cases read : key.readSid? with
          | some sid =>
              obtain ⟨n, returned⟩ := eventKey_read keyFormed at_key inside.left (show 1 < 6 by decide) stSize read
              refine ⟨n, ?_⟩
              rw [extractFirstSid, same, returned]
              simp [Item.eventSid, read]
          | none =>
              have nothing : AtItems [] [] := ⟨by simp, [], rfl, Or.inl rfl⟩
              have standing : AtItems (Item.behind framing [] _) _ := nothing.value valueFormed
                (fun entry member => keys entry (List.mem_cons_of_mem _ member))
                (fun entry member => values entry (List.mem_cons_of_mem _ member))
              have room : 1 < 6 := by decide
              obtain ⟨st', ⟨n, returned⟩, -⟩ :=
                eventKey_unread keyFormed at_key inside.left room stSize read standing
              refine ⟨n, ?_⟩
              rw [extractFirstSid, same, returned]
              simp [Item.eventSid, read]

private theorem toUInt8_eq (value : UInt64) : value.toUInt8 = UInt8.ofNat value.toNat := by
  apply UInt8.toNat.inj
  simp

theorem cborEncodeUint_eq {outSz : Nat} (room : 9 ≤ outSz) (value : UInt64) :
    cborEncodeUint outSz value = (Item.uint (Width.least value.toNat) value.toNat).encode := by
  have below : ∀ n : UInt64, value < n ↔ value.toNat < n.toNat := fun n => UInt64.lt_iff_toNat_lt
  have within : ∀ n : UInt64, value ≤ n ↔ value.toNat ≤ n.toNat := fun n => UInt64.le_iff_toNat_le
  rw [cborEncodeUint, Item.encode, Width.least]
  by_cases immediate : value.toNat < 24
  · rw [if_pos ((below 24).mpr immediate), if_neg (by omega), if_pos immediate, toUInt8_eq]
    simp [Cbor.head, Width.additional, Width.length, Cbor.beBytes]
  rw [if_neg (fun less => immediate ((below 24).mp less)), if_neg immediate]
  by_cases one : value.toNat < 2 ^ 8
  · rw [if_pos ((within 0xFF).mpr (Nat.le_of_lt_succ one)), if_neg (by omega), if_pos one, toUInt8_eq]
    simp [Cbor.head, Width.additional, Width.length, Cbor.beBytes]
  rw [if_neg (fun less => one (Nat.lt_succ_of_le ((within 0xFF).mp less))), if_neg one]
  by_cases two : value.toNat < 2 ^ 16
  · rw [if_pos ((within 0xFFFF).mpr (Nat.le_of_lt_succ two)), if_neg (by omega), if_pos two]
    rfl
  rw [if_neg (fun less => two (Nat.lt_succ_of_le ((within 0xFFFF).mp less))), if_neg two]
  by_cases four : value.toNat < 2 ^ 32
  · rw [if_pos ((within 0xFFFFFFFF).mpr (Nat.le_of_lt_succ four)), if_neg (by omega), if_pos four]
    rfl
  rw [if_neg (fun less => four (Nat.lt_succ_of_le ((within 0xFFFFFFFF).mp less))), if_neg four, if_neg (by omega)]
  rfl

/-- The item that an event is. -/
def eventItem (sid : UInt64) (payloadMap : Item) : Item :=
  .map (.definite .immediate) [(.uint (Width.least sid.toNat) sid.toNat, payloadMap)]

theorem eventItem_wellFormed (sid : UInt64) {payloadMap : Item} (wellFormed : payloadMap.WellFormed) :
    (eventItem sid payloadMap).WellFormed :=
  .map (show 1 < 24 by decide) (by simpa using .uint (Width.least_fits sid.toNat_lt)) (by simpa using wellFormed)

theorem eventItem_encode (sid : UInt64) (payloadMap : Item) :
    (eventItem sid payloadMap).encode =
      0xA1 :: ((Item.uint (Width.least sid.toNat) sid.toNat).encode ++ payloadMap.encode) := by
  simp [eventItem, Item.encode, Item.encodeEntries, Framing.opening, Framing.closing, Cbor.head, Width.additional,
    Width.length, Cbor.beBytes]

theorem eventItem_length (sid : UInt64) (payloadMap : Item) :
    (eventItem sid payloadMap).encode.length =
      1 + (Item.uint (Width.least sid.toNat) sid.toNat).encode.length + payloadMap.encode.length := by
  rw [eventItem_encode, List.length_cons, List.length_append]
  omega

theorem streamWrapNotificationInstance_item (sid : UInt64) {payloadMap : Item} (wellFormed : payloadMap.WellFormed) :
    streamWrapNotificationInstance BUFFER_SIZE sid payloadMap.encode =
      if (eventItem sid payloadMap).encode.length > BUFFER_SIZE then [] else (eventItem sid payloadMap).encode := by
  have key := cborEncodeUint_eq (show 9 ≤ BUFFER_SIZE - 1 by decide) sid
  have nonempty := Item.encode_ne_nil wellFormed
  have keyNonempty := Item.encode_ne_nil (.uint (Width.least_fits sid.toNat_lt))
  rw [streamWrapNotificationInstance, if_neg (by simp [nonempty, BUFFER_SIZE]), key, eventItem_length, eventItem_encode]
  simp only [if_neg keyNonempty]

def queueMap (module : UInt64) (n : Nat) (queue : List UInt8 × List (List UInt8)) : Option (List (List UInt8)) :=
  streamPushNotificationMap module (zcborAnySkip n) queue.1 queue.2

def matchesFilter (n : Nat) (query : List UInt64 × List UInt8) : Option Bool :=
  streamEventMatchesFilter query.1 n query.2

/-- Whoever filters on the SID is shown the event that the map is queued as. -/
def ShownTo (module sid : UInt64) (mapData : List UInt8) : Prop :=
  ∃ event, event ≠ [] ∧
    (∀ events, Returns (queueMap module) (mapData, events) (streamPushEvent event events)) ∧
    ∀ filterSids, sid ∈ filterSids → Returns matchesFilter (filterSids, event) true

theorem matchesFilter_monotone : Monotone matchesFilter := by
  refine Monotone.of_extends fun m n query le => ?_
  simp only [matchesFilter, streamEventMatchesFilter]
  have looped := (Fuel.iterate_monotone (eventMapBody_monotone query.1)).extends le query.2
  exact .ite (.refl _) looped

theorem extractFirstSid_monotone (module : UInt64) : Monotone (extractFirstSid module) := by
  refine Monotone.of_extends fun m n mapData le => ?_
  simp only [extractFirstSid, streamExtractFirstSidFromMap]
  refine .ite (.refl _) ?_
  split
  · exact .refl _
  · refine .ite (.refl _) ?_
    split
    · exact .refl _
    · split
      · exact .refl _
      · exact (zcborAnySkip_monotone.extends le _).map _
    · exact .refl _

theorem queueMap_monotone (module : UInt64) : Monotone (queueMap module) := by
  refine Monotone.of_extends fun m n queue le => ?_
  simp only [queueMap, streamPushNotificationMap]
  exact .ite (.refl _) (((extractFirstSid_monotone module).extends le queue.1).map _)

open Classical in
/-- The SIDs that are come to in an event: the one it is keyed under and, if its map cannot
be skipped, those in this map. -/
theorem met_eventItem {sid notifSid : UInt64} {payloadMap : Item} :
    Item.Met sid [eventItem notifSid payloadMap] ↔
      sid = notifSid ∨ (¬ payloadMap.Skippable ∧ Item.Met sid [payloadMap]) := by
  have read : (Item.uint (Width.least notifSid.toNat) notifSid.toNat).readSid? = some notifSid := by
    rw [Item.readSid?, if_pos (.uint _ _)]
    simp [Item.iidSid?]
  have nothing : ¬ Item.Met sid [] := by
    intro met
    cases met
  have round : Item.round (.definite .immediate) []
      [(Item.uint (Width.least notifSid.toNat) notifSid.toNat, payloadMap)] =
        if payloadMap.Skippable then ([notifSid], []) else ([notifSid], [payloadMap]) := by
    rw [Item.round]
    simp only [read]
    rfl
  by_cases skippable : payloadMap.Skippable
  · rw [if_pos skippable] at round
    constructor
    · intro met
      cases met with
      | here come => exact Or.inl (by simpa [round] using come)
      | later next => exact absurd (by simpa [round] using next) nothing
    · rintro (rfl | ⟨stuck, -⟩)
      · exact .here (by simp [round])
      · exact absurd skippable stuck
  · rw [if_neg skippable] at round
    constructor
    · intro met
      cases met with
      | here come => exact Or.inl (by simpa [round] using come)
      | later next => exact Or.inr ⟨skippable, by simpa [round] using next⟩
    · rintro (rfl | ⟨-, met⟩)
      · exact .here (by simp [round])
      · exact .later (by simpa [round] using met)

theorem encode_le_eventItem (sid : UInt64) (payloadMap : Item) :
    payloadMap.encode.length ≤ (eventItem sid payloadMap).encode.length := by
  rw [eventItem_length]
  omega

/-- A map whose event fits is queued. -/
theorem queueMap_item (module : UInt64) {framing : Framing} {entries : List (Item × Item)}
    (wellFormed : Item.WellFormed (.map framing entries))
    (fits : (eventItem (Item.eventSid module entries) (.map framing entries)).encode.length ≤ BUFFER_SIZE)
    (events : List (List UInt8)) :
    Returns (queueMap module) ((Item.map framing entries).encode, events)
      (streamPushEvent (eventItem (Item.eventSid module entries) (.map framing entries)).encode events) := by
  have limit : ZCBOR_LARGE_ELEM_COUNT = 2 ^ 64 - 1 - 15 := rfl
  have buffer : BUFFER_SIZE = 4096 := rfl
  have inner := encode_le_eventItem (Item.eventSid module entries) (.map framing entries)
  have wrapped := streamWrapNotificationInstance_item (Item.eventSid module entries) wellFormed
  rw [if_neg (not_lt.mpr fits)] at wrapped
  obtain ⟨n, returned⟩ := extractFirstSid_item module wellFormed (by omega)
  rw [extractFirstSid] at returned
  refine ⟨n, ?_⟩
  rw [queueMap, streamPushNotificationMap, if_neg (Item.encode_ne_nil wellFormed), returned, Option.map_some, wrapped]

/-- A filter on a SID shows a queued map exactly if the event is keyed under this SID, or if
the map cannot be skipped and the walk comes to the SID when it takes the map up itself. -/
theorem event_shown_iff {module sid : UInt64} {framing : Framing} {entries : List (Item × Item)}
    (wellFormed : Item.WellFormed (.map framing entries))
    (queued : streamWrapNotificationInstance BUFFER_SIZE (Item.eventSid module entries)
      (Item.map framing entries).encode ≠ []) :
    ShownTo module sid (Item.map framing entries).encode ↔
      sid = Item.eventSid module entries ∨
        (¬ (Item.map framing entries).Skippable ∧ Item.Met sid [.map framing entries]) := by
  have wrapped := streamWrapNotificationInstance_item (Item.eventSid module entries) wellFormed
  have fits : (eventItem (Item.eventSid module entries) (.map framing entries)).encode.length ≤ BUFFER_SIZE := by
    by_contra long
    rw [if_pos (not_le.mp long)] at wrapped
    exact queued wrapped
  have pushed := queueMap_item module wellFormed fits
  have eventFormed := eventItem_wellFormed (Item.eventSid module entries) wellFormed
  set item := eventItem (Item.eventSid module entries) (.map framing entries) with item_eq
  have limit : ZCBOR_LARGE_ELEM_COUNT = 2 ^ 64 - 1 - 15 := rfl
  have buffer : BUFFER_SIZE = 4096 := rfl
  have atItems : AtItems [item] item.encode :=
    ⟨by simpa using eventFormed, [], by simp [Item.encodeItems], Or.inl rfl⟩
  have shown : ShownTo module sid (Item.map framing entries).encode ↔
      ∀ filterSids, sid ∈ filterSids → Returns matchesFilter (filterSids, item.encode) true := by
    constructor
    · rintro ⟨event, present, pushes, shows⟩
      have same := Returns.unique (queueMap_monotone module) (pushes []) (pushed [])
      rw [streamPushEvent, streamPushEvent, if_neg present, if_neg (Item.encode_ne_nil eventFormed)] at same
      rw [← (List.cons.inj same).1]
      exact shows
    · exact fun shows => ⟨item.encode, Item.encode_ne_nil eventFormed, pushed, shows⟩
  rw [shown, ← met_eventItem, ← item_eq]
  have walk : ∀ n filterSids, sid ∈ filterSids →
      matchesFilter n (filterSids, item.encode) = Fuel.iterate (eventMapBody filterSids) n item.encode := by
    intro n filterSids inFilter
    have filtered : filterSids ≠ [] := List.ne_nil_of_mem inFilter
    rw [matchesFilter, streamEventMatchesFilter, if_neg (by simp [filtered, Item.encode_ne_nil eventFormed])]
  constructor
  · intro shows
    obtain ⟨n, ran⟩ := shows [sid] (List.mem_singleton_self sid)
    rw [walk n [sid] (List.mem_singleton_self sid)] at ran
    obtain ⟨found, inFilter, met⟩ := met_of_eventMaps ran atItems (by omega)
    rwa [List.mem_singleton.mp inFilter] at met
  · intro met filterSids inFilter
    obtain ⟨n, ran⟩ := eventMaps_met inFilter met atItems (by omega)
    exact ⟨n, by rwa [walk n filterSids inFilter]⟩

private def twoChanges : Item :=
  .map (.definite .immediate) [(.uint .immediate 1, .uint .immediate 1), (.uint .immediate 2, .uint .immediate 1)]

private theorem twoChanges_wellFormed : twoChanges.WellFormed := by
  refine .map (show 2 < 24 by decide) ?_ ?_ <;> simp only [List.forall_mem_cons]
  · exact ⟨.uint (show 1 < 24 by decide), .uint (show 2 < 24 by decide), nofun⟩
  · exact ⟨.uint (show 1 < 24 by decide), .uint (show 1 < 24 by decide), nofun⟩

theorem first_change_shown : ShownTo 60000 1 twoChanges.encode := by
  have keyed : Item.eventSid 60000 [(.uint .immediate 1, .uint .immediate 1), (.uint .immediate 2, .uint .immediate 1)]
      = 1 := by
    rw [Item.eventSid, Item.readSid?, if_pos (.uint _ _)]
    rfl
  refine (event_shown_iff twoChanges_wellFormed ?_).mpr (Or.inl keyed.symm)
  rw [keyed]
  decide +kernel

/-- The second of two changes is not shown to who filters on it. -/
theorem second_change_hidden :
    twoChanges.WellFormed ∧ twoChanges.encode = [0xA2, 0x01, 0x01, 0x02, 0x01] ∧
      queueMap 60000 9 (twoChanges.encode, []) = some [[0xA1, 0x01, 0xA2, 0x01, 0x01, 0x02, 0x01]] ∧
      ¬ ShownTo 60000 2 twoChanges.encode := by
  have queued : queueMap 60000 9 (twoChanges.encode, []) = some [[0xA1, 0x01, 0xA2, 0x01, 0x01, 0x02, 0x01]] := by
    decide +kernel
  have hidden : matchesFilter 9 ([2], [0xA1, 0x01, 0xA2, 0x01, 0x01, 0x02, 0x01]) = some false := by
    decide +kernel
  refine ⟨twoChanges_wellFormed, by decide +kernel, queued, ?_⟩
  rintro ⟨event, present, pushes, shows⟩
  have same := Returns.unique (queueMap_monotone 60000) (pushes []) ⟨9, queued⟩
  rw [streamPushEvent, if_neg present] at same
  have shown := shows [2] (List.mem_singleton_self 2)
  rw [(List.cons.inj same).1] at shown
  exact absurd (Returns.unique matchesFilter_monotone shown ⟨9, hidden⟩) (by decide)

end Coreconf
