import Coreconf.PatchEffects
import Coreconf.PayloadPeeks
import Coreconf.ServerInvariant
import Coreconf.StreamFilter

set_option autoImplicit false

/- The events that are queued for an iPATCH, beside what the payload did to the datastore. -/
namespace Coreconf

open Cbor (Item Framing Values SequenceMap SequenceMaps CutMap)
open CoreconfValueT (Valid)
open Fuel (Step Returns Reached)

def Slice.bytes (slice : Slice) (data : List UInt8) : List UInt8 := (data.drop slice.start).take slice.len

/-- While the request was handled, an event was queued for this slice of its payload. -/
structure QueuedBy (env : Environment) (outcome : Outcome) (data : List UInt8) (slice : Slice) : Prop where
  pushed : .pushNotificationSequence data ∈ outcome.effects
  sliced : ∃ slices, Returns streamPushNotificationSequence data slices ∧ slice ∈ slices
  event : ∃ event, event ≠ [] ∧ ∀ events,
    Returns (queueMap env.sysSids.module) (slice.bytes data, events) (streamPushEvent event events)

/-- The SID is a key of the map, or the SID of an array key of it. -/
def KeyOf (mapData : List UInt8) (sid : UInt64) : Prop :=
  ∃ framing entries, Item.WellFormed (.map framing entries) ∧ mapData = (Item.map framing entries).encode ∧
    ∃ entry ∈ entries, entry.1.keySid? = some sid

/-- A round of the entry loop that takes one key and one value from the payload. -/
def EntryTaken (loop loop' : PatchLoop) : Prop :=
  Returns patchEntries loop (.next loop') ∧ ∃ key value, Values 1 key ∧ Values 1 value ∧
    loop.st.payload = key ++ (value ++ loop'.st.payload)

/-- The patch loop takes up the slice as a map, and entry after entry to its end. -/
def MapProcessed (datastore : CoreconfValueT) (data : List UInt8) (slice : Slice) : Prop :=
  ∃ maps start left ended, PatchMap datastore data maps ∧ data.length - maps.ptr.length = slice.start ∧
    zcborMapStartDecode (zcborNewDecodeState 8 maps.ptr 1) = (true, start) ∧
    Relation.ReflTransGen EntryTaken ⟨maps.target, maps.count, start⟩ left ∧ zcborArrayAtEnd left.st ∧
    zcborMapEndDecode left.st = (true, ended) ∧ maps.ptr.length - ended.payload.length = slice.len

/-- Every SID whose binding an iPATCH has changed is in an event that was queued for it, and
every map in such an event was applied. -/
def EventsMatch (env : Environment) (s : ServerState) (req : Request) : Prop :=
  ∀ outcome root root', Handles env s .ipatch req outcome → s.current = some (.hashmap root) →
    outcome.state.current = some (.hashmap root') →
      (∀ sid, getCoreconfHashMap root' sid ≠ getCoreconfHashMap root sid →
        ∃ slice, QueuedBy env outcome req.payload slice ∧ KeyOf (slice.bytes req.payload) sid) ∧
      ∀ slice, QueuedBy env outcome req.payload slice → MapProcessed (.hashmap root) req.payload slice

/-- The entry loop is left with this payload, and the entries it applies from here on are
about these SIDs. -/
inductive AppliesOnly (sids : UInt64 → Prop) : ZcborState → List UInt8 → Prop
  | ended {st} (atEnd : zcborArrayAtEnd st) : AppliesOnly sids st (zcborMapEndDecode st).2.payload
  | keyRefused {st st'} (inside : ¬ zcborArrayAtEnd st) (refused : decodePatchKey st = (none, st')) :
      AppliesOnly sids st (zcborMapEndDecode st').2.payload
  | valueRefused {st key st' st''} (inside : ¬ zcborArrayAtEnd st) (keyed : decodePatchKey st = (some key, st'))
      (refused : Decodes st' 0 (none, st'')) : AppliesOnly sids st (zcborMapEndDecode st'').2.payload
  | entry {st key st' val st'' ptr} (inside : ¬ zcborArrayAtEnd st) (keyed : decodePatchKey st = (some key, st'))
      (decoded : Decodes st' 0 (some val, st'')) (about : sids key.keySid) (later : AppliesOnly sids st'' ptr) :
      AppliesOnly sids st ptr

/-- The same of the loop over the maps. -/
inductive PatchesOnly (sids : UInt64 → Prop) : List UInt8 → Prop
  | stop {data} (noMap : (zcborMapStartDecode (zcborNewDecodeState 8 data 1)).1 = false) : PatchesOnly sids data
  | map {data start ptr} (started : zcborMapStartDecode (zcborNewDecodeState 8 data 1) = (true, start))
      (entries : AppliesOnly sids start ptr) (later : PatchesOnly sids ptr) : PatchesOnly sids data

/-- The splitter takes no map from here. -/
def Unsliced (data : List UInt8) : Prop :=
  (¬ ∃ front rest, SequenceMap front ∧ data = front ++ rest) ∧ ¬ ∃ past, CutMap data past

/-- Well-formed maps of which every key and value is read, and then bytes of which the
splitter takes nothing, and the patch loop no entry about any other SID. -/
def InStep (data : List UInt8) : Prop :=
  ∃ maps pairs rest, PatchPayload maps pairs ∧
    (∀ entry ∈ pairs, entry.1.patchKey?.isSome ∧ entry.2.Readable) ∧ data = maps ++ rest ∧
    PatchesOnly (fun sid => ∃ entry ∈ pairs, entry.1.keySid? = some sid) rest ∧ Unsliced rest

theorem readPair?_of_readable {entry : Item × Item} (keyed : entry.1.patchKey?.isSome)
    (readable : entry.2.Readable) : (readPair? entry).isSome := by
  obtain ⟨key, found⟩ := Option.isSome_iff_exists.mp keyed
  obtain ⟨val, read⟩ := Option.isSome_iff_exists.mp readable.1
  simp [readPair?, found, read]

theorem entriesTaken {framing : Framing} {entries : List (Item × Item)}
    (keys : ∀ entry ∈ entries, entry.1.WellFormed ∧ entry.1.IsPatchKey)
    (values : ∀ entry ∈ entries, entry.2.WellFormed)
    (read : ∀ entry ∈ entries, entry.1.patchKey?.isSome ∧ entry.2.Readable) (loop : PatchLoop) {rest : List UInt8}
    (payload : loop.st.payload = Item.encodeEntries entries ++ (framing.closing ++ rest))
    (inside : Inside framing (2 * entries.length) loop.st) {backup : Backup}
    (saved : loop.st.backupList = [backup]) (backups : loop.st.numBackups = 6)
    (size : loop.st.payload.length ≤ ZCBOR_LARGE_ELEM_COUNT) :
    ∃ left ended, Relation.ReflTransGen EntryTaken loop left ∧
      (left.target, left.count) = applyEntries loop.target loop.count (readEntries entries) ∧
      zcborArrayAtEnd left.st ∧ zcborMapEndDecode left.st = (true, ended) ∧ ended.payload = rest := by
  induction entries generalizing loop with
  | nil =>
      have ended := inside.leave payload saved
      exact ⟨loop, _, .refl, rfl, inside.atEnd payload, ended, rfl⟩
  | cons entry later ih =>
      obtain ⟨key, item⟩ := entry
      obtain ⟨⟨keyFormed, isKey⟩, otherKeys⟩ := List.forall_mem_cons.mp keys
      obtain ⟨first, others⟩ := List.forall_mem_cons.mp values
      obtain ⟨⟨keyed, readable⟩, otherRead⟩ := List.forall_mem_cons.mp read
      rw [Item.encodeEntries, List.append_assoc, List.append_assoc] at payload
      rw [List.length_cons, Nat.mul_succ] at inside
      set tail := Item.encodeEntries later ++ (framing.closing ++ rest)
      have sizes := congrArg List.length payload
      simp only [List.length_append] at sizes
      have notEnd := inside.not_atEnd keyFormed payload
      have keyRead := decodePatchKey_item keyFormed isKey payload inside.left
        (by rw [saved, backups, List.length_singleton]; decide)
      have afterKey := inside.after (item.encode ++ tail)
      have decoded := decodes_patchValue first (fun _ => readable)
        (loop.st.after (item.encode ++ tail)) rfl afterKey.left (by simp [ZcborState.after, saved, backups])
        (by simp only [ZcborState.after, List.length_append]; omega)
      obtain ⟨patchKey, keyed⟩ := Option.isSome_iff_exists.mp keyed
      obtain ⟨val, found⟩ := Option.isSome_iff_exists.mp readable.1
      simp only [keyed] at keyRead
      simp only [found] at decoded
      have entryRead : readPair? (key, item) = some (patchKey, val) := by
        simp only [readPair?, keyed, found]
      have again : Returns patchEntries loop
          (patchEntryStep loop patchKey ((loop.st.after (item.encode ++ tail)).after tail) (some val)) := by
        rw [patchEntries_returns_iff, if_neg notEnd, keyRead]
        exact ⟨some val, _, decoded, rfl⟩
      have keyValue := Item.values_item keyFormed (Item.skippable_of_patchKey keyed)
        (show key.encode.length ≤ Cbor.largeCount by rw [← largeCount_eq]; omega) Cbor.Tags.nil
      have itemValue := Item.values_item first (Item.skippable_of_value found)
        (show item.encode.length ≤ Cbor.largeCount by rw [← largeCount_eq]; omega) Cbor.Tags.nil
      obtain ⟨left, ended, taken, applied, atEnd, closed, position⟩ := ih otherKeys others otherRead
        ⟨(applyCounted (loop.target, loop.count) (patchKey, val)).1,
          (applyCounted (loop.target, loop.count) (patchKey, val)).2,
          (loop.st.after (item.encode ++ tail)).after tail⟩
        rfl (afterKey.after tail) saved backups (by simp only [ZcborState.after]; omega)
      refine ⟨left, ended, .head ⟨again, key.encode, item.encode, keyValue, itemValue, payload⟩ taken, ?_,
        atEnd, closed, position⟩
      rw [applied, readEntries, entryRead, applyEntries_cons]

/-- Where both walks stand behind some maps of which every entry is read. -/
structure WalkedTo (root : CoreconfHashMapT CoreconfValueT) (data : List UInt8) (pairs : List (Item × Item))
    (rest : List UInt8) (maps : PatchMaps) (slices : List Slice) : Prop where
  front : ∃ front, data = front ++ rest
  position : maps.ptr = rest
  patched : PatchMap (.hashmap root) data maps
  read : ∀ entry ∈ pairs, (readPair? entry).isSome
  applied : (maps.target, maps.count) = applyEntries root 0 (readEntries pairs)
  sliced : Reached sequenceMapBody ⟨data, 0, []⟩ ⟨rest, data.length - rest.length, slices⟩
  processed : ∀ slice ∈ slices, MapProcessed (.hashmap root) data slice
  keyed : ∀ entry ∈ pairs, ∃ slice ∈ slices, ∃ framing entries, Item.WellFormed (.map framing entries) ∧
    slice.bytes data = (Item.map framing entries).encode ∧ entry ∈ entries

theorem WalkedTo.start {root : CoreconfHashMapT CoreconfValueT} {data : List UInt8} (nonempty : data ≠ []) :
    WalkedTo root data [] data ⟨root, 0, data⟩ [] where
  front := ⟨[], rfl⟩
  position := rfl
  patched := ⟨root, rfl, nonempty, .refl⟩
  read := by simp
  applied := rfl
  sliced := by
    rw [Nat.sub_self]
    exact .refl
  processed := by simp
  keyed := by simp

theorem WalkedTo.map {root : CoreconfHashMapT CoreconfValueT} {data : List UInt8} {pairs : List (Item × Item)}
    {framing : Framing} {entries : List (Item × Item)} {rest : List UInt8} {maps : PatchMaps} {slices : List Slice}
    (walked : WalkedTo root data pairs ((Item.map framing entries).encode ++ rest) maps slices)
    (wellFormed : Item.WellFormed (.map framing entries)) (keys : ∀ entry ∈ entries, entry.1.IsPatchKey)
    (read : ∀ entry ∈ entries, entry.1.patchKey?.isSome ∧ entry.2.Readable) (size : data.length < 2 ^ 63) :
    ∃ maps' slices', WalkedTo root data (pairs ++ entries) rest maps' slices' := by
  obtain ⟨front, whole⟩ := walked.front
  have sizes := congrArg List.length whole
  simp only [List.length_append] at sizes
  have limit : ZCBOR_LARGE_ELEM_COUNT = 2 ^ 64 - 1 - 15 := rfl
  set offset := data.length - ((Item.map framing entries).encode ++ rest).length with offset_eq
  have at_front : offset = front.length := by
    rw [offset_eq, List.length_append]
    omega
  have formed := wellFormed
  cases formed with
  | map fits keysFormed valuesFormed =>
      have shortest := length_le_encodeEntries keysFormed valuesFormed
      have mapSize : (Item.map framing entries).encode.length =
          (framing.opening 5 entries.length).length + (Item.encodeEntries entries).length + framing.closing.length := by
        simp only [Item.encode, List.length_append]
      have at_entries : maps.ptr =
          framing.opening 5 entries.length ++ (Item.encodeEntries entries ++ (framing.closing ++ rest)) := by
        rw [walked.position, Item.encode, List.append_assoc, List.append_assoc]
      have started := zcborMapStartDecode_new (show 2 < 8 by decide) fits
        (show entries.length < ZCBOR_MAX_ELEM_COUNT / 2 by rw [ZCBOR_MAX_ELEM_COUNT]; omega) at_entries
      obtain ⟨left, ended, taken, applied, atEnd, closed, position⟩ := entriesTaken
        (fun entry member => ⟨keysFormed entry member, keys entry member⟩) valuesFormed read
        ⟨maps.target, maps.count, (zcborNewDecodeState 8 maps.ptr 1).entered framing (2 * entries.length)
          (Item.encodeEntries entries ++ (framing.closing ++ rest))⟩
        rfl (entered_inside (by omega)) rfl rfl
        (by simp only [ZcborState.entered, List.length_append]; omega)
      have skippable : ∀ entry ∈ entries, entry.1.Skippable ∧ entry.2.Skippable := by
        intro entry member
        obtain ⟨key, keyed⟩ := Option.isSome_iff_exists.mp (read entry member).1
        obtain ⟨val, found⟩ := Option.isSome_iff_exists.mp (read entry member).2.1
        exact ⟨Item.skippable_of_patchKey keyed, Item.skippable_of_value found⟩
      have sliceTaken : Returns sequenceMapBody ⟨(Item.map framing entries).encode ++ rest, offset, slices⟩
          (.next ⟨rest, offset + (Item.map framing entries).encode.length,
            slices ++ [⟨offset, (Item.map framing entries).encode.length⟩]⟩) :=
        sequenceMapBody_complete (Item.sequenceMap_item wellFormed (fun entry member => (skippable entry member).1)
          (fun entry member => (skippable entry member).2) (by omega)) rfl
      have rounds : Reached patchEntries _ left :=
        Relation.ReflTransGen.mono (fun _ _ (round : EntryTaken _ _) => round.1) _ _ taken
      have looped := rounds.iterate patchEntries_monotone (patchEntries_atEnd atEnd)
      have again : Returns patchMaps maps (.next ⟨left.target, left.count, rest⟩) := by
        rw [patchMaps_returns_iff, if_neg, started]
        · exact ⟨left, looped, by rw [closed, position]⟩
        · rw [walked.position]
          exact List.append_ne_nil_of_left_ne_nil (Item.encode_ne_nil wellFormed) rest
      have readPairs : ∀ entry ∈ entries, (readPair? entry).isSome :=
        fun entry member => readPair?_of_readable (read entry member).1 (read entry member).2
      have behind : offset + (Item.map framing entries).encode.length = data.length - rest.length := by omega
      refine ⟨⟨left.target, left.count, rest⟩,
        slices ++ [⟨offset, (Item.map framing entries).encode.length⟩], {
        front := ⟨front ++ (Item.map framing entries).encode, by rw [whole, List.append_assoc]⟩
        position := rfl
        patched := ?_
        read := List.forall_mem_append.mpr ⟨walked.read, readPairs⟩
        applied := ?_
        sliced := behind ▸ walked.sliced.tail sliceTaken
        processed := List.forall_mem_append.mpr ⟨walked.processed, List.forall_mem_singleton.mpr ?_⟩
        keyed := List.forall_mem_append.mpr ⟨fun entry member => ?_, fun entry member => ?_⟩ }⟩
      · obtain ⟨target, same, nonempty, reached⟩ := walked.patched
        exact ⟨target, same, nonempty, reached.tail again⟩
      · rw [readEntries_append, if_pos walked.read, applyEntries_append, ← walked.applied]
        exact applied
      · refine ⟨maps, _, left, ended, walked.patched, ?_, started, taken, atEnd, closed, ?_⟩
        · rw [walked.position]
        · rw [walked.position, position, List.length_append, Nat.add_sub_cancel]
      · obtain ⟨slice, taken, rest⟩ := walked.keyed entry member
        exact ⟨slice, List.mem_append_left _ taken, rest⟩
      · refine ⟨_, List.mem_append_right _ (List.mem_singleton_self _), framing, entries, wellFormed, ?_, member⟩
        rw [Slice.bytes, at_front, whole, List.drop_left, List.take_left]

/-- Both walks over maps of which every entry is read, by induction over the maps. -/
theorem WalkedTo.maps {root : CoreconfHashMapT CoreconfValueT} {data front : List UInt8}
    {later : List (Item × Item)} (sequence : PatchPayload front later) (size : data.length < 2 ^ 63)
    (read : ∀ entry ∈ later, entry.1.patchKey?.isSome ∧ entry.2.Readable) {rest : List UInt8}
    {pairs : List (Item × Item)} {maps : PatchMaps} {slices : List Slice}
    (walked : WalkedTo root data pairs (front ++ rest) maps slices) :
    ∃ maps' slices', WalkedTo root data (pairs ++ later) rest maps' slices' := by
  induction sequence generalizing pairs maps slices with
  | nil => exact ⟨maps, slices, by rwa [List.append_nil]⟩
  | map wellFormed keys _ ih =>
      obtain ⟨here, there⟩ := List.forall_mem_append.mp read
      rw [List.append_assoc] at walked
      obtain ⟨maps', slices', next⟩ := walked.map wellFormed keys here size
      rw [← List.append_assoc]
      exact ih there next

variable {sids : UInt64 → Prop}

theorem AppliesOnly.run {st : ZcborState} {ptr : List UInt8} (applies : AppliesOnly sids st ptr)
    {target : CoreconfHashMapT CoreconfValueT} (valid : Valid (.hashmap target)) (count : Int) :
    ∃ left, Returns (Fuel.iterate patchEntries) ⟨target, count, st⟩ left ∧
      (zcborMapEndDecode left.st).2.payload = ptr ∧ Valid (.hashmap left.target) ∧
      ∀ sid, ¬ sids sid → getCoreconfHashMap left.target sid = getCoreconfHashMap target sid := by
  induction applies generalizing target count with
  | ended atEnd => exact ⟨_, patchEntries_atEnd atEnd, rfl, valid, fun _ _ => rfl⟩
  | @keyRefused st st' inside refused =>
      have stopped : Returns patchEntries ⟨target, count, st⟩ (.done ⟨target, count, st'⟩) := by
        rw [patchEntries_returns_iff, if_neg inside, refused]
      exact ⟨_, Fuel.iterate_done patchEntries_monotone stopped, rfl, valid, fun _ _ => rfl⟩
  | @valueRefused st key st' st'' inside keyed refused =>
      have stopped : Returns patchEntries ⟨target, count, st⟩ (.done ⟨target, count, st''⟩) := by
        rw [patchEntries_returns_iff, if_neg inside, keyed]
        exact ⟨none, st'', refused, rfl⟩
      exact ⟨_, Fuel.iterate_done patchEntries_monotone stopped, rfl, valid, fun _ _ => rfl⟩
  | @entry st key st' val st'' ptr inside keyed decoded about later ih =>
      have kept := applyEntry_valid valid decoded.valid key
      obtain ⟨left, looped, position, leftValid, same⟩ := ih kept (applyCounted (target, count) (key, val)).2
      refine ⟨left, patchEntries_next inside keyed decoded looped, position, leftValid, fun sid other => ?_⟩
      rw [same sid other]
      exact applyEntry_other valid.repInv (fun equal => other (by rw [equal]; exact about)) val

theorem PatchesOnly.run {data : List UInt8} (patches : PatchesOnly sids data)
    {target : CoreconfHashMapT CoreconfValueT} (valid : Valid (.hashmap target)) (count : Int) :
    ∃ result, Returns (Fuel.iterate patchMaps) ⟨target, count, data⟩ result ∧
      ∀ sid, ¬ sids sid → getCoreconfHashMap result.2 sid = getCoreconfHashMap target sid := by
  induction patches generalizing target count with
  | @stop data noMap =>
      have stopped : Returns patchMaps ⟨target, count, data⟩ (.done (count, target)) := by
        rw [patchMaps_returns_iff]
        split_ifs
        · rfl
        · rw [← Prod.eta (zcborMapStartDecode _), noMap]
      exact ⟨_, Fuel.iterate_done patchMaps_monotone stopped, fun _ _ => rfl⟩
  | @map data start ptr started entries later ih =>
      obtain ⟨left, looped, position, leftValid, same⟩ := entries.run valid count
      obtain ⟨result, ran, others⟩ := ih leftValid left.count
      have nonempty : data ≠ [] := by
        rintro rfl
        cases started
      have again : Returns patchMaps ⟨target, count, data⟩ (.next ⟨left.target, left.count, ptr⟩) := by
        rw [patchMaps_returns_iff, if_neg nonempty, started]
        exact ⟨left, looped, by rw [position]⟩
      exact ⟨result, Fuel.iterate_next patchMaps_monotone again ran,
        fun sid other => (others sid other).trans (same sid other)⟩

theorem Unsliced.run {rest : List UInt8} (unsliced : Unsliced rest) (offset : Nat) (slices : List Slice) :
    Returns (Fuel.iterate sequenceMapBody) ⟨rest, offset, slices⟩ slices := by
  obtain ⟨step, ran⟩ := sequenceMapBody_terminates ⟨rest, offset, slices⟩
  cases step with
  | done left =>
      obtain ⟨n, found⟩ := ran
      obtain rfl := sequenceMapBody_left found
      exact Fuel.iterate_done sequenceMapBody_monotone ⟨n, found⟩
  | next loop' =>
      obtain ⟨mapLen, past, -, -, -, ⟨-, front, map, payload⟩ | ⟨-, cut⟩⟩ := sequenceMapBody_found ran
      · exact absurd ⟨front, loop'.ptr, map, payload⟩ unsliced.1
      · exact absurd ⟨past, cut⟩ unsliced.2

theorem queuedBy_map {env : Environment} {outcome : Outcome} {data : List UInt8} {slices : List Slice} {slice : Slice}
    (pushed : .pushNotificationSequence data ∈ outcome.effects)
    (sliced : Returns streamPushNotificationSequence data slices) (member : slice ∈ slices)
    {framing : Framing} {entries : List (Item × Item)} (wellFormed : Item.WellFormed (.map framing entries))
    (bytes : slice.bytes data = (Item.map framing entries).encode) (size : data.length < 4000) :
    QueuedBy env outcome data slice := by
  set notifSid := Item.eventSid env.sysSids.module entries with notifSid_eq
  have shorter : (Item.map framing entries).encode.length ≤ data.length := by
    rw [← bytes, Slice.bytes, List.length_take, List.length_drop]
    omega
  have keySize : (Item.uint (Cbor.Width.least notifSid.toNat) notifSid.toNat).encode.length ≤ 9 := by
    rw [Item.encode, Cbor.head_length]
    have := (Cbor.Width.least notifSid.toNat).length_le
    omega
  have fits : (eventItem notifSid (.map framing entries)).encode.length ≤ BUFFER_SIZE := by
    rw [eventItem_length, BUFFER_SIZE]
    omega
  refine ⟨pushed, ⟨slices, sliced, member⟩, (eventItem notifSid (.map framing entries)).encode,
    Item.encode_ne_nil (eventItem_wellFormed notifSid wellFormed), fun events => ?_⟩
  rw [bytes]
  exact queueMap_item env.sysSids.module wellFormed fits events

private def bound : ServerState := ⟨some (.hashmap (mapOf [(1, .uint64 2)])), true⟩

private theorem bound_reachable : Reachable bareEnvironment bound := .step .start put_bare

end Coreconf
