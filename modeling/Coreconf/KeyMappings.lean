import Coreconf.ItemDecode
import Coreconf.Manipulation
import Coreconf.ZcborPut

set_option autoImplicit false

/- serialization.c, the key mapping to CBOR and back. -/
namespace Coreconf

open Cbor (Item Framing indefiniteHead)
open Fuel (Step Returns)

def encodeSidKeys : DynamicLongListT → EncodeState → Option EncodeState
  | [], st => some st
  | sidKey :: rest, st => (zcborUint64Put st sidKey.toUInt64).bind (encodeSidKeys rest)

def encodeKeyMapping (keyMapping : KeyMappingT) (st : EncodeState) : Option EncodeState :=
  (zcborUint64Put st keyMapping.key.toUInt64).bind fun st =>
    (zcborListStartEncode st).bind fun st =>
      (encodeSidKeys keyMapping.dynamicLongList st).bind zcborListEndEncode

def encodeKeyMappings : List KeyMappingT → EncodeState → Option EncodeState
  | [], st => some st
  | keyMapping :: rest, st => (encodeKeyMapping keyMapping st).bind (encodeKeyMappings rest)

/-- The items come in the order in which `hashmap_iter` meets them. `none` is false. -/
def keyMappingHashMapToCBOR (keyMappingHashMap : List KeyMappingT) (st : EncodeState) : Option EncodeState :=
  (zcborMapStartEncode st).bind fun st =>
    (encodeKeyMappings keyMappingHashMap st).bind zcborMapEndEncode

structure SidKeyLoop where
  dynamicLongList : DynamicLongListT
  loopCounter : Nat
  st : ZcborState

/-- The elements of one list; false where the source returns NULL. -/
def sidKeyBody (loop : SidKeyLoop) : Option (Step SidKeyLoop (Bool × SidKeyLoop)) :=
  if zcborArrayAtEnd loop.st then some (.done (true, loop))
  else if loop.loopCounter > CORECONF_MAX_LOOP then some (.done (false, loop))
  else
    match zcborUint64Decode loop.st with
    | none => some (.done (false, loop))
    | some (sidKey, st) =>
        some (.next ⟨addLong loop.dynamicLongList sidKey.toInt64, loop.loopCounter + 1, st⟩)

structure KeyMappingLoop where
  keyMappingHashMap : List KeyMappingT
  loopCounter : Nat
  st : ZcborState

/-- What is returned, `none` for NULL, and the state that is left. -/
abbrev KeyMappingResult := Option (List KeyMappingT) × ZcborState

/-- The end of one entry, behind its list. -/
def storeKeyMapping (loop : KeyMappingLoop) (key : UInt64) :
    Bool × SidKeyLoop → Step KeyMappingLoop KeyMappingResult
  | (false, inner) => .done (none, inner.st)
  | (true, inner) =>
      match zcborListEndDecode inner.st with
      | (false, st) => .done (none, st)
      | (true, st) =>
          .next ⟨hashmapSet keyMappingCompare loop.keyMappingHashMap ⟨key.toInt64, inner.dynamicLongList⟩,
            inner.loopCounter + 1, st⟩

def keyMappingBody (fuel : Nat) (loop : KeyMappingLoop) : Option (Step KeyMappingLoop KeyMappingResult) :=
  if zcborArrayAtEnd loop.st then
    let (ended, st) := zcborMapEndDecode loop.st
    some (.done (if ended then some loop.keyMappingHashMap else none, st))
  else if loop.loopCounter > CORECONF_MAX_LOOP then some (.done (none, loop.st))
  else
    match zcborUint64Decode loop.st with
    | none => some (.done (none, loop.st))
    | some (key, st) =>
        match zcborListStartDecode st with
        | none => some (.done (none, st))
        | some st' =>
            (Fuel.loop sidKeyBody fuel ⟨[], loop.loopCounter, st'⟩).map (storeKeyMapping loop key)

def cborToKeyMappingHashMap (fuel : Nat) (st : ZcborState) : Option KeyMappingResult :=
  match zcborMapStartDecode st with
  | (false, st') => some (none, st')
  | (true, st') => Fuel.iterate keyMappingBody fuel ⟨[], 0, st'⟩

/-- A finite map, as the hash map of key mappings holds it. -/
structure KeyMappingHashMap where
  items : List KeyMappingT
  distinct : (items.map (·.key)).Nodup

def sidKeyItems (dynamicLongList : DynamicLongListT) : List Item :=
  dynamicLongList.map fun sidKey => keyItem sidKey.toUInt64

def keyMappingEntries (items : List KeyMappingT) : List (Item × Item) :=
  items.map fun keyMapping =>
    (keyItem keyMapping.key.toUInt64, .list .indefinite (sidKeyItems keyMapping.dynamicLongList))

def keyMappingItem (items : List KeyMappingT) : Item := .map .indefinite (keyMappingEntries items)

theorem encodeSidKeys_eq (dynamicLongList : DynamicLongListT) (st : EncodeState) :
    encodeSidKeys dynamicLongList st = st.put (Item.encodeItems (sidKeyItems dynamicLongList)) := by
  induction dynamicLongList generalizing st with
  | nil => simp [encodeSidKeys, sidKeyItems, Item.encodeItems, EncodeState.put]
  | cons sidKey rest ih =>
      rw [encodeSidKeys, zcborUint64Put_eq, funext ih, EncodeState.put_bind]
      rfl

theorem encodeKeyMappings_eq (items : List KeyMappingT) (st : EncodeState) :
    encodeKeyMappings items st = st.put (Item.encodeEntries (keyMappingEntries items)) := by
  induction items generalizing st with
  | nil => simp [encodeKeyMappings, keyMappingEntries, Item.encodeEntries, EncodeState.put]
  | cons keyMapping rest ih =>
      rw [encodeKeyMappings, encodeKeyMapping, zcborUint64Put_eq]
      simp only [zcborListStartEncode_eq, encodeSidKeys_eq, funext zcborListEndEncode_eq,
        EncodeState.put_bind, funext ih]
      simp [keyMappingEntries, Item.encodeEntries, Item.encode, Framing.opening, Framing.closing,
        indefiniteHead, Cbor.breakCode]

/-- What is written is one map of lists, if it fits. -/
theorem keyMappingHashMapToCBOR_eq (items : List KeyMappingT) (st : EncodeState) :
    keyMappingHashMapToCBOR items st = st.put (keyMappingItem items).encode := by
  rw [keyMappingHashMapToCBOR, zcborMapStartEncode_eq]
  simp only [encodeKeyMappings_eq, funext zcborMapEndEncode_eq, EncodeState.put_bind]
  rfl

/-- The counter of both loops lets every entry pass from this value on: it is looked at
before each key and before each element. -/
def Accepted : Nat → List KeyMappingT → Prop
  | _, [] => True
  | loopCounter, keyMapping :: rest =>
      loopCounter ≤ CORECONF_MAX_LOOP ∧
        (keyMapping.dynamicLongList = [] ∨
          loopCounter + keyMapping.dynamicLongList.length ≤ CORECONF_MAX_LOOP + 1) ∧
        Accepted (loopCounter + keyMapping.dynamicLongList.length + 1) rest

/-- The keys and the elements of all lists. -/
def countKeysAndElements (items : List KeyMappingT) : Nat :=
  items.length + (items.map (·.dynamicLongList.length)).sum

theorem accepted_of_count {items : List KeyMappingT} {loopCounter : Nat}
    (few : loopCounter + countKeysAndElements items ≤ CORECONF_MAX_LOOP + 1) : Accepted loopCounter items := by
  induction items generalizing loopCounter with
  | nil => trivial
  | cons keyMapping rest ih =>
      simp only [countKeysAndElements, List.length_cons, List.map_cons, List.sum_cons] at few
      refine ⟨by omega, Or.inr (by omega), ih ?_⟩
      simp only [countKeysAndElements]
      omega

theorem zcborUint64Decode_keyItem {st : ZcborState} {key : UInt64} {rest : List UInt8}
    (payload : st.payload = (keyItem key).encode ++ rest) (left : st.elemCount ≠ 0) :
    zcborUint64Decode st = some (key, st.after rest) := by
  rw [zcborUint64Decode_item (keyItem_wellFormed key) payload left, keyItem, Item.sid?, UInt64.ofNat_toNat]
  rfl

/-- Where one element is counted, the loop over a list goes on behind it. -/
theorem sidKeyBody_next {loop : SidKeyLoop} {sidKey : Int64} {rest : List UInt8} {more : Nat}
    (payload : loop.st.payload = (keyItem sidKey.toUInt64).encode ++ rest)
    (inside : Inside .indefinite (more + 1) loop.st) (counted : loop.loopCounter ≤ CORECONF_MAX_LOOP) :
    sidKeyBody loop =
      some (.next ⟨loop.dynamicLongList ++ [sidKey], loop.loopCounter + 1, loop.st.after rest⟩) := by
  have notEnd := inside.not_atEnd (keyItem_wellFormed sidKey.toUInt64) payload
  rw [sidKeyBody, if_neg notEnd, if_neg (by omega), zcborUint64Decode_keyItem payload inside.left]
  simp only [addLong, Int64.toInt64_toUInt64]

/-- The loop over a list adds its elements in order, as far as the counter lets it. -/
theorem sidKeyBody_elements {sids : DynamicLongListT} {loop : SidKeyLoop} {tail : List UInt8}
    (payload : loop.st.payload = Item.encodeItems (sidKeyItems sids) ++ (Framing.indefinite.closing ++ tail))
    (started : loop.loopCounter ≤ CORECONF_MAX_LOOP + 1)
    (inside : Inside .indefinite (CORECONF_MAX_LOOP + 2 - loop.loopCounter) loop.st) {n : Nat}
    (fuel : sids.length < n) :
    (sids = [] ∨ loop.loopCounter + sids.length ≤ CORECONF_MAX_LOOP + 1 →
      ∃ st, Fuel.loop sidKeyBody n loop =
          some (true, ⟨loop.dynamicLongList ++ sids, loop.loopCounter + sids.length, st⟩) ∧
        st.payload = Framing.indefinite.closing ++ tail ∧ Inside .indefinite 0 st ∧
        st.backupList = loop.st.backupList ∧ st.numBackups = loop.st.numBackups) ∧
    (¬ (sids = [] ∨ loop.loopCounter + sids.length ≤ CORECONF_MAX_LOOP + 1) →
      ∃ inner, Fuel.loop sidKeyBody n loop = some (false, inner)) := by
  induction sids generalizing loop n with
  | nil =>
      obtain ⟨n, rfl⟩ : ∃ k, n = k + 1 := ⟨n - 1, by omega⟩
      have ended : Inside .indefinite 0 loop.st := ⟨inside.1, Nat.zero_le _⟩
      refine ⟨fun _ => ⟨loop.st, ?_, payload, ended, rfl, rfl⟩, fun refused => absurd (Or.inl rfl) refused⟩
      rw [Fuel.loop_done (by rw [sidKeyBody, if_pos (ended.atEnd payload)]), List.append_nil]
      rfl
  | cons sidKey rest ih =>
      obtain ⟨n, rfl⟩ : ∃ k, n = k + 1 := ⟨n - 1, by omega⟩
      rw [List.length_cons] at fuel
      have next : loop.st.payload = (keyItem sidKey.toUInt64).encode ++
          (Item.encodeItems (sidKeyItems rest) ++ (Framing.indefinite.closing ++ tail)) := by
        rw [payload, sidKeyItems, List.map_cons, Item.encodeItems, List.append_assoc]
        rfl
      obtain ⟨more, slack⟩ : ∃ more, CORECONF_MAX_LOOP + 2 - loop.loopCounter = more + 1 :=
        ⟨CORECONF_MAX_LOOP + 1 - loop.loopCounter, by omega⟩
      rw [slack] at inside
      by_cases counted : loop.loopCounter ≤ CORECONF_MAX_LOOP
      · have later := @ih ⟨loop.dynamicLongList ++ [sidKey], loop.loopCounter + 1, loop.st.after _⟩ rfl
          (Nat.succ_le_succ counted)
          (by rw [show CORECONF_MAX_LOOP + 2 - (loop.loopCounter + 1) = more by omega]; exact inside.after _)
          n (by omega)
        rw [Fuel.loop_next (sidKeyBody_next next inside counted)]
        simp only [List.append_assoc, List.singleton_append, Nat.add_assoc, Nat.add_comm 1] at later
        refine ⟨fun fits => ?_, fun refused => ?_⟩
        · simp only [List.length_cons, reduceCtorEq, false_or] at fits
          exact later.1 (Or.inr (by omega))
        · simp only [List.length_cons, reduceCtorEq, false_or] at refused
          refine later.2 ?_
          rintro (rfl | fits)
          · simp only [List.length_nil] at refused
            omega
          · omega
      · refine ⟨fun fits => ?_, fun _ => ⟨loop, Fuel.loop_done ?_⟩⟩
        · simp only [List.length_cons, reduceCtorEq, false_or] at fits
          omega
        · rw [sidKeyBody, if_neg (inside.not_atEnd (keyItem_wellFormed sidKey.toUInt64) next),
            if_pos (by omega)]

/-- A key that is not in the map yet is added behind the others. -/
theorem hashmapSet_new {items : List KeyMappingT} {keyMapping : KeyMappingT}
    (new : keyMapping.key ∉ items.map (·.key)) :
    hashmapSet keyMappingCompare items keyMapping = items ++ [keyMapping] := by
  have absent : hashmapGet keyMappingCompare items keyMapping = none := by
    refine List.find?_eq_none.mpr fun found member => ?_
    have other : keyMapping.key ≠ found.key := fun same => new (same ▸ List.mem_map_of_mem member)
    simpa [keyMappingCompare] using other
  rw [hashmapSet, absent]

/-- What is left of the map at an entry. -/
structure BeforeEntries (loop : KeyMappingLoop) (items : List KeyMappingT) (tail : List UInt8) : Prop where
  payload : loop.st.payload =
    Item.encodeEntries (keyMappingEntries items) ++ (Framing.indefinite.closing ++ tail)
  inside : Inside .indefinite (2 * (CORECONF_MAX_LOOP + 3 - loop.loopCounter)) loop.st
  saved : loop.st.backupList ≠ []
  room : loop.st.backupList.length < loop.st.numBackups
  started : loop.loopCounter ≤ CORECONF_MAX_LOOP + 2
  distinct : ((loop.keyMappingHashMap ++ items).map (·.key)).Nodup

namespace BeforeEntries

variable {loop : KeyMappingLoop} {keyMapping : KeyMappingT} {rest : List KeyMappingT} {tail : List UInt8}

theorem next_payload (before : BeforeEntries loop (keyMapping :: rest) tail) :
    loop.st.payload = (keyItem keyMapping.key.toUInt64).encode ++
      ((Item.list .indefinite (sidKeyItems keyMapping.dynamicLongList)).encode ++
        (Item.encodeEntries (keyMappingEntries rest) ++ (Framing.indefinite.closing ++ tail))) := by
  rw [before.payload, keyMappingEntries, List.map_cons, Item.encodeEntries, List.append_assoc,
    List.append_assoc]
  rfl

/-- Two elements of the map are still to come. -/
theorem two_left (before : BeforeEntries loop (keyMapping :: rest) tail) :
    Inside .indefinite (2 * (CORECONF_MAX_LOOP + 2 - loop.loopCounter) + 2) loop.st := by
  have inside := before.inside
  have started := before.started
  rwa [show 2 * (CORECONF_MAX_LOOP + 3 - loop.loopCounter) =
    2 * (CORECONF_MAX_LOOP + 2 - loop.loopCounter) + 2 by omega] at inside

/-- A key that is counted is read, and its list is opened. -/
theorem opened (before : BeforeEntries loop (keyMapping :: rest) tail)
    (counted : loop.loopCounter ≤ CORECONF_MAX_LOOP) (n : Nat) :
    ∃ st, st.payload = Item.encodeItems (sidKeyItems keyMapping.dynamicLongList) ++
        (Framing.indefinite.closing ++
          (Item.encodeEntries (keyMappingEntries rest) ++ (Framing.indefinite.closing ++ tail))) ∧
      Inside .indefinite (CORECONF_MAX_LOOP + 2 - loop.loopCounter) st ∧
      st.backupList = ⟨loop.st.elemCount - 1 - 1, true⟩ :: loop.st.backupList ∧
      st.numBackups = loop.st.numBackups ∧
      keyMappingBody n loop =
        (Fuel.loop sidKeyBody n ⟨[], loop.loopCounter, st⟩).map
          (storeKeyMapping loop keyMapping.key.toUInt64) := by
  have inside := before.two_left
  have payload := before.next_payload
  have notEnd := inside.not_atEnd (keyItem_wellFormed keyMapping.key.toUInt64) payload
  set behind := Item.encodeEntries (keyMappingEntries rest) ++ (Framing.indefinite.closing ++ tail)
  set atList := loop.st.after
    ((Item.list .indefinite (sidKeyItems keyMapping.dynamicLongList)).encode ++ behind)
  have insideList := inside.after
    ((Item.list .indefinite (sidKeyItems keyMapping.dynamicLongList)).encode ++ behind)
  set elements := Item.encodeItems (sidKeyItems keyMapping.dynamicLongList) ++
    (Framing.indefinite.closing ++ behind)
  have opening : atList.payload =
      Framing.indefinite.opening 4 keyMapping.dynamicLongList.length ++ elements := by
    change (Item.list .indefinite _).encode ++ behind = _
    rw [Item.encode, List.append_assoc, List.append_assoc]
    rfl
  have started : zcborListStartDecode atList = some (atList.entered .indefinite _ elements) :=
    listMapStartDecode_opening opening (by decide) trivial insideList.left rfl before.room
  have few : CORECONF_MAX_LOOP + 2 ≤ ZCBOR_LARGE_ELEM_COUNT := by decide
  refine ⟨atList.entered .indefinite _ elements, rfl, entered_inside (by omega), ?_, rfl, ?_⟩
  · rw [ZcborState.entered]
    exact congrArg (fun flag => Backup.mk _ flag :: loop.st.backupList) inside.1
  · rw [keyMappingBody, if_neg notEnd, if_neg (by omega), zcborUint64Decode_keyItem payload inside.left]
    dsimp only
    rw [started]
    rfl

/-- An entry that the counter lets pass is stored with its whole list. -/
theorem next (before : BeforeEntries loop (keyMapping :: rest) tail)
    (counted : loop.loopCounter ≤ CORECONF_MAX_LOOP) (fits : keyMapping.dynamicLongList = [] ∨
      loop.loopCounter + keyMapping.dynamicLongList.length ≤ CORECONF_MAX_LOOP + 1) {n : Nat}
    (fuel : keyMapping.dynamicLongList.length < n) :
    ∃ loop', keyMappingBody n loop = some (.next loop') ∧
      loop'.keyMappingHashMap = loop.keyMappingHashMap ++ [keyMapping] ∧
      loop'.loopCounter = loop.loopCounter + keyMapping.dynamicLongList.length + 1 ∧
      BeforeEntries loop' rest tail := by
  obtain ⟨st, payload, inside, saved, backups, body⟩ := before.opened counted n
  obtain ⟨st', ran, closing, ended, kept, same⟩ := (@sidKeyBody_elements _
    ⟨[], loop.loopCounter, st⟩ _ payload (Nat.le_succ_of_le counted) inside n fuel).1 fits
  have left := ended.leave closing (kept.trans saved)
  have new : keyMapping.key ∉ loop.keyMappingHashMap.map (·.key) := by
    have distinct := before.distinct
    rw [List.map_append, List.map_cons, List.nodup_append] at distinct
    exact fun member => distinct.2.2 _ member _ List.mem_cons_self rfl
  have stored : keyMappingBody n loop = some (.next ⟨loop.keyMappingHashMap ++ [keyMapping],
      loop.loopCounter + keyMapping.dynamicLongList.length + 1,
      st'.leave ⟨loop.st.elemCount - 1 - 1, true⟩ loop.st.backupList
        (Item.encodeEntries (keyMappingEntries rest) ++ (Framing.indefinite.closing ++ tail))⟩) := by
    rw [body, ran, Option.map_some, storeKeyMapping, zcborListEndDecode, left]
    dsimp only
    rw [Int64.toInt64_toUInt64, List.nil_append, hashmapSet_new new]
  refine ⟨_, stored, rfl, rfl, rfl, ⟨rfl, ?_⟩, before.saved, ?_, ?_, ?_⟩
  · have enough := before.two_left.2
    simp only [ZcborState.leave]
    omega
  · have room := before.room
    rw [← backups, ← same] at room
    exact room
  · rcases fits with empty | fits
    · rw [empty, List.length_nil]
      dsimp only
      omega
    · dsimp only
      omega
  · have distinct := before.distinct
    rwa [← List.singleton_append, ← List.append_assoc] at distinct

/-- Any other entry ends the decoding with NULL. -/
theorem refused (before : BeforeEntries loop (keyMapping :: rest) tail)
    (fails : ¬ (loop.loopCounter ≤ CORECONF_MAX_LOOP ∧ (keyMapping.dynamicLongList = [] ∨
      loop.loopCounter + keyMapping.dynamicLongList.length ≤ CORECONF_MAX_LOOP + 1))) {n : Nat}
    (fuel : keyMapping.dynamicLongList.length < n) :
    ∃ st, keyMappingBody n loop = some (.done (none, st)) := by
  by_cases counted : loop.loopCounter ≤ CORECONF_MAX_LOOP
  · obtain ⟨st, payload, inside, -, -, body⟩ := before.opened counted n
    obtain ⟨inner, ran⟩ := (@sidKeyBody_elements _ ⟨[], loop.loopCounter, st⟩ _ payload
      (Nat.le_succ_of_le counted) inside n fuel).2 (fun fits => fails ⟨counted, fits⟩)
    refine ⟨inner.st, ?_⟩
    rw [body, ran]
    rfl
  · have notEnd := before.two_left.not_atEnd (keyItem_wellFormed keyMapping.key.toUInt64) before.next_payload
    refine ⟨loop.st, ?_⟩
    rw [keyMappingBody, if_neg notEnd, if_pos (by omega)]

end BeforeEntries

/-- The loop over the map, by induction over its entries: all of them are stored, or NULL is returned
where the counter stops at one. -/
theorem keyMappingBody_entries {items : List KeyMappingT} {loop : KeyMappingLoop} {tail : List UInt8}
    (before : BeforeEntries loop items tail) {bound : Nat}
    (lists : ∀ keyMapping ∈ items, keyMapping.dynamicLongList.length < bound) {n : Nat} (fuel : items.length < n) :
    ∃ decoded st, Fuel.loop (keyMappingBody bound) n loop = some (decoded, st) ∧
      (Accepted loop.loopCounter items → decoded = some (loop.keyMappingHashMap ++ items)) ∧
      (¬ Accepted loop.loopCounter items → decoded = none) := by
  induction items generalizing loop n with
  | nil =>
      obtain ⟨n, rfl⟩ : ∃ k, n = k + 1 := ⟨n - 1, by omega⟩
      obtain ⟨backup, backups, saved⟩ := List.exists_cons_of_ne_nil before.saved
      have ended : Inside .indefinite 0 loop.st := ⟨before.inside.1, Nat.zero_le _⟩
      have left : keyMappingBody bound loop =
          some (.done (some loop.keyMappingHashMap, loop.st.leave backup backups tail)) := by
        rw [keyMappingBody, if_pos (ended.atEnd before.payload), zcborMapEndDecode,
          ended.leave before.payload saved]
        rfl
      refine ⟨_, _, Fuel.loop_done left, fun _ => ?_, fun refused => absurd trivial refused⟩
      rw [List.append_nil]
  | cons keyMapping rest ih =>
      obtain ⟨n, rfl⟩ : ∃ k, n = k + 1 := ⟨n - 1, by omega⟩
      rw [List.length_cons] at fuel
      obtain ⟨first, others⟩ := List.forall_mem_cons.mp lists
      by_cases fits : loop.loopCounter ≤ CORECONF_MAX_LOOP ∧ (keyMapping.dynamicLongList = [] ∨
          loop.loopCounter + keyMapping.dynamicLongList.length ≤ CORECONF_MAX_LOOP + 1)
      · obtain ⟨loop', again, stored, counter, later⟩ := before.next fits.1 fits.2 first
        obtain ⟨decoded, st, ran, accepted, refused⟩ := ih later others (n := n) (by omega)
        rw [counter] at accepted refused
        rw [stored, List.append_assoc, List.singleton_append] at accepted
        rw [← Fuel.loop_next again] at ran
        exact ⟨decoded, st, ran, fun all => accepted all.2.2,
          fun not => refused fun rest => not ⟨fits.1, fits.2, rest⟩⟩
      · obtain ⟨st, done⟩ := before.refused fits first
        exact ⟨none, st, Fuel.loop_done done, fun all => absurd ⟨all.1, all.2.1⟩ fits, fun _ => rfl⟩

/-- Any list is shorter than the count of everything, by induction over the items. -/
theorem length_lt_count {items : List KeyMappingT} :
    ∀ keyMapping ∈ items, keyMapping.dynamicLongList.length < countKeysAndElements items := by
  induction items with
  | nil => exact fun _ member => absurd member List.not_mem_nil
  | cons first rest ih =>
      refine List.forall_mem_cons.mpr ⟨?_, fun keyMapping member => ?_⟩
      · simp only [countKeysAndElements, List.length_cons, List.map_cons, List.sum_cons]
        omega
      · have shorter := ih keyMapping member
        simp only [countKeysAndElements, List.length_cons, List.map_cons, List.sum_cons] at shorter ⊢
        omega

/-- A state that expects an element reads the mapping exactly where the counter accepts it. -/
theorem cborToKeyMappingHashMap_item (m : KeyMappingHashMap) {st : ZcborState} {rest : List UInt8}
    (payload : st.payload = (keyMappingItem m.items).encode ++ rest) (left : st.elemCount ≠ 0)
    (backups : st.backupList.length + 2 ≤ st.numBackups) :
    ∃ decoded st', Returns cborToKeyMappingHashMap st (decoded, st') ∧
      (Accepted 0 m.items → decoded = some m.items) ∧ (¬ Accepted 0 m.items → decoded = none) := by
  set entries := Item.encodeEntries (keyMappingEntries m.items) ++ (Framing.indefinite.closing ++ rest)
  have opening : st.payload = Framing.indefinite.opening 5 0 ++ entries := by
    rw [payload, keyMappingItem, Item.encode, List.append_assoc, List.append_assoc]
    rfl
  have few : 2 * (CORECONF_MAX_LOOP + 3) ≤ ZCBOR_LARGE_ELEM_COUNT := by decide
  have started : zcborMapStartDecode st =
      (true, st.entered .indefinite (2 * (CORECONF_MAX_LOOP + 3)) entries) :=
    zcborMapStartDecode_opening opening trivial left (by rw [typeCheck, opening]; rfl) (by omega) (by decide)
  have before : BeforeEntries ⟨[], 0, st.entered .indefinite (2 * (CORECONF_MAX_LOOP + 3)) entries⟩ m.items
      rest :=
    { payload := rfl
      inside := entered_inside few
      saved := List.cons_ne_nil _ _
      room := Nat.lt_of_succ_le backups
      started := Nat.zero_le _
      distinct := m.distinct }
  have enough : m.items.length < countKeysAndElements m.items + 1 :=
    Nat.lt_succ_of_le (Nat.le_add_right _ _)
  obtain ⟨decoded, st', ran, accepted, refused⟩ := keyMappingBody_entries before
    (fun keyMapping member => Nat.lt_succ_of_lt (length_lt_count keyMapping member)) enough
  refine ⟨decoded, st', ⟨countKeysAndElements m.items + 1, ?_⟩, accepted, refused⟩
  rw [cborToKeyMappingHashMap, started]
  exact ran

/-- What is decoded from the bytes of a mapping is the mapping with every list in order, or
nothing, and not nothing where the keys and elements are few enough. -/
theorem key_mapping_round_trip (m : KeyMappingHashMap) {bufferSize : Nat} {encoded : EncodeState}
    (written : keyMappingHashMapToCBOR m.items (zcborNewEncodeState bufferSize) = some encoded)
    {st : ZcborState} {rest : List UInt8} (payload : st.payload = encoded.payload ++ rest)
    (backups : st.backupList.length + 2 ≤ st.numBackups) :
    ∃ decoded st', Returns cborToKeyMappingHashMap st (decoded, st') ∧
      (decoded = none ∨ ∃ items, decoded = some items ∧ items.Perm m.items) ∧
      (st.elemCount ≠ 0 → countKeysAndElements m.items ≤ 51 →
        ∃ items, decoded = some items ∧ items.Perm m.items) := by
  have bytes : encoded.payload = (keyMappingItem m.items).encode := by
    rw [keyMappingHashMapToCBOR_eq, EncodeState.put] at written
    split at written
    · rw [← Option.some.inj written]
      exact List.nil_append _
    · cases written
  rw [bytes] at payload
  by_cases left : st.elemCount = 0
  · refine ⟨none, st, ⟨0, ?_⟩, Or.inl rfl, fun expects => absurd left expects⟩
    have unread : listMapStartDecode st .map = none := by
      have stopped : valueExtract st 8 true = none := by
        rw [valueExtract]
        split
        · rfl
        · rw [if_pos left]
      rw [listMapStartDecode, stopped]
      exact ite_self _
    rw [cborToKeyMappingHashMap, zcborMapStartDecode, unread]
  · obtain ⟨decoded, st', ran, accepted, refused⟩ := cborToKeyMappingHashMap_item m payload left backups
    have whole : Accepted 0 m.items → ∃ items, decoded = some items ∧ items.Perm m.items :=
      fun all => ⟨m.items, accepted all, .refl _⟩
    refine ⟨decoded, st', ran, ?_, fun _ few => whole (accepted_of_count (by rwa [Nat.zero_add]))⟩
    by_cases all : Accepted 0 m.items
    · exact Or.inr (whole all)
    · exact Or.inl (refused all)

/-- A mapping with a negative SID, a negative element and an empty list. -/
def negativeMapping : KeyMappingHashMap where
  items := [⟨1, [5, -1]⟩, ⟨-2, []⟩]
  distinct := by decide

theorem negative_mapping_round_trip :
    ∃ decoded st', Returns cborToKeyMappingHashMap
        (zcborNewDecodeState 5 [0xBF, 0x01, 0x9F, 0x05, 0x1B, 0xFF, 0xFF, 0xFF, 0xFF, 0xFF, 0xFF, 0xFF, 0xFF, 0xFF,
          0x1B, 0xFF, 0xFF, 0xFF, 0xFF, 0xFF, 0xFF, 0xFF, 0xFE, 0x9F, 0xFF, 0xFF] 1) (decoded, st') ∧
      (decoded = none ∨ ∃ items, decoded = some items ∧ items.Perm negativeMapping.items) ∧
      ((1 : Nat) ≠ 0 → countKeysAndElements negativeMapping.items ≤ 51 →
        ∃ items, decoded = some items ∧ items.Perm negativeMapping.items) :=
  @key_mapping_round_trip negativeMapping 64 _ rfl _ [] rfl (by decide)

end Coreconf
