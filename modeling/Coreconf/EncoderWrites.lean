import Coreconf.ZcborPut

set_option autoImplicit false

/- What the encoder writes, and when it says that it could not. -/
namespace Coreconf

open Cbor (Item Framing)

/-- The encoder writes the value's item wherever there is room for it. -/
def Writes (value : CoreconfValueT) : Prop :=
  ∀ ⦃st : EncodeState⦄, value.toItem.encode.length ≤ st.room →
    coreconfToCBOR value st = (true, st.write value.toItem.encode)

theorem serializeCoreconfElements_writes {elements : List CoreconfValueT}
    (each : ∀ element ∈ elements, Writes element) {st : EncodeState}
    (room : (Item.encodeItems (elements.map CoreconfValueT.toItem)).length ≤ st.room) :
    serializeCoreconfElements elements st =
      (true, st.write (Item.encodeItems (elements.map CoreconfValueT.toItem))) := by
  induction elements generalizing st with
  | nil => simp [serializeCoreconfElements, Item.encodeItems]
  | cons element rest ih =>
      obtain ⟨first, others⟩ := List.forall_mem_cons.mp each
      rw [List.map_cons, Item.encodeItems, List.length_append] at room
      rw [serializeCoreconfElements, first (by omega)]
      dsimp only
      rw [ih others (by rw [EncodeState.write_room]; omega), EncodeState.write_write, List.map_cons,
        Item.encodeItems]

theorem serializeCoreconfObject_writes {objects : List (CoreconfObjectT CoreconfValueT)}
    (noNull : ∀ object ∈ objects, object.value ≠ none)
    (each : ∀ object ∈ objects, ∀ value, object.value = some value → Writes value) {st : EncodeState}
    (room : (Item.encodeEntries (objects.flatMap CoreconfValueT.objectItems)).length ≤ st.room) :
    objects.foldl (fun st object => serializeCoreconfObject object st) st =
      st.write (Item.encodeEntries (objects.flatMap CoreconfValueT.objectItems)) := by
  induction objects generalizing st with
  | nil => simp [Item.encodeEntries]
  | cons object rest ih =>
      obtain ⟨present, others⟩ := List.forall_mem_cons.mp noNull
      obtain ⟨first, later⟩ := List.forall_mem_cons.mp each
      obtain ⟨key, value⟩ := object
      cases value with
      | none => exact absurd rfl present
      | some value =>
          rw [List.flatMap_cons, CoreconfValueT.objectItems, List.singleton_append,
            Item.encodeEntries] at room ⊢
          simp only [List.length_append] at room
          rw [List.foldl_cons, serializeCoreconfObject, zcborUint64Put_eq,
            EncodeState.put_some (by omega)]
          dsimp only [putResult]
          rw [first value rfl (by rw [EncodeState.write_room]; omega)]
          dsimp only
          rw [ih others later (by simp only [EncodeState.write_room]; omega), EncodeState.write_write,
            EncodeState.write_write, List.append_assoc]

theorem CoreconfValueT.NoNull.writes {value : CoreconfValueT} (noNull : value.NoNull) :
    Writes value := by
  induction noNull with
  | @array elements each ih =>
      intro st room
      rw [CoreconfValueT.toItem, CoreconfValueT.elementItems_eq, Item.encode] at room ⊢
      simp only [Framing.opening, Framing.closing, List.length_append, List.length_singleton] at room
      rw [coreconfToCBOR, zcborListStartEncode_eq,
        EncodeState.put_some (by rw [List.length_singleton]; omega)]
      dsimp only
      rw [serializeCoreconfElements_writes ih (by
        simp only [EncodeState.write_room, List.length_singleton]
        omega)]
      dsimp only
      rw [zcborListEndEncode_eq,
        EncodeState.put_some (by simp only [EncodeState.write_room, List.length_singleton]; omega)]
      simp only [putResult, EncodeState.write_write]
      rfl
  | @hashmap map noNull each ih =>
      intro st room
      rw [CoreconfValueT.toItem, CoreconfValueT.mapItems_eq, Item.encode] at room ⊢
      simp only [Framing.opening, Framing.closing, List.length_append, List.length_singleton] at room
      rw [coreconfToCBOR, zcborMapStartEncode_eq,
        EncodeState.put_some (by rw [List.length_singleton]; omega)]
      dsimp only
      rw [serializeCoreconfMap_eq, iterateCoreconfHashMap_eq, serializeCoreconfObject_writes noNull ih
        (by simp only [EncodeState.write_room, List.length_singleton]; omega)]
      rw [zcborMapEndEncode_eq,
        EncodeState.put_some (by simp only [EncodeState.write_room, List.length_singleton]; omega)]
      simp only [putResult, EncodeState.write_write]
      rfl
  | leaf leaf =>
      intro st room
      rw [coreconfToCBOR_leaf leaf, EncodeState.put_some room]
      rfl

namespace CoreconfValueT

mutual

/-- Where the value does not fit, the first put without room is one whose failure is
returned: it is not inside a hash map, whose callback drops it. -/
def Reports : CoreconfValueT → Nat → Prop
  | .array elements, room => room = 0 ∨ ReportsElements elements (room - 1)
  | .hashmap map, room => room = 0 ∨ (Item.encodeEntries (mapItems map)).length ≤ room - 1
  | _, _ => True

def ReportsElements : List CoreconfValueT → Nat → Prop
  | [], _ => True
  | element :: rest, room => Reports element room ∧
      (element.toItem.encode.length ≤ room →
        ReportsElements rest (room - element.toItem.encode.length))

end

end CoreconfValueT

open CoreconfValueT (Reports ReportsElements NoNull)

theorem reportsElements_of_room {elements : List CoreconfValueT}
    (each : ∀ element ∈ elements, ∀ room, element.toItem.encode.length ≤ room → Reports element room)
    {room : Nat} (fits : (Item.encodeItems (elements.map CoreconfValueT.toItem)).length ≤ room) :
    ReportsElements elements room := by
  induction elements generalizing room with
  | nil => trivial
  | cons element rest ih =>
      obtain ⟨first, others⟩ := List.forall_mem_cons.mp each
      rw [List.map_cons, Item.encodeItems, List.length_append] at fits
      exact ⟨first room (by omega), fun _ => ih others (by omega)⟩

theorem reports_of_room (value : CoreconfValueT) :
    ∀ room, value.toItem.encode.length ≤ room → Reports value room := by
  induction value with
  | array elements ih =>
      intro room fits
      rw [CoreconfValueT.toItem, CoreconfValueT.elementItems_eq, Item.encode] at fits
      simp only [Framing.opening, Framing.closing, List.length_append, List.length_singleton] at fits
      exact .inr (reportsElements_of_room ih (by omega))
  | hashmap map ih =>
      intro room fits
      rw [CoreconfValueT.toItem, Item.encode] at fits
      simp only [Framing.opening, Framing.closing, List.length_append, List.length_singleton] at fits
      exact .inr (by omega)
  | leaf value leaf =>
      intro room fits
      cases value with
      | array elements => cases leaf
      | hashmap map => cases leaf
      | _ => trivial

/-- A value without room is reported. -/
def Refuses (value : CoreconfValueT) : Prop :=
  ∀ ⦃st : EncodeState⦄, Reports value st.room → st.room < value.toItem.encode.length →
    (coreconfToCBOR value st).1 = false

theorem serializeCoreconfElements_refuses {elements : List CoreconfValueT}
    (noNull : ∀ element ∈ elements, NoNull element) (each : ∀ element ∈ elements, Refuses element)
    {st : EncodeState} (reports : ReportsElements elements st.room)
    (noRoom : st.room < (Item.encodeItems (elements.map CoreconfValueT.toItem)).length) :
    (serializeCoreconfElements elements st).1 = false := by
  induction elements generalizing st with
  | nil => exact absurd noRoom (Nat.not_lt_zero _)
  | cons element rest ih =>
      obtain ⟨firstNoNull, othersNoNull⟩ := List.forall_mem_cons.mp noNull
      obtain ⟨first, others⟩ := List.forall_mem_cons.mp each
      obtain ⟨reportsFirst, reportsRest⟩ := reports
      rw [List.map_cons, Item.encodeItems, List.length_append] at noRoom
      rw [serializeCoreconfElements]
      by_cases room : element.toItem.encode.length ≤ st.room
      · rw [firstNoNull.writes room]
        exact ih othersNoNull others (reportsRest room) (by rw [EncodeState.write_room]; omega)
      · have refused := first reportsFirst (Nat.not_le.mp room)
        rcases ran : coreconfToCBOR element st with ⟨_ | _, st'⟩
        · rfl
        · rw [ran] at refused
          cases refused

theorem CoreconfValueT.NoNull.refuses {value : CoreconfValueT} (noNull : value.NoNull) :
    Refuses value := by
  induction noNull with
  | @array elements each ih =>
      intro st reports noRoom
      rw [CoreconfValueT.toItem, CoreconfValueT.elementItems_eq, Item.encode] at noRoom
      simp only [Framing.opening, Framing.closing, List.length_append, List.length_singleton] at noRoom
      rw [coreconfToCBOR, zcborListStartEncode_eq]
      rcases reports with empty | reports
      · rw [EncodeState.put_none (by rw [List.length_singleton]; omega)]
      by_cases start : st.room = 0
      · rw [EncodeState.put_none (by rw [List.length_singleton]; omega)]
      rw [EncodeState.put_some (by rw [List.length_singleton]; omega)]
      dsimp only
      by_cases inside : (Item.encodeItems (elements.map CoreconfValueT.toItem)).length ≤ st.room - 1
      · rw [serializeCoreconfElements_writes (fun element member => (each element member).writes) inside]
        dsimp only
        rw [zcborListEndEncode_eq,
          EncodeState.put_none (by simp only [EncodeState.write_room, List.length_singleton]; omega)]
        rfl
      · have refused := serializeCoreconfElements_refuses each ih
          (show ReportsElements elements (st.write [Cbor.indefiniteHead 4]).room from reports)
          (Nat.not_le.mp inside)
        rcases ran : serializeCoreconfElements elements (st.write [Cbor.indefiniteHead 4]) with ⟨_ | _, st'⟩
        · rfl
        · rw [ran] at refused
          cases refused
  | @hashmap map noNull each ih =>
      intro st reports noRoom
      rw [CoreconfValueT.toItem, Item.encode] at noRoom
      simp only [Framing.opening, Framing.closing, List.length_append, List.length_singleton] at noRoom
      rw [coreconfToCBOR, zcborMapStartEncode_eq]
      by_cases start : st.room = 0
      · rw [EncodeState.put_none (by rw [List.length_singleton]; omega)]
      have inside := reports.resolve_left start
      rw [CoreconfValueT.mapItems_eq] at inside noRoom
      rw [EncodeState.put_some (by rw [List.length_singleton]; omega)]
      dsimp only
      rw [serializeCoreconfMap_eq, iterateCoreconfHashMap_eq, serializeCoreconfObject_writes noNull
        (fun object member value found => (each object member value found).writes) inside]
      rw [zcborMapEndEncode_eq,
        EncodeState.put_none (by simp only [EncodeState.write_room, List.length_singleton]; omega)]
      rfl
  | leaf leaf =>
      intro st reports noRoom
      rw [coreconfToCBOR_leaf leaf, EncodeState.put_none noRoom]
      rfl

/-- The same for the members of a top-level map, whose every put is checked. -/
def ReportsMembers : List (CoreconfObjectT CoreconfValueT) → Nat → Prop
  | [], _ => True
  | ⟨_, none⟩ :: _, _ => True
  | ⟨key, some value⟩ :: rest, room =>
      (keyItem key).encode.length ≤ room →
        Reports value (room - (keyItem key).encode.length) ∧
          ((keyItem key).encode.length + value.toItem.encode.length ≤ room →
            ReportsMembers rest (room - (keyItem key).encode.length - value.toItem.encode.length))

/-- A value whose lack of room is reported is written as a whole or refused. -/
theorem encodeMember_eq {value : Option CoreconfValueT} (noNull : (value.getD .null).NoNull)
    {st : EncodeState} (reports : Reports (value.getD .null) st.room) :
    encodeMember value st = st.put (value.getD .null).toItem.encode := by
  cases value with
  | none => exact zcborSimplePut_eq st (n := 22) (by decide)
  | some value =>
      rw [Option.getD_some] at noNull reports ⊢
      by_cases room : value.toItem.encode.length ≤ st.room
      · simp only [encodeMember, noNull.writes room, EncodeState.put_some room]
      · have noRoom := Nat.not_le.mp room
        have refused := noNull.refuses reports noRoom
        rw [EncodeState.put_none noRoom, encodeMember]
        rcases ran : coreconfToCBOR value st with ⟨_ | _, st'⟩
        · rfl
        · rw [ran] at refused
          cases refused

/-- The members are all written, or the request is refused. -/
theorem encodeMembers_eq {objects : List (CoreconfObjectT CoreconfValueT)}
    (noNull : ∀ object ∈ objects, object.value ≠ none)
    (each : ∀ object ∈ objects, ∀ value, object.value = some value → NoNull value) {st : EncodeState}
    (reports : ReportsMembers objects st.room) :
    encodeMembers objects st =
      st.put (Item.encodeEntries (objects.flatMap CoreconfValueT.objectItems)) := by
  induction objects generalizing st with
  | nil => simp [encodeMembers, Item.encodeEntries, EncodeState.put]
  | cons object rest ih =>
      obtain ⟨present, others⟩ := List.forall_mem_cons.mp noNull
      obtain ⟨first, later⟩ := List.forall_mem_cons.mp each
      obtain ⟨key, value⟩ := object
      cases value with
      | none => exact absurd rfl present
      | some value =>
          rw [List.flatMap_cons, CoreconfValueT.objectItems, List.singleton_append, Item.encodeEntries,
            encodeMembers, zcborUint64Put_eq]
          by_cases keyRoom : (keyItem key).encode.length ≤ st.room
          · obtain ⟨reportsValue, reportsRest⟩ := reports keyRoom
            have member : encodeMember (some value) (st.write (keyItem key).encode) =
                (st.write (keyItem key).encode).put value.toItem.encode :=
              encodeMember_eq (show ((some value).getD .null).NoNull from first value rfl) reportsValue
            rw [EncodeState.put_some keyRoom]
            dsimp only
            rw [member]
            by_cases room : value.toItem.encode.length ≤ st.room - (keyItem key).encode.length
            · rw [EncodeState.put_some room]
              dsimp only
              rw [ih others later (reportsRest (by omega)), EncodeState.write_write]
              simp only [EncodeState.put, EncodeState.write_room, EncodeState.write_write,
                List.length_append]
              exact if_congr (by omega) rfl rfl
            · rw [EncodeState.put_none (Nat.not_le.mp room),
                EncodeState.put_none (by simp only [List.length_append]; omega)]
          · rw [EncodeState.put_none (Nat.not_le.mp keyRoom),
              EncodeState.put_none (by simp only [List.length_append]; omega)]

/-- A request or response is the whole encoding of its map, or 0 when that has no room. -/
theorem createMapPayload_eq (bufferSize : Nat) {map : CoreconfHashMapT CoreconfValueT}
    (counted : map.size = 0 → map.objects = []) (noNull : NoNull (.hashmap map))
    (reports : ReportsMembers map.objects (bufferSize - 1)) :
    createMapPayload bufferSize (.hashmap map) =
      if (CoreconfValueT.hashmap map).toItem.encode.length ≤ bufferSize then
        some (CoreconfValueT.hashmap map).toItem.encode
      else none := by
  rw [CoreconfValueT.toItem, Item.encode, CoreconfValueT.mapItems_eq]
  simp only [Framing.opening, Framing.closing, List.length_append, List.length_singleton]
  rw [createMapPayload, zcborMapStartEncode_eq, zcborNewEncodeState]
  by_cases start : bufferSize = 0
  · rw [EncodeState.put_none (show bufferSize < 1 by omega), if_neg (by omega)]
  have opened : (⟨[], bufferSize⟩ : EncodeState).put [Cbor.indefiniteHead 5] =
      some (EncodeState.write ⟨[], bufferSize⟩ [Cbor.indefiniteHead 5]) :=
    EncodeState.put_some (Nat.pos_of_ne_zero start)
  rw [opened]
  cases noNull with
  | leaf leaf => cases leaf
  | hashmap present each =>
      have members : (if map.size = 0 then some (EncodeState.write ⟨[], bufferSize⟩ [Cbor.indefiniteHead 5])
          else encodeMembers map.objects (EncodeState.write ⟨[], bufferSize⟩ [Cbor.indefiniteHead 5])) =
          (EncodeState.write ⟨[], bufferSize⟩ [Cbor.indefiniteHead 5]).put
            (Item.encodeEntries (map.objects.flatMap CoreconfValueT.objectItems)) := by
        split
        · rename_i empty
          simp [counted empty, Item.encodeEntries, EncodeState.put]
        · exact encodeMembers_eq present each reports
      dsimp only
      rw [members]
      by_cases room : (Item.encodeEntries (map.objects.flatMap CoreconfValueT.objectItems)).length ≤ bufferSize - 1
      · rw [EncodeState.put_some room]
        dsimp only
        rw [zcborMapEndEncode_eq]
        by_cases last : bufferSize - 1 -
            (Item.encodeEntries (map.objects.flatMap CoreconfValueT.objectItems)).length = 0
        · rw [EncodeState.put_none (Nat.lt_one_iff.mpr last), if_neg (by omega)]
          rfl
        · have closed : ((EncodeState.write ⟨[], bufferSize⟩ [Cbor.indefiniteHead 5]).write
              (Item.encodeEntries (map.objects.flatMap CoreconfValueT.objectItems))).put
                [Cbor.indefiniteHead 7] = some _ := EncodeState.put_some (Nat.pos_of_ne_zero last)
          rw [closed, if_pos (by omega)]
          rfl
      · rw [EncodeState.put_none (Nat.not_le.mp room), if_neg (by omega)]

end Coreconf
