import Coreconf.PostRequests

set_option autoImplicit false

/- A call of the encoder that succeeds has written all of its encoding, unless a put
without room was one of a nested map. -/
namespace Coreconf

open Cbor (Item Framing)
open CoreconfValueT (NoNull Reports)

/-- The bytes of a fresh buffer of this size, where coreconfToCBOR returns true. -/
def encodeValue (value : CoreconfValueT) (bufferSize : Nat) : Option (List UInt8) :=
  match coreconfToCBOR value (zcborNewEncodeState bufferSize) with
  | (true, st) => some st.payload
  | (false, _) => none

/-- What an unbounded buffer would hold after the call. -/
def Unbounded (create : Nat → Option (List UInt8)) (full : List UInt8) : Prop :=
  ∃ enough, ∀ size, enough ≤ size → create size = some full

/-- A success is the encoding of an unbounded buffer, and a buffer that is too small
for that is reported. -/
structure CompleteOrFails (create : Nat → Option (List UInt8)) (bufferSize : Nat) : Prop where
  complete : ∀ data, create bufferSize = some data → Unbounded create data
  fails : ∀ full, Unbounded create full → bufferSize < full.length → create bufferSize = none

/-- What a buffer that is large enough holds is what it holds in this one or nothing. -/
theorem CompleteOrFails.of_eq {create : Nat → Option (List UInt8)} {full : List UInt8}
    (large : ∀ size, full.length ≤ size → create size = some full) {bufferSize : Nat}
    (here : create bufferSize = if full.length ≤ bufferSize then some full else none) :
    CompleteOrFails create bufferSize where
  complete := by
    intro data created
    rw [here] at created
    split at created
    · cases created
      exact ⟨full.length, large⟩
    · cases created
  fails := by
    rintro other ⟨enough, unbounded⟩ small
    have first := unbounded (max enough full.length) (le_max_left _ _)
    rw [large _ (le_max_right _ _)] at first
    cases first
    rw [here, if_neg (Nat.not_le.mpr small)]

theorem CompleteOrFails.of_none {create : Nat → Option (List UInt8)} (refused : ∀ size, create size = none)
    (bufferSize : Nat) : CompleteOrFails create bufferSize where
  complete data created := by
    rw [refused] at created
    cases created
  fails _ _ _ := refused bufferSize

theorem encodeValue_eq {value : CoreconfValueT} (noNull : value.NoNull) {bufferSize : Nat}
    (reports : Reports value bufferSize) :
    encodeValue value bufferSize =
      if value.toItem.encode.length ≤ bufferSize then some value.toItem.encode else none := by
  by_cases room : value.toItem.encode.length ≤ bufferSize
  · rw [encodeValue, noNull.writes (show _ ≤ (zcborNewEncodeState bufferSize).room from room), if_pos room]
    rfl
  · have refused : (coreconfToCBOR value (zcborNewEncodeState bufferSize)).1 = false :=
      noNull.refuses reports (Nat.not_le.mp room)
    rw [if_neg room, encodeValue]
    rcases ran : coreconfToCBOR value (zcborNewEncodeState bufferSize) with ⟨_ | _, st⟩
    · rfl
    · rw [ran] at refused
      cases refused

theorem reportsMembers_of_room {objects : List (CoreconfObjectT CoreconfValueT)} {room : Nat}
    (fits : (Item.encodeEntries (objects.flatMap CoreconfValueT.objectItems)).length ≤ room) :
    ReportsMembers objects room := by
  induction objects generalizing room with
  | nil => trivial
  | cons object rest ih =>
      obtain ⟨key, value⟩ := object
      cases value with
      | none => trivial
      | some value =>
          rw [List.flatMap_cons, CoreconfValueT.objectItems, List.singleton_append, Item.encodeEntries,
            List.length_append, List.length_append] at fits
          exact fun _ => ⟨reports_of_room value _ (by omega), fun _ => ih (by omega)⟩

/-- A map whose count is 0 is written as an empty one. -/
theorem createMapPayload_empty (bufferSize : Nat) {map : CoreconfHashMapT CoreconfValueT}
    (empty : map.size = 0) :
    createMapPayload bufferSize (.hashmap map) =
      if [Cbor.indefiniteHead 5, Cbor.breakCode].length ≤ bufferSize then
        some [Cbor.indefiniteHead 5, Cbor.breakCode]
      else none := by
  rw [← put_newEncodeState, ← List.singleton_append, ← EncodeState.put_bind_bind, createMapPayload,
    zcborMapStartEncode_eq]
  rcases (zcborNewEncodeState bufferSize).put [Cbor.indefiniteHead 5] with _ | st
  · rfl
  · dsimp only
    rw [if_pos empty]
    dsimp only
    rw [zcborMapEndEncode_eq, Option.map_eq_bind]
    rfl

/-- A response or request in a top-level map, whose own puts are all checked. -/
theorem createMapPayload_complete {datastore : CoreconfValueT} (noNull : datastore.NoNull)
    {bufferSize : Nat}
    (reports : ∀ map, datastore = .hashmap map → map.size ≠ 0 →
      ReportsMembers map.objects (bufferSize - 1)) :
    CompleteOrFails (createMapPayload · datastore) bufferSize := by
  cases datastore with
  | hashmap map =>
      by_cases empty : map.size = 0
      · exact .of_eq (fun size room => (createMapPayload_empty size empty).trans (if_pos room))
          (createMapPayload_empty bufferSize empty)
      · have counted : map.size = 0 → map.objects = [] := fun same => absurd same empty
        refine .of_eq (fun size room => ?_)
          (createMapPayload_eq bufferSize counted noNull (reports map rfl empty))
        rw [createMapPayload_eq size counted noNull, if_pos room]
        rw [CoreconfValueT.toItem, CoreconfValueT.mapItems_eq, Item.encode] at room
        simp only [Framing.opening, Framing.closing, List.length_append, List.length_singleton] at room
        exact reportsMembers_of_room (by omega)
  | _ => exact .of_none (fun _ => rfl) bufferSize

theorem createPostItems_complete {items : List PostItem}
    (noNull : ∀ item ∈ items, (item.value.getD .null).NoNull) {bufferSize : Nat}
    (reports : ReportsItems items bufferSize) :
    CompleteOrFails (createPostItems · items) bufferSize := by
  by_cases empty : items = []
  · exact .of_none (fun size => by rw [createPostItems, if_pos empty]) bufferSize
  · have created : ∀ size, createPostItems size items = createPostItemsFrom size items :=
      fun size => if_neg empty
    refine .of_eq (fun size room => ?_) ((created bufferSize).trans (createPostItemsFrom_eq noNull reports))
    rw [created, createPostItemsFrom_eq noNull (reportsItems_of_room room), if_pos room]

/-- Where the first put without room is not one that a hash map's callback makes, the
encoder and every request and response is complete or fails. -/
theorem encoder_complete {bufferSize : Nat} {value : CoreconfValueT} (noNull : value.NoNull)
    (reports : Reports value bufferSize) {datastore : CoreconfValueT} (storeNoNull : datastore.NoNull)
    (storeReports : ∀ map, datastore = .hashmap map → map.size ≠ 0 →
      ReportsMembers map.objects (bufferSize - 1))
    {items : List PostItem} (itemsNoNull : ∀ item ∈ items, (item.value.getD .null).NoNull)
    (itemsReport : ReportsItems items bufferSize) :
    CompleteOrFails (encodeValue value) bufferSize ∧
      CompleteOrFails (createGetResponse · datastore) bufferSize ∧
      CompleteOrFails (createPutRequest · datastore) bufferSize ∧
      CompleteOrFails (createIpatchRequest · datastore) bufferSize ∧
      CompleteOrFails (createPostItems · items) bufferSize :=
  ⟨.of_eq (fun _ room => (encodeValue_eq noNull (reports_of_room value _ room)).trans (if_pos room))
      (encodeValue_eq noNull reports),
    createMapPayload_complete storeNoNull storeReports, createMapPayload_complete storeNoNull storeReports,
    createMapPayload_complete storeNoNull storeReports, createPostItems_complete itemsNoNull itemsReport⟩

/-- A map with a text of eight bytes. -/
private def textMap : CoreconfHashMapT CoreconfValueT :=
  (insertCoreconfHashMap createCoreconfHashmap 2 (some (.string (CString.ofBuffer (List.replicate 8 0x78))))).2

private theorem textMap_noNull : CoreconfValueT.NoNull (.hashmap textMap) :=
  (CoreconfValueT.valid_createCoreconfHashmap.insert (.leaf rfl) 2).noNull

/-- Five bytes hold neither the list nor the map, and every call says so. -/
theorem encoder_complete_five :
    CompleteOrFails (encodeValue (.array [.uint8 7, .hashmap createCoreconfHashmap, .uint32 70000])) 5 ∧
      CompleteOrFails (createGetResponse · (.hashmap textMap)) 5 ∧
      CompleteOrFails (createPutRequest · (.hashmap textMap)) 5 ∧
      CompleteOrFails (createIpatchRequest · (.hashmap textMap)) 5 ∧
      CompleteOrFails (createPostItems · [⟨.sid, 1, none⟩, ⟨.sid, 2, some (.uint8 7)⟩]) 5 := by
  refine encoder_complete (.array ?_) ?_ textMap_noNull ?_ ?_ ?_
  · rintro element (_ | ⟨_, _ | ⟨_, _ | ⟨_, ⟨⟩⟩⟩⟩)
    · exact .leaf rfl
    · exact CoreconfValueT.valid_createCoreconfHashmap.noNull
    · exact .leaf rfl
  · exact .inr ⟨trivial, fun _ => ⟨.inr (by decide), fun _ => ⟨trivial, fun _ => trivial⟩⟩⟩
  · rintro map ⟨⟩ -
    rw [textMap, insert_create_objects]
    exact fun _ => ⟨trivial, fun _ => trivial⟩
  · rintro item (_ | ⟨_, _ | ⟨_, ⟨⟩⟩⟩)
    · exact .leaf rfl
    · exact .leaf rfl
  · exact ⟨trivial, fun _ => ⟨trivial, fun _ => trivial⟩⟩

/-- Three bytes hold the map without its text, and the encoder returns true. -/
theorem cut_map_not_complete :
    CoreconfValueT.NoNull (.hashmap textMap) ∧ ¬ CompleteOrFails (encodeValue (.hashmap textMap)) 3 := by
  refine ⟨textMap_noNull, fun complete => ?_⟩
  obtain ⟨enough, unbounded⟩ := complete.complete [0xBF, 0x02, 0xFF] (by decide)
  have cut := unbounded (max enough 12) (le_max_left _ _)
  rw [encodeValue_eq textMap_noNull (reports_of_room _ _ (le_trans (by decide) (le_max_right enough 12))),
    if_pos (le_trans (by decide) (le_max_right enough 12))] at cut
  exact absurd cut (by decide)

end Coreconf
