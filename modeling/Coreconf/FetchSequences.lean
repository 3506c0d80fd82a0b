import Coreconf.Fetch
import Coreconf.PostRequests

set_option autoImplicit false

/- The responses of fetch.c as the sequences that parse_post_items reads. -/
namespace Coreconf

open Cbor (Item)
open CoreconfValueT (Nests)
open Fuel (Returns)

/-- What the identifiers name in a datastore, as the items of a sequence. -/
def fetchItems (map : CoreconfHashMapT CoreconfValueT) (iids : List InstanceIdentifier) : List PostItem :=
  iids.map fun iid => ⟨.sid, iid.sid, fetchValueByIid (.hashmap map) iid⟩

/-- An answer is written as an item whose identifier is a SID. -/
theorem createFetchAnswers_eq (bufferSize : Nat) (pairs : List (UInt64 × Option CoreconfValueT)) :
    createFetchAnswers bufferSize pairs =
      createPostItemsFrom bufferSize (pairs.map fun pair => ⟨.sid, pair.1, pair.2⟩) := by
  induction pairs generalizing bufferSize with
  | nil => rfl
  | cons pair rest ih =>
      rw [createFetchAnswers, List.map_cons, createPostItemsFrom]
      refine congrArg (Option.bind (createFetchAnswer bufferSize pair.1 pair.2)) ?_
      funext bytes
      rw [ih]

theorem createFetchResponseIids_eq (bufferSize : Nat) (map : CoreconfHashMapT CoreconfValueT)
    (iids : List InstanceIdentifier) :
    createFetchResponseIids bufferSize (.hashmap map) iids = createPostItems bufferSize (fetchItems map iids) := by
  cases iids with
  | nil => rfl
  | cons iid rest =>
      rw [createFetchResponseIids, if_neg (List.cons_ne_nil _ _), createFetchAnswers_eq, List.map_map]
      rfl

theorem nests_element {nesting : Nat} {elements : List CoreconfValueT} (nests : Nests nesting (.array elements))
    {element : CoreconfValueT} (member : element ∈ elements) : element.Nests nesting := by
  cases nests with
  | array each => exact (each element member).mono (Nat.le_succ _)
  | leaf leaf => cases leaf

/-- An identifier names a value of the datastore or one element of it. -/
theorem fetchValueByIid_nests {map : CoreconfHashMapT CoreconfValueT} {nesting : Nat}
    (nests : ∀ sid value, getCoreconfHashMap map sid = some value → value.Nests nesting)
    {iid : InstanceIdentifier} {value : CoreconfValueT}
    (found : fetchValueByIid (.hashmap map) iid = some value) : value.Nests nesting := by
  unfold fetchValueByIid at found
  dsimp only at found
  split at found
  · cases found
  · rename_i held
    cases found
    exact nests _ _ held
  · rename_i held
    exact nests_element (nests _ _ held) (List.mem_of_find?_eq_some found)
  · rename_i held
    split at found
    · exact nests_element (nests _ _ held) (List.mem_of_getElem? found)
    · cases found
  · cases found

theorem fetchItems_nests {map : CoreconfHashMapT CoreconfValueT} {nesting : Nat}
    (nests : ∀ sid value, getCoreconfHashMap map sid = some value → value.Nests nesting)
    (iids : List InstanceIdentifier) : ∀ item ∈ fetchItems map iids, (item.value.getD .null).Nests nesting := by
  intro item member
  obtain ⟨iid, -, rfl⟩ := List.mem_map.mp member
  dsimp only
  cases found : fetchValueByIid (.hashmap map) iid with
  | none => exact .leaf rfl fun _ same => nomatch same
  | some value => exact fetchValueByIid_nests nests found

theorem fetchValueByIid_simple (map : CoreconfHashMapT CoreconfValueT) (sid : UInt64) :
    fetchValueByIid (.hashmap map) (.simple sid) = getCoreconfHashMap map sid := by
  unfold fetchValueByIid
  dsimp only [InstanceIdentifier.sid]
  cases getCoreconfHashMap map sid <;> rfl

/-- A response of SIDs is the response of the identifiers that have just these. -/
theorem createFetchResponse_simple (bufferSize : Nat) (dataSource : CoreconfValueT) (sids : List UInt64) :
    createFetchResponse bufferSize dataSource sids =
      createFetchResponseIids bufferSize dataSource (sids.map .simple) := by
  cases sids with
  | nil => rfl
  | cons sid rest =>
      rw [createFetchResponse, createFetchResponseIids, if_neg (List.cons_ne_nil _ _),
        if_neg (by rw [List.map_cons]; exact List.cons_ne_nil _ _), List.map_map]
      refine congrArg (createFetchAnswers bufferSize) (List.map_congr_left fun sid _ => ?_)
      refine Prod.ext rfl ?_
      cases dataSource with
      | hashmap map =>
          exact (fetchValueByIid_simple map sid).symm
      | _ => rfl

/-- The response of values of at most nine containers is read as one item for each identifier,
with the value that it names or null, exactly where no text in these values is cut short. -/
theorem fetch_sequence_iff {map : CoreconfHashMapT CoreconfValueT}
    (nests : ∀ sid value, getCoreconfHashMap map sid = some value → value.Nests 9)
    {iids : List InstanceIdentifier} (nonempty : iids ≠ [])
    (object : (postPayload (fetchItems map iids)).length < 2 ^ 63) :
    (PostRoundTrip (createFetchResponseIids · (.hashmap map) iids) (fetchItems map iids) ↔
      ∀ iid ∈ iids, ((fetchValueByIid (.hashmap map) iid).getD .null).toItem.KeepsTexts) ∧
    ∀ bufferSize sids, createFetchResponse bufferSize (.hashmap map) sids =
      createFetchResponseIids bufferSize (.hashmap map) (sids.map .simple) := by
  have some_items : fetchItems map iids ≠ [] := fun empty => nonempty (List.map_eq_nil_iff.mp empty)
  have items := fetchItems_nests nests iids
  refine ⟨?_, fun bufferSize sids => createFetchResponse_simple bufferSize (.hashmap map) sids⟩
  rw [postRoundTrip_iff some_items items object fun bufferSize room => ?_, fetchItems, List.forall_mem_map]
  rw [createFetchResponseIids_eq]
  exact createPostItems_room some_items items room

/-- A datastore of one SID. -/
private def oneBinding (sid : UInt64) (value : CoreconfValueT) : CoreconfHashMapT CoreconfValueT :=
  insertMembers [(sid, value)] createCoreconfHashmap

private theorem oneBinding_get {sid sid' : UInt64} {value value' : CoreconfValueT} :
    getCoreconfHashMap (oneBinding sid value) sid' = some value' ↔ sid' = sid ∧ value' = value := by
  have distinct : ([(sid, value)].map Prod.fst).Nodup := List.nodup_singleton sid
  have few : (createCoreconfHashmap : CoreconfHashMapT CoreconfValueT).size + [(sid, value)].length ≤
      Item.maxEntries := Nat.succ_le_succ (Nat.zero_le _)
  have objects := @mem_insertMembers _ repInv_create _ distinct few ⟨sid', some value'⟩
  refine ((insertMembers_repInv repInv_create [(sid, value)]).get_eq_some.trans objects).trans ?_
  simp

private theorem oneBinding_nests {nesting : Nat} {sid : UInt64} {value : CoreconfValueT} (nests : value.Nests nesting) :
    ∀ sid' value', getCoreconfHashMap (oneBinding sid value) sid' = some value' → value'.Nests nesting := by
  intro sid' value' found
  obtain ⟨-, rfl⟩ := oneBinding_get.mp found
  exact nests

private def sensor : CoreconfHashMapT CoreconfValueT :=
  insertMembers [(1, .string (CString.ofBuffer [0x61]))] createCoreconfHashmap

private theorem sensors_nests : Nests 9 (.array [.hashmap sensor]) := by
  refine .array fun element member => ?_
  cases List.mem_singleton.mp member
  have objects : sensor.objects = [⟨1, some (.string (CString.ofBuffer [0x61]))⟩] := insert_create_objects _ _
  refine .hashmap ?_ ?_ ?_ ?_
  all_goals rw [objects]
  · simp
  · decide
  · simp
  · rintro object (_ | ⟨_, ⟨⟩⟩) value same
    cases same
    refine .leaf rfl fun s same => ?_
    cases same
    decide

private def sensorIids : List InstanceIdentifier :=
  [.withStrKey 30 (CString.ofBuffer [0x61]), .simple 20, .withIntKey 30 0, .withIntKey 30 (-1), .simple 30]

/-- Hits and misses of a list of one sensor. -/
theorem fetch_sequence_sensors :
    PostRoundTrip (createFetchResponseIids · (.hashmap (oneBinding 30 (.array [.hashmap sensor]))) sensorIids)
      (fetchItems (oneBinding 30 (.array [.hashmap sensor])) sensorIids) := by
  have short : ∀ iid ∈ sensorIids, ((fetchValueByIid (.hashmap (oneBinding 30 (.array [.hashmap sensor]))) iid).getD
      .null).toItem.encode.length < 2 ^ 31 := by decide +kernel
  exact (fetch_sequence_iff (oneBinding_nests sensors_nests) (List.cons_ne_nil _ _) (by decide +kernel)).1.mpr
    fun iid member => Item.keepsTexts_of_length (short iid member)

private def hugeText : CString where
  bytes := List.replicate (2 ^ 32) 0x63
  noNul member := absurd (List.eq_of_mem_replicate member) (by decide)

private theorem hugeText_length : hugeText.bytes.length = 2 ^ 32 := List.length_replicate

private theorem fetchItems_oneBinding (s : CString) :
    fetchItems (oneBinding 1 (.string s)) [.simple 1] = [⟨.sid, 1, some (.string s)⟩] := by
  rw [fetchItems, List.map_singleton, fetchValueByIid_simple, oneBinding_get.mpr ⟨rfl, rfl⟩]
  rfl

/-- The client reads an empty text of 2^32 bytes. -/
theorem fetch_sequence_text_lost :
    (∀ sid value, getCoreconfHashMap (oneBinding 1 (.string hugeText)) sid = some value → value.Nests 9) ∧
      ¬ PostRoundTrip (createFetchResponseIids · (.hashmap (oneBinding 1 (.string hugeText))) [.simple 1])
        (fetchItems (oneBinding 1 (.string hugeText)) [.simple 1]) := by
  have nests := text_nests (s := hugeText) (hugeText_length ▸ by decide)
  refine ⟨oneBinding_nests (nests _ List.mem_cons_self), ?_⟩
  rw [fetchItems_oneBinding]
  refine text_lost hugeText_length fun bufferSize room => ?_
  rw [createFetchResponseIids_eq, fetchItems_oneBinding]
  exact createPostItems_room (List.cons_ne_nil _ _) nests room

end Coreconf
