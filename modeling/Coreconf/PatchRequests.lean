import Coreconf.ChainKeys
import Coreconf.EncoderWrites
import Coreconf.PatchEffects

set_option autoImplicit false

/- The payloads that create_ipatch_request and create_ipatch_iid_request build, and
what apply_ipatch_raw makes of a concatenation of them. -/
namespace Cbor.Item

open Coreconf (PatchKey keyItem)

/-- The item of a key as the client writes it. -/
def ofPatchKey : PatchKey → Item
  | .sid sid => keyItem sid
  | .listInstance sid keyStr =>
      .list .indefinite [keyItem sid, .tstr (Width.least keyStr.bytes.length) keyStr.bytes]

end Cbor.Item

namespace Coreconf

open Cbor (Item Framing Width)
open CoreconfValueT (Valid Fits NoNull Reports)
open Fuel (Returns)

/-- A call of create_ipatch_request or of create_ipatch_iid_request. -/
inductive PatchRequest where
  | map (bufferSize : Nat) (patch : CoreconfHashMapT CoreconfValueT)
  | listInstance (bufferSize : Nat) (sid : UInt64) (keyStr : CString) (val : Option CoreconfValueT)

namespace PatchRequest

def create : PatchRequest → Option (List UInt8)
  | map bufferSize patch => createIpatchRequest bufferSize (.hashmap patch)
  | listInstance bufferSize sid keyStr val => createIpatchIidRequest bufferSize sid keyStr val

def bufferSize : PatchRequest → Nat
  | map bufferSize _ => bufferSize
  | listInstance bufferSize _ _ _ => bufferSize

/-- The entries in encoded order; a NULL value stands for null. -/
def entries : PatchRequest → List (PatchKey × CoreconfValueT)
  | map _ patch => patch.objects.map fun object => (.sid object.key, object.value.getD .null)
  | listInstance _ sid keyStr val => [(.listInstance sid keyStr, val.getD .null)]

def pairs (request : PatchRequest) : List (Item × Item) :=
  request.entries.map fun entry => (Item.ofPatchKey entry.1, entry.2.toItem)

/-- The map that the request is meant to be. -/
def item (request : PatchRequest) : Item := .map .indefinite request.pairs

/-- A patch whose count is right when it is empty, keys of at most 127 bytes, values
that nest at most five containers of at most 51 entries. -/
structure Limited (request : PatchRequest) : Prop where
  counted : ∀ bufferSize patch, request = map bufferSize patch → patch.size = 0 → patch.objects = []
  keys : ∀ entry ∈ request.entries, ∀ sid keyStr, entry.1 = .listInstance sid keyStr →
    keyStr.bytes.length ≤ 127
  values : ∀ entry ∈ request.entries, entry.2.Fits 5

end PatchRequest

theorem encodeMember_writes {value : Option CoreconfValueT} (noNull : (value.getD .null).NoNull)
    {st : EncodeState} (room : (value.getD .null).toItem.encode.length ≤ st.room) :
    encodeMember value st = some (st.write (value.getD .null).toItem.encode) := by
  cases value with
  | none =>
      have put := zcborSimplePut_eq st (n := 22) (by decide)
      exact put.trans (EncodeState.put_some room)
  | some value =>
      have written : coreconfToCBOR value st = (true, st.write value.toItem.encode) := noNull.writes room
      simp only [encodeMember, written, Option.getD_some]

theorem encodeMembers_writes {objects : List (CoreconfObjectT CoreconfValueT)}
    (noNull : ∀ object ∈ objects, (object.value.getD .null).NoNull) {st : EncodeState}
    (room : (Item.encodeEntries (objects.map fun object =>
      (keyItem object.key, (object.value.getD .null).toItem))).length ≤ st.room) :
    encodeMembers objects st = some (st.write (Item.encodeEntries (objects.map fun object =>
      (keyItem object.key, (object.value.getD .null).toItem)))) := by
  induction objects generalizing st with
  | nil => simp [encodeMembers, Item.encodeEntries]
  | cons object rest ih =>
      obtain ⟨first, others⟩ := List.forall_mem_cons.mp noNull
      rw [List.map_cons, Item.encodeEntries] at room ⊢
      simp only [List.length_append] at room
      rw [encodeMembers, zcborUint64Put_eq, EncodeState.put_some (by omega)]
      dsimp only
      rw [encodeMember_writes first (by rw [EncodeState.write_room]; omega)]
      dsimp only
      rw [ih others (by simp only [EncodeState.write_room]; omega), EncodeState.write_write,
        EncodeState.write_write, List.append_assoc]

/-- A map of one entry is written as a whole or refused. -/
theorem singlePair_eq (bufferSize : Nat) (key : Item) {value : Option CoreconfValueT}
    (noNull : (value.getD .null).NoNull)
    (reports : Reports (value.getD .null) (bufferSize - (1 + key.encode.length))) :
    (((zcborNewEncodeState bufferSize).put ([Cbor.indefiniteHead 5] ++ key.encode)).bind fun st =>
      (encodeMember value st).bind fun st =>
        (st.put [Cbor.breakCode]).bind fun st => some st.payload) =
      if (Item.map .indefinite [(key, (value.getD .null).toItem)]).encode.length ≤ bufferSize then
        some (Item.map .indefinite [(key, (value.getD .null).toItem)]).encode
      else none := by
  have encoded : (Item.map .indefinite [(key, (value.getD .null).toItem)]).encode =
      ([Cbor.indefiniteHead 5] ++ key.encode) ++ ((value.getD .null).toItem.encode ++ [Cbor.breakCode]) := by
    simp only [Item.encode, Item.encodeEntries, Framing.opening, Framing.closing, List.append_nil,
      List.append_assoc]
  have opening : ([Cbor.indefiniteHead 5] ++ key.encode).length = 1 + key.encode.length := by
    rw [List.length_append, List.length_singleton]
  by_cases room : ([Cbor.indefiniteHead 5] ++ key.encode).length ≤ (zcborNewEncodeState bufferSize).room
  · rw [EncodeState.put_some room, Option.bind_some, encodeMember_eq noNull (by
      rw [EncodeState.write_room, opening]
      exact reports), EncodeState.put_bind_bind, ← Option.bind_some
        ((zcborNewEncodeState bufferSize).write ([Cbor.indefiniteHead 5] ++ key.encode)) fun st =>
          (st.put ((value.getD .null).toItem.encode ++ [Cbor.breakCode])).bind fun st => some st.payload,
      ← EncodeState.put_some room, EncodeState.put_bind_bind, put_newEncodeState, encoded]
  · have longer : ¬ (Item.map .indefinite [(key, (value.getD .null).toItem)]).encode.length ≤ bufferSize := by
      rw [encoded, List.length_append]
      have size : (zcborNewEncodeState bufferSize).room = bufferSize := rfl
      omega
    rw [EncodeState.put_none (Nat.not_le.mp room), if_neg longer]
    rfl

theorem createIpatchIidRequest_eq (bufferSize : Nat) (sid : UInt64) (keyStr : CString)
    {val : Option CoreconfValueT} (noNull : (val.getD .null).NoNull)
    (reports : Reports (val.getD .null)
      (bufferSize - (1 + (Item.ofPatchKey (.listInstance sid keyStr)).encode.length))) :
    createIpatchIidRequest bufferSize sid keyStr val =
      if (Item.map .indefinite [(Item.ofPatchKey (.listInstance sid keyStr),
          (val.getD .null).toItem)]).encode.length ≤ bufferSize then
        some (Item.map .indefinite [(Item.ofPatchKey (.listInstance sid keyStr),
          (val.getD .null).toItem)]).encode
      else none := by
  rw [← singlePair_eq bufferSize _ noNull reports]
  simp only [createIpatchIidRequest, zcborMapStartEncode_eq, zcborListStartEncode_eq,
    zcborListEndEncode_eq, zcborMapEndEncode_eq, zcborUint64Put_eq, zcborTstrEncode, strEncode_eq,
    Option.bind_eq_bind, EncodeState.put_bind_bind, Item.ofPatchKey, Item.encode,
    Item.encodeItems, Framing.opening, Framing.closing, List.append_assoc, List.append_nil]
  rfl

/-- A request whose encoding has room is all of its map. -/
theorem PatchRequest.create_eq {request : PatchRequest} (limited : request.Limited)
    (room : request.item.encode.length ≤ request.bufferSize) :
    request.create = some request.item.encode := by
  have noNull : ∀ entry ∈ request.entries, entry.2.NoNull :=
    fun entry member => (limited.values entry member).noNull
  cases request with
  | map bufferSize patch =>
      have items : (PatchRequest.map bufferSize patch).pairs = patch.objects.map fun object =>
          (keyItem object.key, (object.value.getD .null).toItem) := by
        simp [PatchRequest.pairs, PatchRequest.entries, Item.ofPatchKey]
      rw [PatchRequest.item, items, Item.encode] at room ⊢
      simp only [Framing.opening, Framing.closing, List.length_append, List.length_singleton,
        PatchRequest.bufferSize] at room
      have written : encodeMembers patch.objects
          (EncodeState.write ⟨[], bufferSize⟩ [Cbor.indefiniteHead 5]) = some _ :=
        encodeMembers_writes (fun object member => noNull _ (List.mem_map_of_mem member))
          (by simp only [EncodeState.write_room, List.length_singleton]; omega)
      have members : (if patch.size = 0 then some (EncodeState.write ⟨[], bufferSize⟩ [Cbor.indefiniteHead 5])
          else encodeMembers patch.objects (EncodeState.write ⟨[], bufferSize⟩ [Cbor.indefiniteHead 5])) =
          some ((EncodeState.write ⟨[], bufferSize⟩ [Cbor.indefiniteHead 5]).write
            (Item.encodeEntries (patch.objects.map fun object =>
              (keyItem object.key, (object.value.getD .null).toItem)))) := by
        split
        · rename_i empty
          simp [limited.counted bufferSize patch rfl empty, Item.encodeEntries]
        · exact written
      rw [PatchRequest.create, createIpatchRequest, createMapPayload, zcborMapStartEncode_eq, zcborNewEncodeState,
        EncodeState.put_some (by rw [List.length_singleton]; show 1 ≤ bufferSize; omega)]
      dsimp only
      rw [members]
      dsimp only
      rw [zcborMapEndEncode_eq,
        EncodeState.put_some (by simp only [EncodeState.write_room, List.length_singleton]; omega)]
      rfl
  | listInstance bufferSize sid keyStr val =>
      have written := noNull _ (List.mem_singleton_self _)
      have fits : (Item.map .indefinite [(Item.ofPatchKey (.listInstance sid keyStr),
          (val.getD .null).toItem)]).encode.length ≤ bufferSize := room
      have reports : Reports (val.getD .null)
          (bufferSize - (1 + (Item.ofPatchKey (.listInstance sid keyStr)).encode.length)) := by
        refine reports_of_room _ _ ?_
        rw [Item.encode] at fits
        simp only [Item.encodeEntries, Framing.opening, Framing.closing, List.length_append,
          List.length_singleton, List.length_nil] at fits
        omega
      rw [PatchRequest.create, createIpatchIidRequest_eq bufferSize sid keyStr written reports, if_pos fits]
      rfl

/-- Entries with the same keys, and values of the same content. -/
def Alike (read written : List (PatchKey × CoreconfValueT)) : Prop :=
  List.Forall₂ (fun r w => r.1 = w.1 ∧ r.2.toTree = w.2.toTree) read written

theorem Alike.trees {read written : List (PatchKey × CoreconfValueT)} (alike : Alike read written) :
    entryTrees read = entryTrees written := by
  induction alike with
  | nil => rfl
  | cons same _ ih => rw [entryTrees, entryTrees, List.map_cons, List.map_cons, same.1, same.2, ← entryTrees,
      ← entryTrees, ih]

theorem patchKey?_ofPatchKey {key : PatchKey}
    (short : ∀ sid keyStr, key = .listInstance sid keyStr → keyStr.bytes.length ≤ 127) :
    (Item.ofPatchKey key).patchKey? = some key := by
  cases key with
  | sid sid => simp [Item.ofPatchKey, keyItem, Item.patchKey?]
  | listInstance sid keyStr =>
      have whole : keyBuffer keyStr.bytes = keyStr := keyBuffer_short (short sid keyStr rfl)
      simp [Item.ofPatchKey, keyItem, Item.patchKey?, whole]

theorem ofPatchKey_wellFormed {key : PatchKey}
    (object : ∀ sid keyStr, key = .listInstance sid keyStr → keyStr.bytes.length < 2 ^ 64) :
    (Item.ofPatchKey key).WellFormed ∧ (Item.ofPatchKey key).IsPatchKey := by
  have sidFormed : ∀ sid : UInt64, (keyItem sid).WellFormed :=
    fun sid => .uint (Width.least_fits sid.toNat_lt)
  cases key with
  | sid sid => exact ⟨sidFormed sid, .sid _ _⟩
  | listInstance sid keyStr =>
      refine ⟨.list trivial ?_, .listInstance _ _ _ _ _⟩
      rintro item (_ | ⟨_, _ | ⟨_, ⟨⟩⟩⟩)
      · exact sidFormed sid
      · exact .tstr (Width.least_fits (object sid keyStr rfl))

namespace PatchRequest.Limited

variable {request : PatchRequest}

theorem wellFormed (limited : request.Limited) :
    request.item.WellFormed ∧ ∀ pair ∈ request.pairs, pair.1.IsPatchKey := by
  have keys : ∀ entry ∈ request.entries,
      (Item.ofPatchKey entry.1).WellFormed ∧ (Item.ofPatchKey entry.1).IsPatchKey := by
    intro entry member
    refine ofPatchKey_wellFormed fun sid keyStr same => ?_
    have short := limited.keys entry member sid keyStr same
    omega
  have pairs : ∀ pair ∈ request.pairs, ∃ entry ∈ request.entries,
      pair = (Item.ofPatchKey entry.1, entry.2.toItem) := by
    intro pair member
    obtain ⟨entry, inside, rfl⟩ := List.mem_map.mp member
    exact ⟨entry, inside, rfl⟩
  refine ⟨.map trivial ?_ ?_, ?_⟩
  · intro pair member
    obtain ⟨entry, inside, rfl⟩ := pairs pair member
    exact (keys entry inside).1
  · intro pair member
    obtain ⟨entry, inside, rfl⟩ := pairs pair member
    exact (limited.values entry inside).wellFormed
  · intro pair member
    obtain ⟨entry, inside, rfl⟩ := pairs pair member
    exact (keys entry inside).2

/-- Every entry of a request is read back as an entry of the same content. -/
theorem read (limited : request.Limited) :
    (∀ pair ∈ request.pairs, (readPair? pair).isSome ∧ pair.2.Readable) ∧
      Alike (readEntries request.pairs) request.entries := by
  obtain ⟨-, keys, values⟩ := limited
  rw [pairs]
  generalize request.entries = entries at keys values ⊢
  induction entries with
  | nil => exact ⟨by simp, .nil⟩
  | cons entry rest ih =>
      obtain ⟨firstKey, otherKeys⟩ := List.forall_mem_cons.mp keys
      obtain ⟨first, others⟩ := List.forall_mem_cons.mp values
      obtain ⟨value, found, same⟩ := first.readable
      have depth := first.depth_le
      have here : readPair? (Item.ofPatchKey entry.1, entry.2.toItem) = some (entry.1, value) :=
        readPair?_eq_some.mpr ⟨patchKey?_ofPatchKey firstKey, found⟩
      obtain ⟨each, alike⟩ := ih otherKeys others
      constructor
      · rw [List.map_cons, List.forall_mem_cons]
        exact ⟨⟨by rw [here]; rfl, by rw [found]; rfl, depth⟩, each⟩
      · rw [List.map_cons, readEntries, here]
        exact .cons ⟨rfl, same⟩ alike

end PatchRequest.Limited

/-- The sequence of maps that a list of requests is. -/
theorem requests_sequence {requests : List PatchRequest} (limited : ∀ request ∈ requests, request.Limited) :
    PatchPayload (requests.flatMap fun request => request.item.encode)
        (requests.flatMap PatchRequest.pairs) ∧
      ∀ pair ∈ requests.flatMap PatchRequest.pairs, (readPair? pair).isSome ∧ pair.2.Readable := by
  induction requests with
  | nil => exact ⟨.nil, by simp⟩
  | cons request rest ih =>
      obtain ⟨first, others⟩ := List.forall_mem_cons.mp limited
      obtain ⟨sequence, each⟩ := ih others
      obtain ⟨wellFormed, keys⟩ := first.wellFormed
      refine ⟨.map wellFormed keys sequence, ?_⟩
      rw [List.flatMap_cons]
      exact fun pair member => (List.mem_append.mp member).elim (first.read.1 pair) (each pair)

theorem readEntries_append_all {entries later : List (Item × Item)}
    (every : ∀ entry ∈ entries, (readPair? entry).isSome) :
    readEntries (entries ++ later) = readEntries entries ++ readEntries later := by
  rw [readEntries_append, if_pos every]

theorem requests_alike {requests : List PatchRequest} (limited : ∀ request ∈ requests, request.Limited) :
    Alike (readEntries (requests.flatMap PatchRequest.pairs)) (requests.flatMap PatchRequest.entries) := by
  induction requests with
  | nil => exact .nil
  | cons request rest ih =>
      obtain ⟨first, others⟩ := List.forall_mem_cons.mp limited
      rw [List.flatMap_cons, List.flatMap_cons,
        readEntries_append_all fun pair member => (first.read.1 pair member).1]
      exact List.rel_append first.read.2 (ih others)

theorem applyEntry_keys {map map' : CoreconfHashMapT CoreconfValueT} (same : map.keys = map'.keys)
    (key : PatchKey) {val val' : CoreconfValueT} (null : isNull val = isNull val') :
    (applyEntry map key val).1.keys = (applyEntry map' key val').1.keys := by
  cases key with
  | sid sid =>
      simp only [applyEntry, applySidEntry, null]
      split
      · exact delete_keys same sid
      · exact (insert_keys same sid _ _).2
  | listInstance sid keyStr =>
      have unchanged : ∀ (map : CoreconfHashMapT CoreconfValueT) (val : CoreconfValueT),
          (applyEntry map (.listInstance sid keyStr) val).1.keys = map.keys := by
        intro map val
        simp only [applyEntry, applyInstanceEntry]
        split
        · exact storeThroughGet_keys _ _ _
        · rfl
      rw [unchanged, unchanged, same]

/-- Whether insertions find room does not depend on the values that are inserted. -/
theorem Inserts.alike {map map' : CoreconfHashMapT CoreconfValueT} (same : map.keys = map'.keys)
    {read written : List (PatchKey × CoreconfValueT)} (alike : Alike read written)
    (inserts : Inserts map' written) : Inserts map read := by
  induction alike generalizing map map' with
  | nil => trivial
  | @cons r w read written entry alike ih =>
      obtain ⟨key, val⟩ := r
      obtain ⟨key', val'⟩ := w
      obtain ⟨rfl, trees⟩ := entry
      have null : isNull val = isNull val' := by
        rw [Bool.eq_iff_iff, isNull_iff, isNull_iff]
        exact trees ▸ Iff.rfl
      obtain ⟨here, later⟩ := inserts
      refine ⟨?_, ih (applyEntry_keys same key null) later⟩
      cases key with
      | sid sid => exact fun value v => (insert_keys same sid v v).1.trans (here (null ▸ value) v)
      | listInstance sid keyStr => trivial

/-- Payloads applied one after the other, and the sum of their counts. -/
inductive AppliedInTurn : CoreconfHashMapT CoreconfValueT → List (List UInt8) → Int →
    CoreconfHashMapT CoreconfValueT → Prop
  | nil (target) : AppliedInTurn target [] 0 target
  | cons {target next last payload later n count}
      (applied : Returns applyPayload (.hashmap target, payload) (n, .hashmap next))
      (rest : AppliedInTurn next later count last) : AppliedInTurn target (payload :: later) (n + count) last

theorem applyEntries_count (target : CoreconfHashMapT CoreconfValueT) (count : Int)
    (entries : List (PatchKey × CoreconfValueT)) :
    applyEntries target count entries =
      ((applyEntries target 0 entries).1, count + (applyEntries target 0 entries).2) := by
  induction entries generalizing target count with
  | nil => simp
  | cons entry rest ih =>
      rw [applyEntries_cons, applyEntries_cons, ih, ih _ (applyCounted (target, 0) entry).2]
      simp only [applyCounted]
      split
      · exact Prod.ext rfl (by dsimp only; omega)
      · exact Prod.ext rfl (by dsimp only; omega)

/-- One payload after the other is all their entries in turn. -/
theorem requests_inTurn {requests : List PatchRequest} (limited : ∀ request ∈ requests, request.Limited)
    (object : ∀ request ∈ requests, request.item.encode.length < 2 ^ 63)
    (target : CoreconfHashMapT CoreconfValueT) :
    AppliedInTurn target (requests.map fun request => request.item.encode)
      (applyEntries target 0 (readEntries (requests.flatMap PatchRequest.pairs))).2
      (applyEntries target 0 (readEntries (requests.flatMap PatchRequest.pairs))).1 := by
  induction requests generalizing target with
  | nil => exact .nil target
  | cons request rest ih =>
      obtain ⟨first, others⟩ := List.forall_mem_cons.mp limited
      obtain ⟨here, later⟩ := List.forall_mem_cons.mp object
      have sequence := requests_sequence (show ∀ r ∈ [request], r.Limited by simpa using first)
      simp only [List.flatMap_cons, List.flatMap_nil, List.append_nil] at sequence
      obtain ⟨byte, bytes, head, -⟩ := Item.encode_first first.wellFormed.1
      have applied := applyPayload_run sequence.1 (by simp [head])
        (containersRead_of_readable fun pair member _ => (sequence.2 pair member).2) here target
      rw [List.flatMap_cons, List.map_cons,
        readEntries_append_all fun pair member => (first.read.1 pair member).1, applyEntries_append,
        applyEntries_count _ (applyEntries target 0 (readEntries request.pairs)).2]
      exact .cons applied (ih others later _)

/-- What the client meant, wherever no request was cut short by its buffer: the
finite map and the count of the entries in encoded order, at once or in turn. -/
theorem patch_meaning {target : CoreconfHashMapT CoreconfValueT} (valid : Valid (.hashmap target))
    (payload : Payload) {request : PatchRequest} {later : List PatchRequest}
    {payloads : List (List UInt8)} (concatenation : payload.bytes = payloads.flatten)
    (created : (request :: later).map PatchRequest.create = payloads.map some)
    (limited : ∀ r ∈ request :: later, r.Limited)
    (room : ∀ r ∈ request :: later, r.item.encode.length ≤ r.bufferSize)
    (inserts : Inserts target ((request :: later).flatMap PatchRequest.entries)) :
    ∃ n target', Returns applyPayload (.hashmap target, payload.bytes) (n, .hashmap target') ∧
      (target'.content, n) =
        patchAll target.content 0 (entryTrees ((request :: later).flatMap PatchRequest.entries)) ∧
      AppliedInTurn target payloads n target' := by
  have encoded : payloads = (request :: later).map fun r => r.item.encode := by
    have each : (request :: later).map PatchRequest.create =
        ((request :: later).map fun r => r.item.encode).map some := by
      rw [List.map_map]
      exact List.map_congr_left fun r member => PatchRequest.create_eq (limited r member) (room r member)
    exact List.map_injective_iff.mpr (Option.some_injective _) (created.symm.trans each)
  have bytes : payload.bytes = (request :: later).flatMap fun r => r.item.encode := by
    rw [concatenation, encoded, List.flatMap_def]
  obtain ⟨sequence, each⟩ := requests_sequence limited
  rw [← bytes] at sequence
  have alike := requests_alike limited
  have insertsRead := inserts.alike rfl alike
  have nonempty : payload.bytes ≠ [] := by
    obtain ⟨byte, rest, head, -⟩ := Item.encode_first (limited request List.mem_cons_self).wellFormed.1
    simp [bytes, head]
  have returned := applyPayload_run sequence nonempty
    (containersRead_of_readable fun pair member _ => (each pair member).2) payload.object target
  refine ⟨_, _, returned, ?_, ?_⟩
  · rw [applyEntries_meaning valid 0 (readEntries_valid _) insertsRead, alike.trees]
  · rw [encoded]
    refine requests_inTurn limited (fun r member => ?_) target
    have within := (List.sublist_flatten_of_mem
      (List.mem_map_of_mem (f := fun r => r.item.encode) member)).length_le
    have object := payload.object
    rw [bytes, List.flatMap_def] at object
    omega

/-- A request that sets SID 1 and one that deletes the instance "a" of SID 7. -/
private def setOne : PatchRequest :=
  .map 16 (insertCoreconfHashMap createCoreconfHashmap 1 (some (.uint8 5))).2

private def deleteInstance : PatchRequest := .listInstance 16 7 (CString.ofBuffer [0x61]) none

theorem patch_meaning_two :
    ∃ n target', Returns applyPayload (.hashmap createCoreconfHashmap,
        [0xBF, 0x01, 0x05, 0xFF, 0xBF, 0x9F, 0x07, 0x61, 0x61, 0xFF, 0xF6, 0xFF]) (n, .hashmap target') ∧
      (target'.content, n) = patchAll createCoreconfHashmap.content 0
        (entryTrees ([setOne, deleteInstance].flatMap PatchRequest.entries)) ∧
      AppliedInTurn createCoreconfHashmap
        [[0xBF, 0x01, 0x05, 0xFF], [0xBF, 0x9F, 0x07, 0x61, 0x61, 0xFF, 0xF6, 0xFF]] n target' := by
  refine patch_meaning CoreconfValueT.valid_createCoreconfHashmap
    ⟨[0xBF, 0x01, 0x05, 0xFF, 0xBF, 0x9F, 0x07, 0x61, 0x61, 0xFF, 0xF6, 0xFF], by decide⟩ rfl rfl ?_ ?_ ?_
  · rintro request (_ | ⟨_, _ | ⟨_, ⟨⟩⟩⟩)
    · refine ⟨?_, ?_, ?_⟩
      · rintro bufferSize patch same
        cases same
        exact fun empty => absurd empty (by decide)
      · rintro entry (_ | ⟨_, ⟨⟩⟩) sid keyStr same
        cases same
      · rintro entry (_ | ⟨_, ⟨⟩⟩)
        exact .leaf rfl (by simp)
    · refine ⟨fun bufferSize patch same => (by cases same), ?_, ?_⟩
      · rintro entry (_ | ⟨_, ⟨⟩⟩) sid keyStr same
        cases same
        decide
      · rintro entry (_ | ⟨_, ⟨⟩⟩)
        exact .leaf rfl (by simp)
  · rintro request (_ | ⟨_, _ | ⟨_, ⟨⟩⟩⟩)
    · decide
    · decide
  · exact ⟨fun _ _ => rfl, trivial, trivial⟩

/-- A nested map with a text of eight bytes. -/
private def nestedText : CoreconfValueT :=
  .hashmap (insertCoreconfHashMap createCoreconfHashmap 2
    (some (.string ⟨List.replicate 8 0x78, by decide⟩))).2

private def cutRequest : PatchRequest :=
  .map 6 (insertCoreconfHashMap createCoreconfHashmap 1 (some nestedText)).2

/-- A buffer of six bytes: the text of the nested map is left out, and what is sent
means an empty map. -/
theorem cut_request_loses_member :
    ∃ request payload n target', PatchRequest.Limited request ∧ request.create = some payload ∧
      Inserts createCoreconfHashmap request.entries ∧
      Returns applyPayload (.hashmap createCoreconfHashmap, payload) (n, .hashmap target') ∧
      target'.content ≠ (patchAll createCoreconfHashmap.content 0 (entryTrees request.entries)).1 := by
  refine ⟨cutRequest, [0xBF, 0x01, 0xBF, 0x02, 0xFF, 0xFF], 1,
    (insertCoreconfHashMap createCoreconfHashmap 1 (some (.hashmap createCoreconfHashmap))).2, ?_, rfl,
    ⟨fun _ _ => rfl, trivial⟩, ⟨6, rfl⟩, ?_⟩
  · refine ⟨?_, ?_, ?_⟩
    · rintro bufferSize patch same
      cases same
      exact fun empty => absurd empty (by decide)
    · rintro entry (_ | ⟨_, ⟨⟩⟩) sid keyStr same
      cases same
    · rintro entry (_ | ⟨_, ⟨⟩⟩)
      refine .hashmap ?_ ?_ ?_ ?_
      all_goals rw [show (insertCoreconfHashMap createCoreconfHashmap 2 (some (CoreconfValueT.string
        ⟨List.replicate 8 0x78, by decide⟩))).2.objects = [⟨2, some (.string
          ⟨List.replicate 8 0x78, by decide⟩)⟩] from rfl]
      · simp
      · decide
      · simp
      · rintro object (_ | ⟨_, ⟨⟩⟩) value same
        cases same
        exact .string (by decide)
  · rw [show (insertCoreconfHashMap createCoreconfHashmap 1 (some (CoreconfValueT.hashmap
        createCoreconfHashmap))).2.content = [(1, .map [])] from rfl,
      show (patchAll createCoreconfHashmap.content 0 (entryTrees cutRequest.entries)).1 =
        [(1, .map [(2, .str (List.replicate 8 0x78))])] from rfl]
    simp

end Coreconf
