import Coreconf.Fetch
import Coreconf.PatchRequests
import Coreconf.ServerInvariant

set_option autoImplicit false

/- A list and its instances under patches: what an instance written under its key or
bound to the SID of the list leaves of the others. -/
namespace Coreconf

open Cbor (Item Framing Width)
open CoreconfValueT (Valid Nests)
open Fuel (Returns)

variable {target : CoreconfHashMapT CoreconfValueT}

/-- A payload of one map with one entry that is read. -/
theorem applyPayload_one {framing : Framing} {entry : Item × Item} {read : PatchKey × CoreconfValueT}
    (wellFormed : Item.WellFormed (.map framing [entry])) (isKey : entry.1.IsPatchKey)
    (readable : entry.2.Readable) (found : readPair? entry = some read) (payload : Payload)
    (encoded : payload.bytes = (Item.map framing [entry]).encode)
    (target : CoreconfHashMapT CoreconfValueT) :
    ∃ n, Returns applyPayload (.hashmap target, payload.bytes)
      (n, .hashmap (applyEntry target read.1 read.2).1) := by
  have returned := applyPayload_map wellFormed (by simpa using isKey) (by simpa using readable) payload
    encoded target
  rw [readEntries, found, readEntries] at returned
  exact ⟨_, returned⟩

/-- Two maps that hold the same string, each under a key of its own. -/
def Tree.SharesText (a b : Tree) : Prop := ∃ keyStr, a.holdsText keyStr ∧ b.holdsText keyStr

/-- The instance is in the list, and so are the former ones that share no string with it. -/
def AddsInstance (former : List Tree) (added : Tree) (list : Option Tree) : Prop :=
  ∃ elements, list = some (.list elements) ∧ added ∈ elements ∧
    ∀ other ∈ former, ¬ other.SharesText added → other ∈ elements

private theorem addsInstance_alone {former : List Tree} {added written : Tree} :
    AddsInstance former added (some (.list [written])) ↔
      written = added ∧ ∀ other ∈ former, ¬ other.SharesText added → other = added := by
  constructor
  · rintro ⟨elements, same, here, others⟩
    cases same
    cases List.mem_singleton.mp here
    exact ⟨rfl, fun other member apart => List.mem_singleton.mp (others other member apart)⟩
  · rintro ⟨rfl, others⟩
    exact ⟨_, rfl, List.mem_singleton.mpr rfl, fun other member apart =>
      List.mem_singleton.mpr (others other member apart)⟩

private theorem addsInstance_unchanged {former : List Tree} {added : Tree} :
    AddsInstance former added (some (.list former)) ↔ added ∈ former := by
  constructor
  · rintro ⟨elements, same, here, -⟩
    cases same
    exact here
  · intro here
    exact ⟨_, rfl, here, fun other member _ => member⟩

theorem present_of_get (inv : target.RepInv) {sid : UInt64} {value : CoreconfValueT}
    (found : getCoreconfHashMap target sid = some value) :
    ∃ object ∈ target.chain sid, object.key = sid := by
  have member := inv.get_eq_some.mp found
  exact ⟨⟨sid, some value⟩, (inv.mem_objects_iff ⟨sid, some value⟩).mp member, rfl⟩

/-- A map bound to the SID of a list is afterwards its only instance, if the insertion
is not refused. -/
theorem applySidEntry_list (inv : target.RepInv) {sid : UInt64} {elements : List CoreconfValueT}
    (found : getCoreconfHashMap target sid = some (.array elements))
    (map : CoreconfHashMapT CoreconfValueT) :
    getCoreconfHashMap (applySidEntry target sid (.hashmap map)) sid =
      some (.array (if target.Found sid then [.hashmap map] else elements)) := by
  have stored := insertCoreconfHashMap_present (present_of_get inv found)
    (some (.array (addToCoreconfArray [] (CoreconfValueT.hashmap map))))
  simp only [applySidEntry, isNull, found, Bool.false_eq_true, if_false]
  split
  · rename_i here
    rw [(inv.insert _ _).get_eq_some, inv.mem_insert (stored.mpr here)]
    exact Or.inl rfl
  · rename_i refused
    rw [insertCoreconfHashMap_refused fun inserted => refused (stored.mp inserted)]
    exact found

/-- What an iPATCH of a map under the SID of a list makes of the list. -/
private theorem patch_list (valid : Valid (.hashmap target)) {w : Width} {n : Nat}
    {elements : List CoreconfValueT}
    (found : getCoreconfHashMap target (UInt64.ofNat n) = some (.array elements)) (payload : Payload)
    {framing : Framing} {item : Item} (wellFormed : Item.WellFormed (.map framing [(.uint w n, item)]))
    (encoded : payload.bytes = (Item.map framing [(.uint w n, item)]).encode) (shallow : item.depth ≤ 5)
    {map : CoreconfHashMapT CoreconfValueT} (read : item.value? = some (.hashmap map)) :
    ∃ count target', Returns applyPayload (.hashmap target, payload.bytes) (count, .hashmap target') ∧
      (getCoreconfHashMap target' (UInt64.ofNat n)).map CoreconfValueT.toTree = some (.list
        (if target.Found (UInt64.ofNat n) then [(CoreconfValueT.hashmap map).toTree]
          else elements.map CoreconfValueT.toTree)) := by
  have pair : readPair? (.uint w n, item) = some (.sid (UInt64.ofNat n), .hashmap map) :=
    readPair?_eq_some.mpr ⟨rfl, read⟩
  obtain ⟨count, returned⟩ := applyPayload_one wellFormed (.sid w n) ⟨by rw [read]; rfl, shallow⟩ pair
    payload encoded target
  refine ⟨count, _, returned, ?_⟩
  have stored := applySidEntry_list valid.repInv found map
  simp only [applyEntry]
  rw [stored, Option.map_some, CoreconfHashMapT.toTree_array]
  split <;> rfl

/-- The map is read whole and the only instances that share no string with it are equal to it; or
the insertion is refused, and the map was one of them. -/
def Addable (target : CoreconfHashMapT CoreconfValueT) (sid : UInt64) (former : List Tree) (map : Item)
    (added : Tree) : Prop :=
  if target.Found sid then
    (map.KeepsTexts ∧ map.NulFree) ∧ ∀ other ∈ former, ¬ other.SharesText added → other = added
  else added ∈ former

/-- A map added under the SID of a list keeps the instances that share no string with it where it
is addable, and nowhere else, if it has no key twice. -/
theorem add_instance_iff (valid : Valid (.hashmap target)) {w : Width} {n : Nat}
    {elements : List CoreconfValueT}
    (found : getCoreconfHashMap target (UInt64.ofNat n) = some (.array elements)) (payload : Payload)
    {framing mapFraming : Framing} {members : List (Item × Item)}
    (wellFormed : Item.WellFormed (.map framing [(.uint w n, .map mapFraming members)]))
    (encoded : payload.bytes = (Item.map framing [(.uint w n, .map mapFraming members)]).encode)
    (readable : (Item.map mapFraming members).Readable) {added : Tree}
    (content : (Item.map mapFraming members).tree? = some added) :
    ∃ count target', Returns applyPayload (.hashmap target, payload.bytes) (count, .hashmap target') ∧
      (Addable target (UInt64.ofNat n) (elements.map CoreconfValueT.toTree) (.map mapFraming members) added →
        AddsInstance (elements.map CoreconfValueT.toTree) added
          ((getCoreconfHashMap target' (UInt64.ofNat n)).map CoreconfValueT.toTree)) ∧
      ((Item.map mapFraming members).DistinctKeys →
        AddsInstance (elements.map CoreconfValueT.toTree) added
          ((getCoreconfHashMap target' (UInt64.ofNat n)).map CoreconfValueT.toTree) →
        Addable target (UInt64.ofNat n) (elements.map CoreconfValueT.toTree) (.map mapFraming members) added) := by
  obtain ⟨value, read⟩ := Option.isSome_iff_exists.mp readable.1
  have formed : (Item.map mapFraming members).WellFormed := by
    cases wellFormed with
    | map fits keys values => exact values _ List.mem_cons_self
  obtain ⟨map, rfl⟩ : ∃ map, value = .hashmap map := by
    rw [Item.value?] at read
    split at read
    · cases read
    · obtain ⟨bindings, -, rfl⟩ := Option.map_eq_some_iff.mp read
      exact ⟨_, rfl⟩
  obtain ⟨count, target', returned, list⟩ := patch_list valid found payload wellFormed encoded readable.2 read
  have whole : (Item.map mapFraming members).KeepsTexts ∧ (Item.map mapFraming members).NulFree →
      (CoreconfValueT.hashmap map).toTree = added := fun survives =>
    Option.some.inj ((Item.tree?_of_keeps read formed survives.1 survives.2).symm.trans content)
  have survives (distinct : (Item.map mapFraming members).DistinctKeys)
      (same : (CoreconfValueT.hashmap map).toTree = added) :
      (Item.map mapFraming members).KeepsTexts ∧ (Item.map mapFraming members).NulFree :=
    (Item.tree?_iff_survives read formed distinct).mp (content.trans (congrArg some same.symm))
  refine ⟨count, target', returned, ?_⟩
  rw [list, Addable]
  split
  · rw [addsInstance_alone]
    exact ⟨And.imp_left whole, fun distinct => And.imp_left (survives distinct)⟩
  · exact ⟨addsInstance_unchanged.mpr, fun _ => addsInstance_unchanged.mp⟩

/-- The payload {5: {1: "b"}}. -/
private def addB : Item :=
  .map (.definite .immediate) [(.uint .immediate 5,
    .map (.definite .immediate) [(.uint .immediate 1, .tstr .immediate [0x62])])]

private theorem addB_wellFormed : addB.WellFormed := by
  refine .map (by decide) (fun entry member => ?_) fun entry member => ?_
  · cases List.mem_singleton.mp member
    exact .uint (by decide)
  · cases List.mem_singleton.mp member
    refine .map (by decide) (fun entry member => ?_) fun entry member => ?_
    · cases List.mem_singleton.mp member
      exact .uint (by decide)
    · cases List.mem_singleton.mp member
      exact .tstr (by decide)

/-- The first server of an empty list, as the client's demo adds it. -/
theorem add_first_instance :
    ∃ count target', Returns applyPayload
        (.hashmap (mapOf [(5, .array [])]), [0xA1, 0x05, 0xA1, 0x01, 0x61, 0x62]) (count, .hashmap target') ∧
      AddsInstance [] (.map [(1, .str [0x62])])
        ((getCoreconfHashMap target' 5).map CoreconfValueT.toTree) := by
  have valid : Valid (.hashmap (mapOf [(5, .array [])])) := mapOf_valid (by simpa using .array (by simp))
  obtain ⟨count, target', returned, adds⟩ := add_instance_iff valid (n := 5)
    (show _ = some (CoreconfValueT.array []) from rfl) ⟨[0xA1, 0x05, 0xA1, 0x01, 0x61, 0x62], by decide⟩
    addB_wellFormed rfl (by decide) rfl
  refine ⟨count, target', returned, adds.1 ?_⟩
  rw [Addable, if_pos (show (mapOf [(5, .array [])]).Found (UInt64.ofNat 5) by decide)]
  exact ⟨⟨⟨trivial, Or.inl (by decide), trivial⟩, trivial, by simp [Item.Each], trivial⟩, by simp⟩

/-- The list [{1: "a"}] loses its instance to {1: "b"}. -/
theorem other_instance_lost :
    ∃ count target', Returns applyPayload
        (.hashmap (mapOf [(5, .array [.hashmap (mapOf [(1, .string (CString.ofBuffer [0x61]))])])]),
          [0xA1, 0x05, 0xA1, 0x01, 0x61, 0x62]) (count, .hashmap target') ∧
      ¬ AddsInstance [.map [(1, .str [0x61])]] (.map [(1, .str [0x62])])
        ((getCoreconfHashMap target' 5).map CoreconfValueT.toTree) := by
  have valid : Valid (.hashmap (mapOf
      [(5, .array [.hashmap (mapOf [(1, .string (CString.ofBuffer [0x61]))])])])) :=
    mapOf_valid (by simpa using .array (by simpa using mapOf_valid (by simpa using .leaf rfl)))
  obtain ⟨count, target', returned, list⟩ := patch_list valid (n := 5) rfl
    ⟨[0xA1, 0x05, 0xA1, 0x01, 0x61, 0x62], by decide⟩ addB_wellFormed rfl (by decide) rfl
  refine ⟨count, target', returned, fun adds => ?_⟩
  rw [show (5 : UInt64) = UInt64.ofNat 5 from rfl, list, if_pos (by decide)] at adds
  have others := (addsInstance_alone.mp adds).2 _ (List.mem_singleton.mpr rfl)
  have apart : ¬ Tree.SharesText (.map [(1, .str [0x61])]) (.map [(1, .str [0x62])]) := by
    rintro ⟨keyStr, first, second⟩
    simp only [Tree.holdsText, List.any_cons, List.any_nil, Bool.or_false, beq_iff_eq] at first second
    rw [← first] at second
    cases second
  cases others apart

/-- An entry with an instance key updates the list with the value, or with nothing for null. -/
theorem applyListEntry_eq (elements : List CoreconfValueT) (keyStr : CString) (val : CoreconfValueT) :
    applyListEntry elements keyStr val =
      KeyedList.update holdsString elements (keyStr, if isNull val then none else some val) := by
  have any : (findListEntryByKey elements keyStr).isSome = elements.any (holdsString keyStr) :=
    List.findIdx?_isSome
  unfold applyListEntry
  split
  · rename_i idx found
    rw [found] at any
    split
    · exact (KeyedList.update_none_at found).symm
    · rw [KeyedList.update, ← any, if_pos Option.isSome_some]
      exact (KeyedList.replaceFirst_eq_set found).symm
  · rename_i found
    rw [found] at any
    split
    · rw [KeyedList.update, List.eraseP_eq_eraseIdx,
        show elements.findIdx? (holdsString keyStr) = none from found]
    · rw [KeyedList.update, ← any]
      rfl

theorem get_storeThroughGet (inv : target.RepInv) {sid : UInt64} {old : CoreconfValueT}
    (found : getCoreconfHashMap target sid = some old) (value : CoreconfValueT) :
    getCoreconfHashMap (storeThroughGet target sid value) sid = some value := by
  have present := inv.get_eq_some.mp found
  rw [(inv.storeThroughGet present value).get_eq_some, inv.mem_storeThroughGet present]
  exact Or.inl rfl

/-- The map that the request for one list instance is. -/
def instanceRequest (sid : UInt64) (keyStr : CString) (val : CoreconfValueT) : Item :=
  .map .indefinite [(Item.ofPatchKey (.listInstance sid keyStr), val.toItem)]

/-- {[sid, key]: null}, in any encoding. -/
inductive IsRemoval (sid : UInt64) (keyStr : CString) : Item → Prop
  | null {framing keyFraming w w'}
      (wellFormed : Item.WellFormed (.map framing
        [(.list keyFraming [.uint w sid.toNat, .tstr w' keyStr.bytes], .primitive .immediate 22)])) :
      IsRemoval sid keyStr (.map framing
        [(.list keyFraming [.uint w sid.toNat, .tstr w' keyStr.bytes], .primitive .immediate 22)])

/-- The list of a SID after a value was written under a key: both readers of the key find
the value, at one index, and elsewhere the list is as it was. -/
structure InstanceWritten (elements : List CoreconfValueT) (sid : UInt64) (keyStr : CString)
    (target' : CoreconfHashMapT CoreconfValueT) (elements' : List CoreconfValueT) (idx : Nat)
    (written : CoreconfValueT) : Prop where
  list : getCoreconfHashMap target' sid = some (.array elements')
  fetched : fetchValueByIid (.hashmap target') (.withStrKey sid keyStr) = some written
  served : fetchFindListEntry elements' keyStr = some idx
  selected : elements'[idx]? = some written
  others : ∀ i, i ≠ idx → elements'[i]? = elements[i]?
  grew : elements'.length = elements.length + if elements.any (holdsString keyStr) then 0 else 1

/-- The value comes back as it was written, and a removal takes it and nothing else away. -/
def ReadYourWrites (target : CoreconfHashMapT CoreconfValueT) (sid : UInt64)
    (elements : List CoreconfValueT) (keyStr : CString) (val : CoreconfValueT) : Prop :=
  ∀ bufferSize, (instanceRequest sid keyStr val).encode.length ≤ bufferSize →
    ∃ data n target' elements' idx written,
      createIpatchIidRequest bufferSize sid keyStr (some val) = some data ∧
      Returns applyPayload (.hashmap target, data) (n, .hashmap target') ∧
      InstanceWritten elements sid keyStr target' elements' idx written ∧
      written.toTree = val.toTree ∧
      ∀ removal, IsRemoval sid keyStr removal →
        ∃ n' target'', Returns applyPayload (.hashmap target', removal.encode) (n', .hashmap target'') ∧
          getCoreconfHashMap target'' sid = some (.array (elements'.eraseIdx idx))

/-- A value that holds the key is found under it once it is written there. -/
theorem applyEntry_written (inv : target.RepInv) {sid : UInt64} {elements : List CoreconfValueT}
    (found : getCoreconfHashMap target sid = some (.array elements)) {keyStr : CString}
    {val : CoreconfValueT} (holds : holdsString keyStr val) :
    ∃ elements' idx, InstanceWritten elements sid keyStr
      (applyEntry target (.listInstance sid keyStr) val).1 elements' idx val := by
  have notNull : isNull val = false := by
    cases val with
    | null => cases holds
    | _ => rfl
  obtain ⟨idx, first, here, others, length⟩ := KeyedList.update_some_at (l := elements) holds
  have list : getCoreconfHashMap (applyEntry target (.listInstance sid keyStr) val).1 sid =
      some (.array (KeyedList.update holdsString elements (keyStr, some val))) := by
    simp only [applyEntry, applyInstanceEntry, found, applyListEntry_eq, notNull, Bool.false_eq_true, if_false]
    exact get_storeThroughGet inv found _
  refine ⟨_, idx, list, ?_, first, here, others, length⟩
  simp only [fetchValueByIid, InstanceIdentifier.sid, list]
  exact KeyedList.find?_update holds

/-- The item of a map that holds a short string is read as a map that holds it. -/
theorem holdsString_read {nesting : Nat} {keyStr : CString} (short : keyStr.bytes.length ≤ 127)
    {val read : CoreconfValueT} (nests : val.Nests nesting) (holds : holdsString keyStr val)
    (found : val.toItem.value? = some read) : holdsString keyStr read := by
  cases val with
  | hashmap map =>
      have distinct := nests.distinctKeys.entries
      rw [CoreconfValueT.toItem, Item.value?] at found
      split at found
      · cases found
      rename_i few
      obtain ⟨members, readMembers, rfl⟩ := Option.map_eq_some_iff.mp found
      obtain ⟨object, member, here⟩ := List.any_eq_true.mp holds
      obtain ⟨key, value⟩ := object
      dsimp only at here
      split at here
      · rename_i s
        cases eq_of_beq here
        have entry : (keyItem key, CoreconfValueT.toItem (.string keyStr)) ∈ CoreconfValueT.mapItems map := by
          rw [CoreconfValueT.mapItems_eq]
          exact List.mem_flatMap.mpr ⟨_, member, List.mem_singleton.mpr rfl⟩
        obtain ⟨sid, value, -, read, inside⟩ := Item.mem_members? readMembers entry
        have kept : formatTextString keyStr.bytes = keyStr :=
          formatTextString_bytes keyStr.noNul (by omega)
        cases read
        rw [kept] at inside
        have count := Item.members?_length readMembers
        have stored := (mem_insertMembers repInv_create (Item.members?_distinct readMembers distinct)
          (by simp only [createCoreconfHashmap]; omega)).mpr (Or.inl ⟨_, inside, rfl⟩)
        exact List.any_eq_true.mpr ⟨_, stored, by simp⟩
      · cases here
  | _ => cases holds

private theorem IsRemoval.object {sid : UInt64} {keyStr : CString} (short : keyStr.bytes.length ≤ 127)
    {removal : Item} (isRemoval : IsRemoval sid keyStr removal) : removal.encode.length < 2 ^ 63 := by
  cases isRemoval with
  | null wellFormed =>
      rename_i framing keyFraming w w'
      have widths : ∀ w : Width, w.length ≤ 8 := by rintro (_ | _) <;> decide
      have opened : ∀ (framing : Framing) major count,
          (framing.opening major count).length + framing.closing.length ≤ 9 := by
        rintro (w | _) major count
        · have bound := widths w
          simp only [Framing.opening, Framing.closing, Cbor.head_length, List.length_nil]
          omega
        · exact (by decide : 2 ≤ 9)
      have outer := opened framing 5 1
      have inner := opened keyFraming 4 2
      have first := widths w
      have second := widths w'
      have null := widths .immediate
      simp only [Item.encode, Item.encodeEntries, Item.encodeItems, Cbor.string, Cbor.head_length,
        List.length_append, List.length_nil, List.length_cons, Nat.zero_add, Nat.reduceAdd]
      omega

/-- A removal takes the first instance with the key out of the list. -/
private theorem removal_returns (inv : target.RepInv) {sid : UInt64} {elements : List CoreconfValueT}
    (found : getCoreconfHashMap target sid = some (.array elements)) {keyStr : CString}
    (short : keyStr.bytes.length ≤ 127) {idx : Nat} (first : fetchFindListEntry elements keyStr = some idx)
    {removal : Item} (isRemoval : IsRemoval sid keyStr removal) :
    ∃ n target', Returns applyPayload (.hashmap target, removal.encode) (n, .hashmap target') ∧
      getCoreconfHashMap target' sid = some (.array (elements.eraseIdx idx)) := by
  have object := isRemoval.object short
  cases isRemoval with
  | null wellFormed =>
      rename_i framing keyFraming w w'
      have pair : readPair? (.list keyFraming [.uint w sid.toNat, .tstr w' keyStr.bytes],
          .primitive .immediate 22) = some (.listInstance sid keyStr, .null) := by
        refine readPair?_eq_some.mpr ⟨?_, rfl⟩
        rw [Item.patchKey?, UInt64.ofNat_toNat, keyBuffer_short short]
      obtain ⟨n, returned⟩ := applyPayload_one wellFormed (.listInstance ..) ⟨rfl, Nat.zero_le _⟩ pair
        ⟨_, object⟩ rfl target
      refine ⟨n, _, returned, ?_⟩
      simp only [applyEntry, applyInstanceEntry, found, applyListEntry_eq, isNull, if_true]
      rw [KeyedList.update_none_at first]
      exact get_storeThroughGet inv found _

/-- The request is created wherever it has room. -/
private theorem instanceRequest_created (sid : UInt64) (keyStr : CString) {val : CoreconfValueT}
    (noNull : val.NoNull) {bufferSize : Nat}
    (room : (instanceRequest sid keyStr val).encode.length ≤ bufferSize) :
    createIpatchIidRequest bufferSize sid keyStr (some val) =
      some (instanceRequest sid keyStr val).encode := by
  have parts : val.toItem.encode.length ≤
      bufferSize - (1 + (Item.ofPatchKey (.listInstance sid keyStr)).encode.length) := by
    rw [instanceRequest, Item.encode] at room
    simp only [Item.encodeEntries, Framing.opening, Framing.closing, List.length_append,
      List.length_singleton, List.length_nil] at room
    omega
  have whole := @createIpatchIidRequest_eq bufferSize sid keyStr (some val) noNull (reports_of_room _ _ parts)
  rw [whole]
  exact if_pos room

/-- The request writes the value that is read back from it. -/
private theorem instanceRequest_returns (inv : target.RepInv) {sid : UInt64}
    {elements : List CoreconfValueT} (found : getCoreconfHashMap target sid = some (.array elements))
    {keyStr : CString} (short : keyStr.bytes.length ≤ 127) {val read : CoreconfValueT}
    (nests : Nests 5 val) (holds : holdsString keyStr val)
    (object : (instanceRequest sid keyStr val).encode.length < 2 ^ 63)
    (foundRead : val.toItem.value? = some read) :
    ∃ n elements' idx, Returns applyPayload (.hashmap target, (instanceRequest sid keyStr val).encode)
        (n, .hashmap (applyEntry target (.listInstance sid keyStr) read).1) ∧
      InstanceWritten elements sid keyStr (applyEntry target (.listInstance sid keyStr) read).1
        elements' idx read := by
  obtain ⟨keyFormed, isKey⟩ := @ofPatchKey_wellFormed (.listInstance sid keyStr) fun _ _ same => by
    cases same
    omega
  have wellFormed : (instanceRequest sid keyStr val).WellFormed :=
    .map trivial (by simpa using keyFormed) (by simpa using nests.wellFormed)
  have keyRead := @patchKey?_ofPatchKey (.listInstance sid keyStr) fun _ _ same => by
    cases same
    exact short
  have pair : readPair? (Item.ofPatchKey (.listInstance sid keyStr), val.toItem) =
      some (.listInstance sid keyStr, read) := readPair?_eq_some.mpr ⟨keyRead, foundRead⟩
  obtain ⟨n, returned⟩ := applyPayload_one wellFormed isKey ⟨by rw [foundRead]; rfl, nests.depth_le⟩ pair
    ⟨_, object⟩ rfl target
  obtain ⟨elements', idx, written⟩ := applyEntry_written inv found (holdsString_read short nests holds foundRead)
  exact ⟨n, elements', idx, returned, written⟩

private theorem keepsTexts_of_reads (inv : target.RepInv) {sid : UInt64} {elements : List CoreconfValueT}
    (found : getCoreconfHashMap target sid = some (.array elements)) {keyStr : CString}
    (short : keyStr.bytes.length ≤ 127) {val : CoreconfValueT} (nests : Nests 5 val)
    (holds : holdsString keyStr val) (object : (instanceRequest sid keyStr val).encode.length < 2 ^ 63)
    (reads : ReadYourWrites target sid elements keyStr val) : val.toItem.KeepsTexts := by
  obtain ⟨read, foundRead⟩ := nests.value_tree.1
  obtain ⟨n, elements', idx, returned, written⟩ :=
    instanceRequest_returns inv found short nests holds object foundRead
  obtain ⟨data, n', target', elements'', idx', written', made, applied, here, same, -⟩ := reads _ (le_refl _)
  rw [instanceRequest_created sid keyStr nests.noNull (le_refl _)] at made
  cases made
  cases returned.unique applyPayload_monotone applied
  cases written.fetched.symm.trans here.fetched
  exact (nests.readable_iff foundRead).mp same

/-- What is written under a key of a list is read back under it and can be removed,
exactly where no text in it is cut short. -/
theorem read_your_writes_iff (valid : Valid (.hashmap target)) {sid : UInt64}
    {elements : List CoreconfValueT} (found : getCoreconfHashMap target sid = some (.array elements))
    {keyStr : CString} (short : keyStr.bytes.length ≤ 127) {map : CoreconfHashMapT CoreconfValueT}
    (nests : Nests 5 (.hashmap map)) (holds : holdsString keyStr (.hashmap map))
    (object : (instanceRequest sid keyStr (.hashmap map)).encode.length < 2 ^ 63) :
    ReadYourWrites target sid elements keyStr (.hashmap map) ↔
      (CoreconfValueT.hashmap map).toItem.KeepsTexts := by
  constructor
  · exact keepsTexts_of_reads valid.repInv found short nests holds object
  · intro keeps bufferSize room
    obtain ⟨read, foundRead⟩ := nests.value_tree.1
    obtain ⟨n, elements', idx, returned, written⟩ :=
      instanceRequest_returns valid.repInv found short nests holds object foundRead
    have inv := (applyEntry_valid valid (Item.value?_valid foundRead) (.listInstance sid keyStr)).repInv
    exact ⟨_, n, _, elements', idx, read, instanceRequest_created sid keyStr nests.noNull room, returned,
      written, (nests.readable_iff foundRead).mpr keeps,
      fun removal isRemoval => removal_returns inv written.list short written.served isRemoval⟩

/-- A server with the name "a" and an address. -/
private def server (address : CString) : CoreconfHashMapT CoreconfValueT :=
  mapOf [(1, .string (CString.ofBuffer [0x61])), (2, .string address)]

private theorem server_objects (address : CString) :
    (server address).objects =
      [⟨1, some (.string (CString.ofBuffer [0x61]))⟩, ⟨2, some (.string address)⟩] := by
  have first : hashKey (UInt64.toUInt32 1) = 0 := by decide
  have second : hashKey (UInt64.toUInt32 2) = 1 := by decide
  simp only [server, mapOf, List.foldl_cons, List.foldl_nil, insertCoreconfHashMap, CoreconfHashMapT.chain,
    CoreconfHashMapT.setChain, first, second, createCoreconfHashmap, CoreconfHashMapT.objects]
  rfl

private theorem server_nests {address : CString} (object : address.bytes.length < 2 ^ 63) :
    Nests 5 (.hashmap (server address)) := by
  refine .hashmap ?_ ?_ ?_ ?_
  all_goals rw [server_objects]
  · simp
  · exact (by decide : 2 ≤ Item.maxEntries)
  · simp
  · intro object member value same
    obtain rfl | rfl := List.mem_pair.mp member
    all_goals
      cases same
      refine .leaf rfl fun s same => ?_
      cases same
    · decide
    · exact object

private theorem server_holds (address : CString) :
    holdsString (CString.ofBuffer [0x61]) (.hashmap (server address)) := by
  rw [holdsString, server_objects]
  rfl

private theorem server_toItem (address : CString) :
    (CoreconfValueT.hashmap (server address)).toItem =
      .map .indefinite [(keyItem 1, CoreconfValueT.toItem (.string (CString.ofBuffer [0x61]))),
        (keyItem 2, CoreconfValueT.toItem (.string address))] := by
  change Item.map .indefinite (CoreconfValueT.mapItems (server address)) = _
  rw [CoreconfValueT.mapItems_eq, server_objects]
  rfl

private theorem empty_valid : Valid (.hashmap (mapOf [(5, .array [])])) :=
  mapOf_valid (by simpa using .array (by simp))

/-- The first server of a list. -/
theorem read_your_writes_first :
    ReadYourWrites (mapOf [(5, .array [])]) 5 [] (CString.ofBuffer [0x61])
      (.hashmap (server (CString.ofBuffer [0x62]))) := by
  refine (read_your_writes_iff empty_valid rfl (by decide) (server_nests (by decide)) (server_holds _)
    (by decide)).mpr ?_
  rw [server_toItem]
  exact ⟨trivial, Or.inl (by decide), Or.inl (by decide), trivial⟩

/-- An address of 2^32 bytes is read back as the empty text. -/
private theorem long_address {address : CString} (length : address.bytes.length = 2 ^ 32) :
    (instanceRequest 5 (CString.ofBuffer [0x61]) (.hashmap (server address))).encode.length < 2 ^ 63 ∧
      ¬ ReadYourWrites (mapOf [(5, .array [])]) 5 [] (CString.ofBuffer [0x61]) (.hashmap (server address)) := by
  have width : (Width.least (2 ^ 32)).length = 8 := by decide
  have object : (instanceRequest 5 (CString.ofBuffer [0x61]) (.hashmap (server address))).encode.length <
      2 ^ 63 := by
    rw [instanceRequest, server_toItem]
    simp only [CoreconfValueT.toItem, Item.ofPatchKey, keyItem, Item.encode,
      Item.encodeEntries, Item.encodeItems, Cbor.string, Cbor.head_length, Framing.opening, Framing.closing,
      List.length_append, List.length_singleton, List.length_nil, length, width]
    decide
  refine ⟨object, fun reads => ?_⟩
  have keeps := keepsTexts_of_reads empty_valid.repInv rfl (by decide) (server_nests (by omega))
    (server_holds _) object reads
  rw [server_toItem] at keeps
  have kept : KeptLength address.bytes.length :=
    Item.keepsTexts_map.mp keeps (keyItem 2, CoreconfValueT.toItem (.string address)) (by simp)
  rw [length] at kept
  exact absurd kept (by decide)

private def longAddress : CString where
  bytes := List.replicate (2 ^ 32) 0x62
  noNul member := absurd (List.eq_of_mem_replicate member) (by decide)

theorem long_address_lost :
    ∃ target sid elements keyStr map, Valid (.hashmap target) ∧
      getCoreconfHashMap target sid = some (.array elements) ∧ keyStr.bytes.length ≤ 127 ∧
      Nests 5 (.hashmap map) ∧ holdsString keyStr (.hashmap map) ∧
      (instanceRequest sid keyStr (.hashmap map)).encode.length < 2 ^ 63 ∧
      ¬ ReadYourWrites target sid elements keyStr (.hashmap map) := by
  have length : longAddress.bytes.length = 2 ^ 32 := List.length_replicate
  obtain ⟨object, lost⟩ := long_address length
  exact ⟨_, 5, [], CString.ofBuffer [0x61], server longAddress, empty_valid, rfl, by decide,
    server_nests (by omega), server_holds _, object, lost⟩

end Coreconf
