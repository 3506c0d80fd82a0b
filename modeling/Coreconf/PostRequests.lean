import Coreconf.PatchRequests

set_option autoImplicit false

/- The payloads that create_post_items builds, and what parse_post_items reads from them. -/
namespace Coreconf

open Cbor (Item Framing Width)
open CoreconfValueT (Nests NoNull Reports)
open Fuel (Returns)

namespace PostItem

/-- The identifier of an item, as the key of a map. -/
def key (item : PostItem) : PatchKey :=
  match item.iid with
  | .sid => .sid item.sid
  | .sidStrKey strKey => .listInstance item.sid strKey

/-- The single-pair map that an item is meant to be; a NULL value stands for null. -/
def toItem (item : PostItem) : Item :=
  .map .indefinite [(Item.ofPatchKey item.key, (item.value.getD .null).toItem)]

/-- The item with the value that is decoded for its own. -/
def readBack (item : PostItem) : PostItem :=
  { item with value := (item.value.getD .null).toItem.value? }

/-- The same identifier with a value of the same content; NULL is read as null. -/
structure Same (read written : PostItem) : Prop where
  iid : read.iid = written.iid
  sid : read.sid = written.sid
  value : read.value.map CoreconfValueT.toTree = some (written.value.getD .null).toTree

end PostItem

/-- The sequence that the items are meant to be. -/
def postPayload (items : List PostItem) : List UInt8 := items.flatMap fun item => item.toItem.encode

theorem encodePostKey_eq (st : EncodeState) (item : PostItem) :
    encodePostKey st item = st.put (Item.ofPatchKey item.key).encode := by
  obtain ⟨iid, sid, value⟩ := item
  cases iid with
  | sid => exact zcborUint64Put_eq st sid
  | sidStrKey strKey =>
      simp only [encodePostKey, PostItem.key, zcborListStartEncode_eq, zcborListEndEncode_eq,
        zcborUint64Put_eq, zcborTstrEncode, strEncode_eq, Option.bind_eq_bind, EncodeState.put_bind,
        Item.ofPatchKey, Item.encode, Item.encodeItems, Framing.opening, Framing.closing,
        List.append_assoc, List.append_nil]
      rfl

theorem createPostItem_eq (bufferSize : Nat) {item : PostItem} (noNull : (item.value.getD .null).NoNull)
    (reports : Reports (item.value.getD .null)
      (bufferSize - (1 + (Item.ofPatchKey item.key).encode.length))) :
    createPostItem bufferSize item =
      if item.toItem.encode.length ≤ bufferSize then some item.toItem.encode else none := by
  rw [PostItem.toItem, ← singlePair_eq bufferSize _ noNull reports]
  simp only [createPostItem, zcborMapStartEncode_eq, zcborMapEndEncode_eq, encodePostKey_eq,
    Option.bind_eq_bind, EncodeState.put_bind_bind]
  rfl

/-- Where the items do not fit, the put without room is one whose failure is returned. -/
def ReportsItems : List PostItem → Nat → Prop
  | [], _ => True
  | item :: rest, room =>
      Reports (item.value.getD .null) (room - (1 + (Item.ofPatchKey item.key).encode.length)) ∧
        (item.toItem.encode.length ≤ room → ReportsItems rest (room - item.toItem.encode.length))

theorem createPostItemsFrom_eq {items : List PostItem}
    (noNull : ∀ item ∈ items, (item.value.getD .null).NoNull) {bufferSize : Nat}
    (reports : ReportsItems items bufferSize) :
    createPostItemsFrom bufferSize items =
      if (postPayload items).length ≤ bufferSize then some (postPayload items) else none := by
  induction items generalizing bufferSize with
  | nil => rfl
  | cons item rest ih =>
      obtain ⟨first, others⟩ := List.forall_mem_cons.mp noNull
      obtain ⟨here, later⟩ := reports
      have payload : postPayload (item :: rest) = item.toItem.encode ++ postPayload rest := List.flatMap_cons
      rw [createPostItemsFrom, createPostItem_eq bufferSize first here, payload, List.length_append]
      by_cases room : item.toItem.encode.length ≤ bufferSize
      · rw [if_pos room, Option.bind_eq_bind, Option.bind_some, ih others (later room)]
        by_cases more : (postPayload rest).length ≤ bufferSize - item.toItem.encode.length
        · rw [if_pos more, if_pos (by omega)]
          rfl
        · rw [if_neg more, if_neg (by omega)]
          rfl
      · rw [if_neg room, if_neg (by omega)]
        rfl

/-- The value of an item is part of its encoding. -/
theorem PostItem.value_length_le (item : PostItem) :
    1 + (Item.ofPatchKey item.key).encode.length + (item.value.getD .null).toItem.encode.length ≤
      item.toItem.encode.length := by
  rw [PostItem.toItem, Item.encode]
  simp only [Item.encodeEntries, Framing.opening, Framing.closing, List.length_append,
    List.length_singleton, List.length_nil]
  omega

theorem reportsItems_of_room {items : List PostItem} {room : Nat}
    (fits : (postPayload items).length ≤ room) : ReportsItems items room := by
  induction items generalizing room with
  | nil => trivial
  | cons item rest ih =>
      have payload : postPayload (item :: rest) = item.toItem.encode ++ postPayload rest := List.flatMap_cons
      rw [payload, List.length_append] at fits
      have value := item.value_length_le
      exact ⟨reports_of_room _ _ (by omega), fun _ => ih (by omega)⟩

/-- The text of an instance key is part of the encoding of the key. -/
theorem ofPatchKey_text_le (sid : UInt64) (keyStr : CString) :
    keyStr.bytes.length ≤ (Item.ofPatchKey (.listInstance sid keyStr)).encode.length := by
  simp only [Item.ofPatchKey, Item.encode, Item.encodeItems, Cbor.string, List.length_append]
  omega

/-- The key of an item is read back. -/
theorem decodePostKey_item {item : PostItem} (wellFormed : (Item.ofPatchKey item.key).WellFormed)
    {st : ZcborState} {rest : List UInt8}
    (payload : st.payload = (Item.ofPatchKey item.key).encode ++ rest) (left : st.elemCount ≠ 0)
    (room : st.backupList.length < st.numBackups) :
    decodePostKey st = some ((item.iid, item.sid), st.after rest) := by
  have major : majorTypeAt st.payload = some (Item.ofPatchKey item.key).majorType := by
    rw [payload, majorTypeAt_item wellFormed]
  obtain ⟨iid, sid, value⟩ := item
  cases iid with
  | sid =>
      have read : zcborUint64Decode st = some (UInt64.ofNat sid.toNat, st.after rest) :=
        zcborUint64Decode_item wellFormed payload left
      rw [UInt64.ofNat_toNat] at read
      have pint : majorTypeAt st.payload = some .pint := major
      rw [decodePostKey, pint]
      dsimp only
      rw [read, Option.map_some]
  | sidStrKey strKey =>
      obtain ⟨textFormed, inside, st₁, started, sidRead⟩ := arrayKey_opened wellFormed payload left room
      rw [UInt64.ofNat_toNat] at sidRead
      set text := Item.tstr (Width.least strKey.bytes.length) strKey.bytes
      set st₂ := st.atKeyText .indefinite (.uint (Width.least sid.toNat) sid.toNat) text rest
      have textRead : zcborTstrDecode st₂ = some (strKey.bytes, st₂.after (Framing.indefinite.closing ++ rest)) :=
        zcborTstrDecode_item textFormed rfl inside.left
      have ended : listMapEndDecode (st₂.after (Framing.indefinite.closing ++ rest)) =
          (true, st.after rest) := (inside.after (Framing.indefinite.closing ++ rest)).leave rfl rfl
      have list : majorTypeAt st.payload = some .list := major
      rw [decodePostKey, list]
      simp only [Option.bind_eq_bind, started, Option.bind_some, sidRead, textRead, zcborListEndDecode,
        ended, CString.ofBuffer_bytes]

/-- One round of parse_post_items: the item is appended and the rest of the payload is left. -/
theorem postItems_next {item : PostItem} (nests : (item.value.getD .null).Nests 9)
    (rest : List UInt8) (object : (item.toItem.encode ++ rest).length < 2 ^ 63)
    (read : List PostItem) :
    Returns postItems ⟨read, item.toItem.encode ++ rest⟩ (.next ⟨read ++ [item.readBack], rest⟩) := by
  have length := item.value_length_le
  rw [List.length_append] at object
  have keyFormed : (Item.ofPatchKey item.key).WellFormed := by
    refine (ofPatchKey_wellFormed fun sid keyStr same => ?_).1
    have text := ofPatchKey_text_le sid keyStr
    rw [← same] at text
    omega
  have formed : item.toItem.WellFormed := by
    refine .map trivial ?_ ?_
    · simpa using keyFormed
    · simpa using nests.wellFormed
  obtain ⟨value, found⟩ := nests.value_tree.1
  set tail := (item.value.getD .null).toItem.encode ++ ([Cbor.breakCode] ++ rest) with tail_eq
  set start := zcborNewDecodeState 12 (item.toItem.encode ++ rest) 1 with start_eq
  have payload : start.payload =
      Framing.indefinite.opening 5 1 ++ ((Item.ofPatchKey item.key).encode ++ tail) := by
    simp only [start_eq, tail_eq, zcborNewDecodeState, PostItem.toItem, Item.encode, Item.encodeEntries,
      Framing.closing, List.length_singleton, List.append_assoc, List.append_nil]
  have started := zcborMapStartDecode_opening payload trivial Nat.one_ne_zero
    (typeCheck_item formed (show start.payload = item.toItem.encode ++ rest from rfl) .map)
    (show 0 < 10 by decide) (by decide)
  set st := start.entered .indefinite (2 * 1) ((Item.ofPatchKey item.key).encode ++ tail) with st_eq
  have inside : Inside .indefinite 2 st := entered_inside (by decide)
  have keyed : decodePostKey st = some ((item.iid, item.sid), st.after tail) :=
    decodePostKey_item keyFormed rfl inside.left (show 1 < 10 by decide)
  have size := congrArg List.length payload
  have decoded : Decodes (st.after tail) 0 (some value, (st.after tail).after ([Cbor.breakCode] ++ rest)) := by
    have depth := nests.depth_le
    have levels := (item.value.getD .null).toItem.levels_le_depth
    have limit : CORECONF_MAX_DEPTH = 20 := rfl
    have large : ZCBOR_LARGE_ELEM_COUNT = 2 ^ 64 - 16 := by decide
    refine readsBack nests.wellFormed found ⟨rfl, (inside.after tail).left, ?_, ?_, ?_⟩
    · show _ + 1 ≤ 10
      omega
    · omega
    · show tail.length ≤ _
      simp only [start_eq, zcborNewDecodeState, List.length_append] at size
      omega
  have done := (inside.after tail).after ([Cbor.breakCode] ++ rest)
  have ended := done.leave (show _ = Framing.indefinite.closing ++ rest from rfl) rfl
  rw [postItems_returns_iff, if_neg (by
    obtain ⟨byte, bytes, head, -⟩ := Item.encode_first formed
    simp [head]), started]
  dsimp only
  rw [if_neg (inside.not_atEnd keyFormed rfl), keyed]
  refine ⟨some value, _, decoded, ?_⟩
  have shorter : ¬ rest.length ≥ (item.toItem.encode ++ rest).length := by
    rw [List.length_append]
    omega
  have same : item.readBack = ⟨item.iid, item.sid, some value⟩ := by
    rw [PostItem.readBack, found]
  rw [postItemStep, done.atEnd rfl, zcborMapEndDecode, ended, same]
  exact (if_neg shorter).symm

/-- The whole sequence, by induction over the items. -/
theorem postItems_run {items : List PostItem} (nests : ∀ item ∈ items, (item.value.getD .null).Nests 9)
    (object : (postPayload items).length < 2 ^ 63) (read : List PostItem) :
    Returns (Fuel.iterate postItems) ⟨read, postPayload items⟩ (some (read ++ items.map PostItem.readBack)) := by
  induction items generalizing read with
  | nil =>
      refine Fuel.iterate_done postItems_monotone ?_
      rw [postItems_returns_iff, if_pos (show postPayload [] = [] from rfl), List.map_nil, List.append_nil]
  | cons item rest ih =>
      obtain ⟨first, others⟩ := List.forall_mem_cons.mp nests
      have payload : postPayload (item :: rest) = item.toItem.encode ++ postPayload rest := List.flatMap_cons
      rw [payload] at object ⊢
      refine Fuel.iterate_next postItems_monotone (postItems_next first _ object read) ?_
      rw [List.length_append] at object
      have later := ih others (by omega) (read ++ [item.readBack])
      rwa [List.append_assoc, List.singleton_append] at later

theorem parsePostItems_returns_iff {data : List UInt8} (nonempty : data ≠ [])
    {result : Option (List PostItem)} :
    Returns parsePostItems data result ↔
      ∃ left, Returns (Fuel.iterate postItems) ⟨[], data⟩ left ∧
        result = left.bind fun items => if items = [] then none else some items := by
  simp only [Returns, parsePostItems, if_neg nonempty, Option.map_eq_some_iff]
  constructor
  · rintro ⟨fuel, left, looped, same⟩
    refine ⟨left, ⟨fuel, looped⟩, ?_⟩
    rw [← same]
    cases left <;> rfl
  · rintro ⟨left, ⟨fuel, looped⟩, rfl⟩
    refine ⟨fuel, left, looped, ?_⟩
    cases left <;> rfl

/-- What is parsed from the sequence of the items, and nothing else. -/
theorem parsePostItems_payload {items : List PostItem} (nonempty : items ≠ [])
    (nests : ∀ item ∈ items, (item.value.getD .null).Nests 9)
    (object : (postPayload items).length < 2 ^ 63) {result : Option (List PostItem)} :
    Returns parsePostItems (postPayload items) result ↔ result = some (items.map PostItem.readBack) := by
  have run := postItems_run nests object []
  rw [List.nil_append] at run
  have bytes : postPayload items ≠ [] := by
    intro empty
    rw [empty] at run
    have left := Returns.unique (Fuel.iterate_monotone postItems_monotone) run
      (Fuel.iterate_done postItems_monotone (postItems_returns_iff.mpr (by rw [if_pos rfl])))
    simp [nonempty] at left
  rw [parsePostItems_returns_iff bytes]
  constructor
  · rintro ⟨left, looped, rfl⟩
    rw [Returns.unique (Fuel.iterate_monotone postItems_monotone) looped run]
    simp [nonempty]
  · rintro rfl
    exact ⟨_, run, by simp [nonempty]⟩

/-- Whatever buffer is large enough for the items, what is written to it is parsed as
the same items. -/
def PostRoundTrip (create : Nat → Option (List UInt8)) (items : List PostItem) : Prop :=
  ∀ bufferSize, (postPayload items).length ≤ bufferSize →
    ∃ data read, create bufferSize = some data ∧ Returns parsePostItems data (some read) ∧
      List.Forall₂ PostItem.Same read items

theorem PostItem.readBack_same_iff {item : PostItem} (nests : (item.value.getD .null).Nests 9) :
    item.readBack.Same item ↔ (item.value.getD .null).toItem.KeepsTexts := by
  obtain ⟨value, found⟩ := nests.value_tree.1
  rw [← nests.readable_iff found]
  constructor
  · intro same
    have content := same.value
    rw [readBack, found] at content
    exact Option.some.inj content
  · intro content
    exact ⟨rfl, rfl, by rw [readBack, found, Option.map_some, content]⟩

/-- The items come back as they are where no text in a value is cut short. -/
theorem postRoundTrip_iff {create : Nat → Option (List UInt8)} {items : List PostItem}
    (nonempty : items ≠ []) (nests : ∀ item ∈ items, (item.value.getD .null).Nests 9)
    (object : (postPayload items).length < 2 ^ 63)
    (created : ∀ bufferSize, (postPayload items).length ≤ bufferSize →
      create bufferSize = some (postPayload items)) :
    PostRoundTrip create items ↔ ∀ item ∈ items, (item.value.getD .null).toItem.KeepsTexts := by
  have same : List.Forall₂ PostItem.Same (items.map PostItem.readBack) items ↔
      ∀ item ∈ items, (item.value.getD .null).toItem.KeepsTexts := by
    rw [List.forall₂_map_left_iff, List.forall₂_same]
    exact forall₂_congr fun item member => PostItem.readBack_same_iff (nests item member)
  rw [← same]
  constructor
  · intro roundTrip
    obtain ⟨data, read, written, parsed, alike⟩ := roundTrip _ le_rfl
    rw [created _ le_rfl] at written
    cases written
    cases (parsePostItems_payload nonempty nests object).mp parsed
    exact alike
  · intro alike bufferSize room
    exact ⟨_, _, created bufferSize room, (parsePostItems_payload nonempty nests object).mpr rfl, alike⟩

theorem createPostItems_room {items : List PostItem} (nonempty : items ≠ [])
    (nests : ∀ item ∈ items, (item.value.getD .null).Nests 9) {bufferSize : Nat}
    (room : (postPayload items).length ≤ bufferSize) :
    createPostItems bufferSize items = some (postPayload items) := by
  rw [createPostItems, if_neg nonempty,
    createPostItemsFrom_eq (fun item member => (nests item member).noNull) (reportsItems_of_room room),
    if_pos room]

private theorem createIpatchIidRequest_room (sid : UInt64) (strKey : CString)
    {value : Option CoreconfValueT} (nests : (value.getD .null).Nests 9) {bufferSize : Nat}
    (room : (postPayload [⟨.sidStrKey strKey, sid, value⟩]).length ≤ bufferSize) :
    createIpatchIidRequest bufferSize sid strKey value =
      some (postPayload [⟨.sidStrKey strKey, sid, value⟩]) := by
  have payload : postPayload [⟨.sidStrKey strKey, sid, value⟩] =
      (PostItem.toItem ⟨.sidStrKey strKey, sid, value⟩).encode := List.append_nil _
  rw [payload] at room ⊢
  have length := PostItem.value_length_le ⟨.sidStrKey strKey, sid, value⟩
  dsimp only [PostItem.key] at length
  rw [createIpatchIidRequest_eq bufferSize sid strKey nests.noNull (reports_of_room _ _ (by omega))]
  exact if_pos room

/-- Items with values of at most nine containers make the round trip, and so does the
request for one list instance, exactly where no text in a value is cut short. -/
theorem post_round_trip_iff {items : List PostItem} (nonempty : items ≠ [])
    (nests : ∀ item ∈ items, (item.value.getD .null).Nests 9)
    (object : (postPayload items).length < 2 ^ 63) :
    (PostRoundTrip (createPostItems · items) items ↔
      ∀ item ∈ items, (item.value.getD .null).toItem.KeepsTexts) ∧
    ∀ sid strKey value, items = [⟨.sidStrKey strKey, sid, value⟩] →
      (PostRoundTrip (createIpatchIidRequest · sid strKey value) items ↔
        (value.getD .null).toItem.KeepsTexts) := by
  refine ⟨postRoundTrip_iff nonempty nests object fun bufferSize => createPostItems_room nonempty nests, ?_⟩
  rintro sid strKey value rfl
  rw [postRoundTrip_iff nonempty nests object fun bufferSize =>
    createIpatchIidRequest_room sid strKey (nests _ (List.mem_singleton_self _)), List.forall_mem_singleton]

/-- The reset action on the server "a", with a time to reset at. -/
private def resetItem : PostItem :=
  ⟨.sidStrKey (CString.ofBuffer [0x61]), 60002, some (.hashmap (insertCoreconfHashMap createCoreconfHashmap 1
    (some (.string (CString.ofBuffer [0x32, 0x30])))).2)⟩

theorem post_round_trip_reset :
    (PostRoundTrip (createPostItems · [resetItem]) [resetItem] ↔
      ∀ item ∈ [resetItem], (item.value.getD .null).toItem.KeepsTexts) ∧
    ∀ sid strKey value, [resetItem] = [⟨.sidStrKey strKey, sid, value⟩] →
      (PostRoundTrip (createIpatchIidRequest · sid strKey value) [resetItem] ↔
        (value.getD .null).toItem.KeepsTexts) := by
  refine post_round_trip_iff (List.cons_ne_nil _ _) ?_ (by decide)
  rw [List.forall_mem_singleton]
  refine .hashmap ?_ ?_ ?_ ?_
  all_goals rw [insert_create_objects]
  · simp
  · decide
  · simp
  · rintro object (_ | ⟨_, ⟨⟩⟩) value same
    cases same
    refine .leaf rfl fun s same => ?_
    cases same
    decide

/-- An RPC with a text as its input. -/
private def textItem (s : CString) : PostItem := ⟨.sid, 1, some (.string s)⟩

theorem text_nests {s : CString} (object : s.bytes.length < 2 ^ 63) :
    ∀ item ∈ [(⟨.sid, 1, some (.string s)⟩ : PostItem)], (item.value.getD .null).Nests 9 := by
  rw [List.forall_mem_singleton]
  refine .leaf rfl fun s' same => ?_
  cases same
  exact object

/-- The precision of 2^32 bytes is 0, and the text is read as empty. -/
theorem text_lost {s : CString} (length : s.bytes.length = 2 ^ 32) {create : Nat → Option (List UInt8)}
    (created : ∀ bufferSize, (postPayload [⟨.sid, 1, some (.string s)⟩]).length ≤ bufferSize →
      create bufferSize = some (postPayload [⟨.sid, 1, some (.string s)⟩])) :
    ¬ PostRoundTrip create [⟨.sid, 1, some (.string s)⟩] := by
  have nests := text_nests (s := s) (by omega)
  have width : (Width.least (2 ^ 32)).length = 8 := by decide
  have object : (postPayload [⟨.sid, 1, some (.string s)⟩]).length < 2 ^ 63 := by
    simp only [postPayload, List.flatMap_cons, List.flatMap_nil, List.append_nil, PostItem.toItem,
      PostItem.key, Option.getD_some, CoreconfValueT.toItem, Item.ofPatchKey, keyItem, Item.encode,
      Item.encodeEntries, Cbor.string, Cbor.head_length, Framing.opening, Framing.closing,
      List.length_append, List.length_singleton, length, width]
    decide
  rw [postRoundTrip_iff (List.cons_ne_nil _ _) nests object created, List.forall_mem_singleton]
  intro keeps
  have kept : KeptLength s.bytes.length := keeps
  rw [length] at kept
  exact absurd kept (by decide)

private def longText : CString where
  bytes := List.replicate (2 ^ 32) 0x61
  noNul member := absurd (List.eq_of_mem_replicate member) (by decide)

private theorem longText_length : longText.bytes.length = 2 ^ 32 := List.length_replicate

theorem long_text_lost :
    [textItem longText] ≠ [] ∧ (∀ item ∈ [textItem longText], (item.value.getD .null).Nests 9) ∧
      ¬ PostRoundTrip (createPostItems · [textItem longText]) [textItem longText] :=
  have nests := text_nests (s := longText) (longText_length ▸ by decide)
  ⟨List.cons_ne_nil _ _, nests, text_lost longText_length fun _ => createPostItems_room (List.cons_ne_nil _ _) nests⟩

end Coreconf
