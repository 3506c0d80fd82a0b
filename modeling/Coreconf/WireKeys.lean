import Coreconf.FetchResponses
import Coreconf.InstanceKeys
import Coreconf.SkipGrammar

set_option autoImplicit false

/- Text keys of any length and of any bytes: which entry of an array apply_ipatch_raw and
the FETCH handler take for a key on the wire, of which their buffers keep 127 bytes. -/
namespace Coreconf

open Cbor (Item Framing Width)
open Fuel (Returns)

/-- The texts with these bytes, in one piece or in chunks. -/
inductive CarriesText (k : List UInt8) : Item → Prop
  | whole (w) : CarriesText k (.tstr w k)
  | chunked (chunks) (joined : chunks.flatMap Prod.snd = k) : CarriesText k (.tstrChunks chunks)

/-- A well-formed identifier [sid, k], in any encoding. -/
structure WireKey where
  framing : Framing
  width : Width
  sid : UInt64
  text : Item
  k : List UInt8
  carries : CarriesText k text
  wellFormed : Item.WellFormed (.list framing [.uint width sid.toNat, text])

namespace WireKey

def toItem (key : WireKey) : Item := .list key.framing [.uint key.width key.sid.toNat, key.text]

/-- What a reader keeps of the key; a text in chunks is not read. -/
def kept (key : WireKey) : Option CString :=
  match key.text with
  | .tstr _ bytes => some (keyBuffer bytes)
  | _ => none

theorem isPatchKey (key : WireKey) : key.toItem.IsPatchKey := by
  obtain ⟨framing, width, sid, text, k, carries, wellFormed⟩ := key
  cases carries with
  | whole w => exact .listInstance _ _ _ _ _
  | chunked chunks joined => exact .chunkedInstance _ _ _ _

theorem patchKey?_eq (key : WireKey) : key.toItem.patchKey? = key.kept.map (.listInstance key.sid) := by
  obtain ⟨framing, width, sid, text, k, carries, wellFormed⟩ := key
  cases carries with
  | whole w => simp [toItem, Item.patchKey?, kept, UInt64.ofNat_toNat]
  | chunked chunks joined => rfl

theorem kept_eq (key : WireKey) {kept : CString} (read : key.kept = some kept) : kept = keyBuffer key.k := by
  obtain ⟨framing, width, sid, text, k, carries, wellFormed⟩ := key
  cases carries with
  | whole w => exact (Option.some.inj read).symm
  | chunked chunks joined => cases read

/-- The FETCH handler goes on behind the key, or the request ends there. -/
theorem parseFetchIids_eq (key : WireKey) (n : Nat) (rest : List UInt8) :
    parseFetchIids (n + 1) (key.toItem.encode ++ rest) =
      key.kept.elim [] fun kept => .list key.sid kept :: parseFetchIids n rest := by
  obtain ⟨framing, width, sid, text, k, carries, wellFormed⟩ := key
  cases carries with
  | whole w => exact parseFetchIids_instance wellFormed n rest
  | chunked chunks joined => exact parseFetchIids_chunked wellFormed n rest

end WireKey

/-- An entry with a string that is the whole key. -/
def holdsWhole (k : List UInt8) : CoreconfValueT → Bool
  | .hashmap map => map.objects.any fun object =>
      match object.value with
      | some (.string s) => s.bytes == k
      | _ => false
  | _ => false

theorem holdsWhole_bytes (k : CString) : holdsWhole k.bytes = holdsString k := by
  have same : ∀ s : CString, (s.bytes == k.bytes) = (s == k) := by
    intro s
    rw [Bool.eq_iff_iff, beq_iff_eq, beq_iff_eq]
    cases s
    cases k
    simp
  funext value
  cases value with
  | hashmap map =>
      refine congrArg map.objects.any (funext fun object => ?_)
      obtain ⟨key, held⟩ := object
      cases held with
      | none => rfl
      | some held =>
          cases held with
          | string s => exact same s
          | _ => rfl
  | _ => rfl

/-- The array after an entry of a patch that selects this index, or none. -/
def updateSelected (elements : List CoreconfValueT) (idx : Option Nat) (val : CoreconfValueT) :
    List CoreconfValueT :=
  match idx with
  | some i => if isNull val then removeArrayEntry elements i else elements.set i val
  | none => if isNull val then elements else addToCoreconfArray elements val

/-- The response to a request for one list entry. -/
def instanceResponse (sid : UInt64) (entry : Option CoreconfValueT) : List UInt8 :=
  let enc := zcborNewEncodeState BUFFER_SIZE
  let enc := (putResult enc (zcborMapStartEncode enc)).2
  let enc := encodeInstance enc sid entry
  let enc := (putResult enc (zcborMapEndEncode enc)).2
  enc.payload

/-- The key selects this index of the array, or none: at every entry of a patch, in a patch of one
entry, at every identifier of a FETCH, and in a FETCH of one. -/
structure Selects (target : CoreconfHashMapT CoreconfValueT) (elements : List CoreconfValueT) (key : WireKey)
    (idx : Option Nat) : Prop where
  patchStep : ∀ loop rest loop', loop.target = target → loop.st.payload = key.toItem.encode ++ rest →
    Returns patchEntries loop (.next loop') →
      ∃ val, Decodes (decodePatchKey loop.st).2 0 (some val, loop'.st) ∧
        getCoreconfHashMap loop'.target key.sid = some (.array (updateSelected elements idx val))
  patched : ∀ (payload : Payload) framing value val, Item.WellFormed (.map framing [(key.toItem, value)]) →
    payload.bytes = (Item.map framing [(key.toItem, value)]).encode → value.Readable →
      value.value? = some val → ∃ n target',
        Returns applyPayload (.hashmap target, payload.bytes) (n, .hashmap target') ∧
        (getCoreconfHashMap target' key.sid = some (.array (updateSelected elements idx val)) ∨
          idx = none ∧ getCoreconfHashMap target' key.sid = some (.array elements))
  fetchStep : ∀ n rest iid iids, parseFetchIids (n + 1) (key.toItem.encode ++ rest) = iid :: iids →
    ∀ st, encodeFetchIid target st iid = encodeInstance st key.sid (idx.bind (elements[·]?))
  fetched :
    (handleFetch ⟨some (.hashmap target), true⟩ ⟨some CF_YANG_IDENTIFIERS, key.toItem.encode⟩).response =
        ⟨.content, some CF_YANG_INSTANCES, instanceResponse key.sid (idx.bind (elements[·]?))⟩ ∨
      idx = none ∧ (handleFetch ⟨some (.hashmap target), true⟩
        ⟨some CF_YANG_IDENTIFIERS, key.toItem.encode⟩).response.code.isError

/-- What is deleted, replaced or returned holds the whole key, and an entry that holds it is
not missed. -/
def ComparedExactly (target : CoreconfHashMapT CoreconfValueT) (elements : List CoreconfValueT)
    (key : WireKey) : Prop :=
  ∃ idx, Selects target elements key idx ∧
    (∀ i, idx = some i → ∃ entry, elements[i]? = some entry ∧ holdsWhole key.k entry) ∧
    ((∃ entry ∈ elements, holdsWhole key.k entry) → ∃ i, idx = some i)

/-- The first entry that holds what is kept of the key holds all of it, and where there is none,
no entry holds all of it. -/
def FirstHoldsWhole (elements : List CoreconfValueT) (key : WireKey) : Prop :=
  match key.kept.bind fun kept => elements.find? (holdsString kept) with
  | some entry => holdsWhole key.k entry
  | none => ∀ entry ∈ elements, ¬ holdsWhole key.k entry

variable {target : CoreconfHashMapT CoreconfValueT} {elements : List CoreconfValueT} {key : WireKey}

theorem get_applyEntry_list (found : getCoreconfHashMap target key.sid = some (.array elements))
    (keyStr : CString) (val : CoreconfValueT) :
    getCoreconfHashMap (applyEntry target (.listInstance key.sid keyStr) val).1 key.sid =
      some (.array (updateSelected elements (elements.findIdx? (holdsString keyStr)) val)) := by
  simp only [applyEntry, applyInstanceEntry, found]
  exact get_storeThroughGet_of_get found _

/-- The entry that the key selects, if it is read. -/
def WireKey.selected (key : WireKey) (elements : List CoreconfValueT) : Option Nat :=
  key.kept.bind fun kept => elements.findIdx? (holdsString kept)

theorem getElem?_findIdx?_bind (elements : List CoreconfValueT) (keyStr : CString) :
    (elements.findIdx? (holdsString keyStr)).bind (elements[·]?) = elements.find? (holdsString keyStr) :=
  List.find?_eq_bind_findIdx?_getElem?.symm

/-- A step of the patch loop that goes on has read the key, in any state. -/
theorem WireKey.step_read {loop loop' : PatchLoop} {rest : List UInt8}
    (payload : loop.st.payload = key.toItem.encode ++ rest) (again : Returns patchEntries loop (.next loop')) :
    ∃ kept val, key.kept = some kept ∧ Decodes (decodePatchKey loop.st).2 0 (some val, loop'.st) ∧
      loop'.target = (applyEntry loop.target (.listInstance key.sid kept) val).1 := by
  rw [patchEntries_returns_iff] at again
  split at again
  · cases again
  · rcases keyed : decodePatchKey loop.st with ⟨_ | read, st⟩
    · rw [keyed] at again
      cases again
    · rw [keyed] at again
      obtain ⟨_ | val, st', decoded, same⟩ := again
      · cases same
      · have entered : ∃ st₁, zcborListStartDecode loop.st = some st₁ := by
          have major : majorTypeAt loop.st.payload = some .list := by
            rw [payload, majorTypeAt_item (show key.toItem.WellFormed from key.wellFormed)]
            rfl
          simp only [decodePatchKey, major] at keyed
          split at keyed
          · cases keyed
          · exact ⟨_, by assumption⟩
        obtain ⟨st₁, started⟩ := entered
        obtain ⟨left, room, -⟩ := listMapStartDecode_entered started
        have readKey := decodePatchKey_item (show key.toItem.WellFormed from key.wellFormed) key.isPatchKey
          payload left room
        rw [key.patchKey?_eq] at readKey
        cases found : key.kept with
        | none =>
            rw [found] at readKey
            rw [keyed] at readKey
            cases readKey.1
        | some kept =>
            rw [found] at readKey
            rw [Option.map_some] at readKey
            dsimp only at readKey
            rw [keyed] at readKey
            cases readKey
            cases same
            exact ⟨kept, val, rfl, decoded, rfl⟩

/-- The FETCH of an identifier whose key is not read is an error. -/
theorem handleFetch_unread (target : CoreconfHashMapT CoreconfValueT) (read : key.kept = none) :
    (handleFetch ⟨some (.hashmap target), true⟩
      ⟨some CF_YANG_IDENTIFIERS, key.toItem.encode⟩).response.code.isError := by
  have parsed := key.parseFetchIids_eq 63 []
  rw [List.append_nil, read] at parsed
  rcases handleFetch_cases ⟨some (.hashmap target), true⟩ ⟨some CF_YANG_IDENTIFIERS, key.toItem.encode⟩ with
    accepted | refused
  · exact absurd parsed accepted.1.2
  · exact refused.2

/-- Any other is answered with the entry that holds what is kept of its key. -/
theorem handleFetch_kept (found : getCoreconfHashMap target key.sid = some (.array elements)) {kept : CString}
    (read : key.kept = some kept) :
    (handleFetch ⟨some (.hashmap target), true⟩ ⟨some CF_YANG_IDENTIFIERS, key.toItem.encode⟩).response =
      ⟨.content, some CF_YANG_INSTANCES, instanceResponse key.sid (elements.find? (holdsString kept))⟩ := by
  have nonempty : key.toItem.encode ≠ [] := Item.encode_ne_nil key.wellFormed
  have parsed : parseFetchIids 64 key.toItem.encode = [.list key.sid kept] := by
    have one := key.parseFetchIids_eq 63 []
    rwa [List.append_nil, read] at one
  have current : (⟨some (.hashmap target), true⟩ : ServerState).current = some (.hashmap target) := rfl
  have format : getContentFormat ⟨some CF_YANG_IDENTIFIERS, key.toItem.encode⟩ = CF_YANG_IDENTIFIERS := rfl
  rw [handleFetch, if_neg (not_not.mpr format), if_neg nonempty, current]
  simp only [parsed, List.foldl_cons, List.foldl_nil, encodeFetchIid_list found, instanceResponse]

theorem selects_kept (found : getCoreconfHashMap target key.sid = some (.array elements)) :
    Selects target elements key (key.selected elements) where
  patchStep loop rest loop' start payload again := by
    obtain ⟨kept, val, read, decoded, applied⟩ := key.step_read payload again
    refine ⟨val, decoded, ?_⟩
    rw [applied, start, get_applyEntry_list found, WireKey.selected, read, Option.bind_some]
  patched payload framing value val wellFormed bytes readable read := by
    have sequence : PatchPayload payload.bytes [(key.toItem, value)] := by
      rw [bytes]
      exact .one wellFormed (List.forall_mem_singleton.mpr key.isPatchKey)
    have nonempty : payload.bytes ≠ [] := by
      rw [bytes]
      exact Item.encode_ne_nil wellFormed
    have run := applyPayload_run sequence nonempty ⟨fun _ _ => readable, fun _ => trivial⟩ payload.object target
    refine ⟨_, _, run, ?_⟩
    rw [readEntries, readPair?, key.patchKey?_eq, read, WireKey.selected]
    cases key.kept with
    | none => exact Or.inr ⟨rfl, found⟩
    | some kept => exact Or.inl (get_applyEntry_list found kept val)
  fetchStep n rest iid iids parsed st := by
    rw [key.parseFetchIids_eq, WireKey.selected] at *
    cases kept : key.kept with
    | none =>
        rw [kept] at parsed
        cases parsed
    | some keyStr =>
        rw [kept] at parsed
        cases parsed
        rw [encodeFetchIid_list found, Option.bind_some, getElem?_findIdx?_bind]
  fetched := by
    rw [WireKey.selected]
    cases read : key.kept with
    | none => exact Or.inr ⟨rfl, handleFetch_unread target read⟩
    | some kept =>
        refine Or.inl ?_
        rw [handleFetch_kept found read, Option.bind_some, getElem?_findIdx?_bind]

theorem updateSelected_null {idx jdx : Option Nat}
    (same : updateSelected elements idx .null = updateSelected elements jdx .null) :
    idx.bind (elements[·]?) = jdx.bind (elements[·]?) := by
  have erased : ∀ idx, updateSelected elements idx .null = elements.eraseIdx (idx.getD elements.length) := by
    intro idx
    cases idx with
    | none => exact (List.eraseIdx_of_length_le (Nat.le_refl _)).symm
    | some i => rfl
  have selected : ∀ idx : Option Nat, idx.bind (elements[·]?) = elements[idx.getD elements.length]? := by
    intro idx
    cases idx with
    | none => exact (List.getElem?_eq_none (Nat.le_refl _)).symm
    | some i => rfl
  rw [erased, erased] at same
  rw [selected, selected]
  exact KeyedList.getElem?_eq_of_eraseIdx_eq same

theorem removal_step (found : getCoreconfHashMap target key.sid = some (.array elements)) {kept : CString}
    (read : key.kept = some kept) :
    ∃ loop loop', loop.target = target ∧ loop.st.payload = key.toItem.encode ++ [0xF6] ∧
      Returns patchEntries loop (.next loop') ∧
      Decodes (decodePatchKey loop.st).2 0 (some .null, loop'.st) ∧
      getCoreconfHashMap loop'.target key.sid =
        some (.array (updateSelected elements (elements.findIdx? (holdsString kept)) .null)) := by
  set st : ZcborState := ⟨key.toItem.encode ++ [0xF6], 2, false, [], 6⟩
  have readKey := decodePatchKey_item (show key.toItem.WellFormed from key.wellFormed) key.isPatchKey
    (show st.payload = key.toItem.encode ++ [0xF6] from rfl) two_ne_zero (show 0 < 6 by decide)
  rw [key.patchKey?_eq, read, Option.map_some] at readKey
  dsimp only at readKey
  have null : (Item.primitive .immediate 22).WellFormed := .primitive (by decide) (by decide)
  have decoded : Decodes (st.after [0xF6]) 0 (some .null, (st.after [0xF6]).after []) :=
    decodes_scalar null rfl 0 rfl one_ne_zero (Nat.zero_le _)
  refine ⟨⟨target, 0, st⟩, ⟨(applyEntry target (.listInstance key.sid kept) .null).1, 1,
    (st.after [0xF6]).after []⟩, rfl, rfl, ?_, ?_, get_applyEntry_list found kept .null⟩
  · rw [patchEntries_returns_iff, if_neg (show ¬ zcborArrayAtEnd st from Bool.false_ne_true), readKey]
    refine ⟨some .null, _, decoded, ?_⟩
    simp only [patchEntryStep, applyEntry, applyInstanceEntry, found]
    rfl
  · rw [readKey]
    exact decoded

theorem Selects.entry {idx : Option Nat} (selects : Selects target elements key idx)
    (found : getCoreconfHashMap target key.sid = some (.array elements)) {kept : CString}
    (read : key.kept = some kept) :
    idx.bind (elements[·]?) = elements.find? (holdsString kept) := by
  obtain ⟨loop, loop', start, payload, again, decoded, removed⟩ := removal_step found read
  obtain ⟨val, decoded', selected⟩ := selects.patchStep loop _ loop' start payload again
  cases decoded.unique decoded'
  rw [selected, Option.some.injEq, CoreconfValueT.array.injEq] at removed
  rw [updateSelected_null removed, getElem?_findIdx?_bind]

theorem Selects.unread {idx : Option Nat} (selects : Selects target elements key idx) (read : key.kept = none) :
    idx = none := by
  rcases selects.fetched with answered | refused
  · have error := handleFetch_unread target read
    rw [answered] at error
    cases error
  · exact refused.1

theorem WireKey.selected_bind (key : WireKey) (elements : List CoreconfValueT) :
    (key.selected elements).bind (elements[·]?) =
      key.kept.bind fun kept => elements.find? (holdsString kept) := by
  rw [selected]
  cases key.kept with
  | none => rfl
  | some kept => exact getElem?_findIdx?_bind elements kept

theorem comparedExactly_of_first (found : getCoreconfHashMap target key.sid = some (.array elements))
    (first : FirstHoldsWhole elements key) : ComparedExactly target elements key := by
  rw [FirstHoldsWhole, ← key.selected_bind] at first
  refine ⟨key.selected elements, selects_kept found, fun i selected => ?_, ?_⟩
  · obtain ⟨kept, -, index⟩ := Option.bind_eq_some_iff.mp (show key.kept.bind _ = some i from selected)
    obtain ⟨within, -⟩ := List.findIdx?_eq_some_iff_getElem.mp index
    have there : elements[i]? = some elements[i] := List.getElem?_eq_getElem within
    rw [selected, Option.bind_some, there] at first
    exact ⟨_, there, first⟩
  · rintro ⟨entry, member, holds⟩
    cases selected : key.selected elements with
    | none =>
        rw [selected, Option.bind_none] at first
        exact absurd holds (first entry member)
    | some i => exact ⟨i, rfl⟩

theorem first_of_comparedExactly (found : getCoreconfHashMap target key.sid = some (.array elements))
    (exactly : ComparedExactly target elements key) : FirstHoldsWhole elements key := by
  obtain ⟨idx, selects, sound, complete⟩ := exactly
  have none_selected : idx.bind (elements[·]?) = none → ∀ entry ∈ elements, ¬ holdsWhole key.k entry := by
    intro unselected entry member holds
    obtain ⟨i, rfl⟩ := complete ⟨entry, member, holds⟩
    obtain ⟨_, there, -⟩ := sound i rfl
    rw [Option.bind_some, there] at unselected
    cases unselected
  rw [FirstHoldsWhole]
  cases read : key.kept with
  | none => exact none_selected (by rw [selects.unread read]; rfl)
  | some kept =>
      have entry := selects.entry found read
      rw [Option.bind_some]
      cases selected : elements.find? (holdsString kept) with
      | none => exact none_selected (entry.trans selected)
      | some held =>
          obtain ⟨i, rfl, there⟩ := Option.bind_eq_some_iff.mp (entry.trans selected)
          obtain ⟨other, there', holds⟩ := sound i rfl
          rw [there] at there'
          cases there'
          exact holds

/-- A key in one piece of at most 127 bytes and without a NUL. -/
def WireKey.FitsBuffer (key : WireKey) : Prop :=
  key.kept.isSome ∧ (0 : UInt8) ∉ key.k ∧ key.k.length ≤ 127

/-- Such a key is kept as it is. -/
theorem WireKey.FitsBuffer.firstHoldsWhole (fits : key.FitsBuffer) (elements : List CoreconfValueT) :
    FirstHoldsWhole elements key := by
  obtain ⟨kept, read⟩ := Option.isSome_iff_exists.mp fits.1
  have whole : kept.bytes = key.k := by
    rw [key.kept_eq read]
    exact congrArg CString.bytes (@keyBuffer_short ⟨key.k, fits.2.1⟩ fits.2.2)
  have same : holdsString kept = holdsWhole key.k := by rw [← whole, holdsWhole_bytes]
  rw [FirstHoldsWhole, read, Option.bind_some, same]
  cases found : elements.find? (holdsWhole key.k) with
  | none => exact fun entry member => List.find?_eq_none.mp found entry member
  | some entry => exact List.find?_some found

/-- The requests compare the whole key exactly where it fits the key buffer, or where its cut finds no
other entry than the whole key does. -/
theorem instance_keys_exact_iff (found : getCoreconfHashMap target key.sid = some (.array elements)) :
    ComparedExactly target elements key ↔ key.FitsBuffer ∨ FirstHoldsWhole elements key := by
  constructor
  · exact fun exactly => Or.inr (first_of_comparedExactly found exactly)
  · rintro (fits | first)
    · exact comparedExactly_of_first found (fits.firstHoldsWhole elements)
    · exact comparedExactly_of_first found first

def wireKeyOf (k : List UInt8) (short : k.length < Width.two.bound) : WireKey where
  framing := .definite .immediate
  width := .immediate
  sid := 5
  text := .tstr .two k
  k := k
  carries := .whole .two
  wellFormed := by
    refine .list (show 2 < 24 by decide) (List.forall_mem_cons.mpr ⟨.uint (show 5 < 24 by decide), ?_⟩)
    exact List.forall_mem_singleton.mpr (.tstr short)

def oneInstance (s : CString) : CoreconfHashMapT CoreconfValueT :=
  mapOf [(5, .array [.hashmap (mapOf [(1, .string s)])])]

theorem oneInstance_get (s : CString) :
    getCoreconfHashMap (oneInstance s) 5 = some (.array [.hashmap (mapOf [(1, .string s)])]) := by
  rw [show oneInstance s = (insertCoreconfHashMap createCoreconfHashmap 5
    (some (CoreconfValueT.array [.hashmap (mapOf [(1, .string s)])]))).2 from rfl,
    (repInv_create.insert 5 _).get_eq_some, insert_create_objects]
  exact List.mem_singleton.mpr rfl

theorem short_key_compared :
    ComparedExactly (oneInstance (CString.ofBuffer [0x61])) [.hashmap (mapOf [(1, .string (CString.ofBuffer [0x61]))])]
      (wireKeyOf [0x61] (by decide)) :=
  (instance_keys_exact_iff (by rfl)).mpr (Or.inl ⟨rfl, by decide, by decide⟩)

/-- The entry that is found holds what is kept of the key and not the whole key. -/
theorem cut_not_compared {s : CString} {key : WireKey} (sid : key.sid = 5) (cut : key.kept = some s)
    (other : s.bytes ≠ key.k) : ¬ ComparedExactly (oneInstance s) [.hashmap (mapOf [(1, .string s)])] key := by
  intro exactly
  have found : getCoreconfHashMap (oneInstance s) key.sid =
      some (.array [.hashmap (mapOf [(1, .string s)])]) := by
    rw [sid]
    exact oneInstance_get s
  have objects : (mapOf [(1, CoreconfValueT.string s)]).objects = [⟨1, some (.string s)⟩] :=
    insert_create_objects 1 _
  have held : holdsString s (.hashmap (mapOf [(1, .string s)])) := by
    simp only [holdsString, objects, List.any_cons, beq_self_eq_true, Bool.true_or]
  have first := first_of_comparedExactly found exactly
  rw [FirstHoldsWhole, cut, Option.bind_some, List.find?_cons_of_pos held] at first
  simp only [holdsWhole, objects, List.any_cons, List.any_nil, Bool.or_false, beq_iff_eq] at first
  exact other first

/-- The key "a", a NUL and "b" takes the entry "a", and a key of 128 bytes takes the entry of its
first 127. -/
theorem cut_keys_not_compared :
    ¬ ComparedExactly (oneInstance (CString.ofBuffer [0x61]))
        [.hashmap (mapOf [(1, .string (CString.ofBuffer [0x61]))])] (wireKeyOf [0x61, 0x00, 0x62] (by decide)) ∧
      ¬ ComparedExactly (oneInstance (CString.ofBuffer (List.replicate 127 0x61)))
        [.hashmap (mapOf [(1, .string (CString.ofBuffer (List.replicate 127 0x61)))])]
        (wireKeyOf (List.replicate 128 0x61) (by rw [List.length_replicate]; decide)) := by
  refine ⟨cut_not_compared rfl rfl (by decide), cut_not_compared rfl (congrArg some ?_) fun same => ?_⟩
  · exact congrArg CString.ofBuffer List.take_replicate
  · have lengths : (CString.ofBuffer (List.replicate 127 0x61)).bytes.length =
        (List.replicate 128 (0x61 : UInt8)).length := congrArg List.length same
    have shorter : (CString.ofBuffer (List.replicate 127 0x61)).bytes.length ≤ 127 :=
      (List.takeWhile_prefix _).length_le.trans (Nat.le_of_eq List.length_replicate)
    rw [List.length_replicate] at lengths
    omega

end Coreconf
