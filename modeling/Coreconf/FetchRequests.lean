import Coreconf.Fetch
import Coreconf.PatchRequests
import Coreconf.Server
import Coreconf.Stream

set_option autoImplicit false

/- The requests that create_fetch_request_with_iids builds, and their three readers: the
client library's, the FETCH handler's and the one of the stream filter. -/
namespace Coreconf

open Cbor (Item Framing Width)
open Fuel (Step Returns)

namespace InstanceIdentifier

/-- What an array identifier has after its SID. -/
def keyItem? : InstanceIdentifier → Option Item
  | simple _ => none
  | withStrKey _ strKey => some (.tstr (Width.least strKey.bytes.length) strKey.bytes)
  | withIntKey _ intKey => some (integerItem intKey.toInt)

def toItem (iid : InstanceIdentifier) : Item :=
  match iid.keyItem? with
  | none => keyItem iid.sid
  | some key => .list .indefinite [keyItem iid.sid, key]

end InstanceIdentifier

/-- The sequence that the identifiers are meant to be. -/
def fetchPayload (iids : List InstanceIdentifier) : List UInt8 := iids.flatMap fun iid => iid.toItem.encode

theorem createFetchIid_eq (bufferSize : Nat) (iid : InstanceIdentifier) :
    createFetchIid bufferSize iid =
      if iid.toItem.encode.length ≤ bufferSize then some iid.toItem.encode else none := by
  rw [← put_newEncodeState]
  cases iid with
  | simple sid => simp only [createFetchIid, zcborUint64Put_eq]; rfl
  | withStrKey sid strKey =>
      simp only [createFetchIid, zcborListStartEncode_eq, zcborListEndEncode_eq, zcborUint64Put_eq,
        zcborTstrEncode, strEncode_eq, Option.bind_eq_bind, EncodeState.put_bind_bind,
        InstanceIdentifier.toItem, InstanceIdentifier.keyItem?, Item.encode, Item.encodeItems,
        Framing.opening, Framing.closing, List.append_assoc, List.append_nil]
      rfl
  | withIntKey sid intKey =>
      simp only [createFetchIid, zcborListStartEncode_eq, zcborListEndEncode_eq, zcborUint64Put_eq,
        zcborInt64Put_eq, Option.bind_eq_bind, EncodeState.put_bind_bind, InstanceIdentifier.toItem,
        InstanceIdentifier.keyItem?, Item.encode, Item.encodeItems, Framing.opening, Framing.closing,
        List.append_assoc, List.append_nil]
      rfl

theorem createFetchIids_eq (bufferSize : Nat) (iids : List InstanceIdentifier) :
    createFetchIids bufferSize iids =
      if (fetchPayload iids).length ≤ bufferSize then some (fetchPayload iids) else none := by
  induction iids generalizing bufferSize with
  | nil => rfl
  | cons iid rest ih =>
      have payload : fetchPayload (iid :: rest) = iid.toItem.encode ++ fetchPayload rest := List.flatMap_cons
      rw [createFetchIids, createFetchIid_eq, payload, List.length_append]
      by_cases room : iid.toItem.encode.length ≤ bufferSize
      · rw [if_pos room, Option.bind_eq_bind, Option.bind_some, ih]
        by_cases more : (fetchPayload rest).length ≤ bufferSize - iid.toItem.encode.length
        · rw [if_pos more, if_pos (by omega)]
          rfl
        · rw [if_neg more, if_neg (by omega)]
          rfl
      · rw [if_neg room, if_neg (by omega)]
        rfl

/-- A request that was created is the sequence of its identifiers. -/
theorem createFetchRequestWithIids_created {bufferSize : Nat} {iids : List InstanceIdentifier}
    {data : List UInt8} (created : createFetchRequestWithIids bufferSize iids = some data) :
    iids ≠ [] ∧ data = fetchPayload iids := by
  rw [createFetchRequestWithIids] at created
  split at created
  · cases created
  · rename_i nonempty
    rw [createFetchIids_eq] at created
    split at created
    · exact ⟨nonempty, (Option.some.inj created).symm⟩
    · cases created

/-- Every identifier that is an object in memory is a well-formed item. -/
theorem InstanceIdentifier.toItem_wellFormed {iid : InstanceIdentifier}
    (object : iid.toItem.encode.length < 2 ^ 64) : iid.toItem.WellFormed := by
  have sidFormed : (keyItem iid.sid).WellFormed := .uint (Width.least_fits iid.sid.toNat_lt)
  cases iid with
  | simple sid => exact sidFormed
  | withStrKey sid strKey =>
      refine .list trivial ?_
      rintro item (_ | ⟨_, _ | ⟨_, ⟨⟩⟩⟩)
      · exact sidFormed
      · refine .tstr (Width.least_fits ?_)
        simp only [toItem, keyItem?, Item.encode, Item.encodeItems, Cbor.string, List.length_append] at object
        omega
  | withIntKey sid intKey =>
      refine .list trivial ?_
      rintro item (_ | ⟨_, _ | ⟨_, ⟨⟩⟩⟩)
      · exact sidFormed
      · have low := Int64.le_toInt intKey
        have high := Int64.toInt_lt intKey
        exact integerItem_wellFormed low (by omega)

theorem toItem_ne_break {iid : InstanceIdentifier} (wellFormed : iid.toItem.WellFormed)
    (rest : List UInt8) : (iid.toItem.encode ++ rest).head? ≠ some 0xFF := by
  obtain ⟨byte, bytes, head, -, notBreak⟩ := Item.encode_first wellFormed
  rw [head, List.cons_append, List.head?_cons]
  exact fun same => notBreak (Option.some.inj same)

/-- A signed integer is read back, whatever its sign. -/
theorem zcborInt64Decode_integerItem {i : Int64} {st : ZcborState} {rest : List UInt8}
    (payload : st.payload = (integerItem i.toInt).encode ++ rest) (left : st.elemCount ≠ 0) :
    zcborInt64Decode st = some (i, st.after rest) := by
  have low := Int64.le_toInt i
  have high := Int64.toInt_lt i
  have checked := typeCheck_item (integerItem_wellFormed low (by omega)) payload
  by_cases negative : i.toInt < 0
  · have item : integerItem i.toInt =
        .nint (Width.least (-1 - i.toInt).toNat) (-1 - i.toInt).toNat := if_pos negative
    rw [item] at payload checked
    have extracted : valueExtractFixed st 8 = some ((-1 - i.toInt).toNat, st.after rest) :=
      valueExtractFixed_head payload (by decide) (Width.least_fits (by omega))
        (by cases Width.least (-1 - i.toInt).toNat <;> decide) left
    have value : (~~~ UInt64.ofNat (-1 - i.toInt).toNat).toInt64 = i := by
      apply Int64.toInt_inj.mp
      rw [flipped_toInt (by omega)]
      omega
    have small : ¬ (-1 - i.toInt).toNat ≥ 2 ^ 63 := by omega
    have pint : typeCheck st .pint = false := checked .pint
    have nint : typeCheck st .nint = true := checked .nint
    simp only [zcborInt64Decode, pint, nint, Bool.or_true, if_true, extracted, if_neg small, value]
  · have item : integerItem i.toInt = .uint (Width.least i.toInt.toNat) i.toInt.toNat := if_neg negative
    rw [item] at payload checked
    have extracted : valueExtractFixed st 8 = some (i.toInt.toNat, st.after rest) :=
      valueExtractFixed_head payload (by decide) (Width.least_fits (by omega))
        (by cases Width.least i.toInt.toNat <;> decide) left
    have value : (UInt64.ofNat i.toInt.toNat).toInt64 = i := by
      apply Int64.toInt_inj.mp
      have same : (UInt64.ofNat i.toInt.toNat).toInt64 = Int64.ofNat i.toInt.toNat := rfl
      rw [same, Int64.toInt_ofNat_of_lt (by omega)]
      omega
    have small : ¬ i.toInt.toNat ≥ 2 ^ 63 := by omega
    have pint : typeCheck st .pint = true := checked .pint
    have nint : typeCheck st .nint = false := checked .nint
    simp only [zcborInt64Decode, pint, nint, Bool.or_false, if_true, extracted, if_neg small, value,
      Bool.false_eq_true, if_false]

/-- What stands at the payload pointer once the array of an identifier is entered. -/
def InstanceIdentifier.inner (iid : InstanceIdentifier) (key : Item) : List UInt8 :=
  (keyItem iid.sid).encode ++ key.encode

theorem InstanceIdentifier.encode_array {iid : InstanceIdentifier} {key : Item}
    (keyed : iid.keyItem? = some key) (rest : List UInt8) :
    iid.toItem.encode ++ rest =
      Framing.indefinite.opening 4 2 ++ (iid.inner key ++ (Framing.indefinite.closing ++ rest)) := by
  simp only [toItem, keyed, inner, Item.encode, Item.encodeItems, Framing.opening, Framing.closing,
    List.append_assoc, List.nil_append]

/-- An array identifier is refused as a SID and entered, in a state of any size. -/
theorem iidArray_entered (nStates : Nat) (backups : 0 < nStates - 2) {iid : InstanceIdentifier}
    (wellFormed : iid.toItem.WellFormed) {key : Item} (keyed : iid.keyItem? = some key)
    (rest : List UInt8) :
    zcborUint64Decode (zcborNewDecodeState nStates (iid.toItem.encode ++ rest) 1) = none ∧
      zcborListStartDecode (zcborNewDecodeState nStates (iid.toItem.encode ++ rest) 1) =
        some ((zcborNewDecodeState nStates (iid.toItem.encode ++ rest) 1).entered .indefinite 2
          (iid.inner key ++ (Framing.indefinite.closing ++ rest))) := by
  have item : iid.toItem = .list .indefinite [keyItem iid.sid, key] := by
    rw [InstanceIdentifier.toItem, keyed]
  have array : zcborUint64Decode (zcborNewDecodeState nStates (iid.toItem.encode ++ rest) 1) =
      iid.toItem.sid?.map fun sid =>
        (sid, (zcborNewDecodeState nStates (iid.toItem.encode ++ rest) 1).after rest) :=
    zcborUint64Decode_item wellFormed rfl Nat.one_ne_zero
  have checked : typeCheck (zcborNewDecodeState nStates (iid.toItem.encode ++ rest) 1) .list =
      (iid.toItem.majorType == .list) := typeCheck_item wellFormed rfl .list
  refine ⟨by rw [array, item]; rfl, ?_⟩
  exact listMapStartDecode_opening (iid.encode_array keyed rest) (by decide)
    (show Framing.indefinite.Fits 2 from trivial) Nat.one_ne_zero (by rw [checked, item]; rfl) backups

/-- A plain SID is read with one decoder call. -/
theorem iidSimple_decoded (nStates : Nat) {iid : InstanceIdentifier} (wellFormed : iid.toItem.WellFormed)
    (plain : iid.keyItem? = none) (rest : List UInt8) :
    zcborUint64Decode (zcborNewDecodeState nStates (iid.toItem.encode ++ rest) 1) =
      some (iid.sid, (zcborNewDecodeState nStates (iid.toItem.encode ++ rest) 1).after rest) := by
  have item : iid.toItem = keyItem iid.sid := by rw [InstanceIdentifier.toItem, plain]
  have read : zcborUint64Decode (zcborNewDecodeState nStates (iid.toItem.encode ++ rest) 1) =
      iid.toItem.sid?.map fun sid =>
        (sid, (zcborNewDecodeState nStates (iid.toItem.encode ++ rest) 1).after rest) :=
    zcborUint64Decode_item wellFormed rfl Nat.one_ne_zero
  have sid : iid.toItem.sid? = some iid.sid := by
    rw [item, keyItem, Item.sid?, UInt64.ofNat_toNat]
  rw [read, sid, Option.map_some]

/-- The SID of an array identifier is read, and its key is next. -/
theorem iidSid_decoded (st : ZcborState) (iid : InstanceIdentifier) (key : Item) (rest : List UInt8) :
    zcborUint64Decode (st.entered .indefinite 2 (iid.inner key ++ rest)) =
      some (iid.sid, (st.entered .indefinite 2 (iid.inner key ++ rest)).after (key.encode ++ rest)) := by
  have formed : (keyItem iid.sid).WellFormed := .uint (Width.least_fits iid.sid.toNat_lt)
  have payload : (st.entered .indefinite 2 (iid.inner key ++ rest)).payload =
      (keyItem iid.sid).encode ++ (key.encode ++ rest) := by
    rw [ZcborState.entered, InstanceIdentifier.inner, List.append_assoc]
  have inside : Inside .indefinite 2 (st.entered .indefinite 2 (iid.inner key ++ rest)) :=
    entered_inside (by decide)
  rw [zcborUint64Decode_item formed payload inside.left, keyItem, Item.sid?, UInt64.ofNat_toNat,
    Option.map_some]

/-- The depth of a scan after the bytes, unless it ends before the last of them. -/
def scanDepth : Nat → List UInt8 → Option Nat
  | depth, [] => some depth
  | 0, _ :: _ => none
  | depth + 1, byte :: rest =>
      if byte.toNat / 32 = 4 ∨ byte.toNat / 32 = 5 then scanDepth (depth + 2) rest
      else if byte.toNat % 32 = 31 then scanDepth depth rest
      else scanDepth (depth + 1) rest

theorem scanArray_append {depth left : Nat} {bytes : List UInt8} (scanned : scanDepth depth bytes = some left)
    (rest : List UInt8) : scanArray depth (bytes ++ rest) = scanArray left rest := by
  induction bytes generalizing depth with
  | nil =>
      cases scanned
      rfl
  | cons byte bytes ih =>
      cases depth with
      | zero => cases scanned
      | succ depth =>
          rw [scanDepth] at scanned
          rw [List.cons_append, scanArray]
          split
          · rename_i container
            rw [if_pos container] at scanned
            exact ih scanned
          · rename_i other
            rw [if_neg other] at scanned
            split
            · rename_i low
              rw [if_pos low] at scanned
              exact ih scanned
            · rename_i plain
              rw [if_neg plain] at scanned
              exact ih scanned

/-- The scan of the first pass ends at the last byte of the key or at the stop code. -/
def InstanceIdentifier.ScanEnds (iid : InstanceIdentifier) : Prop :=
  ∀ key, iid.keyItem? = some key → ∃ left ≤ 1, scanDepth 1 (iid.inner key) = some left

/-- The scan does not end before the last byte of the key. -/
def InstanceIdentifier.ScanCovers (iid : InstanceIdentifier) : Prop :=
  ∀ key, iid.keyItem? = some key → scanDepth 1 (iid.inner key) ≠ none

/-- In all identifiers the scan ends where the array does; in the last it may as well
go on to the end of the payload. -/
def ScansEnd : List InstanceIdentifier → Prop
  | [] => True
  | [iid] => iid.ScanCovers
  | iid :: rest => iid.ScanEnds ∧ ScansEnd rest

/-- The end of an array is taken if its stop code is next, and is given up otherwise. -/
theorem scanned_end {st : ZcborState} {tail payload : List UInt8} :
    (zcborListEndDecode { st.entered .indefinite 2 tail with payload := payload }).2.payload =
      if payload.head? = some 0xFF then payload.tail else payload := by
  cases payload with
  | nil => rfl
  | cons byte rest =>
      rw [zcborListEndDecode, listMapEndDecode]
      simp only [ZcborState.entered, if_true, arrayEndExpect, List.head?_cons, Option.some.injEq,
        List.tail_cons]
      by_cases stop : byte = 0xFF
      · rw [if_neg (by simp [stop]), if_pos stop]
      · rw [if_pos (by simp [stop]), if_neg stop]

/-- The first pass counts an identifier and goes on where it ends. -/
theorem skipIid_item {iid : InstanceIdentifier} (wellFormed : iid.toItem.WellFormed) {rest : List UInt8}
    (scan : iid.ScanEnds ∨ iid.ScanCovers ∧ rest = []) (next : rest.head? ≠ some 0xFF) :
    skipIid (iid.toItem.encode ++ rest) = some rest := by
  cases keyed : iid.keyItem? with
  | none =>
      rw [skipIid, iidSimple_decoded 5 wellFormed keyed rest]
      rfl
  | some key =>
      obtain ⟨refused, entered⟩ := iidArray_entered 5 (by decide) wellFormed keyed rest
      have counted : ∃ left, (left ≤ 1 ∨ rest = []) ∧ scanDepth 1 (iid.inner key) = some left := by
        rcases scan with ends | ⟨covers, last⟩
        · obtain ⟨left, small, scanned⟩ := ends key keyed
          exact ⟨left, .inl small, scanned⟩
        · obtain ⟨left, scanned⟩ := Option.ne_none_iff_exists'.mp (covers key keyed)
          exact ⟨left, .inr last, scanned⟩
      obtain ⟨left, bound, scanned⟩ := counted
      have crossed : scanArray 1 ((zcborNewDecodeState 5 (iid.toItem.encode ++ rest) 1).entered .indefinite 2
          (iid.inner key ++ (Framing.indefinite.closing ++ rest))).payload = scanArray left (0xFF :: rest) :=
        scanArray_append scanned _
      rw [skipIid, refused, entered]
      dsimp only
      rw [crossed, scanned_end]
      match left with
      | 0 => rw [scanArray, List.head?_cons, if_pos rfl, List.tail_cons]
      | 1 =>
          have taken : scanArray 1 (0xFF :: rest) = rest := by
            rw [scanArray, if_neg (by decide), if_pos (by decide), scanArray]
          rw [taken, if_neg next]
      | left + 2 =>
          obtain rfl := bound.resolve_left (by omega)
          have spent : scanArray (left + 2) [0xFF] = [] := by
            rw [scanArray, if_neg (by decide), if_pos (by decide), scanArray]
            exact Nat.succ_ne_zero _
          rw [spent]
          rfl

def countIids (_ : Nat) : CountLoop → Option (Step CountLoop Nat) := countIidBody

theorem countIids_monotone : Fuel.Monotone countIids := fun _ _ _ _ _ same => same

theorem fetchPayload_cons (iid : InstanceIdentifier) (rest : List InstanceIdentifier) :
    fetchPayload (iid :: rest) = iid.toItem.encode ++ fetchPayload rest := List.flatMap_cons

/-- The next identifier, or the end of the payload, is no stop code. -/
theorem fetchPayload_ne_break {iids : List InstanceIdentifier}
    (wellFormed : ∀ iid ∈ iids, iid.toItem.WellFormed) : (fetchPayload iids).head? ≠ some 0xFF := by
  cases iids with
  | nil => exact nofun
  | cons iid rest =>
      rw [fetchPayload_cons]
      exact toItem_ne_break (wellFormed iid List.mem_cons_self) _

/-- The first pass counts the identifiers, by induction over them. -/
theorem countIids_items {iids : List InstanceIdentifier} (wellFormed : ∀ iid ∈ iids, iid.toItem.WellFormed)
    (scans : ScansEnd iids) (count : Nat) :
    Returns (Fuel.iterate countIids) ⟨count, fetchPayload iids⟩ (count + iids.length) := by
  induction iids generalizing count with
  | nil => exact Fuel.iterate_done countIids_monotone ⟨0, rfl⟩
  | cons iid rest ih =>
      obtain ⟨first, others⟩ := List.forall_mem_cons.mp wellFormed
      have scan : (iid.ScanEnds ∨ iid.ScanCovers ∧ fetchPayload rest = []) ∧ ScansEnd rest := by
        cases rest with
        | nil => exact ⟨.inr ⟨scans, rfl⟩, trivial⟩
        | cons next later => exact ⟨.inl scans.1, scans.2⟩
      have skipped : skipIid (fetchPayload (iid :: rest)) = some (fetchPayload rest) := by
        rw [fetchPayload_cons]
        exact skipIid_item first scan.1 (fetchPayload_ne_break others)
      have nonempty : fetchPayload (iid :: rest) ≠ [] := by
        obtain ⟨byte, bytes, head, -⟩ := Item.encode_first first
        simp [fetchPayload_cons, head]
      have again : Returns countIids ⟨count, fetchPayload (iid :: rest)⟩
          (.next ⟨count + 1, fetchPayload rest⟩) := by
        refine ⟨0, ?_⟩
        rw [countIids, countIidBody, if_neg nonempty, skipped]
      have later := ih others scan.2 (count + 1)
      rw [Nat.add_right_comm, Nat.add_assoc] at later
      exact Fuel.iterate_next countIids_monotone again later

/-- The second pass reads an identifier and stops where it ends. -/
theorem decodeIid_item {iid : InstanceIdentifier} (wellFormed : iid.toItem.WellFormed) (rest : List UInt8) :
    decodeIid (iid.toItem.encode ++ rest) = some (iid, rest) := by
  cases keyed : iid.keyItem? with
  | none =>
      rw [decodeIid, iidSimple_decoded 5 wellFormed keyed rest]
      cases iid with
      | simple sid => rfl
      | withStrKey sid strKey => cases keyed
      | withIntKey sid intKey => cases keyed
  | some key =>
      obtain ⟨refused, entered⟩ := iidArray_entered 5 (by decide) wellFormed keyed rest
      have sid := iidSid_decoded (zcborNewDecodeState 5 (iid.toItem.encode ++ rest) 1) iid key
        (Framing.indefinite.closing ++ rest)
      rw [decodeIid, refused]
      dsimp only
      rw [entered, Option.bind_eq_bind, Option.bind_some, sid, Option.bind_eq_bind, Option.bind_some]
      dsimp only
      set st := ((zcborNewDecodeState 5 (iid.toItem.encode ++ rest) 1).entered .indefinite 2
        (iid.inner key ++ (Framing.indefinite.closing ++ rest))).after
          (key.encode ++ (Framing.indefinite.closing ++ rest)) with st_eq
      have opened : Inside .indefinite 2 ((zcborNewDecodeState 5 (iid.toItem.encode ++ rest) 1).entered
          .indefinite 2 (iid.inner key ++ (Framing.indefinite.closing ++ rest))) := entered_inside (by decide)
      have inside : Inside .indefinite 1 st := opened.after _
      have ended := (inside.after (Framing.indefinite.closing ++ rest)).leave
        (show _ = Framing.indefinite.closing ++ rest from rfl) rfl
      have item : iid.toItem = .list .indefinite [keyItem iid.sid, key] := by
        rw [InstanceIdentifier.toItem, keyed]
      have keyFormed : key.WellFormed := by
        rw [item] at wellFormed
        cases wellFormed with
        | list fits members => exact members key (by simp)
      have text : zcborTstrDecode st = key.text?.map fun zs =>
          (zs, st.after (Framing.indefinite.closing ++ rest)) :=
        zcborTstrDecode_item keyFormed rfl inside.left
      cases iid with
      | simple sid => cases keyed
      | withStrKey sid strKey =>
          cases keyed
          rw [text]
          simp only [Item.text?, Option.map_some, CString.ofBuffer_bytes]
          rw [Option.bind_eq_bind, Option.bind_some]
          dsimp only [zcborListEndDecode]
          rw [ended]
          rfl
      | withIntKey sid intKey =>
          cases keyed
          have noText : (integerItem intKey.toInt).text? = none := by
            rw [integerItem]
            split <;> rfl
          have key : zcborInt64Decode st = some (intKey, st.after (Framing.indefinite.closing ++ rest)) :=
            zcborInt64Decode_integerItem rfl inside.left
          rw [text, noText]
          simp only [Option.map_none, key, Option.map_some]
          rw [Option.bind_eq_bind, Option.bind_some]
          dsimp only [zcborListEndDecode]
          rw [ended]
          rfl

theorem decodeIids_items {iids : List InstanceIdentifier} (wellFormed : ∀ iid ∈ iids, iid.toItem.WellFormed) :
    decodeIids iids.length (fetchPayload iids) = some iids := by
  induction iids with
  | nil => rfl
  | cons iid rest ih =>
      obtain ⟨first, others⟩ := List.forall_mem_cons.mp wellFormed
      rw [List.length_cons, decodeIids, fetchPayload_cons, decodeIid_item first, Option.bind_eq_bind,
        Option.bind_some]
      dsimp only
      rw [ih others]
      rfl

/-- The identifiers of a request of at most this many bytes are all well formed. -/
theorem fetchPayload_wellFormed {iids : List InstanceIdentifier}
    (object : (fetchPayload iids).length < 2 ^ 64) : ∀ iid ∈ iids, iid.toItem.WellFormed := by
  intro iid member
  apply InstanceIdentifier.toItem_wellFormed
  have within := (List.sublist_flatten_of_mem
    (List.mem_map_of_mem (f := fun iid : InstanceIdentifier => iid.toItem.encode) member)).length_le
  rw [fetchPayload, List.flatMap_def] at object
  omega

theorem parseFetchRequestIids_monotone : Fuel.Monotone parseFetchRequestIids :=
  Fuel.Monotone.of_extends fun _ _ _ le => ((Fuel.iterate_monotone countIids_monotone).extends le _).map _

/-- A request is parsed as its identifiers if the scan over the bytes of every array
identifier ends where the array does. -/
theorem fetch_round_trip (payload : Payload) {bufferSize : Nat} {iids : List InstanceIdentifier}
    (created : createFetchRequestWithIids bufferSize iids = some payload.bytes) (scans : ScansEnd iids) :
    Returns parseFetchRequestIids payload.bytes (some iids) := by
  obtain ⟨nonempty, bytes⟩ := createFetchRequestWithIids_created created
  have object := payload.object
  rw [bytes] at object ⊢
  have wellFormed := fetchPayload_wellFormed (show (fetchPayload iids).length < 2 ^ 64 by omega)
  obtain ⟨fuel, counted⟩ := countIids_items wellFormed scans 0
  rw [Nat.zero_add] at counted
  refine ⟨fuel, ?_⟩
  have looped : Fuel.loop countIidBody fuel ⟨0, fetchPayload iids⟩ = some iids.length := counted
  rw [parseFetchRequestIids, looped, Option.map_some,
    if_neg fun empty => nonempty (List.eq_nil_of_length_eq_zero empty), decodeIids_items wellFormed]

/-- The interface eth0 and a list entry with the number -1. -/
private def sampleIids : List InstanceIdentifier :=
  [.simple 1723, .withStrKey 1533 ⟨[0x65, 0x74, 0x68, 0x30], by decide⟩, .withIntKey 7 (-1)]

theorem fetch_round_trip_sample :
    Returns parseFetchRequestIids [0x19, 0x06, 0xBB, 0x9F, 0x19, 0x05, 0xFD, 0x64, 0x65, 0x74, 0x68, 0x30,
      0xFF, 0x9F, 0x07, 0x20, 0xFF] (some sampleIids) := by
  have created : createFetchRequestWithIids 32 sampleIids = some [0x19, 0x06, 0xBB, 0x9F, 0x19, 0x05, 0xFD,
      0x64, 0x65, 0x74, 0x68, 0x30, 0xFF, 0x9F, 0x07, 0x20, 0xFF] := by decide
  refine fetch_round_trip ⟨[0x19, 0x06, 0xBB, 0x9F, 0x19, 0x05, 0xFD, 0x64, 0x65, 0x74,
    0x68, 0x30, 0xFF, 0x9F, 0x07, 0x20, 0xFF], by decide⟩ created ⟨?_, ?_, ?_⟩
  · exact nofun
  · rintro key ⟨⟩
    exact ⟨1, le_rfl, by decide⟩
  · rintro key ⟨⟩
    decide

/-- The byte of '_' looks like the end of the array. -/
theorem underscore_ends_scan :
    createFetchRequestWithIids 32 [.withStrKey 5 ⟨[0x61, 0x5F, 0x62], by decide⟩, .simple 6] =
        some [0x9F, 0x05, 0x63, 0x61, 0x5F, 0x62, 0xFF, 0x06] ∧
      ¬ Returns parseFetchRequestIids [0x9F, 0x05, 0x63, 0x61, 0x5F, 0x62, 0xFF, 0x06]
        (some [.withStrKey 5 ⟨[0x61, 0x5F, 0x62], by decide⟩, .simple 6]) := by
  refine ⟨by decide, fun parsed => ?_⟩
  have one : Returns parseFetchRequestIids [0x9F, 0x05, 0x63, 0x61, 0x5F, 0x62, 0xFF, 0x06]
      (some [.withStrKey 5 ⟨[0x61, 0x5F, 0x62], by decide⟩]) := ⟨3, by decide⟩
  exact absurd (parsed.unique parseFetchRequestIids_monotone one) (by decide)

namespace FetchIid

def sid : FetchIid → UInt64
  | scalar sid => sid
  | list sid _ => sid

/-- The identifier as the client names it. -/
def toIid : FetchIid → InstanceIdentifier
  | scalar sid => .simple sid
  | list sid key => .withStrKey sid key

/-- The key fits the 128-byte buffer of the FETCH handler. -/
def KeyFits : FetchIid → Prop
  | scalar _ => True
  | list _ key => key.bytes.length ≤ 127

theorem toItem_wellFormed (iid : FetchIid) (fits : iid.KeyFits) : iid.toIid.toItem.WellFormed := by
  cases iid with
  | scalar sid => exact .uint (Width.least_fits sid.toNat_lt)
  | list sid key =>
      refine .list trivial ?_
      rintro item (_ | ⟨_, _ | ⟨_, ⟨⟩⟩⟩)
      · exact .uint (Width.least_fits sid.toNat_lt)
      · exact .tstr (Width.least_fits (Nat.lt_of_le_of_lt fits (by decide)))

end FetchIid

/-- The text of a key is read in the array it is in, and the array is left. -/
structure KeyText (iid : InstanceIdentifier) (key : CString) (rest : List UInt8) (st : ZcborState) :
    Prop where
  sidRead : ∃ entered,
    zcborListStartDecode (zcborNewDecodeState 8 (iid.toItem.encode ++ rest) 1) = some entered ∧
      zcborUint64Decode entered = some (iid.sid, st)
  payload : st.payload = Cbor.string 3 (Width.least key.bytes.length) key.bytes ++
    (Framing.indefinite.closing ++ rest)
  fits : key.bytes.length < (Width.least key.bytes.length).bound
  left : st.elemCount ≠ 0
  ended : listMapEndDecode (st.after (Framing.indefinite.closing ++ rest)) =
    (true, (zcborNewDecodeState 8 (iid.toItem.encode ++ rest) 1).after rest)

theorem keyText {sid : UInt64} {key : CString} (short : key.bytes.length ≤ 127) (rest : List UInt8) :
    ∃ st, KeyText (.withStrKey sid key) key rest st := by
  have wellFormed : (InstanceIdentifier.withStrKey sid key).toItem.WellFormed :=
    FetchIid.toItem_wellFormed (.list sid key) short
  obtain ⟨-, entered⟩ := iidArray_entered 8 (by decide) wellFormed rfl rest
  have opened : Inside .indefinite 2 ((zcborNewDecodeState 8
      ((InstanceIdentifier.withStrKey sid key).toItem.encode ++ rest) 1).entered .indefinite 2
        ((InstanceIdentifier.withStrKey sid key).inner (.tstr (Width.least key.bytes.length) key.bytes) ++
          (Framing.indefinite.closing ++ rest))) := entered_inside (by decide)
  have inside := opened.after ((Item.tstr (Width.least key.bytes.length) key.bytes).encode ++
    (Framing.indefinite.closing ++ rest))
  exact ⟨_, ⟨_, entered, iidSid_decoded _ _ _ _⟩, rfl,
    Width.least_fits (Nat.lt_of_le_of_lt short (by decide)), inside.left,
    (inside.after (Framing.indefinite.closing ++ rest)).leave
      (show _ = Framing.indefinite.closing ++ rest from rfl) rfl⟩

/-- An identifier in any encoding that the handler reads. -/
inductive IsFetchIid : FetchIid → Item → Prop
  | scalar (w) (sid) : IsFetchIid (.scalar sid) (.uint w sid.toNat)
  | list (framing w w') (sid key) :
      IsFetchIid (.list sid key) (.list framing [.uint w sid.toNat, .tstr w' key.bytes])

theorem FetchIid.isFetchIid (iid : FetchIid) : IsFetchIid iid iid.toIid.toItem := by
  cases iid with
  | scalar sid => exact .scalar _ sid
  | list sid key => exact .list _ _ _ sid key

/-- A request as the sequence of its identifiers. -/
inductive IsFetchRequest : List FetchIid → List UInt8 → Prop
  | nil : IsFetchRequest [] []
  | cons {iid item iids data} (named : IsFetchIid iid item) (wellFormed : item.WellFormed)
      (fits : iid.KeyFits) (rest : IsFetchRequest iids data) :
      IsFetchRequest (iid :: iids) (item.encode ++ data)

/-- The FETCH handler keeps of a text key what its buffer holds, and goes on behind the array. -/
theorem parseFetchIids_instance {framing : Framing} {w w' : Width} {sid : UInt64} {bytes : List UInt8}
    (wellFormed : Item.WellFormed (.list framing [.uint w sid.toNat, .tstr w' bytes])) (n : Nat)
    (rest : List UInt8) :
    parseFetchIids (n + 1) ((Item.list framing [.uint w sid.toNat, .tstr w' bytes]).encode ++ rest) =
      .list sid (keyBuffer bytes) :: parseFetchIids n rest := by
  have major := majorTypeAt_item wellFormed rest
  set item := Item.list framing [.uint w sid.toNat, .tstr w' bytes]
  set st := zcborNewDecodeState 8 (item.encode ++ rest) 1 with st_eq
  obtain ⟨textFormed, inside, st₁, started, sidRead⟩ :=
    arrayKey_opened wellFormed (show st.payload = item.encode ++ rest from rfl) Nat.one_ne_zero
      (show 0 < 6 by decide)
  set st₂ := st.atKeyText framing (.uint w sid.toNat) (.tstr w' bytes) rest
  have textRead : zcborTstrDecode st₂ = some (bytes, st₂.after (framing.closing ++ rest)) :=
    zcborTstrDecode_item textFormed rfl inside.left
  have ended : listMapEndDecode (st₂.after (framing.closing ++ rest)) = (true, st.after rest) :=
    (inside.after (framing.closing ++ rest)).leave rfl rfl
  rw [parseFetchIids]
  simp only [major, item, Item.majorType, ← st_eq, started, sidRead, textRead, zcborListEndDecode, ended,
    UInt64.ofNat_toNat]
  rfl

/-- A text key in chunks ends the request. -/
theorem parseFetchIids_chunked {framing : Framing} {w : Width} {sid : UInt64}
    {chunks : List (Width × List UInt8)}
    (wellFormed : Item.WellFormed (.list framing [.uint w sid.toNat, .tstrChunks chunks])) (n : Nat)
    (rest : List UInt8) :
    parseFetchIids (n + 1) ((Item.list framing [.uint w sid.toNat, .tstrChunks chunks]).encode ++ rest) =
      [] := by
  have major := majorTypeAt_item wellFormed rest
  set item := Item.list framing [.uint w sid.toNat, .tstrChunks chunks]
  set st := zcborNewDecodeState 8 (item.encode ++ rest) 1 with st_eq
  obtain ⟨textFormed, inside, st₁, started, sidRead⟩ :=
    arrayKey_opened wellFormed (show st.payload = item.encode ++ rest from rfl) Nat.one_ne_zero
      (show 0 < 6 by decide)
  have textRead : zcborTstrDecode (st.atKeyText framing (.uint w sid.toNat) (.tstrChunks chunks) rest) = none :=
    zcborTstrDecode_item textFormed rfl inside.left
  rw [parseFetchIids]
  simp only [major, item, Item.majorType, ← st_eq, started, sidRead, textRead]

/-- The FETCH handler reads an identifier and goes on where it ends. -/
theorem parseFetchIids_named {iid : FetchIid} {item : Item} (named : IsFetchIid iid item)
    (wellFormed : item.WellFormed) (fits : iid.KeyFits) (n : Nat) (rest : List UInt8) :
    parseFetchIids (n + 1) (item.encode ++ rest) = iid :: parseFetchIids n rest := by
  cases named with
  | scalar w sid =>
      have major := majorTypeAt_item wellFormed rest
      set st := zcborNewDecodeState 8 ((Item.uint w sid.toNat).encode ++ rest) 1 with st_eq
      have read := zcborUint64Decode_item wellFormed
        (show st.payload = (Item.uint w sid.toNat).encode ++ rest from rfl) Nat.one_ne_zero
      rw [parseFetchIids]
      simp only [major, Item.majorType, ← st_eq, read, Item.sid?, UInt64.ofNat_toNat, Option.map_some]
      rfl
  | list framing w w' sid key =>
      have whole : keyBuffer key.bytes = key := keyBuffer_short fits
      rw [parseFetchIids_instance wellFormed, whole]

/-- The handler reads a request of at most so many identifiers as these. -/
theorem IsFetchRequest.parsed {iids : List FetchIid} {data : List UInt8} (request : IsFetchRequest iids data)
    {n : Nat} (few : iids.length ≤ n) : parseFetchIids n data = iids := by
  induction request generalizing n with
  | nil => cases n <;> rfl
  | cons named wellFormed fits rest ih =>
      cases n with
      | zero => exact absurd few (Nat.not_succ_le_zero _)
      | succ n => rw [parseFetchIids_named named wellFormed fits, ih (Nat.le_of_succ_le_succ few)]

/-- The sequence that the client writes is such a request. -/
theorem isFetchRequest_payload {iids : List FetchIid} (fits : ∀ iid ∈ iids, iid.KeyFits) :
    IsFetchRequest iids (fetchPayload (iids.map FetchIid.toIid)) := by
  induction iids with
  | nil => exact .nil
  | cons iid rest ih =>
      obtain ⟨first, others⟩ := List.forall_mem_cons.mp fits
      rw [List.map_cons, fetchPayload_cons]
      exact .cons iid.isFetchIid (iid.toItem_wellFormed first) first (ih others)

/-- A text is skipped with its head. -/
theorem zcborAnySkip_text {st : ZcborState} {w : Width} {bytes rest : List UInt8}
    (payload : st.payload = Cbor.string 3 w bytes ++ rest) (fits : bytes.length < w.bound)
    (left : st.elemCount ≠ 0) : Returns zcborAnySkip st (.skipped (st.after rest) 0) := by
  have major : majorTypeAt st.payload = some .tstr := by
    rw [payload]
    exact majorTypeAt_item (Item.WellFormed.tstr fits) rest
  have nonempty : st.payload ≠ [] := by
    intro empty
    rw [empty] at major
    cases major
  have noTag : skipTagBody st = some (.done (some st)) := by
    rw [skipTagBody, if_neg (by rw [major]; decide)]
  have extracted : valueExtractFixed st 8 = some (bytes.length, st.after (bytes ++ rest)) :=
    valueExtractFixed_head (by rw [payload, Cbor.string, List.append_assoc]) (by decide) fits
      (by cases w <;> decide) left
  have within : ¬ bytes.length > st.payload.length := by
    rw [payload, Cbor.string]
    simp only [List.length_append]
    omega
  refine ⟨2, ?_⟩
  rw [zcborAnySkip, if_neg nonempty, Fuel.loop_done noTag]
  dsimp only
  rw [skipValue, major]
  dsimp only
  rw [skipScalar, extracted]
  dsimp only
  rw [if_pos (.inr rfl), if_neg within]
  simp only [ZcborState.after, List.drop_left, List.length_append, Nat.sub_add_eq, Nat.sub_self,
    Nat.zero_sub]

def filterSids (outCap fuel : Nat) : FilterLoop → Option (Step FilterLoop FilterLoop) :=
  filterSidBody (zcborAnySkip fuel) outCap

theorem filterSids_monotone (outCap : Nat) : Fuel.Monotone (filterSids outCap) := by
  refine Fuel.Monotone.of_extends fun m n loop le => ?_
  simp only [filterSids, filterSidBody]
  refine .ite (.refl _) ?_
  split
  · exact .refl _
  · split
    · exact .refl _
    · split
      · exact .refl _
      · exact (zcborAnySkip_monotone.extends le _).map _
  · exact .refl _

/-- The filter takes the SID of an identifier of the client and goes on where it ends. -/
theorem filterSids_item {iid : FetchIid} (fits : iid.KeyFits) {outCap : Nat} {sids : List UInt64}
    (few : sids.length < outCap) (rest : List UInt8) :
    Returns (filterSids outCap) ⟨sids, iid.toIid.toItem.encode ++ rest⟩
      (.next ⟨sids ++ [iid.sid], rest⟩) := by
  have wellFormed := iid.toItem_wellFormed fits
  have major := majorTypeAt_item wellFormed rest
  obtain ⟨byte, bytes, head, -⟩ := Item.encode_first wellFormed
  have more : ¬ (iid.toIid.toItem.encode ++ rest = [] ∨ sids.length ≥ outCap) := by
    simp [head, few]
  cases iid with
  | scalar sid =>
      have pint : majorTypeAt ((FetchIid.scalar sid).toIid.toItem.encode ++ rest) = some .pint := major
      have read := iidSimple_decoded 8 wellFormed rfl rest
      refine ⟨0, ?_⟩
      rw [filterSids, filterSidBody, if_neg more]
      simp only [pint, read]
      rfl
  | list sid key =>
      have list : majorTypeAt ((FetchIid.list sid key).toIid.toItem.encode ++ rest) = some .list := major
      obtain ⟨st, text⟩ := keyText fits rest
      obtain ⟨st₁, entered, sidRead⟩ := text.sidRead
      obtain ⟨fuel, skipped⟩ := zcborAnySkip_text text.payload text.fits text.left
      refine ⟨fuel, ?_⟩
      rw [filterSids, filterSidBody, if_neg more]
      simp only [list]
      rw [show zcborListStartDecode (zcborNewDecodeState 8
        ((FetchIid.list sid key).toIid.toItem.encode ++ rest) 1) = some st₁ from entered]
      simp only [sidRead, skipped, Option.map_some, zcborListEndDecode, text.ended]
      rfl

theorem filterSids_items {iids : List FetchIid} (fits : ∀ iid ∈ iids, iid.KeyFits) {outCap : Nat}
    {sids : List UInt64} (few : sids.length + iids.length ≤ outCap) :
    Returns (Fuel.iterate (filterSids outCap)) ⟨sids, fetchPayload (iids.map FetchIid.toIid)⟩
      ⟨sids ++ iids.map FetchIid.sid, []⟩ := by
  induction iids generalizing sids with
  | nil =>
      rw [List.map_nil, List.map_nil, List.append_nil]
      exact Fuel.iterate_done (filterSids_monotone outCap) ⟨0, rfl⟩
  | cons iid rest ih =>
      obtain ⟨first, others⟩ := List.forall_mem_cons.mp fits
      rw [List.length_cons] at few
      have room : (sids ++ [iid.sid]).length + rest.length ≤ outCap := by
        rw [List.length_append, List.length_singleton]
        omega
      have later := ih others room
      rw [List.append_assoc, List.singleton_append] at later
      rw [List.map_cons, fetchPayload_cons, List.map_cons]
      exact Fuel.iterate_next (filterSids_monotone outCap) (filterSids_item first (by omega) _) later

/-- The client's writer, the FETCH handler and the stream filter agree on requests of
up to 64 SIDs and list entries. -/
theorem fetch_readers_agree {iids : List FetchIid} (few : iids.length ≤ 64)
    (fits : ∀ iid ∈ iids, iid.KeyFits) {bufferSize : Nat} {data : List UInt8}
    (created : createFetchRequestWithIids bufferSize (iids.map FetchIid.toIid) = some data) :
    parseFetchIids 64 data = iids ∧
      Returns (streamCollectFilterSids 64) data (some (iids.map FetchIid.sid)) := by
  obtain ⟨nonempty, rfl⟩ := createFetchRequestWithIids_created created
  refine ⟨(isFetchRequest_payload fits).parsed few, ?_⟩
  cases iids with
  | nil => exact absurd rfl nonempty
  | cons iid rest =>
      have room : ([] : List UInt64).length + (iid :: rest).length ≤ 64 := by simpa using few
      obtain ⟨fuel, collected⟩ := filterSids_items fits room
      obtain ⟨byte, bytes, head, -⟩ := Item.encode_first (iid.toItem_wellFormed (fits iid List.mem_cons_self))
      have more : ¬ (fetchPayload ((iid :: rest).map FetchIid.toIid) = [] ∨ 64 = 0) := by
        simp [fetchPayload_cons, head]
      have looped : Fuel.loop (filterSidBody (zcborAnySkip fuel) 64) fuel
          ⟨[], fetchPayload ((iid :: rest).map FetchIid.toIid)⟩ = some ⟨(iid :: rest).map FetchIid.sid, []⟩ :=
        collected
      refine ⟨fuel, ?_⟩
      rw [streamCollectFilterSids, if_neg more, looped]
      rfl

theorem fetch_readers_agree_eth0 :
    parseFetchIids 64 [0x19, 0x06, 0xBB, 0x9F, 0x19, 0x05, 0xFD, 0x64, 0x65, 0x74, 0x68, 0x30, 0xFF] =
        [.scalar 1723, .list 1533 ⟨[0x65, 0x74, 0x68, 0x30], by decide⟩] ∧
      Returns (streamCollectFilterSids 64)
        [0x19, 0x06, 0xBB, 0x9F, 0x19, 0x05, 0xFD, 0x64, 0x65, 0x74, 0x68, 0x30, 0xFF]
        (some ([FetchIid.scalar 1723, .list 1533 ⟨[0x65, 0x74, 0x68, 0x30], by decide⟩].map FetchIid.sid)) := by
  have created : createFetchRequestWithIids 32
      ([FetchIid.scalar 1723, .list 1533 ⟨[0x65, 0x74, 0x68, 0x30], by decide⟩].map FetchIid.toIid) =
    some [0x19, 0x06, 0xBB, 0x9F, 0x19, 0x05, 0xFD, 0x64, 0x65, 0x74, 0x68, 0x30, 0xFF] := by decide
  refine fetch_readers_agree (by decide) ?_ created
  rintro iid (_ | ⟨_, _ | ⟨_, ⟨⟩⟩⟩)
  · trivial
  · exact (by decide : [0x65, 0x74, 0x68, 0x30].length ≤ 127)

end Coreconf
