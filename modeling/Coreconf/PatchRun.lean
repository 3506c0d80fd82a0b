import Coreconf.ItemDecode
import Coreconf.PatchMeaning
import Coreconf.Termination

set_option autoImplicit false

/- What apply_ipatch_raw does with a sequence of well-formed maps. -/
namespace Cbor.Item

open Coreconf (CoreconfValueT PatchKey keyBuffer)

/-- An unsigned integer, or an array of one and a text. -/
inductive IsPatchKey : Item → Prop
  | sid (w n) : IsPatchKey (.uint w n)
  | listInstance (framing w n w' bytes) : IsPatchKey (.list framing [.uint w n, .tstr w' bytes])
  | chunkedInstance (framing w n chunks) : IsPatchKey (.list framing [.uint w n, .tstrChunks chunks])

/-- The key that the patch loop reads; a text in chunks is not read. -/
def patchKey? : Item → Option PatchKey
  | uint _ n => some (.sid (UInt64.ofNat n))
  | list _ [uint _ n, tstr _ bytes] => some (.listInstance (UInt64.ofNat n) (keyBuffer bytes))
  | _ => none

/-- An item that leaves the patch loop in its place when it is decoded. -/
def Readable (item : Item) : Prop := item.value?.isSome ∧ item.depth ≤ 5

instance (item : Item) : Decidable item.Readable := inferInstanceAs (Decidable (_ ∧ _))

end Cbor.Item

namespace Coreconf

open Cbor (Item Framing)
open Fuel (Returns)

/-- A key that fits the key buffer is what it keeps. -/
theorem keyBuffer_short {keyStr : CString} (short : keyStr.bytes.length ≤ 127) :
    keyBuffer keyStr.bytes = keyStr := by
  rw [keyBuffer, List.take_of_length_le short, CString.ofBuffer_bytes]

/-- A sequence of well-formed maps with the keys of a patch, and all their entries. -/
inductive PatchPayload : List UInt8 → List (Item × Item) → Prop
  | nil : PatchPayload [] []
  | map {framing entries data later} (wellFormed : Item.WellFormed (.map framing entries))
      (keys : ∀ entry ∈ entries, entry.1.IsPatchKey) (rest : PatchPayload data later) :
      PatchPayload ((Item.map framing entries).encode ++ data) (entries ++ later)

theorem PatchPayload.one {framing : Framing} {entries : List (Item × Item)}
    (wellFormed : Item.WellFormed (.map framing entries)) (keys : ∀ entry ∈ entries, entry.1.IsPatchKey) :
    PatchPayload (Item.map framing entries).encode entries := by
  have sequence := PatchPayload.map wellFormed keys .nil
  rwa [List.append_nil, List.append_nil] at sequence

theorem PatchPayload.eq_nil {pairs : List (Item × Item)} (sequence : PatchPayload [] pairs) : pairs = [] := by
  generalize none : ([] : List UInt8) = data at sequence
  cases sequence with
  | nil => rfl
  | map wellFormed keys rest =>
      obtain ⟨byte, later, first, -, -⟩ := Item.encode_first wellFormed
      rw [first] at none
      cases none

def readPair? (entry : Item × Item) : Option (PatchKey × CoreconfValueT) :=
  match entry.1.patchKey?, entry.2.value? with
  | some key, some value => some (key, value)
  | _, _ => none

/-- The entries before the first one with a key or value that is refused. -/
def readEntries : List (Item × Item) → List (PatchKey × CoreconfValueT)
  | [] => []
  | entry :: rest =>
      match readPair? entry with
      | some read => read :: readEntries rest
      | none => []

/-- Every entry that the patch loop comes to, and whose value is a container, has one
that the decoder reads to its end. -/
def ContainersRead : List (Item × Item) → Prop
  | [] => True
  | entry :: rest =>
      (entry.1.patchKey?.isSome → entry.2.isContainer → entry.2.Readable) ∧
        ((readPair? entry).isSome → ContainersRead rest)

/-- A payload on which the loop over the maps ends. -/
def Blocked (data : List UInt8) : Prop := majorTypeAt data ≠ some .map ∧ data.head? ≠ some 0xFF

theorem zcborMapStartDecode_blocked {data : List UInt8} (blocked : Blocked data) (st : ZcborState)
    (payload : st.payload = data) : (zcborMapStartDecode st).1 = false := by
  have checked : typeCheck st .map = false := by
    rw [typeCheck, payload, beq_eq_false_iff_ne]
    exact blocked.1
  simp [zcborMapStartDecode, listMapStartDecode, checked]

/-- Only a stop code is consumed at the end of a container. -/
theorem listMapEndDecode_payload {st : ZcborState} (other : st.payload.head? ≠ some 0xFF) :
    (listMapEndDecode st).2.payload = st.payload := by
  unfold listMapEndDecode
  split
  · rfl
  · dsimp only
    split
    · cases payload : st.payload with
      | nil => simp [arrayEndExpect]
      | cons byte rest =>
          have notBreak : byte ≠ 0xFF := fun same => other (by rw [payload, same]; rfl)
          simp [arrayEndExpect, notBreak]
    · split <;> rfl

/-- An item of another major type ends the loop over the maps. -/
theorem blocked_item {item : Item} (wellFormed : item.WellFormed) (other : item.majorType ≠ .map)
    (rest : List UInt8) : Blocked (item.encode ++ rest) := by
  refine ⟨?_, ?_⟩
  · rw [majorTypeAt_item wellFormed]
    exact fun same => other (Option.some.inj same)
  · obtain ⟨byte, later, same, -, notBreak⟩ := Item.encode_first wellFormed
    rw [same, List.cons_append, List.head?_cons]
    exact fun same => notBreak (Option.some.inj same)

/-- The state at the text of an array key. -/
def ZcborState.atKeyText (st : ZcborState) (framing : Framing) (sid text : Item) (rest : List UInt8) :
    ZcborState :=
  (st.entered framing 2 (sid.encode ++ (text.encode ++ (framing.closing ++ rest)))).after
    (text.encode ++ (framing.closing ++ rest))

/-- The first two steps of an array key: it is entered and its SID is read. -/
theorem arrayKey_opened {framing : Framing} {w : Cbor.Width} {n : Nat} {text : Item}
    (wellFormed : Item.WellFormed (.list framing [.uint w n, text])) {st : ZcborState}
    {rest : List UInt8} (payload : st.payload = (Item.list framing [.uint w n, text]).encode ++ rest)
    (left : st.elemCount ≠ 0) (room : st.backupList.length < st.numBackups) :
    text.WellFormed ∧ Inside framing 1 (st.atKeyText framing (.uint w n) text rest) ∧
      ∃ st₁, zcborListStartDecode st = some st₁ ∧
        zcborUint64Decode st₁ = some (UInt64.ofNat n, st.atKeyText framing (.uint w n) text rest) := by
  have checked := typeCheck_item wellFormed payload .list
  cases wellFormed with
  | list fits members =>
      have sidFormed := members (.uint w n) List.mem_cons_self
      have textFormed := members text (List.mem_cons_of_mem _ List.mem_cons_self)
      set tail := (Item.uint w n).encode ++ (text.encode ++ (framing.closing ++ rest)) with tail_eq
      have opened : st.payload = framing.opening 4 2 ++ tail := by
        rw [payload]
        simp only [tail_eq, Item.encode, Item.encodeItems, List.append_assoc, List.nil_append,
          List.length_cons, List.length_nil]
      have inside : Inside framing 2 (st.entered framing 2 tail) := entered_inside (by decide)
      exact ⟨textFormed, inside.after _, _,
        listMapStartDecode_opening opened (by decide) fits left checked room,
        zcborUint64Decode_item sidFormed rfl inside.left⟩

/-- A key of a patch is read, or stops the payload where its text begins. -/
theorem decodePatchKey_item {key : Item} (wellFormed : key.WellFormed) (isKey : key.IsPatchKey)
    {st : ZcborState} {rest : List UInt8} (payload : st.payload = key.encode ++ rest)
    (left : st.elemCount ≠ 0) (room : st.backupList.length < st.numBackups) :
    match key.patchKey? with
    | some read => decodePatchKey st = (some read, st.after rest)
    | none => (decodePatchKey st).1 = none ∧ Blocked (decodePatchKey st).2.payload := by
  have major : majorTypeAt st.payload = some key.majorType := by
    rw [payload, majorTypeAt_item wellFormed]
  cases isKey with
  | sid w n =>
      have read := zcborUint64Decode_item wellFormed payload left
      simp only [Item.patchKey?, decodePatchKey, major, Item.majorType, read]
      rfl
  | listInstance framing w n w' bytes =>
      obtain ⟨textFormed, inside, st₁, started, sidRead⟩ := arrayKey_opened wellFormed payload left room
      set st₂ := st.atKeyText framing (.uint w n) (.tstr w' bytes) rest
      have textMajor : majorTypeAt st₂.payload = some .tstr := majorTypeAt_item textFormed _
      have textRead : zcborTstrDecode st₂ = some (bytes, st₂.after (framing.closing ++ rest)) :=
        zcborTstrDecode_item textFormed rfl inside.left
      have ended : listMapEndDecode (st₂.after (framing.closing ++ rest)) = (true, st.after rest) :=
        (inside.after (framing.closing ++ rest)).leave rfl rfl
      simp only [Item.patchKey?, decodePatchKey, major, Item.majorType, started, sidRead]
      rw [if_pos textMajor, textRead]
      simp only [zcborListEndDecode, ended]
  | chunkedInstance framing w n chunks =>
      obtain ⟨textFormed, inside, st₁, started, sidRead⟩ := arrayKey_opened wellFormed payload left room
      set st₂ := st.atKeyText framing (.uint w n) (.tstrChunks chunks) rest
      have textMajor : majorTypeAt st₂.payload = some .tstr := majorTypeAt_item textFormed _
      have textRead : zcborTstrDecode st₂ = none := zcborTstrDecode_item textFormed rfl inside.left
      have blocked : Blocked st₂.payload := blocked_item textFormed (by simp [Item.majorType]) _
      simp only [Item.patchKey?, decodePatchKey, major, Item.majorType, started, sidRead]
      rw [if_pos textMajor, textRead]
      simp only [zcborListEndDecode]
      exact ⟨trivial, (listMapEndDecode_payload blocked.2).symm ▸ blocked⟩

/-- A value is applied, or refused where it stands and leaves the loop there. -/
theorem decodes_patchValue {item : Item} (wellFormed : item.WellFormed)
    (readable : item.isContainer → item.Readable) (st : ZcborState) {rest : List UInt8}
    (payload : st.payload = item.encode ++ rest) (left : st.elemCount ≠ 0)
    (room : st.backupList.length + 5 ≤ st.numBackups)
    (size : st.payload.length ≤ ZCBOR_LARGE_ELEM_COUNT) :
    match item.value? with
    | some value => Decodes st 0 (some value, st.after rest)
    | none => Decodes st 0 (none, st) ∧ Blocked st.payload := by
  cases container : item.isContainer with
  | true =>
      obtain ⟨found, depth⟩ := readable container
      obtain ⟨value, read⟩ := Option.isSome_iff_exists.mp found
      have levels := item.levels_le_depth
      have limit : CORECONF_MAX_DEPTH = 20 := rfl
      rw [read]
      exact readsBack wellFormed read ⟨payload, left, by omega, by omega, size⟩
  | false =>
      have decoded := decodes_scalar wellFormed container 0 payload left (Nat.zero_le _)
      cases read : item.value? with
      | some value => rwa [read] at decoded
      | none =>
          rw [read] at decoded
          refine ⟨decoded, payload ▸ blocked_item wellFormed (fun same => ?_) rest⟩
          cases item with
          | map framing entries => cases container
          | _ => cases same

theorem patchEntries_atEnd {loop : PatchLoop} (atEnd : zcborArrayAtEnd loop.st) :
    Returns (Fuel.iterate patchEntries) loop loop := by
  refine Fuel.iterate_done patchEntries_monotone ?_
  rw [patchEntries_returns_iff, if_pos atEnd]

theorem patchEntries_next {loop left : PatchLoop} {key : PatchKey} {st st' : ZcborState}
    {val : CoreconfValueT} (inside : ¬ zcborArrayAtEnd loop.st)
    (keyed : decodePatchKey loop.st = (some key, st)) (decoded : Decodes st 0 (some val, st'))
    (rest : Returns (Fuel.iterate patchEntries)
      ⟨(applyCounted (loop.target, loop.count) (key, val)).1,
        (applyCounted (loop.target, loop.count) (key, val)).2, st'⟩ left) :
    Returns (Fuel.iterate patchEntries) loop left := by
  refine Fuel.iterate_next patchEntries_monotone ?_ rest
  rw [patchEntries_returns_iff, if_neg inside, keyed]
  exact ⟨some val, st', decoded, rfl⟩

/-- The loop over the entries of one map: all of them are applied, or those before the
first that is refused, where the payload is blocked. -/
theorem patchEntries_items {framing : Framing} {entries : List (Item × Item)}
    (keys : ∀ entry ∈ entries, entry.1.WellFormed ∧ entry.1.IsPatchKey)
    (values : ∀ entry ∈ entries, entry.2.WellFormed) (containers : ContainersRead entries)
    (loop : PatchLoop) {rest : List UInt8}
    (payload : loop.st.payload = Item.encodeEntries entries ++ (framing.closing ++ rest))
    (inside : Inside framing (2 * entries.length) loop.st) {backup : Backup}
    (saved : loop.st.backupList = [backup]) (backups : loop.st.numBackups = 6)
    (size : loop.st.payload.length ≤ ZCBOR_LARGE_ELEM_COUNT) :
    ∃ left, Returns (Fuel.iterate patchEntries) loop left ∧
      (left.target, left.count) = applyEntries loop.target loop.count (readEntries entries) ∧
      if ∀ entry ∈ entries, (readPair? entry).isSome then (zcborMapEndDecode left.st).2.payload = rest
      else Blocked left.st.payload := by
  induction entries generalizing loop with
  | nil =>
      have ended := inside.leave payload saved
      refine ⟨loop, patchEntries_atEnd (inside.atEnd payload), rfl, ?_⟩
      rw [if_pos (by simp), zcborMapEndDecode, ended]
      rfl
  | cons entry later ih =>
      obtain ⟨key, item⟩ := entry
      obtain ⟨⟨keyFormed, isKey⟩, otherKeys⟩ := List.forall_mem_cons.mp keys
      obtain ⟨first, others⟩ := List.forall_mem_cons.mp values
      rw [Item.encodeEntries, List.append_assoc, List.append_assoc] at payload
      rw [List.length_cons, Nat.mul_succ] at inside
      set tail := Item.encodeEntries later ++ (framing.closing ++ rest)
      have sizes := congrArg List.length payload
      simp only [List.length_append] at sizes
      have notEnd := inside.not_atEnd keyFormed payload
      have keyRead := decodePatchKey_item keyFormed isKey payload inside.left
        (by rw [saved, backups, List.length_singleton]; decide)
      have afterKey := inside.after (item.encode ++ tail)
      cases keyed : key.patchKey? with
      | none =>
          rw [keyed] at keyRead
          have stopped : Returns patchEntries loop (.done { loop with st := (decodePatchKey loop.st).2 }) := by
            rw [patchEntries_returns_iff, if_neg notEnd, ← Prod.eta (decodePatchKey loop.st), keyRead.1]
          refine ⟨_, Fuel.iterate_done patchEntries_monotone stopped, ?_, ?_⟩
          · simp [readEntries, readPair?, keyed]
          · rw [if_neg (by simp [readPair?, keyed])]
            exact keyRead.2
      | some read =>
          rw [keyed] at keyRead
          have decoded := decodes_patchValue first (containers.1 (by simp [keyed]))
            (loop.st.after (item.encode ++ tail)) rfl afterKey.left
            (by simp [ZcborState.after, saved, backups])
            (by simp only [ZcborState.after, List.length_append]; omega)
          cases found : item.value? with
          | none =>
              rw [found] at decoded
              have stopped : Returns patchEntries loop
                  (.done { loop with st := loop.st.after (item.encode ++ tail) }) := by
                rw [patchEntries_returns_iff, if_neg notEnd, keyRead]
                exact ⟨none, _, decoded.1, rfl⟩
              refine ⟨_, Fuel.iterate_done patchEntries_monotone stopped, ?_, ?_⟩
              · simp [readEntries, readPair?, keyed, found]
              · rw [if_neg (by simp [readPair?, keyed, found])]
                exact decoded.2
          | some val =>
              rw [found] at decoded
              have entryRead : readPair? (key, item) = some (read, val) := by
                simp only [readPair?, keyed, found]
              have returned := ih otherKeys others (containers.2 (by rw [entryRead]; rfl))
                ⟨(applyCounted (loop.target, loop.count) (read, val)).1,
                  (applyCounted (loop.target, loop.count) (read, val)).2,
                  (loop.st.after (item.encode ++ tail)).after tail⟩
                rfl (afterKey.after tail) saved backups
                (by simp only [ZcborState.after]; omega)
              obtain ⟨left, looped, applied, position⟩ := returned
              refine ⟨left, patchEntries_next notEnd keyRead decoded looped, ?_, ?_⟩
              · rw [applied, readEntries, entryRead, applyEntries_cons]
              · have same : (∀ entry ∈ (key, item) :: later, (readPair? entry).isSome) ↔
                    ∀ entry ∈ later, (readPair? entry).isSome := by
                  rw [List.forall_mem_cons, entryRead]
                  exact and_iff_right rfl
                simp only [same]
                exact position

theorem readEntries_append {entries later : List (Item × Item)} :
    readEntries (entries ++ later) =
      if ∀ entry ∈ entries, (readPair? entry).isSome then readEntries entries ++ readEntries later
      else readEntries entries := by
  induction entries with
  | nil => simp [readEntries]
  | cons entry rest ih =>
      rw [List.cons_append, readEntries, readEntries, ih]
      cases found : readPair? entry with
      | none => simp [found]
      | some read =>
          by_cases every : ∀ entry ∈ rest, (readPair? entry).isSome
          · rw [if_pos every, if_pos (List.forall_mem_cons.mpr ⟨by rw [found]; rfl, every⟩)]
            rfl
          · rw [if_neg every, if_neg fun all => every (List.forall_mem_cons.mp all).2]

theorem ContainersRead.of_append {entries later : List (Item × Item)}
    (containers : ContainersRead (entries ++ later)) :
    ContainersRead entries ∧
      ((∀ entry ∈ entries, (readPair? entry).isSome) → ContainersRead later) := by
  induction entries with
  | nil => exact ⟨trivial, fun _ => containers⟩
  | cons entry rest ih =>
      refine ⟨⟨containers.1, fun read => (ih (containers.2 read)).1⟩, fun every => ?_⟩
      obtain ⟨first, others⟩ := List.forall_mem_cons.mp every
      exact (ih (containers.2 first)).2 others

theorem patchMaps_blocked {data : List UInt8} (blocked : Blocked data)
    (target : CoreconfHashMapT CoreconfValueT) (count : Int) :
    Returns (Fuel.iterate patchMaps) ⟨target, count, data⟩ (count, target) := by
  refine Fuel.iterate_done patchMaps_monotone ?_
  rw [patchMaps_returns_iff]
  split
  · rfl
  · rw [← Prod.eta (zcborMapStartDecode _), zcborMapStartDecode_blocked blocked _ rfl]

/-- The loop over the maps, by induction over the sequence of maps. -/
theorem patchMaps_run {data : List UInt8} {pairs : List (Item × Item)}
    (sequence : PatchPayload data pairs) (containers : ContainersRead pairs)
    (size : data.length < 2 ^ 63) (target : CoreconfHashMapT CoreconfValueT) (count : Int) :
    Returns (Fuel.iterate patchMaps) ⟨target, count, data⟩
      (applyEntries target count (readEntries pairs)).swap := by
  induction sequence generalizing target count with
  | nil =>
      refine Fuel.iterate_done patchMaps_monotone ?_
      rw [patchMaps_returns_iff, if_pos rfl]
      rfl
  | @map framing entries data later wellFormed keys rest ih =>
      obtain ⟨here, there⟩ := containers.of_append
      obtain ⟨byte, bytes, first, -⟩ := Item.encode_first wellFormed
      have nonempty : (Item.map framing entries).encode ++ data ≠ [] := by simp [first]
      have checked : typeCheck (zcborNewDecodeState 8 ((Item.map framing entries).encode ++ data) 1) .map =
          true := typeCheck_item wellFormed rfl .map
      have payload : (zcborNewDecodeState 8 ((Item.map framing entries).encode ++ data) 1).payload =
          framing.opening 5 entries.length ++
            (Item.encodeEntries entries ++ (framing.closing ++ data)) := by
        simp only [zcborNewDecodeState, Item.encode, List.append_assoc]
      cases wellFormed with
      | map fits keysFormed values =>
          have sizes := congrArg List.length payload
          simp only [zcborNewDecodeState, List.length_append] at sizes size
          have counted := length_le_encodeEntries keysFormed values
          have limits : ZCBOR_MAX_ELEM_COUNT = 2 ^ 64 - 1 ∧ ZCBOR_LARGE_ELEM_COUNT = 2 ^ 64 - 16 := by
            decide
          have started := zcborMapStartDecode_opening payload fits Nat.one_ne_zero checked
            (show 0 < 6 by decide) (by omega)
          obtain ⟨left, looped, applied, position⟩ := patchEntries_items
            (fun entry member => ⟨keysFormed entry member, keys entry member⟩) values here
            ⟨target, count,
              (zcborNewDecodeState 8 ((Item.map framing entries).encode ++ data) 1).entered framing
                (2 * entries.length) (Item.encodeEntries entries ++ (framing.closing ++ data))⟩
            rfl (entered_inside (by omega)) rfl rfl
            (by simp only [ZcborState.entered, List.length_append]; omega)
          have next : Returns patchMaps ⟨target, count, (Item.map framing entries).encode ++ data⟩
              (.next ⟨left.target, left.count, (zcborMapEndDecode left.st).2.payload⟩) := by
            rw [patchMaps_returns_iff, if_neg nonempty, started]
            exact ⟨left, looped, rfl⟩
          refine Fuel.iterate_next patchMaps_monotone next ?_
          rw [readEntries_append]
          split_ifs at position ⊢ with every
          · rw [position, applyEntries_append, ← applied]
            exact ih (there every) (by omega) left.target left.count
          · rw [zcborMapEndDecode, listMapEndDecode_payload position.2, ← applied]
            exact patchMaps_blocked position left.target left.count

theorem applyPayload_monotone : Fuel.Monotone applyPayload := by
  refine Fuel.Monotone.of_extends fun m n input le => ?_
  obtain ⟨datastore, data⟩ := input
  cases datastore with
  | hashmap target =>
      simp only [applyPayload, applyIpatchRaw]
      exact .ite (.refl _) (((Fuel.iterate_monotone patchMaps_monotone).extends le _).map _)
  | _ => exact .refl _

theorem applyPayload_returns_iff {target : CoreconfHashMapT CoreconfValueT} {data : List UInt8}
    (nonempty : data ≠ []) {result : Int × CoreconfValueT} :
    Returns applyPayload (.hashmap target, data) result ↔
      ∃ left, Returns (Fuel.iterate patchMaps) ⟨target, 0, data⟩ left ∧
        result = (left.1, .hashmap left.2) := by
  simp only [Returns, applyPayload, applyIpatchRaw, if_neg nonempty, Option.map_eq_some_iff]
  constructor
  · rintro ⟨fuel, ⟨count, target'⟩, ran, same⟩
    exact ⟨(count, target'), ⟨fuel, ran⟩, same.symm⟩
  · rintro ⟨⟨count, target'⟩, ⟨fuel, ran⟩, rfl⟩
    exact ⟨fuel, (count, target'), ran, rfl⟩

/-- A payload of well-formed maps is applied up to the first entry that is refused. -/
theorem applyPayload_run {data : List UInt8} {pairs : List (Item × Item)}
    (sequence : PatchPayload data pairs) (nonempty : data ≠ []) (containers : ContainersRead pairs)
    (size : data.length < 2 ^ 63) (target : CoreconfHashMapT CoreconfValueT) :
    Returns applyPayload (.hashmap target, data)
      ((applyEntries target 0 (readEntries pairs)).2,
        .hashmap (applyEntries target 0 (readEntries pairs)).1) :=
  (applyPayload_returns_iff nonempty).mpr ⟨_, patchMaps_run sequence containers size target 0, rfl⟩

end Coreconf
