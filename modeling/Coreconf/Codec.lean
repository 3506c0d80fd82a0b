import Coreconf.DecoderTermination
import Coreconf.EncoderWrites
import Coreconf.ItemContents
import Coreconf.ItemDecode

set_option autoImplicit false

/- The decoder against the items of RFC 8949 and against the encoder. -/
namespace Coreconf

open Cbor (Item Width head)

/-- The bytes of an object in memory, so that pointers into it can be subtracted. -/
structure Payload where
  bytes : List UInt8
  object : bytes.length < 2 ^ 63

theorem Payload.size (payload : Payload) : payload.bytes.length ≤ ZCBOR_LARGE_ELEM_COUNT :=
  (Nat.le_of_lt payload.object).trans (by decide)

/-- What is extracted is the argument of a head that is there. -/
theorem valueExtractFixed_sound {st st' : ZcborState} {t : ZcborMajorType} {resultLen n : Nat}
    (major : majorTypeAt st.payload = some t)
    (extracted : valueExtractFixed st resultLen = some (n, st')) :
    st.elemCount ≠ 0 ∧ ∃ w rest, st.payload = head t.number w n ++ rest ∧ n < w.bound ∧
      w.length ≤ resultLen ∧ st' = st.after rest := by
  unfold valueExtractFixed at extracted
  split at extracted
  swap
  · cases extracted
  rename_i found
  cases extracted
  unfold valueExtract at found
  split at found
  · cases found
  rename_i byte tail payload
  rw [payload, majorTypeAt, List.head?_cons, Option.map_some, Option.some.injEq] at major
  subst major
  have first : UInt8.ofNat (32 * (ZCBOR_MAJOR_TYPE byte).number + byte.toNat % 32) = byte := by
    rw [ZCBOR_MAJOR_TYPE_number, Nat.div_add_mod, UInt8.ofNat_toNat]
  split at found
  · cases found
  rename_i left
  refine ⟨left, ?_⟩
  dsimp only at found
  split at found
  · rename_i indefinite
    cases indefinite.2
  split at found
  · cases found
  rename_i additional
  have additional : byte.toNat % 32 ≤ 27 := Nat.not_lt.mp additional
  split at found
  · cases found
  rename_i room
  split at found
  · cases found
  rename_i enough
  simp only [Option.some.injEq, Prod.mk.injEq, ExtractedValue.value.injEq] at found
  obtain ⟨value, same⟩ := found
  rw [ZCBOR_ADDITIONAL] at value same room enough
  have wide : ∀ w : Width, w.length ≠ 0 → byte.toNat % 32 = w.additional 0 →
      (∀ n, w.additional n = w.additional 0) → 256 ^ w.length = w.bound →
      additionalLen (byte.toNat % 32) = w.length →
      ∃ w rest, byte :: tail = head (ZCBOR_MAJOR_TYPE byte).number w n ++ rest ∧ n < w.bound ∧
        w.length ≤ resultLen ∧ st' = st.after rest := by
    intro w more low constant bound length
    rw [length] at value same enough room
    rw [if_neg more] at value
    have taken : (tail.take w.length).length = w.length := by
      rw [List.length_take]
      omega
    refine ⟨w, tail.drop w.length, ?_, ?_, by omega, same.symm⟩
    · have bytes := Cbor.beBytes_beNat (tail.take w.length)
      rw [taken, value] at bytes
      rw [head, constant, ← low, first, bytes, List.cons_append, List.take_append_drop]
    · rw [← value, ← bound, ← taken, taken]
      exact (Cbor.beNat_lt _).trans_eq (by rw [taken])
  have cases : byte.toNat % 32 ≤ 23 ∨ byte.toNat % 32 = 24 ∨ byte.toNat % 32 = 25 ∨
      byte.toNat % 32 = 26 ∨ byte.toNat % 32 = 27 := by omega
  rw [payload]
  rcases cases with low | low | low | low | low
  · have none : additionalLen (byte.toNat % 32) = 0 := if_pos low
    rw [none] at value same
    rw [if_pos rfl] at value
    subst value
    exact ⟨.immediate, tail, by rw [head, Width.additional, first]; rfl, by simp only [Width.bound]; omega,
      Nat.zero_le _, same.symm⟩
  · exact wide .one (by decide) low (fun _ => rfl) rfl (by rw [low]; rfl)
  · exact wide .two (by decide) low (fun _ => rfl) rfl (by rw [low]; rfl)
  · exact wide .four (by decide) low (fun _ => rfl) rfl (by rw [low]; rfl)
  · exact wide .eight (by decide) low (fun _ => rfl) rfl (by rw [low]; rfl)

/-- A well-formed item that is not a container stands at the payload pointer. -/
def ScalarAt (st : ZcborState) : Prop :=
  st.elemCount ≠ 0 ∧ ∃ item rest, Item.WellFormed item ∧ item.isContainer = false ∧
    st.payload = item.encode ++ rest

private theorem strDecode_sound {st st' : ZcborState} {t : ZcborMajorType} {bytes : List UInt8}
    (major : majorTypeAt st.payload = some t) (read : strDecode st t = some (bytes, st')) :
    st.elemCount ≠ 0 ∧ ∃ w rest, st.payload = Cbor.string t.number w bytes ++ rest ∧
      bytes.length < w.bound := by
  unfold strDecode at read
  split at read
  swap
  · cases read
  split at read
  swap
  · cases read
  rename_i len left extracted
  obtain ⟨counted, w, rest, payload, fits, -, rfl⟩ := valueExtractFixed_sound major extracted
  split at read
  · cases read
  rename_i enough
  have enough : len ≤ rest.length := Nat.not_lt.mp enough
  cases read
  have length : (rest.take len).length = len := by rw [List.length_take, Nat.min_eq_left enough]
  refine ⟨counted, w, rest.drop len, ?_, ?_⟩
  · show st.payload = head t.number w (rest.take len).length ++ rest.take len ++ rest.drop len
    rw [length, payload, List.append_assoc, List.take_append_drop]
  · show (rest.take len).length < w.bound
    rwa [length]

private theorem zcborSimpleDecode_sound {st st' : ZcborState} {n : Nat}
    (major : majorTypeAt st.payload = some .simple) (read : zcborSimpleDecode st = some (n, st')) :
    ScalarAt st := by
  unfold zcborSimpleDecode at read
  split at read
  · cases read
  rename_i byte tail payload
  split at read
  · cases read
  split at read
  · cases read
  split at read
  · cases read
  rename_i result left extracted
  obtain ⟨counted, w, rest, encoded, fits, -, -⟩ := valueExtractFixed_sound major extracted
  split at read
  · cases read
  rename_i simple
  refine ⟨counted, .primitive w result, rest, .primitive fits fun one => ?_, rfl, encoded⟩
  subst one
  rw [payload, head, List.cons_append, List.cons.injEq] at encoded
  have additional : ZCBOR_ADDITIONAL byte = 24 := by
    rw [encoded.1]
    exact (show ZCBOR_ADDITIONAL (UInt8.ofNat (32 * 7 + 24)) = 24 by decide)
  exact Nat.not_lt.mp fun small => simple ⟨additional, small⟩

private theorem zcborFloat64Decode_sound {st st' : ZcborState} {bits : UInt64}
    (major : majorTypeAt st.payload = some .simple)
    (read : zcborFloat64Decode st = some (bits, st')) : ScalarAt st := by
  unfold zcborFloat64Decode at read
  split at read
  · cases read
  rename_i byte tail payload
  split at read
  · cases read
  split at read
  · cases read
  rename_i double
  split at read
  swap
  · cases read
  rename_i n left extracted
  obtain ⟨counted, w, rest, encoded, fits, -, -⟩ := valueExtractFixed_sound major extracted
  refine ⟨counted, .primitive w n, rest, .primitive fits fun one => ?_, rfl, encoded⟩
  subst one
  rw [payload, head, List.cons_append, List.cons.injEq] at encoded
  rw [encoded.1] at double
  exact absurd (show ZCBOR_ADDITIONAL (UInt8.ofNat (32 * 7 + 24)) ≠ 27 by decide) double

private theorem scalarAt {st st' : ZcborState} {t : ZcborMajorType} {v : CoreconfValueT}
    (major : majorTypeAt st.payload = some t) (read : cborToCoreconfScalar st t = some (v, st')) :
    ScalarAt st := by
  cases t with
  | pint =>
      obtain ⟨⟨u, left⟩, decoded, -⟩ := Option.map_eq_some_iff.mp read
      unfold zcborUint64Decode at decoded
      split at decoded
      · split at decoded
        · rename_i extracted
          obtain ⟨counted, w, rest, encoded, fits, -, -⟩ := valueExtractFixed_sound major extracted
          exact ⟨counted, .uint w _, rest, .uint fits, rfl, encoded⟩
        · cases decoded
      · cases decoded
  | nint =>
      obtain ⟨⟨i, left⟩, decoded, -⟩ := Option.map_eq_some_iff.mp read
      unfold zcborInt64Decode at decoded
      split at decoded
      · split at decoded
        · rename_i extracted
          obtain ⟨counted, w, rest, encoded, fits, -, -⟩ := valueExtractFixed_sound major extracted
          exact ⟨counted, .nint w _, rest, .nint fits, rfl, encoded⟩
        · cases decoded
      · cases decoded
  | bstr =>
      obtain ⟨⟨bytes, left⟩, decoded, -⟩ := Option.map_eq_some_iff.mp read
      obtain ⟨counted, w, rest, encoded, fits⟩ := strDecode_sound major decoded
      exact ⟨counted, .bstr w bytes, rest, .bstr fits, rfl, encoded⟩
  | tstr =>
      obtain ⟨⟨bytes, left⟩, decoded, -⟩ := Option.map_eq_some_iff.mp read
      obtain ⟨counted, w, rest, encoded, fits⟩ := strDecode_sound major decoded
      exact ⟨counted, .tstr w bytes, rest, .tstr fits, rfl, encoded⟩
  | simple =>
      simp only [cborToCoreconfScalar] at read
      split at read
      · rename_i decoded
        exact zcborFloat64Decode_sound major decoded
      · split at read
        · rename_i decoded
          unfold zcborBoolDecode at decoded
          split at decoded
          · rename_i simple
            exact zcborSimpleDecode_sound major simple
          · cases decoded
        · obtain ⟨left, decoded, -⟩ := Option.map_eq_some_iff.mp read
          unfold zcborNilExpect at decoded
          split at decoded
          · rename_i simple
            exact zcborSimpleDecode_sound major simple
          · cases decoded
  | list => cases read
  | map => cases read
  | tag => cases read

/-- A scalar that is read is a complete item, and its value is the item's. -/
theorem cborToCoreconfScalar_sound {st st' : ZcborState} {t : ZcborMajorType} {v : CoreconfValueT}
    (major : majorTypeAt st.payload = some t) (read : cborToCoreconfScalar st t = some (v, st')) :
    ∃ item rest, Item.WellFormed item ∧ item.isContainer = false ∧
      st.payload = item.encode ++ rest ∧ item.value? = some v ∧ st' = st.after rest := by
  obtain ⟨counted, item, rest, wellFormed, scalar, payload⟩ := scalarAt major read
  have same : item.majorType = t := by
    rw [payload, majorTypeAt_item wellFormed, Option.some.injEq] at major
    exact major
  have decoded := cborToCoreconfScalar_item wellFormed scalar payload counted
  rw [same, read] at decoded
  obtain ⟨value, found, pair⟩ := Option.map_eq_some_iff.mp decoded.symm
  cases pair
  exact ⟨item, rest, wellFormed, scalar, payload, found, rfl⟩

namespace CoreconfValueT

theorem Valid.insert_widest {map : CoreconfHashMapT CoreconfValueT} (valid : Valid (.hashmap map))
    (widest : Widest (.hashmap map)) {value : CoreconfValueT} (new : Widest value) (key : UInt64) :
    Widest (.hashmap (insertCoreconfHashMap map key (some value)).2) := by
  cases widest with
  | hashmap each =>
      by_cases inserted : (insertCoreconfHashMap map key (some value)).1 = 0
      · refine .hashmap fun object member other same => ?_
        rcases (valid.repInv.mem_insert inserted).mp member with rfl | ⟨member, -⟩
        · cases same
          exact new
        · exact each object member other same
      · rw [insertCoreconfHashMap_refused inserted]
        exact .hashmap each

end CoreconfValueT

theorem scalar_widest {st st' : ZcborState} {t : ZcborMajorType} {v : CoreconfValueT}
    (major : majorTypeAt st.payload = some t) (read : cborToCoreconfScalar st t = some (v, st')) :
    v.isContainer = false ∧ v.Widest := by
  obtain ⟨item, rest, wellFormed, scalar, -, found, -⟩ := cborToCoreconfScalar_sound major read
  cases wellFormed with
  | uint fits =>
      cases found
      exact ⟨rfl, .uint64 _⟩
  | nint fits =>
      simp only [Item.value?, Option.ite_none_right_eq_some, Option.some.injEq] at found
      obtain ⟨small, rfl⟩ := found
      refine ⟨rfl, .int64 ?_⟩
      rw [Int64.lt_iff_toInt_lt, flipped_toInt small, Int64.toInt_zero]
      omega
  | bstr fits =>
      cases found
      exact ⟨rfl, .string _⟩
  | tstr fits =>
      cases found
      exact ⟨rfl, .string _⟩
  | bstrChunks fits => cases found
  | tstrChunks fits => cases found
  | list fits members => cases scalar
  | map fits keys values => cases scalar
  | tag fits inner => cases found
  | primitive fits simple =>
      simp only [Item.value?] at found
      unfold Item.simpleValue? at found
      split at found <;> cases found
      · exact ⟨rfl, .false⟩
      · exact ⟨rfl, .true⟩
      · exact ⟨rfl, .null⟩
      · exact ⟨rfl, .real _⟩

/-- Whatever the decoder returns is a valid value, with its integers of the widest type. -/
theorem decoderInvariant_valid : DecoderInvariant (fun _ _ => True)
    (fun value => value.Valid ∧ value.Widest) where
  refl _ := trivial
  trans _ _ _ _ _ := trivial
  scalar _ _ _ _ major read := by
    obtain ⟨leaf, widest⟩ := scalar_widest major read
    exact ⟨trivial, .leaf leaf, widest⟩
  key _ _ _ _ := trivial
  listStart _ _ _ := trivial
  mapStart _ _ _ _ := trivial
  containerEnd _ := trivial
  array _ each := ⟨.array fun element member => (each element member).1,
    .array fun element member => (each element member).2⟩
  create := ⟨CoreconfValueT.valid_createCoreconfHashmap, .hashmap (by simp)⟩
  insert _ key _ map value := ⟨map.1.insert value.1 key, map.1.insert_widest map.2 value.2 key⟩

/-- A value that is not a container is what the scalar branch read. -/
private theorem scalar_decoded {st st' : ZcborState} {t : ZcborMajorType} {value : CoreconfValueT}
    (returned : (some value, st') = scalarResult st (cborToCoreconfScalar st t)) :
    cborToCoreconfScalar st t = some (value, st') := by
  cases read : cborToCoreconfScalar st t with
  | none =>
      rw [read] at returned
      cases returned
  | some found =>
      rw [read] at returned
      cases returned
      rfl

theorem Decodes.valid {st st' : ZcborState} {indent : Nat} {value : CoreconfValueT}
    (decoded : Decodes st indent (some value, st')) : value.Valid :=
  ((decoderInvariant_valid.decodes decoded).2 value rfl).1

theorem Decodes.widest {st st' : ZcborState} {indent : Nat} {value : CoreconfValueT}
    (decoded : Decodes st indent (some value, st')) : value.Widest :=
  ((decoderInvariant_valid.decodes decoded).2 value rfl).2

/-- Only the head of a map starts a hash map. -/
theorem Decodes.map_head {st st' : ZcborState} {indent : Nat} {map : CoreconfHashMapT CoreconfValueT}
    (decoded : Decodes st indent (some (.hashmap map), st')) : majorTypeAt st.payload = some .map := by
  rw [decodes_iff] at decoded
  split at decoded
  · cases decoded
  · cases major : majorTypeAt st.payload with
    | none =>
        rw [major] at decoded
        cases decoded
    | some t =>
        rw [major] at decoded
        cases t with
        | map => rfl
        | list =>
            dsimp only at decoded
            split at decoded
            · cases decoded
            · obtain ⟨ended, elements, left, -, same⟩ := decoded
              cases same
        | _ => cases (scalar_widest major (scalar_decoded decoded)).1

/-- What starts as a map is never refused: where its head is, it is an empty map. -/
theorem Decodes.hashmap {st st' : ZcborState} {value : Option CoreconfValueT}
    (decoded : Decodes st 0 (value, st')) (major : majorTypeAt st.payload = some .map) :
    ∃ map, value = some (.hashmap map) := by
  rw [decodes_iff, if_neg (by decide), major] at decoded
  dsimp only at decoded
  split at decoded
  · cases decoded
    exact ⟨_, rfl⟩
  · obtain ⟨ended, loop, -, same⟩ := decoded
    cases same
    exact ⟨_, rfl⟩

/-- The value comes from exactly the bytes that were consumed: they are one item, and
the value is that item's. -/
def Sound (nStates : Nat) (data : List UInt8) : Prop :=
  ∀ value st', Decodes (zcborNewDecodeState nStates data 1) 0 (some value, st') →
    ∃ item, Item.WellFormed item ∧ data = item.encode ++ st'.payload ∧
      item.tree? = some value.toTree ∧ value.Widest

/-- A complete item stands first that the decoder can hold and has the levels for. -/
def WithinLimits (nStates : Nat) (data : List UInt8) : Prop :=
  ∃ item rest, Item.WellFormed item ∧ data = item.encode ++ rest ∧ item.value?.isSome ∧
    item.depth ≤ nStates - 2 ∧ item.levels ≤ CORECONF_MAX_DEPTH ∧ item.Textual

/-- An item at the start of a payload is read to its end. -/
theorem decodes_item (nStates : Nat) (payload : Payload) {item : Item} {rest : List UInt8}
    (wellFormed : item.WellFormed) (same : payload.bytes = item.encode ++ rest)
    {value : CoreconfValueT} (read : item.value? = some value) (depth : item.depth ≤ nStates - 2)
    (levels : item.levels ≤ CORECONF_MAX_DEPTH) :
    Decodes (zcborNewDecodeState nStates payload.bytes 1) 0
      (some value, (zcborNewDecodeState nStates payload.bytes 1).after rest) :=
  readsBack wellFormed read ⟨same, Nat.one_ne_zero, by simpa [zcborNewDecodeState] using depth,
    by simpa using levels, payload.size⟩

/-- A payload that is one item of at most six levels of containers is parsed as its value. -/
theorem parseRequest_item (payload : Payload) {item : Item} (wellFormed : item.WellFormed)
    (same : payload.bytes = item.encode) {value : CoreconfValueT} (read : item.value? = some value)
    (depth : item.depth ≤ 6) : Fuel.Returns parseRequest payload.bytes (some value) := by
  have shallow := (item.levels_le_depth.trans depth).trans (show 6 ≤ CORECONF_MAX_DEPTH by decide)
  rw [parseRequest_returns_iff (same ▸ Item.encode_ne_nil wellFormed)]
  exact ⟨_, decodes_item 8 payload wellFormed (same.trans (List.append_nil _).symm) read depth shallow⟩

/-- Of a payload that is one map the first 51 entries are parsed, if they nest at most five levels. -/
theorem parseRequest_map (payload : Payload) {framing : Cbor.Framing} {entries : List (Item × Item)}
    (wellFormed : Item.WellFormed (.map framing entries))
    (same : payload.bytes = (Item.map framing entries).encode)
    {members : List (UInt64 × CoreconfValueT)}
    (read : Item.members? (entries.take Item.maxEntries) = some members)
    (depth : Item.depthEntries (entries.take Item.maxEntries) ≤ 5) :
    Fuel.Returns parseRequest payload.bytes
      (some (.hashmap (insertMembers members createCoreconfHashmap))) := by
  have levels : Item.levelsEntries (entries.take Item.maxEntries) ≤ 6 :=
    (Item.levels_le_depth (.map framing (entries.take Item.maxEntries))).trans (Nat.succ_le_succ depth)
  have shallow : 0 + Item.levelsEntries (entries.take Item.maxEntries) ≤ CORECONF_MAX_DEPTH := by
    rw [Nat.zero_add]
    exact levels.trans (by decide)
  rw [parseRequest_returns_iff (same ▸ Item.encode_ne_nil wellFormed)]
  exact decodes_map wellFormed read (same.trans (List.append_nil _).symm) Nat.one_ne_zero
    (show Item.depthEntries (entries.take Item.maxEntries) + 1 + 0 ≤ 6 by omega) shallow payload.size

private theorem sound_of_item {data : List UInt8} {item : Item} {rest : List UInt8}
    {value : CoreconfValueT} {st' : ZcborState} (wellFormed : item.WellFormed)
    (same : data = item.encode ++ rest) (read : item.value? = some value) (textual : item.Textual)
    (left : st'.payload = rest) (widest : value.Widest) :
    ∃ item, Item.WellFormed item ∧ data = item.encode ++ st'.payload ∧
      item.tree? = some value.toTree ∧ value.Widest :=
  ⟨item, wellFormed, left ▸ same, Item.tree?_of_value read wellFormed textual, widest⟩

private theorem sound_of_limits {nStates : Nat} (payload : Payload)
    (limits : WithinLimits nStates payload.bytes) : Sound nStates payload.bytes := by
  intro value st' decoded
  obtain ⟨item, rest, wellFormed, same, found, depth, levels, textual⟩ := limits
  obtain ⟨value', read⟩ := Option.isSome_iff_exists.mp found
  have both := decoded.unique (decodes_item nStates payload wellFormed same read depth levels)
  cases both
  exact sound_of_item wellFormed same read textual rfl decoded.widest

/-- Soundness wherever no failure of a nested parse is dropped: the payload does not
start with a container, or with a complete one within the limits, or nothing returns. -/
theorem decoder_sound (nStates : Nat) (payload : Payload)
    (complete : majorTypeAt payload.bytes = some .list ∨ majorTypeAt payload.bytes = some .map →
      NeverStalls (.value (zcborNewDecodeState nStates payload.bytes 1) 0) →
        WithinLimits nStates payload.bytes)
    (textual : ∀ item rest, Item.WellFormed item → item.isContainer = false →
      payload.bytes = item.encode ++ rest → item.Textual) :
    Sound nStates payload.bytes := by
  intro value st' decoded
  have never := decodes_returns_iff.mp ⟨_, decoded⟩
  have run := decoded
  rw [decodes_iff, if_neg (by decide)] at run
  simp only [show (zcborNewDecodeState nStates payload.bytes 1).payload = payload.bytes from rfl] at run
  rcases major : majorTypeAt payload.bytes with _ | t
  · rw [major] at run
    cases run
  · cases t with
    | list => exact sound_of_limits payload (complete (Or.inl major) never) value st' decoded
    | map => exact sound_of_limits payload (complete (Or.inr major) never) value st' decoded
    | _ =>
        rw [major] at run
        obtain ⟨item, rest, wellFormed, scalar, same, read, rfl⟩ :=
          cborToCoreconfScalar_sound major (scalar_decoded run)
        exact sound_of_item wellFormed same read (textual item rest wellFormed scalar same) rfl
          decoded.widest

theorem decoder_sound_map : Sound 8 [0xA1, 0x01, 0x82, 0x02, 0xF5] := by
  have wellFormed : Item.WellFormed (.map (.definite .immediate) [(.uint .immediate 1,
      .list (.definite .immediate) [.uint .immediate 2, .primitive .immediate 21])]) := by
    refine .map (by decide) ?_ ?_
    · rintro entry (_ | ⟨_, ⟨⟩⟩)
      exact .uint (by decide)
    · rintro entry (_ | ⟨_, ⟨⟩⟩)
      refine .list (by decide) ?_
      rintro item (_ | ⟨_, _ | ⟨_, ⟨⟩⟩⟩)
      · exact .uint (by decide)
      · exact .primitive (by decide) (by decide)
  refine decoder_sound 8 ⟨[0xA1, 0x01, 0x82, 0x02, 0xF5], by decide⟩ (fun _ _ => ?_) ?_
  · exact ⟨_, [], wellFormed, by decide, rfl, by decide, by decide, by simp [Item.Textual,
      Item.TextualEntries, Item.TextualItems]⟩
  · intro item rest wellFormed scalar same
    have major := majorTypeAt_item wellFormed rest
    rw [← same, show majorTypeAt [0xA1, 0x01, 0x82, 0x02, 0xF5] = some .map from rfl,
      Option.some.injEq] at major
    cases wellFormed with
    | map fits keys values => cases scalar
    | _ => cases major

/-- What begins as an indefinite map ends in a stop code. -/
theorem breakCode_mem_encode {item : Item} (wellFormed : item.WellFormed) {rest tail : List UInt8}
    (same : item.encode ++ rest = 0xBF :: tail) : Cbor.breakCode ∈ item.encode := by
  have major := majorTypeAt_item wellFormed rest
  rw [same, show majorTypeAt (0xBF :: tail) = some .map from rfl, Option.some.injEq] at major
  cases wellFormed with
  | @map framing entries fits keys values =>
      cases framing with
      | definite w =>
          have first := congrArg List.head? same
          have fits : entries.length < w.bound := fits
          have le := Width.additional_le fits
          simp only [Item.encode, Cbor.Framing.opening, head, List.cons_append, List.head?_cons,
            Option.some.injEq] at first
          have byte := congrArg UInt8.toNat first
          rw [UInt8.toNat_ofNat_of_lt' (by simp only [UInt8.size]; omega)] at byte
          have value : (0xBF : UInt8).toNat = 191 := rfl
          omega
      | indefinite => simp [Item.encode, Cbor.Framing.closing]
  | _ => cases major

/-- The head of an indefinite map alone is not an item. -/
theorem encode_ne_unclosed {item : Item} (wellFormed : item.WellFormed) : item.encode ≠ [0xBF] := by
  intro same
  have whole : item.encode ++ [] = 0xBF :: [] := by
    rw [same]
    rfl
  have closed := breakCode_mem_encode wellFormed whole
  rw [same] at closed
  exact absurd closed (by decide)

theorem decodes_unclosed : Decodes (zcborNewDecodeState 8 [0xBF] 1) 0
    (some (.hashmap createCoreconfHashmap), ⟨[], ZCBOR_LARGE_ELEM_COUNT, true, [⟨0, false⟩], 6⟩) :=
  ⟨2, rfl⟩

/-- The head of a map whose entries never come reads as the empty map. -/
theorem unclosed_map_not_sound : ¬ Sound 8 [0xBF] := by
  intro sound
  obtain ⟨item, wellFormed, same, -, -⟩ := sound _ _ decodes_unclosed
  rw [List.append_nil] at same
  exact encode_ne_unclosed wellFormed same.symm

/-- What the encoder writes for a value, the decoder reads as the same value up to the
width of integers and the order in buckets, and it stops where the encoding stops. -/
theorem codec_round_trip {nesting : Nat} {value : CoreconfValueT} (fits : value.Fits nesting)
    (shallow : nesting ≤ CORECONF_MAX_DEPTH) :
    ∃ bytes,
      (∀ st : EncodeState, bytes.length ≤ st.room →
        coreconfToCBOR value st = (true, st.write bytes)) ∧
      ∀ (payload : Payload) (w : List UInt8), payload.bytes = bytes ++ w →
        ∃ value' st', Decodes (zcborNewDecodeState (nesting + 2) payload.bytes 1) 0 (some value', st') ∧
          value'.toTree = value.toTree ∧ value'.Widest ∧ st'.payload = w := by
  obtain ⟨value', read, same⟩ := fits.readable
  refine ⟨value.toItem.encode, fun st room => fits.noNull.writes room, fun payload w split => ?_⟩
  have levels := value.toItem.levels_le_depth
  have depth := fits.depth_le
  have decoded := decodes_item (nesting + 2) payload fits.wellFormed split read (by omega)
    (by omega)
  exact ⟨value', _, decoded, same, decoded.widest, rfl⟩

theorem codec_round_trip_nested :
    ∃ bytes,
      (∀ st : EncodeState, bytes.length ≤ st.room →
        coreconfToCBOR (.hashmap (insertCoreconfHashMap createCoreconfHashmap 60001 (some
          (.array [.int64 Int64.minValue, .uint8 7, .null]))).2) st = (true, st.write bytes)) ∧
      ∀ (payload : Payload) (w : List UInt8), payload.bytes = bytes ++ w →
        ∃ value' st', Decodes (zcborNewDecodeState (2 + 2) payload.bytes 1) 0 (some value', st') ∧
          value'.toTree = (CoreconfValueT.hashmap (insertCoreconfHashMap createCoreconfHashmap 60001
            (some (.array [.int64 Int64.minValue, .uint8 7, .null]))).2).toTree ∧
          value'.Widest ∧ st'.payload = w := by
  refine codec_round_trip (show CoreconfValueT.Fits 2 _ from .hashmap ?_ ?_ ?_ ?_) (by decide)
  all_goals rw [show (insertCoreconfHashMap createCoreconfHashmap 60001 (some (CoreconfValueT.array
    [.int64 Int64.minValue, .uint8 7, .null]))).2.objects = [⟨60001, some (.array
      [.int64 Int64.minValue, .uint8 7, .null])⟩] from rfl]
  · simp
  · decide
  · simp
  · rintro object (_ | ⟨_, ⟨⟩⟩) value same
    cases same
    refine .array ?_
    rintro element (_ | ⟨_, _ | ⟨_, _ | ⟨_, ⟨⟩⟩⟩⟩) <;> exact .leaf rfl (by simp)

end Coreconf
