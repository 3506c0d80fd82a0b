import Coreconf.DecoderProgress
import Coreconf.Items

set_option autoImplicit false

/- The decoder reads a complete item within its limits, and stops right after it. -/
namespace Cbor.Item

open Coreconf (ZcborMajorType)

def majorType : Item → ZcborMajorType
  | uint .. => .pint
  | nint .. => .nint
  | bstr .. | bstrChunks .. => .bstr
  | tstr .. | tstrChunks .. => .tstr
  | list .. => .list
  | map .. => .map
  | tag .. => .tag
  | primitive .. => .simple

def isContainer : Item → Bool
  | list .. => true
  | map .. => true
  | _ => false

/-- The bytes of a text in one piece. -/
def text? : Item → Option (List UInt8)
  | tstr _ bytes => some bytes
  | _ => none

end Cbor.Item

namespace Coreconf

open Cbor (Item Width Framing head indefiniteHead breakCode)

/-- The state after one element has been consumed. -/
def ZcborState.after (st : ZcborState) (rest : List UInt8) : ZcborState :=
  { st with payload := rest, elemCount := st.elemCount - 1 }

theorem payload_with (st : ZcborState) (payload : List UInt8) :
    ZcborState.payload { st with payload := payload } = payload := rfl

theorem ZcborState.after_payload (st : ZcborState) (rest : List UInt8) : (st.after rest).payload = rest := rfl

private theorem headByte_toNat {major : Nat} {w : Width} {n : Nat} (small : major < 8)
    (fits : n < w.bound) :
    (UInt8.ofNat (32 * major + w.additional n)).toNat = 32 * major + w.additional n := by
  have additional := Width.additional_le fits
  exact UInt8.toNat_ofNat_of_lt' (by simp only [UInt8.size]; omega)

private theorem additionalLen_eq {w : Width} {n : Nat} (fits : n < w.bound) :
    additionalLen (w.additional n) = w.length := by
  cases w with
  | immediate => exact if_pos (Nat.le_of_lt_succ fits)
  | _ => rfl

private theorem additional_head {major : Nat} {w : Width} {n : Nat} (small : major < 8)
    (fits : n < w.bound) :
    ZCBOR_ADDITIONAL (UInt8.ofNat (32 * major + w.additional n)) = w.additional n := by
  have le := Width.additional_le fits
  rw [ZCBOR_ADDITIONAL, headByte_toNat small fits]
  omega

/-- The argument of a head is extracted, whatever its width. -/
theorem valueExtract_head {st : ZcborState} {major resultLen : Nat} {w : Width} {n : Nat}
    {rest : List UInt8} (payload : st.payload = head major w n ++ rest) (small : major < 8)
    (fits : n < w.bound) (room : w.length ≤ resultLen) (left : st.elemCount ≠ 0) (indefinite : Bool) :
    valueExtract st resultLen indefinite = some (.value n, st.after rest) := by
  have le := Width.additional_le fits
  have length := additionalLen_eq fits
  have argument : (if w.length = 0 then w.additional n
      else Cbor.beNat ((Cbor.beBytes w.length n ++ rest).take w.length)) = n := by
    cases w with
    | immediate => rfl
    | _ =>
        rw [if_neg (by decide), List.take_left' (Cbor.beBytes_length _ _)]
        exact Cbor.beNat_beBytes fits
  rw [valueExtract, payload, head, List.cons_append]
  simp only [left, ↓reduceIte, additional_head small fits, length, argument, ZCBOR_VALUE_IS_INDEFINITE_LENGTH,
    ZCBOR_VALUE_IS_8_BYTES]
  rw [if_neg (by omega), if_neg (by omega), if_neg (by omega), if_neg (by simp)]
  rw [List.drop_left' (Cbor.beBytes_length _ _)]
  rfl

theorem valueExtractFixed_head {st : ZcborState} {major resultLen : Nat} {w : Width} {n : Nat}
    {rest : List UInt8} (payload : st.payload = head major w n ++ rest) (small : major < 8)
    (fits : n < w.bound) (room : w.length ≤ resultLen) (left : st.elemCount ≠ 0) :
    valueExtractFixed st resultLen = some (n, st.after rest) := by
  rw [valueExtractFixed, valueExtract_head payload small fits room left]

/-- An indefinite length opens a container and nothing else. -/
theorem valueExtract_indefiniteHead {st : ZcborState} {major resultLen : Nat} {rest : List UInt8}
    (payload : st.payload = indefiniteHead major :: rest) (small : major < 8)
    (left : st.elemCount ≠ 0) (indefinite : Bool) :
    valueExtract st resultLen indefinite =
      if indefinite then some (.indefinite, st.after rest) else none := by
  have additional : ZCBOR_ADDITIONAL (indefiniteHead major) = 31 := by
    rw [ZCBOR_ADDITIONAL, indefiniteHead, UInt8.toNat_ofNat_of_lt' (by simp only [UInt8.size]; omega)]
    omega
  rw [valueExtract, payload]
  simp only [left, ↓reduceIte, additional, ZCBOR_VALUE_IS_INDEFINITE_LENGTH, ZCBOR_VALUE_IS_8_BYTES]
  cases indefinite <;> rfl

theorem majorTypeAt_item {item : Item} (wellFormed : item.WellFormed) (rest : List UInt8) :
    majorTypeAt (item.encode ++ rest) = some item.majorType := by
  obtain ⟨byte, later, same, major, -⟩ := Item.encode_first wellFormed
  rw [same, List.cons_append, majorTypeAt, List.head?_cons, Option.map_some, ZCBOR_MAJOR_TYPE, major]
  cases item <;> rfl

theorem typeCheck_item {item : Item} (wellFormed : item.WellFormed) {st : ZcborState}
    {rest : List UInt8} (payload : st.payload = item.encode ++ rest) (expected : ZcborMajorType) :
    typeCheck st expected = (item.majorType == expected) := by
  rw [typeCheck, payload, majorTypeAt_item wellFormed]
  rfl

/-- An unsigned integer key is read, any other is not. -/
theorem zcborUint64Decode_item {item : Item} (wellFormed : item.WellFormed) {st : ZcborState}
    {rest : List UInt8} (payload : st.payload = item.encode ++ rest) (left : st.elemCount ≠ 0) :
    zcborUint64Decode st = item.sid?.map fun sid => (sid, st.after rest) := by
  rw [zcborUint64Decode, typeCheck_item wellFormed payload]
  cases wellFormed with
  | @uint w n fits =>
      have length : w.length ≤ 8 := by cases w <;> decide
      rw [valueExtractFixed_head payload (by decide) fits length left]
      rfl
  | _ => rfl

private theorem strDecode_item {st : ZcborState} {major : Nat} {w : Width} {bytes rest : List UInt8}
    (payload : st.payload = Cbor.string major w bytes ++ rest) (small : major < 8)
    (fits : bytes.length < w.bound) (left : st.elemCount ≠ 0) {expected : ZcborMajorType}
    (checked : typeCheck st expected = true) :
    strDecode st expected = some (bytes, st.after rest) := by
  have length : w.length ≤ 8 := by cases w <;> decide
  rw [strDecode, checked, if_pos rfl,
    valueExtractFixed_head (payload.trans (List.append_assoc _ _ _)) small fits length left]
  simp [ZcborState.after]

private theorem strDecode_chunked {st : ZcborState} {major : Nat} {rest : List UInt8}
    (payload : st.payload = indefiniteHead major :: rest) (small : major < 8)
    (left : st.elemCount ≠ 0) (expected : ZcborMajorType) : strDecode st expected = none := by
  rw [strDecode, valueExtractFixed, valueExtract_indefiniteHead payload small left]
  simp

/-- A text in one piece is read, and nothing else. -/
theorem zcborTstrDecode_item {item : Item} (wellFormed : item.WellFormed) {st : ZcborState}
    {rest : List UInt8} (payload : st.payload = item.encode ++ rest) (left : st.elemCount ≠ 0) :
    zcborTstrDecode st = item.text?.map fun zs => (zs, st.after rest) := by
  have checked := typeCheck_item wellFormed payload .tstr
  cases wellFormed with
  | tstr fits => exact strDecode_item payload (by decide) fits left checked
  | tstrChunks fits => exact strDecode_chunked payload (by decide) left .tstr
  | _ =>
      rw [zcborTstrDecode, strDecode, checked]
      rfl

private theorem simple_head {w : Width} {n : Nat} (fits : n < w.bound) :
    ZCBOR_MAJOR_TYPE (UInt8.ofNat (32 * 7 + w.additional n)) = .simple := by
  have le := Width.additional_le fits
  rw [ZCBOR_MAJOR_TYPE, headByte_toNat (by decide) fits,
    show (32 * 7 + w.additional n) / 32 = 7 by omega]
  rfl

private theorem zcborFloat64Decode_head {st : ZcborState} {w : Width} {n : Nat} {rest : List UInt8}
    (payload : st.payload = head 7 w n ++ rest) (fits : n < w.bound) (left : st.elemCount ≠ 0) :
    zcborFloat64Decode st = if w = .eight then some (UInt64.ofNat n, st.after rest) else none := by
  have extracted (double : w.length ≤ 8) := valueExtractFixed_head payload (by decide) fits double left
  rw [zcborFloat64Decode, payload, head, List.cons_append]
  simp only [simple_head fits, additional_head (show 7 < 8 by decide) fits, ne_eq, not_true_eq_false,
    ↓reduceIte, ZCBOR_VALUE_IS_8_BYTES]
  cases w with
  | eight =>
      rw [extracted (by decide)]
      rfl
  | immediate =>
      have other : Width.immediate.additional n ≠ 27 := by
        simp only [Width.additional, Width.bound] at *
        omega
      simp [other]
  | _ => simp [Width.additional]

/-- Floats are not simple values, and a byte of its own holds a value from 32 on. -/
private theorem zcborSimpleDecode_head {st : ZcborState} {w : Width} {n : Nat} {rest : List UInt8}
    (payload : st.payload = head 7 w n ++ rest) (fits : n < w.bound) (simple : w = .one → 32 ≤ n)
    (left : st.elemCount ≠ 0) :
    zcborSimpleDecode st = if w.length ≤ 1 then some (n, st.after rest) else none := by
  have extracted (short : w.length ≤ 1) := valueExtractFixed_head payload (by decide) fits short left
  rw [zcborSimpleDecode, payload, head, List.cons_append]
  simp only [simple_head fits, additional_head (show 7 < 8 by decide) fits, ne_eq, not_true_eq_false,
    ↓reduceIte, ZCBOR_VALUE_IS_1_BYTE]
  cases w with
  | immediate =>
      have small : Width.immediate.additional n < 24 := fits
      rw [extracted (by decide), if_neg (by omega), if_pos (by decide)]
      dsimp only
      rw [if_neg (by omega)]
  | one =>
      have large := simple rfl
      have header : ¬ Width.one.additional n > 24 := Nat.lt_irrefl 24
      rw [extracted (by decide), if_neg header, if_pos (by decide)]
      dsimp only
      rw [if_neg (by omega)]
  | _ => rfl

private theorem cborToCoreconfScalar_simple {st st' : ZcborState} {n : Nat}
    (notFloat : zcborFloat64Decode st = none) (read : zcborSimpleDecode st = some (n, st')) :
    cborToCoreconfScalar st .simple =
      (Item.simpleValue? .immediate n).map fun value => (value, st') := by
  simp only [cborToCoreconfScalar, notFloat, zcborBoolDecode, zcborNilExpect, read]
  by_cases isFalse : n = ZCBOR_BOOL_TO_SIMPLE
  · subst isFalse
    rfl
  by_cases isTrue : n = ZCBOR_BOOL_TO_SIMPLE + 1
  · subst isTrue
    rfl
  by_cases isNil : n = ZCBOR_NIL_VAL
  · subst isNil
    rfl
  rw [if_neg isFalse, if_neg isTrue, if_pos isNil]
  have noValue : Item.simpleValue? .immediate n = none := by
    unfold Item.simpleValue?
    split
    · exact absurd rfl isFalse
    · exact absurd rfl isTrue
    · exact absurd rfl isNil
    · rename_i same
      cases same
    · rfl
  rw [noValue]
  rfl

private theorem simple_item {st : ZcborState} {w : Width} {n : Nat} {rest : List UInt8}
    (payload : st.payload = head 7 w n ++ rest) (fits : n < w.bound) (simple : w = .one → 32 ≤ n)
    (left : st.elemCount ≠ 0) :
    cborToCoreconfScalar st .simple =
      (Item.simpleValue? w n).map fun value => (value, st.after rest) := by
  have float := zcborFloat64Decode_head payload fits left
  have read := zcborSimpleDecode_head payload fits simple left
  cases w with
  | immediate => exact cborToCoreconfScalar_simple float read
  | one =>
      rw [cborToCoreconfScalar_simple float read]
      have large := simple rfl
      obtain ⟨k, rfl⟩ : ∃ k, n = k + 32 := ⟨n - 32, by omega⟩
      rfl
  | eight =>
      simp only [cborToCoreconfScalar, float]
      rfl
  | _ =>
      simp only [cborToCoreconfScalar, float, zcborBoolDecode, zcborNilExpect, read]
      rfl

/-- A scalar item gives its value, or is refused where the data model has none. -/
theorem cborToCoreconfScalar_item {item : Item} (wellFormed : item.WellFormed)
    (scalar : item.isContainer = false) {st : ZcborState} {rest : List UInt8}
    (payload : st.payload = item.encode ++ rest) (left : st.elemCount ≠ 0) :
    cborToCoreconfScalar st item.majorType = item.value?.map fun value => (value, st.after rest) := by
  have checked := typeCheck_item wellFormed payload
  cases wellFormed with
  | uint fits =>
      have read := zcborUint64Decode_item (.uint fits) payload left
      simp only [Item.majorType, cborToCoreconfScalar, read]
      rfl
  | @nint w n fits =>
      have length : w.length ≤ 8 := by cases w <;> decide
      have extracted := valueExtractFixed_head payload (by decide) fits length left
      have isInteger : (typeCheck st .pint || typeCheck st .nint) = true := by
        rw [checked, checked]
        rfl
      have isNegative : typeCheck st .nint = true := checked .nint
      simp only [Item.majorType, cborToCoreconfScalar, zcborInt64Decode, extracted, Item.value?]
      rw [if_pos isInteger]
      by_cases large : n ≥ 2 ^ 63
      · rw [if_pos large, if_neg (Nat.not_lt.mpr large)]
        rfl
      · rw [if_neg large, if_pos isNegative, if_pos (Nat.not_le.mp large)]
        rfl
  | bstr fits =>
      have read := strDecode_item payload (by decide) fits left (checked .bstr)
      simp only [Item.majorType, cborToCoreconfScalar, zcborBstrDecode, read]
      rfl
  | tstr fits =>
      have read := strDecode_item payload (by decide) fits left (checked .tstr)
      simp only [Item.majorType, cborToCoreconfScalar, zcborTstrDecode, read]
      rfl
  | bstrChunks fits =>
      have refused := strDecode_chunked payload (by decide) left .bstr
      simp only [Item.majorType, cborToCoreconfScalar, zcborBstrDecode, refused]
      rfl
  | tstrChunks fits =>
      have refused := strDecode_chunked payload (by decide) left .tstr
      simp only [Item.majorType, cborToCoreconfScalar, zcborTstrDecode, refused]
      rfl
  | list fits members => cases scalar
  | map fits keys values => cases scalar
  | tag fits inner => rfl
  | primitive fits simple => exact simple_item payload fits simple left

/-- A state with this many elements of a container to come. -/
def Inside (framing : Framing) (count : Nat) (st : ZcborState) : Prop :=
  match framing with
  | .definite _ => st.indefiniteLengthArray = false ∧ st.elemCount = count
  | .indefinite => st.indefiniteLengthArray = true ∧ count ≤ st.elemCount

/-- The state at the first element of a container. -/
def ZcborState.entered (st : ZcborState) (framing : Framing) (count : Nat) (tail : List UInt8) :
    ZcborState where
  payload := tail
  elemCount := match framing with
    | .definite _ => count
    | .indefinite => ZCBOR_LARGE_ELEM_COUNT
  indefiniteLengthArray := match framing with
    | .definite _ => false
    | .indefinite => true
  backupList := ⟨st.elemCount - 1, st.indefiniteLengthArray⟩ :: st.backupList
  numBackups := st.numBackups

theorem ZcborState.entered_payload (st : ZcborState) (framing : Framing) (count : Nat) (tail : List UInt8) :
    (st.entered framing count tail).payload = tail := rfl

/-- The state after a container, back in the one around it. -/
def ZcborState.leave (st : ZcborState) (backup : Backup) (backups : List Backup)
    (rest : List UInt8) : ZcborState where
  payload := rest
  elemCount := backup.elemCount
  indefiniteLengthArray := backup.indefiniteLengthArray
  backupList := backups
  numBackups := st.numBackups

theorem listMapStartDecode_opening {st : ZcborState} {major count : Nat} {framing : Framing}
    {tail : List UInt8} (payload : st.payload = framing.opening major count ++ tail)
    (small : major < 8) (fits : framing.Fits count) (left : st.elemCount ≠ 0)
    {expected : ZcborMajorType} (checked : typeCheck st expected = true)
    (room : st.backupList.length < st.numBackups) :
    listMapStartDecode st expected = some (st.entered framing count tail) := by
  have pushed : ¬ st.backupList.length ≥ st.numBackups := Nat.not_le.mpr room
  cases framing with
  | definite w =>
      have length : w.length ≤ 8 := by cases w <;> decide
      simp only [listMapStartDecode, checked, ↓reduceIte,
        valueExtract_head payload small fits length left]
      simp [zcborNewBackup, ZcborState.after, ZcborState.entered, pushed]
  | indefinite =>
      simp only [listMapStartDecode, checked, ↓reduceIte,
        valueExtract_indefiniteHead payload small left]
      simp [zcborNewBackup, ZcborState.after, ZcborState.entered, pushed]

theorem entered_inside {st : ZcborState} {framing : Framing} {count : Nat} {tail : List UInt8}
    (few : count ≤ ZCBOR_LARGE_ELEM_COUNT) : Inside framing count (st.entered framing count tail) := by
  cases framing with
  | definite w => exact ⟨rfl, rfl⟩
  | indefinite => exact ⟨rfl, few⟩

/-- Entries are counted as two elements each. -/
theorem zcborMapStartDecode_opening {st : ZcborState} {count : Nat} {framing : Framing}
    {tail : List UInt8} (payload : st.payload = framing.opening 5 count ++ tail)
    (fits : framing.Fits count) (left : st.elemCount ≠ 0) (checked : typeCheck st .map = true)
    (room : st.backupList.length < st.numBackups) (few : count < ZCBOR_MAX_ELEM_COUNT / 2) :
    zcborMapStartDecode st = (true, st.entered framing (2 * count) tail) := by
  rw [zcborMapStartDecode, listMapStartDecode_opening payload (by decide) fits left checked room]
  cases framing with
  | definite w =>
      have doubled : ¬ count ≥ ZCBOR_MAX_ELEM_COUNT / 2 := Nat.not_le.mpr few
      simp [ZcborState.entered, doubled, Nat.mul_comm]
  | indefinite => simp [ZcborState.entered]

theorem Inside.left {framing : Framing} {count : Nat} {st : ZcborState}
    (inside : Inside framing (count + 1) st) : st.elemCount ≠ 0 := by
  cases framing with
  | definite w =>
      have counted := inside.2
      omega
  | indefinite =>
      have counted := inside.2
      omega

theorem Inside.not_atEnd {framing : Framing} {count : Nat} {st : ZcborState}
    (inside : Inside framing (count + 1) st) {item : Item} (wellFormed : item.WellFormed)
    {rest : List UInt8} (payload : st.payload = item.encode ++ rest) : ¬ zcborArrayAtEnd st := by
  have left := inside.left
  cases framing with
  | definite w => simp [zcborArrayAtEnd, inside.1, left]
  | indefinite =>
      obtain ⟨byte, later, same, -, notBreak⟩ := Item.encode_first wellFormed
      have other : byte ≠ 0xFF := notBreak
      simp [zcborArrayAtEnd, inside.1, payload, same, other]

theorem Inside.after {framing : Framing} {count : Nat} {st : ZcborState}
    (inside : Inside framing (count + 1) st) (rest : List UInt8) :
    Inside framing count (st.after rest) := by
  cases framing with
  | definite w => exact ⟨inside.1, by rw [ZcborState.after, inside.2]; rfl⟩
  | indefinite =>
      refine ⟨inside.1, ?_⟩
      have counted := inside.2
      simp only [ZcborState.after]
      omega

theorem Inside.atEnd {framing : Framing} {st : ZcborState} (inside : Inside framing 0 st)
    {rest : List UInt8} (payload : st.payload = framing.closing ++ rest) : zcborArrayAtEnd st := by
  cases framing with
  | definite w => simp [zcborArrayAtEnd, inside.1, inside.2]
  | indefinite => simp [zcborArrayAtEnd, inside.1, payload, Framing.closing, breakCode]

/-- A container whose elements are all consumed is left successfully. -/
theorem Inside.leave {framing : Framing} {st : ZcborState} (inside : Inside framing 0 st)
    {rest : List UInt8} (payload : st.payload = framing.closing ++ rest) {backup : Backup}
    {backups : List Backup} (saved : st.backupList = backup :: backups) :
    listMapEndDecode st = (true, st.leave backup backups rest) := by
  cases framing with
  | definite w =>
      have rest : st.payload = rest := payload
      simp [listMapEndDecode, saved, inside.1, inside.2, ZcborState.leave, rest]
  | indefinite =>
      have closing : st.payload = 0xFF :: rest := payload
      simp [listMapEndDecode, saved, inside.1, arrayEndExpect, closing, ZcborState.leave]

/-- The state and the place in it from which an item is within the decoder's limits. -/
structure Ready (st : ZcborState) (indent : Nat) (item : Item) (rest : List UInt8) : Prop where
  payload : st.payload = item.encode ++ rest
  left : st.elemCount ≠ 0
  room : item.depth + st.backupList.length ≤ st.numBackups
  shallow : indent + item.levels ≤ CORECONF_MAX_DEPTH
  size : st.payload.length ≤ ZCBOR_LARGE_ELEM_COUNT

/-- The decoder reads the item to its end wherever it is within the limits. -/
def ReadsBack (item : Item) : Prop :=
  ∀ ⦃value st indent rest⦄, item.value? = some value → Ready st indent item rest →
    Decodes st indent (some value, st.after rest)

/-- The loop over an array reads elements one after the other, and goes on behind them. -/
theorem arrayReturns_read {framing : Framing} {indent : Nat} {items : List Item}
    {values : List CoreconfValueT} (read : Item.values? items = some values)
    (wellFormed : ∀ item ∈ items, item.WellFormed) (each : ∀ item ∈ items, ReadsBack item)
    (elements : List CoreconfValueT) (st : ZcborState) {tail : List UInt8}
    (payload : st.payload = Item.encodeItems items ++ tail) {more : Nat}
    (inside : Inside framing (items.length + more) st)
    (room : Item.depthItems items + st.backupList.length ≤ st.numBackups)
    (shallow : indent + Item.levelsItems items ≤ CORECONF_MAX_DEPTH)
    (size : st.payload.length ≤ ZCBOR_LARGE_ELEM_COUNT) :
    ∃ st', st'.payload = tail ∧ Inside framing more st' ∧ st'.backupList = st.backupList ∧
      st'.numBackups = st.numBackups ∧
      ∀ result, ArrayReturns indent (elements, st) result ↔
        ArrayReturns indent (elements ++ values, st') result := by
  induction items generalizing values elements st with
  | nil =>
      cases read
      refine ⟨st, payload, by simpa using inside, rfl, rfl, fun _ => ?_⟩
      rw [List.append_nil]
  | cons item later ih =>
      rw [Item.values?] at read
      split at read
      · rename_i value values found foundLater
        cases read
        obtain ⟨first, others⟩ := List.forall_mem_cons.mp wellFormed
        obtain ⟨readFirst, readOthers⟩ := List.forall_mem_cons.mp each
        rw [Item.encodeItems, List.append_assoc] at payload
        rw [Item.depthItems] at room
        rw [Item.levelsItems] at shallow
        rw [List.length_cons, Nat.add_right_comm] at inside
        set behind := Item.encodeItems later ++ tail
        have sizes := congrArg List.length payload
        rw [List.length_append] at sizes
        have ready : Ready st (indent + 1) item behind :=
          ⟨payload, inside.left, by omega, by omega, size⟩
        obtain ⟨st', next, insideLater, saved, backups, goesOn⟩ := ih foundLater others readOthers
          (elements ++ [value]) (st.after behind) rfl (inside.after behind)
          (by simp only [ZcborState.after]; omega) (by omega) (by simp only [ZcborState.after]; omega)
        refine ⟨st', next, insideLater, saved, backups, fun result => ?_⟩
        have rest := goesOn result
        rw [List.append_assoc] at rest
        exact (arrayReturns_next_iff (inside.not_atEnd first payload) (readFirst found ready)).trans rest
      · cases read

theorem arrayReturns_items {framing : Framing} {indent : Nat} {items : List Item}
    {values : List CoreconfValueT} (read : Item.values? items = some values)
    (wellFormed : ∀ item ∈ items, item.WellFormed) (each : ∀ item ∈ items, ReadsBack item)
    (elements : List CoreconfValueT) (st : ZcborState) {rest : List UInt8}
    (payload : st.payload = Item.encodeItems items ++ (framing.closing ++ rest))
    (inside : Inside framing items.length st) {backup : Backup} {backups : List Backup}
    (saved : st.backupList = backup :: backups)
    (room : Item.depthItems items + st.backupList.length ≤ st.numBackups)
    (shallow : indent + Item.levelsItems items ≤ CORECONF_MAX_DEPTH)
    (size : st.payload.length ≤ ZCBOR_LARGE_ELEM_COUNT) :
    ArrayReturns indent (elements, st) (true, elements ++ values, st.leave backup backups rest) := by
  obtain ⟨st', closing, ended, kept, same, goesOn⟩ := arrayReturns_read read wellFormed each elements st
    payload (show Inside framing (items.length + 0) st from inside) room shallow size
  have returned := arrayReturns_atEnd indent (elements ++ values) (ended.atEnd closing)
  rw [zcborListEndDecode, ended.leave closing (kept.trans saved), ZcborState.leave, same] at returned
  exact (goesOn _).mpr returned

/-- The loop over a map reads entries one after the other, and goes on behind them. -/
theorem mapReturns_read {framing : Framing} {indent : Nat} {entries : List (Item × Item)}
    {members : List (UInt64 × CoreconfValueT)} (read : Item.members? entries = some members)
    (keys : ∀ entry ∈ entries, entry.1.WellFormed) (values : ∀ entry ∈ entries, entry.2.WellFormed)
    (each : ∀ entry ∈ entries, ReadsBack entry.2) (loop : MapLoop) {tail : List UInt8}
    (payload : loop.st.payload = Item.encodeEntries entries ++ tail) {more : Nat}
    (inside : Inside framing (2 * entries.length + more) loop.st)
    (few : loop.loopCount + entries.length ≤ Item.maxEntries)
    (room : Item.depthEntries entries + loop.st.backupList.length ≤ loop.st.numBackups)
    (shallow : indent + Item.levelsEntries entries ≤ CORECONF_MAX_DEPTH)
    (size : loop.st.payload.length ≤ ZCBOR_LARGE_ELEM_COUNT) :
    ∃ st, st.payload = tail ∧ Inside framing more st ∧ st.backupList = loop.st.backupList ∧
      st.numBackups = loop.st.numBackups ∧
      ∀ result, MapReturns indent loop result ↔
        MapReturns indent ⟨insertMembers members loop.map, loop.loopCount + entries.length, st⟩ result := by
  induction entries generalizing members loop with
  | nil =>
      cases read
      exact ⟨loop.st, payload, by simpa using inside, rfl, rfl, fun _ => Iff.rfl⟩
  | cons entry later ih =>
      obtain ⟨key, item⟩ := entry
      rw [Item.members?] at read
      split at read
      · rename_i sid value members keyed found foundLater
        cases read
        obtain ⟨firstKey, otherKeys⟩ := List.forall_mem_cons.mp keys
        obtain ⟨first, others⟩ := List.forall_mem_cons.mp values
        obtain ⟨readFirst, readOthers⟩ := List.forall_mem_cons.mp each
        rw [Item.encodeEntries, List.append_assoc, List.append_assoc] at payload
        rw [Item.depthEntries] at room
        rw [Item.levelsEntries] at shallow
        rw [List.length_cons, show 2 * (later.length + 1) + more = 2 * later.length + more + 1 + 1 by omega]
          at inside
        rw [List.length_cons] at few
        set others' := Item.encodeEntries later ++ tail
        have keyRead := zcborUint64Decode_item firstKey payload inside.left
        rw [keyed, Option.map_some] at keyRead
        have afterKey := inside.after (item.encode ++ others')
        have sizes := congrArg List.length payload
        simp only [List.length_append] at sizes
        have ready : Ready (loop.st.after (item.encode ++ others')) (indent + 1) item others' :=
          ⟨rfl, afterKey.left, by simp only [ZcborState.after]; omega, by omega, by
            simp only [ZcborState.after, List.length_append]
            omega⟩
        obtain ⟨st, behind, insideLater, saved, backups, goesOn⟩ := ih foundLater otherKeys others readOthers
          ⟨storeMember loop.map sid (some value), loop.loopCount + 1,
            (loop.st.after (item.encode ++ others')).after others'⟩
          rfl (afterKey.after others') (by simp only; omega)
          (by simp only [ZcborState.after]; omega) (by omega)
          (by simp only [ZcborState.after]; omega)
        refine ⟨st, behind, insideLater, saved, backups, fun result => ?_⟩
        rw [mapReturns_next_iff (inside.not_atEnd firstKey payload)
          (by simp only [Item.maxEntries] at few; omega) keyRead (readFirst found ready), goesOn result,
          List.length_cons, Nat.add_comm later.length, ← Nat.add_assoc]
        rfl
      · cases read

theorem mapReturns_entries {framing : Framing} {indent : Nat} {entries : List (Item × Item)}
    {members : List (UInt64 × CoreconfValueT)} (read : Item.members? entries = some members)
    (keys : ∀ entry ∈ entries, entry.1.WellFormed) (values : ∀ entry ∈ entries, entry.2.WellFormed)
    (each : ∀ entry ∈ entries, ReadsBack entry.2) (loop : MapLoop) {rest : List UInt8}
    (payload : loop.st.payload = Item.encodeEntries entries ++ (framing.closing ++ rest))
    (inside : Inside framing (2 * entries.length) loop.st) {backup : Backup} {backups : List Backup}
    (saved : loop.st.backupList = backup :: backups)
    (few : loop.loopCount + entries.length ≤ Item.maxEntries)
    (room : Item.depthEntries entries + loop.st.backupList.length ≤ loop.st.numBackups)
    (shallow : indent + Item.levelsEntries entries ≤ CORECONF_MAX_DEPTH)
    (size : loop.st.payload.length ≤ ZCBOR_LARGE_ELEM_COUNT) :
    MapReturns indent loop (true, ⟨insertMembers members loop.map, loop.loopCount + entries.length,
      loop.st.leave backup backups rest⟩) := by
  obtain ⟨st, closing, ended, kept, same, goesOn⟩ := mapReturns_read read keys values each loop payload
    (show Inside framing (2 * entries.length + 0) loop.st from inside) few room shallow size
  have returned : MapReturns indent ⟨insertMembers members loop.map, loop.loopCount + entries.length, st⟩ _ :=
    mapReturns_atEnd indent (ended.atEnd closing)
  rw [zcborMapEndDecode, ended.leave closing (kept.trans saved), ZcborState.leave, same] at returned
  exact (goesOn _).mpr returned

/-- With more entries than it goes round for, the loop is given up behind the first of them. -/
theorem mapReturns_cut {framing : Framing} {indent : Nat} {entries : List (Item × Item)}
    {members : List (UInt64 × CoreconfValueT)} (read : Item.members? entries = some members)
    (keys : ∀ entry ∈ entries, entry.1.WellFormed) (values : ∀ entry ∈ entries, entry.2.WellFormed)
    (each : ∀ entry ∈ entries, ReadsBack entry.2) (loop : MapLoop) {key : Item}
    (keyFormed : key.WellFormed) {rest : List UInt8}
    (payload : loop.st.payload = Item.encodeEntries entries ++ (key.encode ++ rest)) {more : Nat}
    (inside : Inside framing (2 * entries.length + (more + 1)) loop.st)
    (many : loop.loopCount + entries.length = Item.maxEntries)
    (room : Item.depthEntries entries + loop.st.backupList.length ≤ loop.st.numBackups)
    (shallow : indent + Item.levelsEntries entries ≤ CORECONF_MAX_DEPTH)
    (size : loop.st.payload.length ≤ ZCBOR_LARGE_ELEM_COUNT) :
    ∃ st, MapReturns indent loop (false, ⟨insertMembers members loop.map, Item.maxEntries, st⟩) := by
  obtain ⟨st, next, insideLater, -, -, goesOn⟩ := mapReturns_read read keys values each loop payload
    inside (le_of_eq many) room shallow size
  refine ⟨st, (goesOn _).mpr ?_⟩
  rw [many]
  exact mapReturns_givenUp indent (insideLater.not_atEnd keyFormed next)
    (Or.inl (show CORECONF_MAX_LOOP < Item.maxEntries by decide))

theorem length_le_encodeItems {items : List Item} (wellFormed : ∀ item ∈ items, item.WellFormed) :
    items.length ≤ (Item.encodeItems items).length := by
  induction items with
  | nil => exact le_refl _
  | cons item rest ih =>
      obtain ⟨first, others⟩ := List.forall_mem_cons.mp wellFormed
      obtain ⟨byte, later, same, -, -⟩ := Item.encode_first first
      have shorter := ih others
      simp only [Item.encodeItems, same, List.length_append, List.length_cons]
      omega

theorem length_le_encodeEntries {entries : List (Item × Item)}
    (keys : ∀ entry ∈ entries, entry.1.WellFormed) (values : ∀ entry ∈ entries, entry.2.WellFormed) :
    2 * entries.length ≤ (Item.encodeEntries entries).length := by
  induction entries with
  | nil => exact le_refl _
  | cons entry rest ih =>
      obtain ⟨firstKey, otherKeys⟩ := List.forall_mem_cons.mp keys
      obtain ⟨first, others⟩ := List.forall_mem_cons.mp values
      obtain ⟨byte, later, same, -⟩ := Item.encode_first firstKey
      obtain ⟨byte', later', same', -⟩ := Item.encode_first first
      have shorter := ih otherKeys others
      simp only [Item.encodeEntries, same, same', List.length_append, List.length_cons]
      omega

/-- A scalar is read, or refused where the data model has none and left in place. -/
theorem decodes_scalar {item : Item} (wellFormed : item.WellFormed) (scalar : item.isContainer = false)
    {st : ZcborState} (indent : Nat) {rest : List UInt8} (payload : st.payload = item.encode ++ rest)
    (left : st.elemCount ≠ 0) (shallow : indent ≤ CORECONF_MAX_DEPTH) :
    Decodes st indent (scalarResult st (item.value?.map fun value => (value, st.after rest))) := by
  have major : majorTypeAt st.payload = some item.majorType := by
    rw [payload, majorTypeAt_item wellFormed]
  have decoded := cborToCoreconfScalar_item wellFormed scalar payload left
  rw [decodes_iff, if_neg (Nat.not_lt.mpr shallow), major]
  cases wellFormed with
  | list _ _ => cases scalar
  | map _ _ _ => cases scalar
  | _ =>
      simp only [Item.majorType] at decoded ⊢
      rw [decoded]

private theorem readsBack_scalar {item : Item} (wellFormed : item.WellFormed)
    (scalar : item.isContainer = false) : ReadsBack item := by
  intro value st indent rest read ready
  have bound := ready.shallow
  have decoded := decodes_scalar wellFormed scalar indent ready.payload ready.left (by omega)
  rwa [read] at decoded

/-- The state at the first item of a list. -/
def ZcborState.atItems (st : ZcborState) (framing : Framing) (items : List Item) (rest : List UInt8) :
    ZcborState :=
  st.entered framing items.length (Item.encodeItems items ++ (framing.closing ++ rest))

/-- The state at the first key of a map, whose entries are two elements each. -/
def ZcborState.atEntries (st : ZcborState) (framing : Framing) (entries : List (Item × Item))
    (rest : List UInt8) : ZcborState :=
  st.entered framing (2 * entries.length) (Item.encodeEntries entries ++ (framing.closing ++ rest))

/-- The state inside a container, with one backup more than before it. -/
structure Entered (framing : Framing) (count : Nat) (st start : ZcborState) : Prop where
  inside : Inside framing count start
  pushed : start.backupList.length = st.backupList.length + 1
  backups : start.numBackups = st.numBackups
  shorter : start.payload.length ≤ st.payload.length

theorem atItems_entered {framing : Framing} {items : List Item}
    (wellFormed : Item.WellFormed (.list framing items)) {st : ZcborState} {rest : List UInt8}
    (payload : st.payload = (Item.list framing items).encode ++ rest)
    (size : st.payload.length ≤ ZCBOR_LARGE_ELEM_COUNT) :
    Entered framing items.length st (st.atItems framing items rest) := by
  have sizes := congrArg List.length payload
  simp only [Item.encode, List.length_append] at sizes
  cases wellFormed with
  | list fits members =>
      have shortest := length_le_encodeItems members
      refine ⟨entered_inside (by omega), rfl, rfl, ?_⟩
      simp only [ZcborState.atItems, ZcborState.entered, List.length_append]
      omega

theorem atEntries_entered {framing : Framing} {entries : List (Item × Item)}
    (wellFormed : Item.WellFormed (.map framing entries)) {st : ZcborState} {rest : List UInt8}
    (payload : st.payload = (Item.map framing entries).encode ++ rest)
    (size : st.payload.length ≤ ZCBOR_LARGE_ELEM_COUNT) :
    Entered framing (2 * entries.length) st (st.atEntries framing entries rest) := by
  have sizes := congrArg List.length payload
  simp only [Item.encode, List.length_append] at sizes
  cases wellFormed with
  | map fits keys values =>
      have shortest := length_le_encodeEntries keys values
      refine ⟨entered_inside (by omega), rfl, rfl, ?_⟩
      simp only [ZcborState.atEntries, ZcborState.entered, List.length_append]
      omega

/-- A list is entered where there is a backup for it. -/
theorem decodes_list_iff {framing : Framing} {items : List Item}
    (wellFormed : Item.WellFormed (.list framing items)) {st : ZcborState} {indent : Nat}
    {rest : List UInt8} {result : Option CoreconfValueT × ZcborState}
    (payload : st.payload = (Item.list framing items).encode ++ rest) (left : st.elemCount ≠ 0)
    (room : st.backupList.length < st.numBackups) (shallow : indent ≤ CORECONF_MAX_DEPTH) :
    Decodes st indent result ↔ ∃ ended elements st',
      ArrayReturns indent ([], st.atItems framing items rest) (ended, elements, st') ∧
        result = (some (.array elements), st') := by
  have checked := typeCheck_item wellFormed payload .list
  have major : majorTypeAt st.payload = some .list := by
    rw [payload, majorTypeAt_item wellFormed]
    rfl
  rw [Item.encode, List.append_assoc, List.append_assoc] at payload
  cases wellFormed with
  | list fits members =>
      have started := listMapStartDecode_opening payload (by decide) fits left checked room
      rw [decodes_iff, if_neg (Nat.not_lt.mpr shallow), major]
      simp only [zcborListStartDecode, started]
      rfl

/-- A map is entered where there is a backup for it. -/
theorem decodes_map_iff {framing : Framing} {entries : List (Item × Item)}
    (wellFormed : Item.WellFormed (.map framing entries)) {st : ZcborState} {indent : Nat}
    {rest : List UInt8} {result : Option CoreconfValueT × ZcborState}
    (payload : st.payload = (Item.map framing entries).encode ++ rest) (left : st.elemCount ≠ 0)
    (room : st.backupList.length < st.numBackups) (shallow : indent ≤ CORECONF_MAX_DEPTH)
    (size : st.payload.length ≤ ZCBOR_LARGE_ELEM_COUNT) :
    Decodes st indent result ↔ ∃ ended loop,
      MapReturns indent ⟨createCoreconfHashmap, 0, st.atEntries framing entries rest⟩ (ended, loop) ∧
        result = (some (.hashmap loop.map), loop.st) := by
  have sizes := congrArg List.length payload
  simp only [Item.encode, List.length_append] at sizes
  have counts : ZCBOR_LARGE_ELEM_COUNT + 15 = ZCBOR_MAX_ELEM_COUNT := by decide
  have checked := typeCheck_item wellFormed payload .map
  have major : majorTypeAt st.payload = some .map := by
    rw [payload, majorTypeAt_item wellFormed]
    rfl
  rw [Item.encode, List.append_assoc, List.append_assoc] at payload
  cases wellFormed with
  | map fits keys values =>
      have shortest := length_le_encodeEntries keys values
      have started := zcborMapStartDecode_opening payload fits left checked room (by omega)
      rw [decodes_iff, if_neg (Nat.not_lt.mpr shallow), major]
      simp only [started]
      rfl

private theorem readsBack_list {framing : Framing} {items : List Item}
    (wellFormed : Item.WellFormed (.list framing items)) (each : ∀ item ∈ items, ReadsBack item) :
    ReadsBack (.list framing items) := by
  intro value st indent rest read ready
  obtain ⟨values, every, rfl⟩ := Option.map_eq_some_iff.mp read
  obtain ⟨payload, left, room, shallow, size⟩ := ready
  rw [Item.depth] at room
  rw [Item.levels] at shallow
  rw [decodes_list_iff wellFormed payload left (by omega) (by omega)]
  obtain ⟨inside, pushed, backups, shorter⟩ := atItems_entered wellFormed payload size
  cases wellFormed with
  | list fits members =>
      have returned := arrayReturns_items every members each [] (st.atItems framing items rest) rfl inside rfl
        (by omega) shallow (by omega)
      exact ⟨true, values, _, returned, rfl⟩

private theorem readsBack_map {framing : Framing} {entries : List (Item × Item)}
    (wellFormed : Item.WellFormed (.map framing entries))
    (each : ∀ entry ∈ entries, ReadsBack entry.2) : ReadsBack (.map framing entries) := by
  intro value st indent rest read ready
  rw [Item.value?] at read
  split at read
  · cases read
  rename_i few
  obtain ⟨members, every, rfl⟩ := Option.map_eq_some_iff.mp read
  obtain ⟨payload, left, room, shallow, size⟩ := ready
  rw [Item.depth] at room
  rw [Item.levels] at shallow
  rw [decodes_map_iff wellFormed payload left (by omega) (by omega) size]
  obtain ⟨inside, pushed, backups, shorter⟩ := atEntries_entered wellFormed payload size
  cases wellFormed with
  | map fits keys values =>
      have returned := mapReturns_entries every keys values each
        ⟨createCoreconfHashmap, 0, st.atEntries framing entries rest⟩ rfl inside rfl (by simpa using few)
        (show Item.depthEntries entries + (st.atEntries framing entries rest).backupList.length ≤
          (st.atEntries framing entries rest).numBackups by omega) shallow (shorter.trans size)
      exact ⟨true, _, returned, rfl⟩

/-- A complete item of the data model is read exactly, by induction over the item. -/
theorem readsBack {item : Item} (wellFormed : item.WellFormed) : ReadsBack item := by
  induction item with
  | list framing items ih =>
      refine readsBack_list wellFormed fun item member => ih item member ?_
      cases wellFormed with
      | list fits members => exact members item member
  | map framing entries ih =>
      refine readsBack_map wellFormed fun entry member => (ih entry member).2 ?_
      cases wellFormed with
      | map fits keys values => exact values entry member
  | _ => exact readsBack_scalar wellFormed rfl

/-- The payload at the first entry of a map, and the elements in it, up to an entry of it. -/
theorem ZcborState.atEntries_split (st : ZcborState) (framing : Framing) (before later : List (Item × Item))
    (key item : Item) (rest : List UInt8) :
    (st.atEntries framing (before ++ (key, item) :: later) rest).payload = Item.encodeEntries before ++
        (key.encode ++ (item.encode ++ (Item.encodeEntries later ++ (framing.closing ++ rest)))) ∧
      2 * (before ++ (key, item) :: later).length = 2 * before.length + (2 * later.length + 1 + 1) := by
  refine ⟨?_, ?_⟩
  · simp only [atEntries, entered, Item.encodeEntries_append, Item.encodeEntries, List.append_assoc]
  · rw [List.length_append, List.length_cons]
    omega

/-- A map of more than 51 entries is left inside, with the first 51. -/
private theorem decodes_longMap {framing : Framing} {first : List (Item × Item)} {key item : Item}
    {later : List (Item × Item)} (wellFormed : Item.WellFormed (.map framing (first ++ (key, item) :: later)))
    {members : List (UInt64 × CoreconfValueT)} (read : Item.members? first = some members)
    (many : first.length = Item.maxEntries) {st : ZcborState} {indent : Nat} {rest : List UInt8}
    (payload : st.payload = (Item.map framing (first ++ (key, item) :: later)).encode ++ rest)
    (left : st.elemCount ≠ 0) (room : Item.depthEntries first + 1 + st.backupList.length ≤ st.numBackups)
    (shallow : indent + Item.levelsEntries first ≤ CORECONF_MAX_DEPTH)
    (size : st.payload.length ≤ ZCBOR_LARGE_ELEM_COUNT) :
    ∃ st', Decodes st indent (some (.hashmap (insertMembers members createCoreconfHashmap)), st') := by
  obtain ⟨inside, pushed, backups, shorter⟩ := atEntries_entered wellFormed payload size
  obtain ⟨next, count⟩ := st.atEntries_split framing first later key item rest
  rw [count] at inside
  obtain ⟨st', returned⟩ : ∃ st', MapReturns indent ⟨createCoreconfHashmap, 0,
      st.atEntries framing (first ++ (key, item) :: later) rest⟩ (false, ⟨_, _, st'⟩) := by
    cases wellFormed with
    | map fits keys values =>
        exact mapReturns_cut read (fun entry member => keys entry (by simp [member]))
          (fun entry member => values entry (by simp [member]))
          (fun entry member => readsBack (values entry (by simp [member]))) _
          (show key.WellFormed from keys (key, item) (by simp)) next inside (by simpa using many)
          (show Item.depthEntries first + (st.atEntries framing _ rest).backupList.length ≤
            (st.atEntries framing _ rest).numBackups by omega) shallow (shorter.trans size)
  refine ⟨st', ?_⟩
  rw [decodes_map_iff wellFormed payload left (by omega) (by omega) size]
  exact ⟨false, _, returned, rfl⟩

/-- Of the entries of a map the first 51 are read. -/
theorem decodes_map {framing : Framing} {entries : List (Item × Item)}
    (wellFormed : Item.WellFormed (.map framing entries)) {members : List (UInt64 × CoreconfValueT)}
    (read : Item.members? (entries.take Item.maxEntries) = some members) {st : ZcborState} {indent : Nat}
    {rest : List UInt8} (payload : st.payload = (Item.map framing entries).encode ++ rest)
    (left : st.elemCount ≠ 0)
    (room : Item.depthEntries (entries.take Item.maxEntries) + 1 + st.backupList.length ≤ st.numBackups)
    (shallow : indent + Item.levelsEntries (entries.take Item.maxEntries) ≤ CORECONF_MAX_DEPTH)
    (size : st.payload.length ≤ ZCBOR_LARGE_ELEM_COUNT) :
    ∃ st', Decodes st indent (some (.hashmap (insertMembers members createCoreconfHashmap)), st') := by
  have parts := List.take_append_drop Item.maxEntries entries
  cases beyond : entries.drop Item.maxEntries with
  | nil =>
      have few := List.drop_eq_nil_iff.mp beyond
      rw [List.take_of_length_le few] at read room shallow
      refine ⟨_, readsBack wellFormed ?_ ⟨payload, left, room, shallow, size⟩⟩
      rw [Item.value?, if_neg (by omega), read]
      rfl
  | cons entry later =>
      have taken : (entries.take Item.maxEntries).length = Item.maxEntries := by
        rw [List.length_take, min_eq_left]
        by_contra few
        rw [List.drop_eq_nil_of_le (by omega)] at beyond
        cases beyond
      rw [beyond] at parts
      rw [← parts] at wellFormed payload
      exact decodes_longMap wellFormed read taken payload left room shallow size

end Coreconf
