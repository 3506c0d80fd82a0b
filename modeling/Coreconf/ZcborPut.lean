import Coreconf.EncoderItems

set_option autoImplicit false

/- Every zcbor put writes all of its bytes or nothing. -/
namespace Coreconf

open Cbor (Item Width head indefiniteHead)

/-- The bytes if there is room for all of them. -/
def EncodeState.put (st : EncodeState) (bytes : List UInt8) : Option EncodeState :=
  if bytes.length ≤ st.room then some (st.write bytes) else none

theorem EncodeState.put_some {st : EncodeState} {bytes : List UInt8} (room : bytes.length ≤ st.room) :
    st.put bytes = some (st.write bytes) := if_pos room

theorem EncodeState.put_none {st : EncodeState} {bytes : List UInt8} (noRoom : st.room < bytes.length) :
    st.put bytes = none := if_neg (Nat.not_le.mpr noRoom)

@[simp] theorem EncodeState.write_nil (st : EncodeState) : st.write [] = st := by
  simp [EncodeState.write]

@[simp] theorem EncodeState.write_write (st : EncodeState) (bytes bytes' : List UInt8) :
    (st.write bytes).write bytes' = st.write (bytes ++ bytes') := by
  simp [EncodeState.write, Nat.sub_sub]

@[simp] theorem EncodeState.write_room (st : EncodeState) (bytes : List UInt8) :
    (st.write bytes).room = st.room - bytes.length := rfl

/-- Puts one after the other, each checked, are one put of all the bytes. -/
theorem EncodeState.put_bind (st : EncodeState) (bytes bytes' : List UInt8) :
    ((st.put bytes).bind fun st' => st'.put bytes') = st.put (bytes ++ bytes') := by
  by_cases room : bytes.length ≤ st.room
  · rw [put_some room, Option.bind_some]
    simp only [put, write_room, write_write, List.length_append]
    exact if_congr (by omega) rfl rfl
  · rw [put_none (Nat.not_le.mp room), Option.bind_none, put_none]
    rw [List.length_append]
    omega

theorem EncodeState.put_bind_bind {α : Type} (st : EncodeState) (bytes bytes' : List UInt8)
    (next : EncodeState → Option α) :
    ((st.put bytes).bind fun st' => (st'.put bytes').bind next) = (st.put (bytes ++ bytes')).bind next := by
  rw [← Option.bind_assoc, put_bind]

/-- All of a buffer's contents in one put. -/
theorem put_newEncodeState (bufferSize : Nat) (bytes : List UInt8) :
    (((zcborNewEncodeState bufferSize).put bytes).bind fun st => some st.payload) =
      if bytes.length ≤ bufferSize then some bytes else none := by
  by_cases room : bytes.length ≤ bufferSize
  · rw [EncodeState.put_some (show bytes.length ≤ (zcborNewEncodeState bufferSize).room from room), if_pos room]
    rfl
  · rw [EncodeState.put_none (show (zcborNewEncodeState bufferSize).room < bytes.length from Nat.not_le.mp room),
      if_neg room]
    rfl

private theorem headerLen_eq (n : Nat) : zcborHeaderLen n - 1 = (Width.least n).length := by
  unfold zcborHeaderLen Width.least
  split_ifs <;> first | rfl | omega

private theorem getAdditional_eq {n : Nat} :
    getAdditional (Width.least n).length (n % 256) % 32 = (Width.least n).additional n := by
  unfold Width.least
  split_ifs <;> simp only [Width.length, Width.additional, getAdditional, ↓reduceIte] <;> first | rfl | omega

theorem valueEncode_eq (st : EncodeState) (major n : Nat) :
    valueEncode st major n = st.put (head major (Width.least n) n) := by
  rw [valueEncode, valueEncodeLen, headerLen_eq, EncodeState.put, Cbor.head_length, headerByte,
    getAdditional_eq, head]
  split_ifs <;> first | rfl | omega

theorem zcborUint64Put_eq (st : EncodeState) (u : UInt64) :
    zcborUint64Put st u = st.put (keyItem u).encode :=
  valueEncode_eq st 0 u.toNat

theorem zcborUint32Put_eq (st : EncodeState) (u : UInt32) :
    zcborUint32Put st u = st.put (integerItem u.toNat).encode := by
  rw [zcborUint32Put, valueEncode_eq, integerItem, if_neg (by omega), Int.toNat_natCast]
  rfl

/-- The bits a signed put encodes: those of the number, or flipped for a negative one. -/
private theorem signed_put (st : EncodeState) {i : Int} {flipped plain : Nat}
    (negative : i < 0 → flipped = (-1 - i).toNat) (positive : ¬ i < 0 → plain = i.toNat) :
    (if i < 0 then valueEncode st 1 flipped else valueEncode st 0 plain) =
      st.put (integerItem i).encode := by
  unfold integerItem
  split
  · rename_i below
    rw [negative below, valueEncode_eq]
    rfl
  · rename_i above
    rw [positive above, valueEncode_eq]
    rfl

theorem zcborInt32Put_eq (st : EncodeState) (i : Int32) :
    zcborInt32Put st i = st.put (integerItem i.toInt).encode := by
  have bits : i.toInt = if 2 * i.toUInt32.toNat < 2 ^ 32 then (i.toUInt32.toNat : Int)
    else (i.toUInt32.toNat : Int) - 2 ^ 32 := BitVec.toInt_eq_toNat_cond i.toBitVec
  have small := i.toUInt32.toNat_lt
  simp only [zcborInt32Put, Int32.lt_iff_toInt_lt, UInt32.toNat_not, UInt32.size]
  refine signed_put st ?_ ?_ <;> intro sign <;> split_ifs at bits <;> omega

theorem zcborInt64Put_eq (st : EncodeState) (i : Int64) :
    zcborInt64Put st i = st.put (integerItem i.toInt).encode := by
  have bits : i.toInt = if 2 * i.toUInt64.toNat < 2 ^ 64 then (i.toUInt64.toNat : Int)
    else (i.toUInt64.toNat : Int) - 2 ^ 64 := BitVec.toInt_eq_toNat_cond i.toBitVec
  have small := i.toUInt64.toNat_lt
  simp only [zcborInt64Put, Int64.lt_iff_toInt_lt, UInt64.toNat_not, UInt64.size]
  refine signed_put st ?_ ?_ <;> intro sign <;> split_ifs at bits <;> omega

theorem strEncode_eq (st : EncodeState) (major : Nat) (bytes : List UInt8) :
    strEncode st major bytes = st.put (Cbor.string major (Width.least bytes.length) bytes) := by
  have length : zcborHeaderLen bytes.length = (Width.least bytes.length).length + 1 := by
    have same := headerLen_eq bytes.length
    have positive : 1 ≤ zcborHeaderLen bytes.length := by
      unfold zcborHeaderLen
      split_ifs <;> omega
    omega
  rw [strEncode, valueEncode_eq, EncodeState.put, EncodeState.put, Cbor.string, List.length_append,
    Cbor.head_length, length]
  split_ifs <;> first | omega | simp

theorem encodeHeaderByte_eq (st : EncodeState) (major : Nat) :
    encodeHeaderByte st major 31 = st.put [indefiniteHead major] := by
  rw [encodeHeaderByte, EncodeState.put, List.length_singleton]
  split_ifs <;> first | rfl | omega

theorem zcborListStartEncode_eq (st : EncodeState) : zcborListStartEncode st = st.put [indefiniteHead 4] :=
  encodeHeaderByte_eq st 4

theorem zcborMapStartEncode_eq (st : EncodeState) : zcborMapStartEncode st = st.put [indefiniteHead 5] :=
  encodeHeaderByte_eq st 5

theorem zcborListEndEncode_eq (st : EncodeState) : zcborListEndEncode st = st.put [indefiniteHead 7] :=
  encodeHeaderByte_eq st 7

theorem zcborMapEndEncode_eq (st : EncodeState) : zcborMapEndEncode st = st.put [indefiniteHead 7] :=
  encodeHeaderByte_eq st 7

/-- A put with room, whether its result is looked at or not. -/
theorem putResult_room {st : EncodeState} {bytes : List UInt8} (room : bytes.length ≤ st.room) :
    putResult st (st.put bytes) = (true, st.write bytes) := by
  rw [EncodeState.put_some room, putResult]

theorem zcborFloat64Put_eq (st : EncodeState) (bits : UInt64) :
    zcborFloat64Put st bits = st.put (head 7 .eight bits.toNat) := by
  rw [zcborFloat64Put, valueEncodeLen, EncodeState.put, Cbor.head_length,
    show Width.eight.length = 8 from rfl]
  split_ifs <;> first | rfl | omega

theorem zcborSimplePut_eq (st : EncodeState) {n : Nat} (small : n < 24) :
    zcborSimplePut st n = st.put (head 7 .immediate n) := by
  have least : Width.least n = .immediate := if_pos small
  rw [zcborSimplePut, if_neg (by omega), valueEncode_eq, least]

/-- The encoding of a leaf is a single put of its item. -/
theorem coreconfToCBOR_leaf {value : CoreconfValueT} (leaf : value.isContainer = Bool.false)
    (st : EncodeState) : coreconfToCBOR value st = putResult st (st.put value.toItem.encode) := by
  cases value with
  | array elements => cases leaf
  | hashmap map => cases leaf
  | string s => rw [coreconfToCBOR, zcborTstrEncode, strEncode_eq]; rfl
  | real bits => rw [coreconfToCBOR, zcborFloat64Put_eq]; rfl
  | int8 i => rw [coreconfToCBOR, zcborInt32Put_eq, Int8.toInt_toInt32]; rfl
  | int16 i => rw [coreconfToCBOR, zcborInt32Put_eq, Int16.toInt_toInt32]; rfl
  | int32 i => rw [coreconfToCBOR, zcborInt32Put_eq]; rfl
  | int64 i => rw [coreconfToCBOR, zcborInt64Put_eq]; rfl
  | uint8 u => rw [coreconfToCBOR, zcborUint32Put_eq, UInt8.toNat_toUInt32]; rfl
  | uint16 u => rw [coreconfToCBOR, zcborUint32Put_eq, UInt16.toNat_toUInt32]; rfl
  | uint32 u => rw [coreconfToCBOR, zcborUint32Put_eq]; rfl
  | uint64 u =>
      have positive : integerItem u.toNat = keyItem u := by
        rw [integerItem, if_neg (by omega), Int.toNat_natCast]
        rfl
      rw [coreconfToCBOR, zcborUint64Put_eq, ← positive]
      rfl
  | true => rw [coreconfToCBOR, zcborBoolPut, if_pos rfl, zcborSimplePut_eq _ (by decide)]; rfl
  | false => rw [coreconfToCBOR, zcborBoolPut, if_neg (by decide), zcborSimplePut_eq _ (by decide)]; rfl
  | null => rw [coreconfToCBOR, zcborNilPut, zcborSimplePut_eq _ (by decide)]; rfl

end Coreconf
