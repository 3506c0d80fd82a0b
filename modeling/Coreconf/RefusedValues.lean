import Mathlib.Tactic.IntervalCases
import Coreconf.DecoderProgress

set_option autoImplicit false

/- The bytes at which the decoder neither reads a value nor moves. -/
namespace Cbor

/-- The argument of the head that comes first, and what is behind the head. -/
def argument? : List UInt8 → Option (Nat × List UInt8)
  | [] => none
  | byte :: rest =>
      let additional := byte.toNat % 32
      let length := 2 ^ (additional - 24)
      if additional < 24 then some (additional, rest)
      else if additional < 28 ∧ length ≤ rest.length then
        some (beNat (rest.take length), rest.drop length)
      else none

theorem argument?_lt {data : List UInt8} {n : Nat} {rest : List UInt8}
    (found : argument? data = some (n, rest)) : n < 2 ^ 64 := by
  cases data with
  | nil => cases found
  | cons byte tail =>
      simp only [argument?] at found
      split_ifs at found with immediate room
      · cases found
        omega
      · cases found
        have shorter : byte.toNat % 32 - 24 ≤ 3 := by omega
        have length : (tail.take (2 ^ (byte.toNat % 32 - 24))).length ≤ 8 := by
          rw [List.length_take_of_le room.2]
          exact Nat.pow_le_pow_right (by decide) shorter
        calc beNat _ < 256 ^ _ := beNat_lt _
          _ ≤ 256 ^ 8 := Nat.pow_le_pow_right (by decide) length
          _ = 2 ^ 64 := by decide

end Cbor

namespace Coreconf

open Cbor (argument?)

/-- What stands at the payload pointer is not taken, whatever comes behind it. -/
@[mk_iff]
inductive Refused (st : ZcborState) (indent : Nat) : Prop
  | tooDeep (deep : indent > CORECONF_MAX_DEPTH)
  | exhausted (none : st.elemCount = 0)
  | endOfPayload (empty : st.payload = [])
  /-- Additional information 28 to 30 as well, and 31 in all heads but 0x9F and 0xBF. -/
  | head (cut : argument? st.payload = none) (notList : st.payload.head? ≠ some 0x9F)
      (notMap : st.payload.head? ≠ some 0xBF)
  | negative {n rest} (major : majorTypeAt st.payload = some .nint)
      (argument : argument? st.payload = some (n, rest)) (large : 2 ^ 63 ≤ n)
  | string {n rest} (major : majorTypeAt st.payload = some .bstr ∨ majorTypeAt st.payload = some .tstr)
      (argument : argument? st.payload = some (n, rest)) (cut : rest.length < n)
  | noBackup (major : majorTypeAt st.payload = some .list ∨ majorTypeAt st.payload = some .map)
      (full : st.numBackups ≤ st.backupList.length)
  /-- A count of 2^64 - 1 is refused too, but then the container around is at its end. -/
  | count {n rest} (major : majorTypeAt st.payload = some .map)
      (argument : argument? st.payload = some (n, rest)) (large : ZCBOR_MAX_ELEM_COUNT / 2 ≤ n)
      (notEnd : n ≠ ZCBOR_MAX_ELEM_COUNT)
  | tag (major : majorTypeAt st.payload = some .tag)
  | simple (major : majorTypeAt st.payload = some .simple)
      (unsupported : ∀ byte ∈ ([0xF4, 0xF5, 0xF6, 0xFB] : List UInt8), st.payload.head? ≠ some byte)

/-- The decoder's own failures: what is read is NULL, or a container that is not entered,
and the container around is not at its end after the attempt. -/
def Unread (st : ZcborState) (indent : Nat) : Prop :=
  indent > CORECONF_MAX_DEPTH ∨
    match majorTypeAt st.payload with
    | none => True
    | some .list => zcborListStartDecode st = none
    | some .map =>
        (zcborMapStartDecode st).1 = false ∧ ¬ zcborArrayAtEnd (zcborMapStartDecode st).2
    | some majorType => cborToCoreconfScalar st majorType = none

def ZcborMajorType.number : ZcborMajorType → Nat
  | pint => 0
  | nint => 1
  | bstr => 2
  | tstr => 3
  | list => 4
  | map => 5
  | tag => 6
  | simple => 7

theorem ZCBOR_MAJOR_TYPE_eq {byte : UInt8} {t : ZcborMajorType} (number : byte.toNat / 32 = t.number) :
    ZCBOR_MAJOR_TYPE byte = t := by
  rw [ZCBOR_MAJOR_TYPE, number]
  cases t <;> rfl

theorem ZCBOR_MAJOR_TYPE_number (byte : UInt8) : (ZCBOR_MAJOR_TYPE byte).number = byte.toNat / 32 := by
  have bound : byte.toNat / 32 < 8 := by have := byte.toNat_lt; omega
  rw [ZCBOR_MAJOR_TYPE]
  generalize byte.toNat / 32 = number at bound ⊢
  interval_cases number <;> rfl

theorem number_lt (t : ZcborMajorType) : t.number < 8 := by
  cases t <;> decide

variable {st : ZcborState} {indent : Nat}

theorem additionalLen_of_short {additional : Nat} (short : additional ≤ 27) (long : 24 ≤ additional) :
    additionalLen additional = 2 ^ (additional - 24) ∧ additionalLen additional ≤ 8 := by
  have same : additionalLen additional = 2 ^ (additional - 24) := by
    rw [additionalLen, if_neg (by simp only [ZCBOR_VALUE_IN_HEADER]; omega),
      if_pos (by simp only [ZCBOR_VALUE_IS_8_BYTES]; omega), ZCBOR_VALUE_IS_1_BYTE]
  refine ⟨same, ?_⟩
  rw [same]
  exact Nat.pow_le_pow_right (show 0 < 2 by decide) (show additional - 24 ≤ 3 by omega)

/-- What is extracted is the argument, or an indefinite length. -/
theorem valueExtract_eq (st : ZcborState) (indefinite : Bool) :
    valueExtract st 8 indefinite =
      if st.elemCount = 0 then none
      else if st.payload.head?.map ZCBOR_ADDITIONAL = some 31 ∧ indefinite = true then
        some (.indefinite, { st with payload := st.payload.tail, elemCount := st.elemCount - 1 })
      else (argument? st.payload).map fun read =>
        (.value read.1, { st with payload := read.2, elemCount := st.elemCount - 1 }) := by
  rw [valueExtract]
  cases payload : st.payload with
  | nil => simp [argument?]
  | cons byte rest =>
      simp only [List.head?_cons, Option.map_some, Option.some.injEq, List.tail_cons,
        ZCBOR_VALUE_IS_INDEFINITE_LENGTH, ZCBOR_ADDITIONAL, ZCBOR_VALUE_IS_8_BYTES, gt_iff_lt]
      refine if_congr Iff.rfl rfl (if_congr Iff.rfl rfl ?_)
      by_cases immediate : byte.toNat % 32 < 24
      · have none : additionalLen (byte.toNat % 32) = 0 := if_pos (Nat.le_of_lt_succ immediate)
        simp [argument?, immediate, none, show ¬ 27 < byte.toNat % 32 by omega]
      · by_cases valid : byte.toNat % 32 ≤ 27
        · obtain ⟨length, short⟩ := additionalLen_of_short valid (by omega)
          rw [if_neg (Nat.not_lt.mpr valid), if_neg (Nat.not_lt.mpr short), argument?, if_neg immediate]
          by_cases enough : additionalLen (byte.toNat % 32) ≤ rest.length
          · rw [if_neg (Nat.not_lt.mpr enough), if_pos ⟨by omega, length ▸ enough⟩]
            simp [length]
          · rw [if_pos (Nat.not_le.mp enough), if_neg fun both => enough (length ▸ both.2)]
            rfl
        · rw [if_pos (Nat.not_le.mp valid), argument?, if_neg immediate,
            if_neg fun both => valid (Nat.le_of_lt_succ both.1)]
          rfl

theorem valueExtractFixed_eq (st : ZcborState) :
    valueExtractFixed st 8 =
      if st.elemCount = 0 then none
      else (argument? st.payload).map fun read =>
        (read.1, { st with payload := read.2, elemCount := st.elemCount - 1 }) := by
  rw [valueExtractFixed, valueExtract_eq]
  simp only [Bool.false_eq_true, and_false, ↓reduceIte]
  split_ifs
  · rfl
  · cases argument? st.payload <;> rfl

theorem valueExtractFixed_none : valueExtractFixed st 8 = none ↔ st.elemCount = 0 ∨ argument? st.payload = none := by
  rw [valueExtractFixed_eq]
  split_ifs with exhausted <;> simp [exhausted]

theorem zcborNewBackup_none {count : Nat} :
    zcborNewBackup st count = none ↔ st.numBackups ≤ st.backupList.length := by
  rw [zcborNewBackup]
  split_ifs with full <;> simpa using full

/-- A container is not entered for want of an element, of a head or of a backup. -/
theorem listMapStartDecode_none {t : ZcborMajorType} (major : majorTypeAt st.payload = some t) :
    listMapStartDecode st t = none ↔
      st.elemCount = 0 ∨ (argument? st.payload = none ∧ st.payload.head?.map ZCBOR_ADDITIONAL ≠ some 31) ∨
        st.numBackups ≤ st.backupList.length := by
  rw [listMapStartDecode, if_pos (by rw [typeCheck, major, beq_self_eq_true]), valueExtract_eq]
  by_cases exhausted : st.elemCount = 0
  · simp [exhausted]
  by_cases unbounded : st.payload.head?.map ZCBOR_ADDITIONAL = some 31
  · simp only [exhausted, unbounded, and_self, ↓reduceIte, Option.map_eq_none_iff, zcborNewBackup_none,
      ne_eq, not_true_eq_false, and_false, false_or]
  · cases argument : argument? st.payload with
    | none => simp [exhausted, unbounded]
    | some read => simp [exhausted, unbounded, zcborNewBackup_none]

/-- The head byte of a major type with this additional information. -/
theorem additional_eq_iff {byte : UInt8} {t : ZcborMajorType} (major : ZCBOR_MAJOR_TYPE byte = t)
    (additional : Nat) (small : additional < 32) :
    ZCBOR_ADDITIONAL byte = additional ↔ byte = UInt8.ofNat (32 * t.number + additional) := by
  have number := ZCBOR_MAJOR_TYPE_number byte
  have bound := number_lt t
  rw [major] at number
  rw [ZCBOR_ADDITIONAL, ← UInt8.toNat_inj, UInt8.toNat_ofNat']
  omega

/-- Only the heads 0x9F and 0xBF are of indefinite length. -/
theorem additional_indefinite
    (container : majorTypeAt st.payload = some .list ∨ majorTypeAt st.payload = some .map) :
    st.payload.head?.map ZCBOR_ADDITIONAL ≠ some 31 ↔
      st.payload.head? ≠ some 0x9F ∧ st.payload.head? ≠ some 0xBF := by
  cases payload : st.payload with
  | nil => simp
  | cons byte rest =>
      rw [payload] at container
      simp only [majorTypeAt, List.head?_cons, Option.map_some, Option.some.injEq] at container
      simp only [List.head?_cons, Option.map_some, ne_eq, Option.some.injEq]
      rcases container with list | map
      · have notMap : byte ≠ 0xBF := by
          rintro rfl
          cases list
        rw [additional_eq_iff list 31 (by decide)]
        exact ⟨fun notList => ⟨notList, notMap⟩, And.left⟩
      · have notList : byte ≠ 0x9F := by
          rintro rfl
          cases map
        rw [additional_eq_iff map 31 (by decide)]
        exact ⟨fun notMap => ⟨notList, notMap⟩, And.right⟩

/-- A head that is no container's is none of these two. -/
theorem head_notContainer {t : ZcborMajorType} (major : majorTypeAt st.payload = some t) (notList : t ≠ .list)
    (notMap : t ≠ .map) : st.payload.head? ≠ some 0x9F ∧ st.payload.head? ≠ some 0xBF := by
  constructor <;> intro same <;> rw [majorTypeAt, same] at major <;> cases major
  · exact notList rfl
  · exact notMap rfl

theorem zcborUint64Decode_none (major : majorTypeAt st.payload = some .pint) :
    zcborUint64Decode st = none ↔ st.elemCount = 0 ∨ argument? st.payload = none := by
  rw [zcborUint64Decode, if_pos (by rw [typeCheck, major]; rfl), ← valueExtractFixed_none]
  cases valueExtractFixed st 8 <;> simp

theorem zcborInt64Decode_none (major : majorTypeAt st.payload = some .nint) :
    zcborInt64Decode st = none ↔ st.elemCount = 0 ∨ argument? st.payload = none ∨
      ∃ n rest, argument? st.payload = some (n, rest) ∧ 2 ^ 63 ≤ n := by
  have check : typeCheck st .nint = true := by rw [typeCheck, major]; rfl
  rw [zcborInt64Decode, if_pos (by simp [check]), valueExtractFixed_eq]
  by_cases exhausted : st.elemCount = 0
  · simp [exhausted]
  · cases argument? st.payload with
    | none => simp [exhausted]
    | some read =>
        obtain ⟨n, rest⟩ := read
        simp [exhausted, check]

theorem strDecode_none {t : ZcborMajorType} (major : majorTypeAt st.payload = some t) :
    strDecode st t = none ↔ st.elemCount = 0 ∨ argument? st.payload = none ∨
      ∃ n rest, argument? st.payload = some (n, rest) ∧ rest.length < n := by
  rw [strDecode, if_pos (by rw [typeCheck, major, beq_self_eq_true]), valueExtractFixed_eq]
  by_cases exhausted : st.elemCount = 0
  · simp [exhausted]
  · cases argument? st.payload with
    | none => simp [exhausted]
    | some read =>
        obtain ⟨n, rest⟩ := read
        simp [exhausted]

/-- An argument of one byte at most. -/
private theorem valueExtractFixed_one {byte : UInt8} {rest : List UInt8} (payload : st.payload = byte :: rest)
    (short : ZCBOR_ADDITIONAL byte ≤ 24) : valueExtractFixed st 1 = valueExtractFixed st 8 := by
  have length : additionalLen (ZCBOR_ADDITIONAL byte) ≤ 1 := by
    rcases Nat.lt_or_eq_of_le short with immediate | one
    · have none : additionalLen (ZCBOR_ADDITIONAL byte) = 0 := if_pos (Nat.le_of_lt_succ immediate)
      omega
    · rw [one]
      decide
  have one : ¬ additionalLen (ZCBOR_ADDITIONAL byte) > 1 := Nat.not_lt.mpr length
  have eight : ¬ additionalLen (ZCBOR_ADDITIONAL byte) > 8 := by omega
  simp only [valueExtractFixed, valueExtract, payload, one, eight]

theorem zcborFloat64Decode_none {byte : UInt8} {rest : List UInt8} (payload : st.payload = byte :: rest)
    (major : ZCBOR_MAJOR_TYPE byte = .simple) :
    zcborFloat64Decode st = none ↔
      ZCBOR_ADDITIONAL byte ≠ 27 ∨ st.elemCount = 0 ∨ argument? st.payload = none := by
  rw [← valueExtractFixed_none, zcborFloat64Decode, payload]
  by_cases float : ZCBOR_ADDITIONAL byte = 27
  · simp only [major, float, ZCBOR_VALUE_IS_8_BYTES, ne_eq, not_true_eq_false, ↓reduceIte, false_or]
    cases valueExtractFixed st 8 <;> simp
  · simp [major, float, ZCBOR_VALUE_IS_8_BYTES]

/-- A simple value in the head byte is read as it is; one in a byte of its own is none of those
that are asked for. -/
theorem zcborSimpleDecode_cases {byte : UInt8} {rest : List UInt8} (payload : st.payload = byte :: rest)
    (major : ZCBOR_MAJOR_TYPE byte = .simple) :
    (st.elemCount = 0 ∧ zcborSimpleDecode st = none) ∨
    (st.elemCount ≠ 0 ∧ ZCBOR_ADDITIONAL byte < 24 ∧ argument? st.payload ≠ none ∧
      ∃ st', zcborSimpleDecode st = some (ZCBOR_ADDITIONAL byte, st')) ∨
    (24 ≤ ZCBOR_ADDITIONAL byte ∧ ∀ value st', zcborSimpleDecode st = some (value, st') → 32 ≤ value) := by
  by_cases long : ZCBOR_ADDITIONAL byte > 24
  · refine Or.inr (Or.inr ⟨by omega, fun value st' read => ?_⟩)
    simp [zcborSimpleDecode, payload, major, long, ZCBOR_VALUE_IS_1_BYTE] at read
  have simple : zcborSimpleDecode st = (valueExtractFixed st 8).bind fun read =>
      if ZCBOR_ADDITIONAL byte = 24 ∧ read.1 < 32 then none else some read := by
    rw [← valueExtractFixed_one payload (Nat.not_lt.mp long), zcborSimpleDecode, payload]
    simp only [major, long, ZCBOR_VALUE_IS_1_BYTE, ne_eq, not_true_eq_false, ↓reduceIte]
    cases valueExtractFixed st 1 <;> rfl
  rw [simple, valueExtractFixed_eq]
  by_cases exhausted : st.elemCount = 0
  · exact Or.inl ⟨exhausted, by rw [if_pos exhausted, Option.bind_none]⟩
  rw [if_neg exhausted]
  by_cases immediate : ZCBOR_ADDITIONAL byte < 24
  · have argument : argument? st.payload = some (ZCBOR_ADDITIONAL byte, rest) := by
      rw [payload]
      exact if_pos immediate
    rw [argument]
    refine Or.inr (Or.inl ⟨exhausted, immediate, Option.some_ne_none _, _, if_neg ?_⟩)
    omega
  · refine Or.inr (Or.inr ⟨Nat.not_lt.mp immediate, fun value st' read => ?_⟩)
    have one : ZCBOR_ADDITIONAL byte = 24 := by omega
    cases argument : argument? st.payload with
    | none =>
        rw [argument] at read
        cases read
    | some found =>
        simp only [argument, Option.map_some, Option.bind_some, one, true_and] at read
        split_ifs at read with small
        cases read
        omega

theorem boolOrNil_none {byte : UInt8} {rest : List UInt8} (payload : st.payload = byte :: rest)
    (major : ZCBOR_MAJOR_TYPE byte = .simple) :
    zcborBoolDecode st = none ∧ zcborNilExpect st = none ↔
      st.elemCount = 0 ∨
        (ZCBOR_ADDITIONAL byte ≠ 20 ∧ ZCBOR_ADDITIONAL byte ≠ 21 ∧ ZCBOR_ADDITIONAL byte ≠ 22) := by
  rw [zcborBoolDecode, zcborNilExpect, ZCBOR_BOOL_TO_SIMPLE, ZCBOR_NIL_VAL]
  rcases zcborSimpleDecode_cases payload major with ⟨exhausted, none⟩ |
    ⟨left, immediate, argument, st', read⟩ | ⟨long, other⟩
  · simp [exhausted, none]
  · simp only [read, left, false_or]
    by_cases no : ZCBOR_ADDITIONAL byte = 20
    · simp [no]
    by_cases yes : ZCBOR_ADDITIONAL byte = 21
    · simp [yes]
    by_cases null : ZCBOR_ADDITIONAL byte = 22
    · simp [null]
    · simp [no, yes, null]
  · refine iff_of_true ?_ (Or.inr (by omega))
    cases read : zcborSimpleDecode st with
    | none => exact ⟨rfl, rfl⟩
    | some result =>
        have large := other result.1 result.2 read
        simp only
        rw [if_neg (by omega), if_neg (by omega), if_pos (by omega)]
        exact ⟨rfl, rfl⟩

/-- Of the simple values false, true, null and 64-bit floats are read. -/
theorem scalar_simple_none {byte : UInt8} {rest : List UInt8} (payload : st.payload = byte :: rest)
    (major : ZCBOR_MAJOR_TYPE byte = .simple) :
    cborToCoreconfScalar st .simple = none ↔
      st.elemCount = 0 ∨ argument? st.payload = none ∨
        ∀ supported ∈ ([0xF4, 0xF5, 0xF6, 0xFB] : List UInt8), byte ≠ supported := by
  have float : ZCBOR_ADDITIONAL byte = 27 ↔ byte = 0xFB := additional_eq_iff major 27 (by decide)
  have no : ZCBOR_ADDITIONAL byte = 20 ↔ byte = 0xF4 := additional_eq_iff major 20 (by decide)
  have yes : ZCBOR_ADDITIONAL byte = 21 ↔ byte = 0xF5 := additional_eq_iff major 21 (by decide)
  have null : ZCBOR_ADDITIONAL byte = 22 ↔ byte = 0xF6 := additional_eq_iff major 22 (by decide)
  have immediate : argument? st.payload = none → 24 ≤ ZCBOR_ADDITIONAL byte := by
    intro cut
    by_contra short
    rw [payload] at cut
    exact absurd ((if_pos (Nat.not_le.mp short)).symm.trans cut) (Option.some_ne_none _)
  have split : cborToCoreconfScalar st .simple = none ↔
      zcborFloat64Decode st = none ∧ zcborBoolDecode st = none ∧ zcborNilExpect st = none := by
    rw [cborToCoreconfScalar]
    cases zcborFloat64Decode st <;> cases zcborBoolDecode st <;> simp
  simp only [List.forall_mem_cons, List.not_mem_nil, false_implies, implies_true, and_true, ne_eq]
  rw [← float, ← no, ← yes, ← null, split, zcborFloat64Decode_none payload major, boolOrNil_none payload major]
  constructor
  · rintro ⟨noFloat, noBoolOrNil⟩
    rcases noBoolOrNil with exhausted | ⟨notNo, notYes, notNull⟩
    · exact Or.inl exhausted
    · rcases noFloat with other | exhausted | cut
      · exact Or.inr (Or.inr ⟨notNo, notYes, notNull, other⟩)
      · exact Or.inl exhausted
      · exact Or.inr (Or.inl cut)
  · rintro (exhausted | cut | unsupported)
    · exact ⟨Or.inr (Or.inl exhausted), Or.inl exhausted⟩
    · have long := immediate cut
      exact ⟨Or.inr (Or.inr cut), Or.inr (by omega)⟩
    · exact ⟨Or.inl unsupported.2.2.2, Or.inr ⟨unsupported.1, unsupported.2.1, unsupported.2.2.1⟩⟩

theorem argument?_indefinite {data : List UInt8} (unbounded : data.head?.map ZCBOR_ADDITIONAL = some 31) :
    argument? data = none := by
  cases data with
  | nil => rfl
  | cons byte rest =>
      have additional : byte.toNat % 32 = 31 := Option.some.inj unbounded
      rw [argument?, if_neg (by omega), if_neg fun both => absurd both.1 (by omega)]

theorem listMapStartDecode_some {t : ZcborMajorType} {st' : ZcborState}
    (started : listMapStartDecode st t = some st') :
    (st'.indefiniteLengthArray = true ∧ argument? st.payload = none) ∨
      (st'.indefiniteLengthArray = false ∧ ∃ rest, argument? st.payload = some (st'.elemCount, rest)) := by
  unfold listMapStartDecode at started
  split at started
  swap
  · cases started
  rw [valueExtract_eq] at started
  split_ifs at started with exhausted unbounded
  · obtain ⟨pushed, -, rfl⟩ := Option.map_eq_some_iff.mp started
    exact Or.inl ⟨rfl, argument?_indefinite unbounded.1⟩
  · cases argument : argument? st.payload with
    | none =>
        rw [argument] at started
        cases started
    | some read =>
        rw [argument] at started
        obtain ⟨pushed, backup, rfl⟩ := Option.map_eq_some_iff.mp started
        unfold zcborNewBackup at backup
        split at backup
        · cases backup
        · cases backup
          exact Or.inr ⟨rfl, read.2, rfl⟩

/-- A map is refused like an array, or for a count that cannot be doubled. -/
theorem mapStart_refused_iff (inside : ¬ zcborArrayAtEnd st) :
    (zcborMapStartDecode st).1 = false ∧ ¬ zcborArrayAtEnd (zcborMapStartDecode st).2 ↔
      listMapStartDecode st .map = none ∨ ∃ n rest, argument? st.payload = some (n, rest) ∧
        ZCBOR_MAX_ELEM_COUNT / 2 ≤ n ∧ n ≠ ZCBOR_MAX_ELEM_COUNT := by
  rw [zcborMapStartDecode]
  cases started : listMapStartDecode st .map with
  | none => simp [inside]
  | some st' =>
      rcases listMapStartDecode_some started with ⟨indefinite, argument⟩ | ⟨definite, rest, argument⟩
      · simp [indefinite, argument]
      · have bound := Cbor.argument?_lt argument
        have counted : (∃ n rest, argument? st.payload = some (n, rest) ∧ ZCBOR_MAX_ELEM_COUNT / 2 ≤ n ∧
            n ≠ ZCBOR_MAX_ELEM_COUNT) ↔
            ZCBOR_MAX_ELEM_COUNT / 2 ≤ st'.elemCount ∧ st'.elemCount ≠ ZCBOR_MAX_ELEM_COUNT := by
          simp [argument]
        rw [counted, ZCBOR_MAX_ELEM_COUNT]
        by_cases large : (2 ^ 64 - 1) / 2 ≤ st'.elemCount
        · simp only [definite, large, Bool.false_eq_true, ↓reduceIte, zcborArrayAtEnd, beq_iff_eq,
            reduceCtorEq, true_and, false_or]
          omega
        · simp only [definite, large, Bool.false_eq_true, ↓reduceIte, reduceCtorEq, false_and, or_self]

private theorem notContainers {t : ZcborMajorType} (major : majorTypeAt st.payload = some t)
    (notList : t ≠ .list) (notMap : t ≠ .map) :
    (argument? st.payload = none ∧ st.payload.head? ≠ some 0x9F ∧ st.payload.head? ≠ some 0xBF) ↔
      argument? st.payload = none :=
  and_iff_left (head_notContainer major notList notMap)

/-- The decoder fails in front of the refused values, and in front of no other. -/
theorem unread_iff (inside : ¬ zcborArrayAtEnd st) : Unread st indent ↔ Refused st indent := by
  rw [Unread, refused_iff]
  refine or_congr Iff.rfl ?_
  cases major : majorTypeAt st.payload with
  | none =>
      have empty : st.payload = [] := by simpa [majorTypeAt] using major
      simp [empty]
  | some t =>
      obtain ⟨byte, rest, payload⟩ : ∃ byte rest, st.payload = byte :: rest := by
        cases payload : st.payload with
        | nil =>
            rw [payload] at major
            cases major
        | cons byte rest => exact ⟨byte, rest, rfl⟩
      have nonempty : st.payload ≠ [] := by
        rw [payload]
        exact List.cons_ne_nil byte rest
      cases t with
      | pint =>
          simp only [nonempty, notContainers major (by decide) (by decide)]
          simp [cborToCoreconfScalar, zcborUint64Decode_none major]
      | nint =>
          simp only [nonempty, notContainers major (by decide) (by decide)]
          simp [cborToCoreconfScalar, zcborInt64Decode_none major]
      | bstr =>
          simp only [nonempty, notContainers major (by decide) (by decide)]
          simp [cborToCoreconfScalar, zcborBstrDecode, strDecode_none major]
      | tstr =>
          simp only [nonempty, notContainers major (by decide) (by decide)]
          simp [cborToCoreconfScalar, zcborTstrDecode, strDecode_none major]
      | list =>
          simp only [zcborListStartDecode, listMapStartDecode_none major, additional_indefinite (Or.inl major)]
          simp [nonempty]
      | map =>
          simp only [mapStart_refused_iff inside, listMapStartDecode_none major, additional_indefinite (Or.inr major)]
          simp [nonempty, or_assoc]
      | tag => simp [cborToCoreconfScalar]
      | simple =>
          have shown : majorTypeAt st.payload = some (ZCBOR_MAJOR_TYPE byte) := by
            rw [payload]
            rfl
          simp only [nonempty, notContainers major (by decide) (by decide),
            scalar_simple_none payload (Option.some.inj (shown.symm.trans major))]
          simp [payload]

end Coreconf
