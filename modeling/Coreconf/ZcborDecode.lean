import Coreconf.Cbor

set_option autoImplicit false

/- zcbor_decode.c and the backups of zcbor_common.c, without canonical mode and
without stop_on_error. A function that fails with its state unchanged gives `none`;
the others give their result with the state they leave. -/
namespace Coreconf

inductive ZcborMajorType where
  | pint | nint | bstr | tstr | list | map | tag | simple
deriving DecidableEq, Repr

def ZCBOR_MAJOR_TYPE (headerByte : UInt8) : ZcborMajorType :=
  match headerByte.toNat / 32 with
  | 0 => .pint
  | 1 => .nint
  | 2 => .bstr
  | 3 => .tstr
  | 4 => .list
  | 5 => .map
  | 6 => .tag
  | _ => .simple

def ZCBOR_ADDITIONAL (headerByte : UInt8) : Nat := headerByte.toNat % 32

def ZCBOR_VALUE_IN_HEADER : Nat := 23
def ZCBOR_VALUE_IS_1_BYTE : Nat := 24
def ZCBOR_VALUE_IS_8_BYTES : Nat := 27
def ZCBOR_VALUE_IS_INDEFINITE_LENGTH : Nat := 31
def ZCBOR_BOOL_TO_SIMPLE : Nat := 20
def ZCBOR_NIL_VAL : Nat := 22
def ZCBOR_MAX_ELEM_COUNT : Nat := 2 ^ 64 - 1
def ZCBOR_LARGE_ELEM_COUNT : Nat := ZCBOR_MAX_ELEM_COUNT - 15

/-- What a backup restores; the payload position is always kept. -/
structure Backup where
  elemCount : Nat
  indefiniteLengthArray : Bool
deriving DecidableEq, Repr

/-- The payload is what is left of it; the current backup is the head of the list. -/
structure ZcborState where
  payload : List UInt8
  elemCount : Nat
  indefiniteLengthArray : Bool
  backupList : List Backup
  numBackups : Nat
deriving DecidableEq, Repr

def zcborNewDecodeState (nStates : Nat) (payload : List UInt8) (elemCount : Nat) : ZcborState where
  payload := payload
  elemCount := elemCount
  indefiniteLengthArray := false
  backupList := []
  numBackups := nStates - 2

/-- The major type a peek at the payload sees. -/
def majorTypeAt (payload : List UInt8) : Option ZcborMajorType := payload.head?.map ZCBOR_MAJOR_TYPE

def typeCheck (st : ZcborState) (expMajorType : ZcborMajorType) : Bool :=
  majorTypeAt st.payload == some expMajorType

def additionalLen (additional : Nat) : Nat :=
  if additional ≤ ZCBOR_VALUE_IN_HEADER then 0
  else if additional ≤ ZCBOR_VALUE_IS_8_BYTES then 2 ^ (additional - ZCBOR_VALUE_IS_1_BYTE)
  else 15

inductive ExtractedValue where
  | value (n : Nat)
  | indefinite
deriving DecidableEq, Repr

def valueExtract (st : ZcborState) (resultLen : Nat) (indefiniteLengthArray : Bool) :
    Option (ExtractedValue × ZcborState) :=
  match st.payload with
  | [] => none
  | headerByte :: rest =>
      if st.elemCount = 0 then none
      else
        let additional := ZCBOR_ADDITIONAL headerByte
        if additional = ZCBOR_VALUE_IS_INDEFINITE_LENGTH ∧ indefiniteLengthArray = true then
          some (.indefinite, { st with payload := rest, elemCount := st.elemCount - 1 })
        else
          let len := additionalLen additional
          if additional > ZCBOR_VALUE_IS_8_BYTES then none
          else if len > resultLen then none
          else if len > rest.length then none
          else
            some (.value (if len = 0 then additional else Cbor.beNat (rest.take len)),
              { st with payload := rest.drop len, elemCount := st.elemCount - 1 })

/-- `valueExtract` where an indefinite length is not expected. -/
def valueExtractFixed (st : ZcborState) (resultLen : Nat) : Option (Nat × ZcborState) :=
  match valueExtract st resultLen false with
  | some (.value n, st') => some (n, st')
  | _ => none

def zcborUint64Decode (st : ZcborState) : Option (UInt64 × ZcborState) :=
  if typeCheck st .pint then
    match valueExtractFixed st 8 with
    | some (n, st') => some (UInt64.ofNat n, st')
    | none => none
  else none

/-- Fails on a value whose sign bit is taken, flips all bits of a negative one. -/
def zcborInt64Decode (st : ZcborState) : Option (Int64 × ZcborState) :=
  if typeCheck st .pint || typeCheck st .nint then
    match valueExtractFixed st 8 with
    | some (n, st') =>
        if n ≥ 2 ^ 63 then none
        else if typeCheck st .nint then some ((~~~ (UInt64.ofNat n)).toInt64, st')
        else some ((UInt64.ofNat n).toInt64, st')
    | none => none
  else none

def strDecode (st : ZcborState) (expMajorType : ZcborMajorType) : Option (List UInt8 × ZcborState) :=
  if typeCheck st expMajorType then
    match valueExtractFixed st 8 with
    | some (len, st') =>
        if len > st'.payload.length then none
        else some (st'.payload.take len, { st' with payload := st'.payload.drop len })
    | none => none
  else none

def zcborBstrDecode (st : ZcborState) : Option (List UInt8 × ZcborState) := strDecode st .bstr

def zcborTstrDecode (st : ZcborState) : Option (List UInt8 × ZcborState) := strDecode st .tstr

def zcborNewBackup (st : ZcborState) (newElemCount : Nat) : Option ZcborState :=
  if st.backupList.length ≥ st.numBackups then none
  else
    some { st with
      backupList := ⟨st.elemCount, st.indefiniteLengthArray⟩ :: st.backupList
      elemCount := newElemCount }

def listMapStartDecode (st : ZcborState) (expMajorType : ZcborMajorType) : Option ZcborState :=
  if typeCheck st expMajorType then
    match valueExtract st 8 true with
    | none => none
    | some (.indefinite, st') =>
        (zcborNewBackup st' ZCBOR_LARGE_ELEM_COUNT).map
          fun st'' => { st'' with indefiniteLengthArray := true }
    | some (.value newElemCount, st') =>
        (zcborNewBackup st' newElemCount).map
          fun st'' => { st'' with indefiniteLengthArray := false }
  else none

def zcborListStartDecode (st : ZcborState) : Option ZcborState := listMapStartDecode st .list

/-- A count too large to be doubled puts the payload back but keeps the new backup. -/
def zcborMapStartDecode (st : ZcborState) : Bool × ZcborState :=
  match listMapStartDecode st .map with
  | none => (false, st)
  | some st' =>
      if st'.indefiniteLengthArray then (true, st')
      else if st'.elemCount ≥ ZCBOR_MAX_ELEM_COUNT / 2 then
        (false, { st' with payload := st.payload, elemCount := (st'.elemCount + 1) % 2 ^ 64 })
      else (true, { st' with elemCount := st'.elemCount * 2 })

def zcborArrayAtEnd (st : ZcborState) : Bool :=
  if st.indefiniteLengthArray then st.payload.head? == some 0xFF else st.elemCount == 0

def arrayEndExpect (st : ZcborState) : Option ZcborState :=
  match st.payload with
  | [] => none
  | byte :: rest => if byte ≠ 0xFF then none else some { st with payload := rest }

/-- The backup is consumed before the end of the container is checked. -/
def listMapEndDecode (st : ZcborState) : Bool × ZcborState :=
  match st.backupList with
  | [] => (false, st)
  | backup :: backups =>
      let restored := { st with
        elemCount := backup.elemCount
        indefiniteLengthArray := backup.indefiniteLengthArray
        backupList := backups }
      if st.indefiniteLengthArray then
        match arrayEndExpect restored with
        | none => (false, restored)
        | some st' => (true, st')
      else if st.elemCount > 0 then (false, restored)
      else (true, restored)

def zcborListEndDecode (st : ZcborState) : Bool × ZcborState := listMapEndDecode st

def zcborMapEndDecode (st : ZcborState) : Bool × ZcborState := listMapEndDecode st

def zcborSimpleDecode (st : ZcborState) : Option (Nat × ZcborState) :=
  match st.payload with
  | [] => none
  | headerByte :: _ =>
      if ZCBOR_MAJOR_TYPE headerByte ≠ .simple then none
      else if ZCBOR_ADDITIONAL headerByte > ZCBOR_VALUE_IS_1_BYTE then none
      else
        match valueExtractFixed st 1 with
        | none => none
        | some (result, st') =>
            if ZCBOR_ADDITIONAL headerByte = ZCBOR_VALUE_IS_1_BYTE ∧ result < 32 then none
            else some (result, st')

def zcborBoolDecode (st : ZcborState) : Option (Bool × ZcborState) :=
  match zcborSimpleDecode st with
  | some (value, st') =>
      if value = ZCBOR_BOOL_TO_SIMPLE then some (false, st')
      else if value = ZCBOR_BOOL_TO_SIMPLE + 1 then some (true, st')
      else none
  | none => none

def zcborNilExpect (st : ZcborState) : Option ZcborState :=
  match zcborSimpleDecode st with
  | some (actual, st') => if actual ≠ ZCBOR_NIL_VAL then none else some st'
  | none => none

def zcborFloat64Decode (st : ZcborState) : Option (UInt64 × ZcborState) :=
  match st.payload with
  | [] => none
  | headerByte :: _ =>
      if ZCBOR_MAJOR_TYPE headerByte ≠ .simple then none
      else if ZCBOR_ADDITIONAL headerByte ≠ ZCBOR_VALUE_IS_8_BYTES then none
      else
        match valueExtractFixed st 8 with
        | some (bits, st') => some (UInt64.ofNat bits, st')
        | none => none

end Coreconf
