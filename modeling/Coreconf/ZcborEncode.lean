import Coreconf.Cbor

set_option autoImplicit false

/- zcbor_encode.c without canonical mode: containers have indefinite length. A
function that fails writes nothing. -/
namespace Coreconf

/-- The bytes written so far and the room left in the buffer. -/
structure EncodeState where
  payload : List UInt8
  room : Nat
deriving DecidableEq, Repr

def zcborNewEncodeState (payloadLen : Nat) : EncodeState where
  payload := []
  room := payloadLen

def EncodeState.write (st : EncodeState) (bytes : List UInt8) : EncodeState where
  payload := st.payload ++ bytes
  room := st.room - bytes.length

def log2ceil : Nat → Nat
  | 1 => 0
  | 2 => 1
  | 3 | 4 => 2
  | 5 | 6 | 7 | 8 => 3
  | _ => 0

def getAdditional (len value0 : Nat) : Nat := if len = 0 then value0 else 24 + log2ceil len

def headerByte (majorType additional : Nat) : UInt8 := UInt8.ofNat (32 * majorType + additional % 32)

def encodeHeaderByte (st : EncodeState) (majorType additional : Nat) : Option EncodeState :=
  if st.room = 0 then none else some (st.write [headerByte majorType additional])

def valueEncodeLen (st : EncodeState) (majorType input resultLen : Nat) : Option EncodeState :=
  if 1 + resultLen > st.room then none
  else
    some (st.write
      (headerByte majorType (getAdditional resultLen (input % 256)) :: Cbor.beBytes resultLen input))

def zcborHeaderLen (value : Nat) : Nat :=
  if value ≤ 23 then 1
  else if value ≤ 0xFF then 2
  else if value ≤ 0xFFFF then 3
  else if value ≤ 0xFFFFFFFF then 5
  else 9

def valueEncode (st : EncodeState) (majorType input : Nat) : Option EncodeState :=
  valueEncodeLen st majorType input (zcborHeaderLen input - 1)

/-- A negative number is encoded by its flipped bits. -/
def zcborInt32Put (st : EncodeState) (input : Int32) : Option EncodeState :=
  if input < 0 then valueEncode st 1 (~~~ input.toUInt32).toNat
  else valueEncode st 0 input.toUInt32.toNat

def zcborInt64Put (st : EncodeState) (input : Int64) : Option EncodeState :=
  if input < 0 then valueEncode st 1 (~~~ input.toUInt64).toNat
  else valueEncode st 0 input.toUInt64.toNat

def zcborUint32Put (st : EncodeState) (input : UInt32) : Option EncodeState :=
  valueEncode st 0 input.toNat

def zcborUint64Put (st : EncodeState) (input : UInt64) : Option EncodeState :=
  valueEncode st 0 input.toNat

def strEncode (st : EncodeState) (majorType : Nat) (input : List UInt8) : Option EncodeState :=
  if st.room = 0 then none
  else if input.length > st.room then none
  else if zcborHeaderLen input.length + input.length > st.room then none
  else (valueEncode st majorType input.length).map (·.write input)

def zcborTstrEncode (st : EncodeState) (input : List UInt8) : Option EncodeState :=
  strEncode st 3 input

def zcborListStartEncode (st : EncodeState) : Option EncodeState := encodeHeaderByte st 4 31

def zcborMapStartEncode (st : EncodeState) : Option EncodeState := encodeHeaderByte st 5 31

def listMapEndEncode (st : EncodeState) : Option EncodeState := encodeHeaderByte st 7 31

def zcborListEndEncode (st : EncodeState) : Option EncodeState := listMapEndEncode st

def zcborMapEndEncode (st : EncodeState) : Option EncodeState := listMapEndEncode st

def zcborSimplePut (st : EncodeState) (input : Nat) : Option EncodeState :=
  if 23 < input ∧ input < 32 then none else valueEncode st 7 input

def zcborNilPut (st : EncodeState) : Option EncodeState := zcborSimplePut st 22

def zcborBoolPut (st : EncodeState) (input : Bool) : Option EncodeState :=
  zcborSimplePut st (if input then 21 else 20)

def zcborFloat64Put (st : EncodeState) (bits : UInt64) : Option EncodeState :=
  valueEncodeLen st 7 bits.toNat 8

end Coreconf
