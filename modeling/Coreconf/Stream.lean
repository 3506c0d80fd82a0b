import Coreconf.Server
import Coreconf.ZcborSkip

set_option autoImplicit false

/- coreconf_server.c, the part about the notification stream: the events that are queued, and
the SIDs a client filters on. -/
namespace Coreconf

open Fuel (Step)

def STREAM_MAX_EVENTS : Nat := 16

/-- Nothing where the room does not suffice. -/
def cborEncodeUint (outSz : Nat) (value : UInt64) : List UInt8 :=
  if value < 24 then if outSz < 1 then [] else [value.toUInt8]
  else if value ≤ 0xFF then if outSz < 2 then [] else [0x18, value.toUInt8]
  else if value ≤ 0xFFFF then if outSz < 3 then [] else 0x19 :: Cbor.beBytes 2 value.toNat
  else if value ≤ 0xFFFFFFFF then if outSz < 5 then [] else 0x1A :: Cbor.beBytes 4 value.toNat
  else if outSz < 9 then [] else 0x1B :: Cbor.beBytes 8 value.toNat

/-- The map under one key of its own; nothing where the room does not suffice. -/
def streamWrapNotificationInstance (outSz : Nat) (notifSid : UInt64) (payloadMap : List UInt8) : List UInt8 :=
  if outSz < 2 ∨ payloadMap = [] then []
  else
    let key := cborEncodeUint (outSz - 1) notifSid
    if key = [] then []
    else if 1 + key.length + payloadMap.length > outSz then []
    else 0xA1 :: (key ++ payloadMap)

/-- The first key of a map, or the SID in it; every failure gives the fallback. -/
def streamExtractFirstSidFromMap (skip : ZcborState → Option SkipResult) (mapData : List UInt8)
    (fallbackSid : UInt64) : Option UInt64 :=
  if mapData = [] then some fallbackSid
  else
    match zcborMapStartDecode (zcborNewDecodeState 8 mapData 1) with
    | (false, _) => some fallbackSid
    | (true, st) =>
        if zcborArrayAtEnd st then some fallbackSid
        else
          match majorTypeAt st.payload with
          | some .pint =>
              match zcborUint64Decode st with
              | none => some fallbackSid
              | some (sid, _) => some sid
          | some .list =>
              match (zcborListStartDecode st).bind zcborUint64Decode with
              | none => some fallbackSid
              | some (sid, st) =>
                  (skip st).map fun
                    | .skipped st _ => if (zcborListEndDecode st).1 then sid else fallbackSid
                    | _ => fallbackSid
          | _ => some fallbackSid

/-- The newest event is the first. -/
def streamPushEvent (data : List UInt8) (events : List (List UInt8)) : List (List UInt8) :=
  if data = [] then events
  else data :: if events.length = STREAM_MAX_EVENTS then events.dropLast else events

def streamPushNotificationMap (module : UInt64) (skip : ZcborState → Option SkipResult) (mapData : List UInt8)
    (events : List (List UInt8)) : Option (List (List UInt8)) :=
  if mapData = [] then some events
  else
    (streamExtractFirstSidFromMap skip mapData module).map fun notifSid =>
      streamPushEvent (streamWrapNotificationInstance BUFFER_SIZE notifSid mapData) events

/-- Bytes of a payload by where they begin and how many they are. -/
structure Slice where
  start : Nat
  len : Nat
deriving DecidableEq, Repr

/-- A skip in the loop over the entries of a map, or how the loop is left there. How far the
payload pointer is past the end is kept beside the state; a state that is put back stands at
the head of the map. -/
def sequenceSkip (skip : ZcborState → Option SkipResult) (ptr : List UInt8) (loop : ZcborState × Nat) :
    Option (Except (ZcborState × Nat) (ZcborState × Nat)) :=
  (skip loop.1).map fun
    | .skipped st past => .ok (st, past)
    | .failed => .error loop
    | .restored => .error ({ loop.1 with payload := ptr, elemCount := loop.1.elemCount + 1 }, 0)

def sequenceEntryBody (skip : ZcborState → Option SkipResult) (ptr : List UInt8) (loop : ZcborState × Nat) :
    Option (Step (ZcborState × Nat) (ZcborState × Nat)) :=
  if zcborArrayAtEnd loop.1 then some (.done loop)
  else
    (sequenceSkip skip ptr loop).bind fun
      | .error left => some (.done left)
      | .ok loop =>
          (sequenceSkip skip ptr loop).map fun
            | .error left => .done left
            | .ok loop => .next loop

structure SequenceLoop where
  ptr : List UInt8
  offset : Nat
  slices : List Slice

/-- One map of a sequence. -/
def sequenceMapBody (n : Nat) (loop : SequenceLoop) : Option (Step SequenceLoop (List Slice)) :=
  if loop.ptr = [] then some (.done loop.slices)
  else
    match zcborMapStartDecode (zcborNewDecodeState 8 loop.ptr 1) with
    | (false, _) => some (.done loop.slices)
    | (true, st) =>
        (Fuel.loop (sequenceEntryBody (zcborAnySkip n) loop.ptr) n (st, 0)).map fun (st, past) =>
          match zcborMapEndDecode st with
          | (false, _) => .done loop.slices
          | (true, st) =>
              let mapLen := loop.ptr.length - st.payload.length + past
              if mapLen = 0 then .done loop.slices
              else .next ⟨st.payload, loop.offset + mapLen, loop.slices ++ [⟨loop.offset, mapLen⟩]⟩

/-- The slices of a sequence that are queued, in the order of the sequence. -/
def streamPushNotificationSequence (n : Nat) (seqData : List UInt8) : Option (List Slice) :=
  Fuel.iterate sequenceMapBody n ⟨seqData, 0, []⟩

structure FilterLoop where
  sids : List UInt64
  ptr : List UInt8

/-- One identifier of a filter; whatever is read as a key is skipped. -/
def filterSidBody (skip : ZcborState → Option SkipResult) (outCap : Nat) (loop : FilterLoop) :
    Option (Step FilterLoop FilterLoop) :=
  if loop.ptr = [] ∨ loop.sids.length ≥ outCap then some (.done loop)
  else
    let st := zcborNewDecodeState 8 loop.ptr 1
    match majorTypeAt loop.ptr with
    | some .pint =>
        match zcborUint64Decode st with
        | none => some (.done loop)
        | some (sid, st) => some (.next ⟨loop.sids ++ [sid], st.payload⟩)
    | some .list =>
        match zcborListStartDecode st with
        | none => some (.done loop)
        | some st =>
            match zcborUint64Decode st with
            | none => some (.done loop)
            | some (sid, st) =>
                (skip st).map fun
                  | .skipped st _ =>
                      match zcborListEndDecode st with
                      | (false, _) => .done loop
                      | (true, st) => .next ⟨loop.sids ++ [sid], st.payload⟩
                  | _ => .done loop
    | _ => some (.done loop)

/-- `some none` is a return of -1. -/
def streamCollectFilterSids (outCap fuel : Nat) (data : List UInt8) : Option (Option (List UInt64)) :=
  if data = [] ∨ outCap = 0 then some none
  else
    (Fuel.loop (filterSidBody (zcborAnySkip fuel) outCap) fuel ⟨[], data⟩).map fun loop =>
      if loop.sids = [] then none else some loop.sids

def streamSidInFilter (sid : UInt64) (filterSids : List UInt64) : Bool := filterSids.contains sid

/-- How the loop over the entries of a map is left: with a match, or with this payload. -/
inductive MatchExit where
  | matched
  | left (payload : List UInt8)

/-- The SID of a key in an event and the state behind it, or the state at which the key is
given up. -/
def eventKey (skip : ZcborState → Option SkipResult) (st : ZcborState) :
    Option (Except ZcborState (UInt64 × ZcborState)) :=
  match majorTypeAt st.payload with
  | some .pint =>
      match zcborUint64Decode st with
      | none => some (.error st)
      | some read => some (.ok read)
  | some .list =>
      match zcborListStartDecode st with
      | none => some (.error st)
      | some inner =>
          match zcborUint64Decode inner with
          | none => some (.error (zcborListEndDecode inner).2)
          | some (sid, behind) =>
              (skip behind).map fun
                | .skipped behind _ =>
                    match zcborListEndDecode behind with
                    | (false, st) => .error st
                    | (true, st) => .ok (sid, st)
                | .failed => .error (zcborListEndDecode behind).2
                | .restored =>
                    .error (zcborListEndDecode
                      { behind with payload := inner.payload, elemCount := behind.elemCount + 1 }).2
  | _ => some (.error st)

/-- One entry of a map in an event. A value that is put back puts the state at its key. -/
def eventEntryBody (skip : ZcborState → Option SkipResult) (filterSids : List UInt64) (st : ZcborState) :
    Option (Step ZcborState MatchExit) :=
  let leave (st : ZcborState) : Step ZcborState MatchExit := .done (.left (zcborMapEndDecode st).2.payload)
  if zcborArrayAtEnd st then some (leave st)
  else
    (eventKey skip st).bind fun
      | .error st => some (leave st)
      | .ok (sid, behind) =>
          if streamSidInFilter sid filterSids then some (.done .matched)
          else
            (skip behind).map fun
              | .skipped st _ => .next st
              | .failed => leave behind
              | .restored =>
                  leave { behind with payload := st.payload, elemCount := behind.elemCount + 1 }

/-- One map of an event; a map that is not walked to its end is taken up where it was left. -/
def eventMapBody (filterSids : List UInt64) (n : Nat) (ptr : List UInt8) :
    Option (Step (List UInt8) Bool) :=
  if ptr = [] then some (.done false)
  else
    match zcborMapStartDecode (zcborNewDecodeState 16 ptr 1) with
    | (false, _) => some (.done false)
    | (true, st) =>
        (Fuel.loop (eventEntryBody (zcborAnySkip n) filterSids) n st).map fun
          | .matched => .done true
          | .left ptr => .next ptr

def streamEventMatchesFilter (filterSids : List UInt64) (n : Nat) (data : List UInt8) : Option Bool :=
  if data = [] ∨ filterSids = [] then some false
  else Fuel.iterate (eventMapBody filterSids) n data

end Coreconf
