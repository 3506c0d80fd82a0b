import Coreconf.FetchRequests
import Coreconf.SkipGrammar

set_option autoImplicit false

/- fetch.c, the requests that are a sequence of SIDs and nothing else. -/
namespace Coreconf

open Cbor (Width Item head)
open Fuel (Step Returns)

/-- One SID into what is left of the buffer. -/
def createSid (bufferSize : Nat) (sid : UInt64) : Option (List UInt8) :=
  (zcborUint64Put (zcborNewEncodeState bufferSize) sid).map (·.payload)

def createSids (bufferSize : Nat) : List UInt64 → Option (List UInt8)
  | [] => some []
  | sid :: rest => do
      let bytes ← createSid bufferSize sid
      let later ← createSids (bufferSize - bytes.length) rest
      return bytes ++ later

/-- `none` where the source returns 0. -/
def createFetchRequest (bufferSize : Nat) (sids : List UInt64) : Option (List UInt8) :=
  if sids = [] then none else createSids bufferSize sids

/-- A SID and what is left after it. -/
def decodeSid (data : List UInt8) : Option (UInt64 × List UInt8) :=
  (zcborUint64Decode (zcborNewDecodeState 5 data 1)).map fun read => (read.1, read.2.payload)

def countSidBody (loop : CountLoop) : Option (Step CountLoop Nat) :=
  if loop.data = [] then some (.done loop.count)
  else
    match decodeSid loop.data with
    | none => some (.done loop.count)
    | some (_, rest) => some (.next ⟨loop.count + 1, rest⟩)

/-- The second pass, which returns false where a SID is not read. -/
def decodeSids : Nat → List UInt8 → Option (List UInt64)
  | 0, _ => some []
  | count + 1, data => do
      let (sid, rest) ← decodeSid data
      let sids ← decodeSids count rest
      return sid :: sids

/-- `some none` is a return of false. -/
def parseFetchRequest (fuel : Nat) (cborData : List UInt8) : Option (Option (List UInt64)) :=
  (Fuel.loop countSidBody fuel ⟨0, cborData⟩).map fun count =>
    if count = 0 then none else decodeSids count cborData

def isFetchRequest (cborData : List UInt8) : Bool :=
  if cborData = [] then false else (decodeSid cborData).isSome

/-- A complete unsigned integer, in any of its encodings. -/
structure EncodedUint where
  width : Width
  n : Nat
  fits : n < width.bound

namespace EncodedUint

def encode (u : EncodedUint) : List UInt8 := head 0 u.width u.n

def value (u : EncodedUint) : UInt64 := UInt64.ofNat u.n

/-- A SID in the encoding that zcbor writes. -/
def ofSid (sid : UInt64) : EncodedUint :=
  ⟨Width.least sid.toNat, sid.toNat, Width.least_fits sid.toNat_lt⟩

@[simp] theorem value_ofSid (sid : UInt64) : (ofSid sid).value = sid := UInt64.ofNat_toNat

theorem encode_positive (u : EncodedUint) : 0 < u.encode.length := by
  rw [encode, Cbor.head_length]
  exact Nat.succ_pos _

end EncodedUint

def encodeUints (us : List EncodedUint) : List UInt8 := us.flatMap EncodedUint.encode

@[simp] theorem encodeUints_nil : encodeUints [] = [] := rfl

theorem encodeUints_cons (u : EncodedUint) (us : List EncodedUint) :
    encodeUints (u :: us) = u.encode ++ encodeUints us := List.flatMap_cons

theorem decodeSid_encode (u : EncodedUint) (rest : List UInt8) :
    decodeSid (u.encode ++ rest) = some (u.value, rest) := by
  have read := zcborUint64Decode_item (.uint u.fits)
    (show (zcborNewDecodeState 5 (u.encode ++ rest) 1).payload =
      (Item.uint u.width u.n).encode ++ rest from rfl) Nat.one_ne_zero
  rw [decodeSid, read]
  rfl

/-- What is read as a SID is a complete unsigned integer. -/
theorem decodeSid_complete {data rest : List UInt8} {sid : UInt64} (read : decodeSid data = some (sid, rest)) :
    ∃ u : EncodedUint, data = u.encode ++ rest ∧ sid = u.value := by
  obtain ⟨⟨sid', st⟩, decoded, same⟩ := Option.map_eq_some_iff.mp read
  cases same
  rw [zcborUint64Decode] at decoded
  split at decoded
  next typed =>
      split at decoded
      next n st' extracted =>
          cases decoded
          obtain ⟨-, -, w, fits, -, payload⟩ := valueExtractFixed_value extracted (beq_iff_eq.mp typed)
          exact ⟨⟨w, n, fits⟩, payload, rfl⟩
      next => cases decoded
  next => cases decoded

/-- No encoding of an unsigned integer is the beginning of another. -/
theorem EncodedUint.encode_cancel {u v : EncodedUint} {rest rest' : List UInt8}
    (same : u.encode ++ rest = v.encode ++ rest') : u = v ∧ rest = rest' := by
  have read := decodeSid_encode u rest
  rw [same, decodeSid_encode v rest', Option.some.injEq, Prod.mk.injEq] at read
  obtain ⟨values, rfl⟩ := read
  have encodings := List.append_cancel_right same
  have lengths : u.width.length = v.width.length := by
    have heads := congrArg List.length encodings
    rw [encode, encode, Cbor.head_length, Cbor.head_length] at heads
    exact Nat.succ.inj heads
  have widths : u.width = v.width := by
    cases hu : u.width <;> cases hv : v.width <;> rw [hu, hv] at lengths <;> first | rfl | cases lengths
  have numbers : u.n = v.n := by
    have small := u.fits.trans_le (Width.bound_le _)
    have small' := v.fits.trans_le (Width.bound_le _)
    have equal := congrArg UInt64.toNat values
    rw [value, value, UInt64.toNat_ofNat', UInt64.toNat_ofNat', Nat.mod_eq_of_lt small',
      Nat.mod_eq_of_lt small] at equal
    exact equal.symm
  cases u
  cases v
  cases widths
  cases numbers
  exact ⟨rfl, rfl⟩

/-- Two ways to read unsigned integers off the same bytes: where the first stops for good,
the second has read no more. -/
theorem encodeUints_prefix {us vs : List EncodedUint} {rest more : List UInt8}
    (same : encodeUints us ++ rest = encodeUints vs ++ more) (stop : decodeSid rest = none) : vs <+: us := by
  induction vs generalizing us with
  | nil => exact List.nil_prefix
  | cons v vs ih =>
      rw [encodeUints_cons, List.append_assoc] at same
      cases us with
      | nil =>
          rw [encodeUints_nil, List.nil_append] at same
          rw [same, decodeSid_encode] at stop
          cases stop
      | cons u us =>
          rw [encodeUints_cons, List.append_assoc] at same
          obtain ⟨rfl, later⟩ := EncodedUint.encode_cancel same
          exact List.prefix_cons_iff.mpr (Or.inr ⟨vs, rfl, ih later⟩)

/-- Every payload is complete unsigned integers and then something else, by induction on
its length. -/
theorem encodeUints_split (data : List UInt8) :
    ∃ us rest, data = encodeUints us ++ rest ∧ decodeSid rest = none := by
  induction length : data.length using Nat.strongRecOn generalizing data with
  | ind n ih =>
      cases read : decodeSid data with
      | none => exact ⟨[], data, rfl, read⟩
      | some pair =>
          obtain ⟨u, payload, -⟩ := decodeSid_complete (show decodeSid data = some (pair.1, pair.2) from read)
          have shorter : pair.2.length < n := by
            have positive := u.encode_positive
            rw [← length, payload, List.length_append]
            omega
          obtain ⟨us, rest, later, stop⟩ := ih _ shorter pair.2 rfl
          exact ⟨u :: us, rest, by rw [payload, later, encodeUints_cons, List.append_assoc], stop⟩

def countSids (_ : Nat) : CountLoop → Option (Step CountLoop Nat) := countSidBody

theorem countSids_monotone : Fuel.Monotone countSids := fun _ _ _ _ _ same => same

/-- The first pass counts the unsigned integers in front, by induction over them. -/
theorem countSids_uints {us : List EncodedUint} {rest : List UInt8} (stop : decodeSid rest = none) (count : Nat) :
    Returns (Fuel.iterate countSids) ⟨count, encodeUints us ++ rest⟩ (count + us.length) := by
  induction us generalizing count with
  | nil =>
      refine Fuel.iterate_done countSids_monotone ⟨0, ?_⟩
      simp only [countSids, countSidBody, encodeUints_nil, List.nil_append, stop, List.length_nil, Nat.add_zero,
        ite_self]
  | cons u us ih =>
      have again : Returns countSids ⟨count, encodeUints (u :: us) ++ rest⟩
          (.next ⟨count + 1, encodeUints us ++ rest⟩) := by
        refine ⟨0, ?_⟩
        have nonempty : encodeUints (u :: us) ++ rest ≠ [] := by
          have positive := u.encode_positive
          rw [encodeUints_cons, ← List.length_pos_iff, List.length_append, List.length_append]
          omega
        rw [countSids, countSidBody, if_neg nonempty, encodeUints_cons, List.append_assoc, decodeSid_encode]
      have later := ih (count + 1)
      rw [Nat.add_right_comm, Nat.add_assoc] at later
      exact Fuel.iterate_next countSids_monotone again later

/-- The second pass reads what the first has counted. -/
theorem decodeSids_uints (us : List EncodedUint) (rest : List UInt8) :
    decodeSids us.length (encodeUints us ++ rest) = some (us.map EncodedUint.value) := by
  induction us with
  | nil => rfl
  | cons u us ih =>
      rw [List.length_cons, decodeSids, encodeUints_cons, List.append_assoc, decodeSid_encode,
        Option.bind_eq_bind, Option.bind_some]
      dsimp only
      rw [ih]
      rfl

theorem parseFetchRequest_uints {us : List EncodedUint} {rest : List UInt8} (stop : decodeSid rest = none) :
    Returns parseFetchRequest (encodeUints us ++ rest)
      (if us = [] then none else some (us.map EncodedUint.value)) := by
  obtain ⟨fuel, counted⟩ := @countSids_uints us rest stop 0
  rw [Nat.zero_add] at counted
  refine ⟨fuel, ?_⟩
  have looped : Fuel.loop countSidBody fuel ⟨0, encodeUints us ++ rest⟩ = some us.length := counted
  rw [parseFetchRequest, looped, Option.map_some, decodeSids_uints]
  simp only [List.length_eq_zero_iff]

theorem isFetchRequest_uints {us : List EncodedUint} {rest : List UInt8} (stop : decodeSid rest = none) :
    isFetchRequest (encodeUints us ++ rest) = true ↔ us ≠ [] := by
  rw [isFetchRequest]
  cases us with
  | nil => simp [stop]
  | cons u us =>
      have read := decodeSid_encode u (encodeUints us ++ rest)
      have nonempty : encodeUints (u :: us) ++ rest ≠ [] := by
        intro empty
        rw [encodeUints_cons, List.append_assoc] at empty
        rw [empty] at read
        cases read
      rw [if_neg nonempty, encodeUints_cons, List.append_assoc, read]
      simp

/-- What the client writes is the SIDs in their shortest encodings, if they fit. -/
theorem createFetchRequest_eq (bufferSize : Nat) {sids : List UInt64} (nonempty : sids ≠ []) :
    createFetchRequest bufferSize sids =
      if (encodeUints (sids.map .ofSid)).length ≤ bufferSize then some (encodeUints (sids.map .ofSid))
      else none := by
  have single : ∀ bufferSize sid, createSid bufferSize sid = createFetchIid bufferSize (.simple sid) := by
    intro bufferSize sid
    rw [createSid, createFetchIid]
    cases zcborUint64Put (zcborNewEncodeState bufferSize) sid <;> rfl
  have all : ∀ (sids : List UInt64) bufferSize,
      createSids bufferSize sids = createFetchIids bufferSize (sids.map .simple) := by
    intro sids
    induction sids with
    | nil => intro bufferSize; rfl
    | cons sid rest ih =>
        intro bufferSize
        rw [createSids, List.map_cons, createFetchIids, single]
        simp only [ih]
  have bytes : fetchPayload (sids.map .simple) = encodeUints (sids.map .ofSid) := by
    rw [fetchPayload, encodeUints, List.flatMap_map, List.flatMap_map]
    rfl
  rw [createFetchRequest, if_neg nonempty, all, createFetchIids_eq, bytes]

/-- Requests of SIDs alone. What is written is read back; any payload is read up to where it
ceases to be complete unsigned integers, and refused where there are none. -/
theorem sid_requests_parsed :
    (∀ sids ≠ [], ∀ bufferSize,
      createFetchRequest bufferSize sids =
        (if (encodeUints (sids.map .ofSid)).length ≤ bufferSize then some (encodeUints (sids.map .ofSid))
          else none) ∧
      ∀ data, createFetchRequest bufferSize sids = some data → Returns parseFetchRequest data (some sids)) ∧
    ∀ data, ∃ us rest, data = encodeUints us ++ rest ∧
      (∀ vs more, data = encodeUints vs ++ more → vs <+: us) ∧
      (isFetchRequest data = true ↔ us ≠ []) ∧
      Returns parseFetchRequest data (if us = [] then none else some (us.map EncodedUint.value)) ∧
      ∀ count, Returns (Fuel.iterate countSids) ⟨0, data⟩ count → decodeSids count data ≠ none := by
  constructor
  · intro sids nonempty bufferSize
    have written := createFetchRequest_eq bufferSize nonempty
    refine ⟨written, fun data created => ?_⟩
    rw [written] at created
    split at created
    · obtain rfl := Option.some.inj created
      have parsed := @parseFetchRequest_uints (sids.map .ofSid) [] rfl
      rw [List.append_nil, if_neg (by simpa using nonempty), List.map_map] at parsed
      have values : EncodedUint.value ∘ EncodedUint.ofSid = id := funext EncodedUint.value_ofSid
      rwa [values, List.map_id] at parsed
    · cases created
  · intro data
    obtain ⟨us, rest, rfl, stop⟩ := encodeUints_split data
    refine ⟨us, rest, rfl, fun vs more same => encodeUints_prefix same stop, isFetchRequest_uints stop,
      parseFetchRequest_uints stop, fun count counted => ?_⟩
    have expected := @countSids_uints us rest stop 0
    rw [Nat.zero_add] at expected
    rw [counted.unique (Fuel.iterate_monotone countSids_monotone) expected, decodeSids_uints]
    exact Option.some_ne_none _

end Coreconf
