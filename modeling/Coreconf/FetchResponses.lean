import Coreconf.FetchFidelity

set_option autoImplicit false

/- What a FETCH that is answered 2.05 sends, whatever is in the datastore and in the request. -/
namespace Coreconf

open Cbor (Item Framing Width)
open CoreconfValueT (Valid)

/-- A request that comes to the response loop, if there is a datastore. -/
def FetchAccepted (req : Request) : Prop :=
  getContentFormat req = CF_YANG_IDENTIFIERS ∧ parseFetchIids 64 req.payload ≠ []

/-- A 2.05 carries exactly one complete map, and where what was selected does not fit the
buffer the answer is an error. -/
structure FetchWellFormed (s : ServerState) (req : Request) : Prop where
  complete : (handleFetch s req).response.code = .content →
    ∃ framing entries, Item.WellFormed (.map framing entries) ∧
      (handleFetch s req).response.payload = (Item.map framing entries).encode
  fails : ∀ root, s.current = some (.hashmap root) →
    BUFFER_SIZE < (fetchResponse root (parseFetchIids 64 req.payload)).encode.length →
      (handleFetch s req).response.code.isError

/-- The results of the puts are not looked at: every request that is accepted is answered
2.05, and every other with an error. -/
theorem handleFetch_cases (s : ServerState) (req : Request) :
    (FetchAccepted req ∧ s.current.isSome ∧ (handleFetch s req).response.code = .content) ∨
      (¬ (FetchAccepted req ∧ s.current.isSome) ∧ (handleFetch s req).response.code.isError) := by
  rw [handleFetch]
  split
  · rename_i format
    exact Or.inr ⟨fun both => format both.1.1, by rw [reject_code]; rfl⟩
  · rename_i format
    split
    · rename_i empty
      refine Or.inr ⟨fun both => both.1.2 ?_, by rw [reject_code]; rfl⟩
      rw [empty]
      rfl
    · split
      · rename_i absent
        refine Or.inr ⟨fun both => ?_, by rw [reject_code]; rfl⟩
        rw [absent] at both
        cases both.2
      · rename_i datastore present
        split
        · rename_i unread
          exact Or.inr ⟨fun both => both.1.2 unread, by rw [reject_code]; rfl⟩
        · rename_i readable
          exact Or.inl ⟨⟨not_not.mp format, readable⟩, by rw [present]; rfl, rfl⟩

/-- A FETCH in a reachable state is well formed exactly where its response fits the buffer,
or it is not answered from the datastore at all. -/
theorem fetch_well_formed_iff {env : Environment} {s : ServerState} (reached : Reachable env s)
    (req : Request) :
    FetchWellFormed s req ↔ (FetchAccepted req → ∀ root, s.current = some (.hashmap root) →
      (fetchResponse root (parseFetchIids 64 req.payload)).encode.length ≤ BUFFER_SIZE) := by
  constructor
  · intro sound accepted root current
    by_contra long
    have failed := sound.fails root current (Nat.not_le.mp long)
    rcases handleFetch_cases s req with ⟨-, -, content⟩ | ⟨rejected, -⟩
    · rw [content] at failed
      cases failed
    · exact rejected ⟨accepted, by rw [current]; rfl⟩
  · intro fits
    rcases handleFetch_cases s req with ⟨accepted, present, -⟩ | ⟨-, failed⟩
    · obtain ⟨root, current, valid⟩ := reached.current present
      have room := fits accepted root current
      refine ⟨fun _ => ⟨_, _, response_wellFormed room, ?_⟩, fun root' current' long => ?_⟩
      · rw [handleFetch_parsed valid current accepted.1 rfl accepted.2 room]
        rfl
      · exact absurd (fits accepted root' current') (Nat.not_le.mpr long)
    · refine ⟨fun answered => ?_, fun _ _ _ => failed⟩
      rw [answered] at failed
      cases failed

private theorem put_two : Handles bareEnvironment ⟨none, false⟩ .put
    ⟨some CF_YANG_DATA_CBOR, [0xA1, 0x01, 0x02]⟩
    ⟨⟨some (.hashmap (mapOf [(1, .uint64 2)])), true⟩, ⟨.changed, none, []⟩,
      [.pushNotificationMap [0xA1, 0x01, 0x02], .notifyStreamObservers]⟩ :=
  ⟨3, rfl⟩

theorem fetch_well_formed_put : FetchWellFormed ⟨some (.hashmap (mapOf [(1, .uint64 2)])), true⟩
    ⟨some CF_YANG_IDENTIFIERS, [0x01]⟩ := by
  refine (@fetch_well_formed_iff bareEnvironment _ (.step .start put_two) _).mpr ?_
  rintro - root current
  cases current
  decide

/-- A text as long as the response buffer. -/
private def longName : CString where
  bytes := List.replicate BUFFER_SIZE 0x61
  noNul member := absurd (List.eq_of_mem_replicate member) (by decide)

private theorem longName_length : longName.bytes.length = 4096 := List.length_replicate

private def longNamed : CoreconfHashMapT CoreconfValueT := mapOf [(5, .string longName)]

private def putNamed : Item :=
  .map (.definite .immediate) [(.uint .immediate 5, .tstr .two longName.bytes)]

private theorem putNamed_wellFormed : putNamed.WellFormed := by
  refine .map (by decide) ?_ ?_
  · simpa using .uint (by decide)
  · have bound : longName.bytes.length < Width.two.bound := by
      rw [longName_length]
      decide
    simpa using .tstr bound

private theorem longNamed_reachable : Reachable bareEnvironment ⟨some (.hashmap longNamed), true⟩ := by
  have read : putNamed.value? = some (.hashmap longNamed) := by
    have kept : formatTextString longName.bytes = longName :=
      formatTextString_bytes longName.noNul (by rw [longName_length]; decide)
    simp only [putNamed, Item.value?, Item.members?, Item.sid?, kept]
    rfl
  have length : putNamed.encode.length < 2 ^ 63 := by
    simp [putNamed, Item.encode, Item.encodeEntries, Cbor.string, longName_length, Framing.opening,
      Framing.closing, Cbor.head_length, Width.length]
  obtain ⟨fuel, parsed⟩ := parseRequest_item ⟨putNamed.encode, length⟩ putNamed_wellFormed rfl read (by decide)
  have handled : Handles bareEnvironment ⟨none, false⟩ .put ⟨some CF_YANG_DATA_CBOR, putNamed.encode⟩
      ⟨⟨some (.hashmap longNamed), true⟩, ⟨.changed, none, []⟩,
        rotatePassword longNamed ++ [.pushNotificationMap putNamed.encode, .notifyStreamObservers]⟩ := by
    refine ⟨fuel, ?_⟩
    have put : parsePutRequest fuel putNamed.encode = some (some (.hashmap longNamed)) := parsed
    have given : putNamed.encode ≠ [] := Item.encode_ne_nil putNamed_wellFormed
    simp [handle, handlePut, getContentFormat, given, put]
  exact .step .start handled

/-- A map of a key without a value is not well formed. -/
private theorem half_entry {framing : Framing} {entries : List (Item × Item)}
    (wellFormed : Item.WellFormed (.map framing entries)) :
    [0xBF, 0x05, 0xFF] ≠ (Item.map framing entries).encode := by
  intro same
  obtain _ | _ | _ | _ | _ | _ | _ | ⟨fits, keys, values⟩ := wellFormed
  cases framing with
  | definite w =>
      have additional := Width.additional_le (show entries.length < w.bound from fits)
      have first : (0xBF : UInt8) = UInt8.ofNat (32 * 5 + w.additional entries.length) :=
        (List.cons.inj same).1
      have numbers := congrArg UInt8.toNat first
      rw [UInt8.toNat_ofNat', Nat.mod_eq_of_lt (by omega)] at numbers
      simp only [UInt8.reduceToNat] at numbers
      omega
  | indefinite =>
      have entry : [(0x05 : UInt8)] ++ [0xFF] = Item.encodeEntries entries ++ [Cbor.breakCode] :=
        (List.cons.inj same).2
      have key := (List.append_inj' entry rfl).1
      cases entries with
      | nil => cases key
      | cons pair rest =>
          have lengths := congrArg List.length key
          have first := List.length_pos_iff.mpr (Item.encode_ne_nil (keys pair List.mem_cons_self))
          have second := List.length_pos_iff.mpr (Item.encode_ne_nil (values pair List.mem_cons_self))
          simp only [Item.encodeEntries, List.length_append, List.length_singleton] at lengths
          omega

/-- Of a value that does not fit its key is sent alone: a 2.05 with half an entry. -/
theorem fetch_overflow_half_entry :
    ∃ s req, Reachable bareEnvironment s ∧
      (handleFetch s req).response = ⟨.content, some CF_YANG_INSTANCES, [0xBF, 0x05, 0xFF]⟩ ∧
      ¬ FetchWellFormed s req := by
  have response : (handleFetch ⟨some (.hashmap longNamed), true⟩ ⟨some CF_YANG_IDENTIFIERS, [0x05]⟩).response =
      ⟨.content, some CF_YANG_INSTANCES, [0xBF, 0x05, 0xFF]⟩ := by
    have found : getCoreconfHashMap longNamed 5 = some (.string longName) := rfl
    have refused : ∀ st : EncodeState, st.room < 4096 → coreconfToCBOR (.string longName) st = (false, st) := by
      intro st small
      have long : st.room < (Cbor.string 3 (Width.least longName.bytes.length) longName.bytes).length := by
        rw [Cbor.string, List.length_append, longName_length]
        omega
      rw [coreconfToCBOR, zcborTstrEncode, strEncode_eq, EncodeState.put_none long]
      rfl
    have parsed : parseFetchIids 64 [0x05] = [.scalar 5] := by decide
    have scalar : ∀ st, encodeFetchIid longNamed st (.scalar 5) = encodeUnchecked st 5 (.string longName) := by
      intro st
      simp only [encodeFetchIid, found]
    rw [handleFetch, if_neg (by decide), if_neg (by decide)]
    simp only [ServerState.current, if_true, parsed, List.foldl_cons, List.foldl_nil, scalar, encodeUnchecked]
    rw [refused _ (by decide)]
    decide
  refine ⟨_, ⟨some CF_YANG_IDENTIFIERS, [0x05]⟩, longNamed_reachable, response, fun sound => ?_⟩
  obtain ⟨framing, entries, wellFormed, same⟩ := sound.complete (by rw [response])
  rw [response] at same
  exact half_entry wellFormed same

end Coreconf
