import Coreconf.RequestRules

set_option autoImplicit false

/- Which payloads the server and the client can parse in finite time. -/
namespace Coreconf

open Fuel (Step Returns Terminates Reached)

theorem decodePatchKey_within (st : ZcborState) : st.Within (decodePatchKey st).2 := by
  unfold decodePatchKey
  split
  · split
    · exact List.suffix_rfl
    · rename_i keyed
      exact within_respected.uint64 keyed
  · split
    · exact List.suffix_rfl
    · rename_i st₁ started
      have first := listMapStartDecode_within started
      split
      · exact (listMapEndDecode_within st₁).trans first
      · rename_i sid st₂ keyed
        have second := (within_respected.uint64 keyed).trans first
        split
        · split
          · exact (listMapEndDecode_within st₂).trans second
          · rename_i zs st₃ read
            have third := (within_respected.str read).trans second
            have last := (listMapEndDecode_within st₃).trans third
            split
            · rename_i st₄ ended
              rwa [show listMapEndDecode st₃ = _ from ended] at last
            · rename_i st₄ ended
              rwa [show listMapEndDecode st₃ = _ from ended] at last
        · exact (listMapEndDecode_within st₂).trans second
  · exact List.suffix_rfl

theorem decodePatchKey_before {st st' : ZcborState} {key : PatchKey}
    (keyed : decodePatchKey st = (some key, st')) : st.Before st' := by
  unfold decodePatchKey at keyed
  split at keyed
  · split at keyed
    · cases keyed
    · rename_i found
      cases keyed
      exact zcborUint64Decode_before found
  · split at keyed
    · cases keyed
    · rename_i st₁ started
      have first := listMapStartDecode_before started
      split at keyed
      · cases keyed
      · rename_i sid st₂ found
        have second := zcborUint64Decode_before found
        split at keyed
        · split at keyed
          · cases keyed
          · rename_i zs st₃ read
            have third := strDecode_before read
            have last := listMapEndDecode_le st₃
            split at keyed
            · cases keyed
            · rename_i st₄ ended
              cases keyed
              rw [show listMapEndDecode st₃ = _ from ended] at last
              simp only [ZcborState.Before] at *
              omega
        · cases keyed
  · cases keyed

theorem patchEntries_before {loop loop' : PatchLoop}
    (again : Returns patchEntries loop (.next loop')) : loop.st.Before loop'.st := by
  rw [patchEntries_returns_iff] at again
  split at again
  · cases again
  · split at again
    · cases again
    · rename_i key st keyed
      obtain ⟨value, st', decoded, same⟩ := again
      cases value with
      | none => cases same
      | some val =>
          cases same
          exact Nat.lt_of_le_of_lt decoded.le (decodePatchKey_before keyed)

theorem patchEntries_next_within {loop loop' : PatchLoop}
    (again : Returns patchEntries loop (.next loop')) : loop.st.Within loop'.st := by
  rw [patchEntries_returns_iff] at again
  split at again
  · cases again
  · have toKey := decodePatchKey_within loop.st
    split at again
    · cases again
    · rename_i key st keyed
      obtain ⟨value, st', decoded, same⟩ := again
      rw [keyed] at toKey
      cases value with
      | none => cases same
      | some val =>
          cases same
          exact decoded.within.trans toKey

theorem patchEntries_done_within {loop left : PatchLoop}
    (done : Returns patchEntries loop (.done left)) : loop.st.Within left.st := by
  rw [patchEntries_returns_iff] at done
  split at done
  · cases done
    exact List.suffix_rfl
  · have toKey := decodePatchKey_within loop.st
    split at done
    · rename_i keyed
      cases done
      rwa [keyed] at toKey
    · rename_i key st keyed
      obtain ⟨value, st', decoded, same⟩ := done
      rw [keyed] at toKey
      cases value with
      | none =>
          cases same
          exact decoded.within.trans toKey
      | some val => cases same

theorem patchEntries_within {loop left : PatchLoop}
    (returned : Returns (Fuel.iterate patchEntries) loop left) : loop.st.Within left.st := by
  obtain ⟨fuel, ran⟩ := returned
  have keep : ∀ now next : PatchLoop, loop.st.Within now.st → patchEntries fuel now = some (.next next) →
      loop.st.Within next.st := fun now next within again => (patchEntries_next_within ⟨fuel, again⟩).trans within
  have exit : ∀ now left : PatchLoop, loop.st.Within now.st → patchEntries fuel now = some (.done left) →
      loop.st.Within left.st := fun now left within done => (patchEntries_done_within ⟨fuel, done⟩).trans within
  exact Fuel.loop_invariant keep exit List.suffix_rfl ran

theorem patchEntries_le {loop left : PatchLoop}
    (returned : Returns (Fuel.iterate patchEntries) loop left) :
    left.st.payload.length ≤ loop.st.payload.length := (patchEntries_within returned).length_le

/-- Every map of the payload is entered further on than the one before. -/
theorem patchMaps_before {maps maps' : PatchMaps}
    (again : Returns patchMaps maps (.next maps')) : maps'.ptr.length < maps.ptr.length := by
  rw [patchMaps_returns_iff] at again
  split at again
  · cases again
  · split at again
    · cases again
    · rename_i st started
      obtain ⟨left, looped, same⟩ := again
      cases same
      have before := zcborMapStartDecode_before started
      have inside := patchEntries_le looped
      have ended := listMapEndDecode_le left.st
      simp only [ZcborState.Before, zcborNewDecodeState, zcborMapEndDecode] at *
      omega

/-- The states in which applying the payload asks the decoder for a value. -/
def PatchReads (target : CoreconfHashMapT CoreconfValueT) (data : List UInt8) (st : ZcborState) :
    Prop :=
  ∃ maps start loop key, Reached patchMaps ⟨target, 0, data⟩ maps ∧ maps.ptr ≠ [] ∧
    zcborMapStartDecode (zcborNewDecodeState 8 maps.ptr 1) = (true, start) ∧
    Reached patchEntries ⟨maps.target, maps.count, start⟩ loop ∧ ¬ zcborArrayAtEnd loop.st ∧
    decodePatchKey loop.st = (some key, st)

/-- The states in which parsing the items of the payload asks the decoder for a value. -/
def PostReads (data : List UInt8) (st : ZcborState) : Prop :=
  ∃ loop start key, Reached postItems ⟨[], data⟩ loop ∧ loop.ptr ≠ [] ∧
    zcborMapStartDecode (zcborNewDecodeState 12 loop.ptr 1) = (true, start) ∧
    ¬ zcborArrayAtEnd start ∧ decodePostKey start = some (key, st)

private theorem patchEntries_terminates_iff (loop : PatchLoop) :
    Terminates patchEntries loop ↔ ∀ key st, ¬ zcborArrayAtEnd loop.st →
      decodePatchKey loop.st = (some key, st) → NeverStalls (.value st 0) := by
  simp only [Terminates, patchEntries_returns_iff, ← decodes_returns_iff]
  split
  · rename_i atEnd
    simp [atEnd]
  · rename_i inside
    rcases keyed : decodePatchKey loop.st with ⟨_ | key, st⟩
    · simp
    · constructor
      · rintro ⟨step, value, st', decoded, -⟩ key' st'' - same
        cases same
        exact ⟨_, decoded⟩
      · intro returns
        obtain ⟨⟨value, st'⟩, decoded⟩ := returns key st inside rfl
        exact ⟨_, value, st', decoded, rfl⟩

private theorem patchMaps_terminates_iff (maps : PatchMaps) :
    Terminates patchMaps maps ↔ ∀ start, maps.ptr ≠ [] →
      zcborMapStartDecode (zcborNewDecodeState 8 maps.ptr 1) = (true, start) →
      Terminates (Fuel.iterate patchEntries) ⟨maps.target, maps.count, start⟩ := by
  simp only [Terminates, patchMaps_returns_iff]
  split
  · rename_i empty
    simp [empty]
  · rename_i nonempty
    rcases started : zcborMapStartDecode (zcborNewDecodeState 8 maps.ptr 1) with ⟨_ | _, st⟩
    · simp
    · constructor
      · rintro ⟨step, left, looped, -⟩ start - same
        cases same
        exact ⟨left, looped⟩
      · intro returns
        obtain ⟨left, looped⟩ := returns st nonempty rfl
        exact ⟨_, left, looped, rfl⟩

/-- apply_ipatch_raw as a computation of a datastore and a payload. -/
def applyPayload (fuel : Nat) (request : CoreconfValueT × List UInt8) : Option (Int × CoreconfValueT) :=
  applyIpatchRaw fuel request.1 request.2

theorem applyPayload_terminates_iff (target : CoreconfHashMapT CoreconfValueT) (data : List UInt8) :
    Terminates applyPayload (.hashmap target, data) ↔
      ∀ st, PatchReads target data st → NeverStalls (.value st 0) := by
  have maps : Terminates (Fuel.iterate patchMaps) ⟨target, 0, data⟩ ↔
      ∀ st, PatchReads target data st → NeverStalls (.value st 0) := by
    rw [Fuel.iterate_terminates_iff patchMaps_monotone (fun maps => maps.ptr.length)
      fun _ _ again => patchMaps_before again]
    simp only [patchMaps_terminates_iff, Fuel.iterate_terminates_iff patchEntries_monotone
      (fun loop => loop.st.payload.length) fun _ _ again => patchEntries_before again,
      patchEntries_terminates_iff]
    constructor
    · rintro ended st ⟨maps, start, loop, key, toMap, nonempty, started, toEntry, inside, keyed⟩
      exact ended maps toMap start nonempty started loop toEntry key st inside keyed
    · intro reads maps toMap start nonempty started loop toEntry key st inside keyed
      exact reads st ⟨maps, start, loop, key, toMap, nonempty, started, toEntry, inside, keyed⟩
  rw [← maps]
  by_cases empty : data = []
  · subst empty
    constructor
    · exact fun _ => (Fuel.iterate_done patchMaps_monotone
        (patchMaps_returns_iff.mpr (by rw [if_pos rfl]))).terminates
    · exact fun _ => ⟨_, 0, rfl⟩
  · simp only [Terminates, Returns, applyPayload, applyIpatchRaw, if_neg empty,
      Option.map_eq_some_iff]
    constructor
    · rintro ⟨result, fuel, left, looped, -⟩
      exact ⟨left, fuel, looped⟩
    · rintro ⟨left, fuel, looped⟩
      exact ⟨_, fuel, left, looped, rfl⟩

theorem postItems_before {loop loop' : PostLoop}
    (again : Returns postItems loop (.next loop')) : loop'.ptr.length < loop.ptr.length := by
  rw [postItems_returns_iff] at again
  split at again
  · cases again
  · split at again
    · cases again
    · split at again
      · cases again
      · split at again
        · cases again
        · obtain ⟨value, st, decoded, same⟩ := again
          cases value with
          | none => cases same
          | some value =>
              simp only [postItemStep] at same
              split at same
              · cases same
              · split at same
                · cases same
                · split at same
                  · cases same
                  · rename_i further
                    cases same
                    exact Nat.not_le.mp further

private theorem postItems_terminates_iff (loop : PostLoop) :
    Terminates postItems loop ↔ ∀ start key st, loop.ptr ≠ [] →
      zcborMapStartDecode (zcborNewDecodeState 12 loop.ptr 1) = (true, start) →
      ¬ zcborArrayAtEnd start → decodePostKey start = some (key, st) → NeverStalls (.value st 0) := by
  simp only [Terminates, postItems_returns_iff, ← decodes_returns_iff]
  split
  · rename_i empty
    simp [empty]
  · rename_i nonempty
    rcases started : zcborMapStartDecode (zcborNewDecodeState 12 loop.ptr 1) with ⟨_ | _, start⟩
    · simp
    · dsimp only
      split
      · rename_i atEnd
        refine iff_of_true ⟨_, rfl⟩ fun start' key st _ same inside => ?_
        cases same
        exact absurd atEnd inside
      · rename_i inside
        rcases keyed : decodePostKey start with _ | ⟨⟨iid, sid⟩, st⟩
        · refine iff_of_true ⟨_, rfl⟩ fun start' key st _ same _ found => ?_
          cases same
          rw [keyed] at found
          cases found
        · constructor
          · rintro ⟨step, value, st', decoded, -⟩ start' key st'' - same - found
            cases same
            rw [keyed] at found
            cases found
            exact ⟨_, decoded⟩
          · intro returns
            obtain ⟨⟨value, st'⟩, decoded⟩ := returns start _ st nonempty rfl inside keyed
            exact ⟨_, value, st', decoded, rfl⟩

theorem parsePostItems_terminates_iff (data : List UInt8) :
    Terminates parsePostItems data ↔ ∀ st, PostReads data st → NeverStalls (.value st 0) := by
  have items : Terminates (Fuel.iterate postItems) ⟨[], data⟩ ↔
      ∀ st, PostReads data st → NeverStalls (.value st 0) := by
    rw [Fuel.iterate_terminates_iff postItems_monotone (fun loop => loop.ptr.length)
      fun _ _ again => postItems_before again]
    simp only [postItems_terminates_iff]
    constructor
    · rintro ended st ⟨loop, start, key, toItem, nonempty, started, inside, keyed⟩
      exact ended loop toItem start key st nonempty started inside keyed
    · intro reads loop toItem start key st nonempty started inside keyed
      exact reads st ⟨loop, start, key, toItem, nonempty, started, inside, keyed⟩
  rw [← items]
  by_cases empty : data = []
  · subst empty
    constructor
    · exact fun _ => (Fuel.iterate_done postItems_monotone
        (postItems_returns_iff.mpr (by rw [if_pos rfl]))).terminates
    · exact fun _ => ⟨_, 0, rfl⟩
  · simp only [Terminates, Returns, parsePostItems, if_neg empty, Option.map_eq_some_iff]
    constructor
    · rintro ⟨result, fuel, left, looped, -⟩
      exact ⟨left, fuel, looped⟩
    · rintro ⟨left, fuel, looped⟩
      exact ⟨_, fuel, left, looped, rfl⟩

theorem parseRequest_terminates_iff (data : List UInt8) :
    Terminates parseRequest data ↔
      (data ≠ [] → NeverStalls (.value (zcborNewDecodeState 8 data 1) 0)) := by
  rw [← decodes_returns_iff]
  by_cases empty : data = []
  · subst empty
    exact iff_of_true ⟨none, 0, rfl⟩ fun nonempty => absurd rfl nonempty
  · constructor
    · rintro ⟨value, returned⟩ -
      obtain ⟨st', decoded⟩ := (parseRequest_returns_iff empty).mp returned
      exact ⟨_, decoded⟩
    · intro returns
      obtain ⟨⟨value, st'⟩, decoded⟩ := returns empty
      exact ⟨value, (parseRequest_returns_iff empty).mpr ⟨st', decoded⟩⟩

/-- The decoder, and what calls it, ends with every iteration making progress exactly
on the inputs on which no array loop meets an element that is refused. -/
theorem decoder_terminates_iff (st : ZcborState) (indent : Nat) (data : List UInt8)
    (target : CoreconfHashMapT CoreconfValueT) :
    (((∃ result, Decodes st indent result) ∧
        ∀ site, Reaches (.value st indent) site → IterationAdvances site) ↔
      NeverStalls (.value st indent)) ∧
    (Terminates parseGetResponse data ↔
      (data ≠ [] → NeverStalls (.value (zcborNewDecodeState 8 data 1) 0))) ∧
    (Terminates parsePutRequest data ↔
      (data ≠ [] → NeverStalls (.value (zcborNewDecodeState 8 data 1) 0))) ∧
    (Terminates parseIpatchRequest data ↔
      (data ≠ [] → NeverStalls (.value (zcborNewDecodeState 8 data 1) 0))) ∧
    (Terminates parsePostItems data ↔ ∀ st, PostReads data st → NeverStalls (.value st 0)) ∧
    (Terminates applyPayload (.hashmap target, data) ↔
      ∀ st, PatchReads target data st → NeverStalls (.value st 0)) := by
  refine ⟨⟨fun ended => decodes_returns_iff.mp ended.1, fun never => ?_⟩,
    parseRequest_terminates_iff data, parseRequest_terminates_iff data,
    parseRequest_terminates_iff data, parsePostItems_terminates_iff data,
    applyPayload_terminates_iff target data⟩
  exact ⟨decodes_returns_iff.mpr never, fun site reached => never.iterationAdvances reached⟩

/-- The head of an array of one element, and nothing after it. -/
theorem array_head_never_returns :
    ¬ ((∃ result, Decodes (zcborNewDecodeState 8 [0x81] 1) 0 result) ∨
      Terminates parsePutRequest [0x81] ∨
      ∀ site, Reaches (.value (zcborNewDecodeState 8 [0x81] 1) 0) site → IterationAdvances site) := by
  have started : zcborListStartDecode (zcborNewDecodeState 8 [0x81] 1) =
      some ⟨[], 1, false, [⟨0, false⟩], 6⟩ := by decide
  have enters : Reaches (.value (zcborNewDecodeState 8 [0x81] 1) 0)
      (.arrayLoop ⟨[], 1, false, [⟨0, false⟩], 6⟩ 0) :=
    Relation.ReflTransGen.single (.array (by decide) (by decide) started)
  have stalled : Stalled ⟨[], 1, false, [⟨0, false⟩], 6⟩ 0 := ⟨by decide, .endOfPayload rfl⟩
  have never : ¬ NeverStalls (.value (zcborNewDecodeState 8 [0x81] 1) 0) :=
    fun never => never _ _ enters stalled
  rintro (returned | ended | advances)
  · exact never (decodes_returns_iff.mp returned)
  · exact never ((parseRequest_terminates_iff [0x81]).mp ended (by decide))
  · have read : Decodes ⟨[], 1, false, [⟨0, false⟩], 6⟩ 1 (none, ⟨[], 1, false, [⟨0, false⟩], 6⟩) :=
      Decodes.of_fuel (show cborToCoreconfValue 1 _ 1 = _ from rfl)
    rcases advances _ enters _ (.nextElement stalled.1 read) with before | atEnd
    · exact absurd before (Nat.lt_irrefl _)
    · exact stalled.1 atEnd

end Coreconf
