import Coreconf.SkipGrammar
import Coreconf.Termination

set_option autoImplicit false

/- Where apply_ipatch_raw and parse_post_items look at the payload themselves, and which
payloads end there. -/
namespace Coreconf

open Cbor (Framing Item Width head)
open Fuel (Step Returns Reached)

/-- The payload pointers whose byte is looked at to read the key of an entry in this state. -/
def patchKeyPeeks (st : ZcborState) : List (List UInt8) :=
  match majorTypeAt st.payload with
  | some .list =>
      match (zcborListStartDecode st).bind zcborUint64Decode with
      | none => [st.payload]
      | some (_, behind) => [st.payload, behind.payload]
  | _ => [st.payload]

/-- The maps that applying a payload comes to. -/
def PatchMap (datastore : CoreconfValueT) (data : List UInt8) (maps : PatchMaps) : Prop :=
  ∃ target, datastore = .hashmap target ∧ data ≠ [] ∧ Reached patchMaps ⟨target, 0, data⟩ maps

/-- The entry loop comes round in this state. -/
def PatchRound (datastore : CoreconfValueT) (data : List UInt8) (loop : PatchLoop) : Prop :=
  ∃ maps start, PatchMap datastore data maps ∧
    zcborMapStartDecode (zcborNewDecodeState 8 maps.ptr 1) = (true, start) ∧
    Reached patchEntries ⟨maps.target, maps.count, start⟩ loop

/-- The items that parsing a payload comes to. -/
def PostRound (data : List UInt8) (loop : PostLoop) : Prop :=
  data ≠ [] ∧ Reached postItems ⟨[], data⟩ loop

/-- The payload pointers that the decoder is called with, or leaves for the next call. -/
inductive PatchHands (datastore : CoreconfValueT) (data : List UInt8) : List UInt8 → Prop
  | map {maps} (reached : PatchMap datastore data maps) : PatchHands datastore data maps.ptr
  | entry {loop} (round : PatchRound datastore data loop) : PatchHands datastore data loop.st.payload
  | value {loop} (round : PatchRound datastore data loop) (inside : ¬ zcborArrayAtEnd loop.st) :
      PatchHands datastore data (decodePatchKey loop.st).2.payload
  | left {loop left} (round : PatchRound datastore data loop) (done : Returns patchEntries loop (.done left)) :
      PatchHands datastore data left.st.payload

inductive PostHands (data : List UInt8) : List UInt8 → Prop
  | item {loop} (round : PostRound data loop) : PostHands data loop.ptr
  | key {loop start} (round : PostRound data loop)
      (started : zcborMapStartDecode (zcborNewDecodeState 12 loop.ptr 1) = (true, start)) :
      PostHands data start.payload
  | value {loop start key st} (round : PostRound data loop)
      (started : zcborMapStartDecode (zcborNewDecodeState 12 loop.ptr 1) = (true, start))
      (keyed : decodePostKey start = some (key, st)) : PostHands data st.payload
  | ended {loop start key st value st'} (round : PostRound data loop)
      (started : zcborMapStartDecode (zcborNewDecodeState 12 loop.ptr 1) = (true, start))
      (keyed : decodePostKey start = some (key, st)) (decoded : Decodes st 0 (value, st')) :
      PostHands data st'.payload

/-- A pointer at a byte of the payload. -/
def PointsInto (data ptr : List UInt8) : Prop := ∃ front, data = front ++ ptr ∧ front.length < data.length

/-- No byte behind the payload is looked at, and none is handed to the decoder. -/
structure PatchStaysInside (datastore : CoreconfValueT) (data : List UInt8) : Prop where
  peeks : ∀ loop, PatchRound datastore data loop → ¬ zcborArrayAtEnd loop.st →
    ∀ ptr ∈ patchKeyPeeks loop.st, PointsInto data ptr
  hands : ∀ ptr, PatchHands datastore data ptr → ptr <:+ data

structure PostStaysInside (data : List UInt8) : Prop where
  peeks : ∀ loop start, PostRound data loop →
    zcborMapStartDecode (zcborNewDecodeState 12 loop.ptr 1) = (true, start) → ¬ zcborArrayAtEnd start →
      PointsInto data start.payload
  hands : ∀ ptr, PostHands data ptr → ptr <:+ data

/-- The head of a map that is to hold something, and nothing behind it. -/
def HeadLast (ptr : List UInt8) : Prop :=
  ∃ (framing : Framing) (n : Nat), framing.Fits n ∧ n < ZCBOR_MAX_ELEM_COUNT / 2 ∧
    (framing = .indefinite ∨ n ≠ 0) ∧ ptr = framing.opening 5 n

/-- The head of an array that is to hold something and a SID, and nothing behind it. -/
def SidLast (st : ZcborState) : Prop :=
  st.elemCount ≠ 0 ∧ st.backupList.length < st.numBackups ∧
    ∃ (framing : Framing) (n : Nat) (w : Width) (sid : Nat), framing.Fits n ∧ sid < w.bound ∧
      (framing = .indefinite ∨ n ≠ 0) ∧ st.payload = framing.opening 4 n ++ head 0 w sid

/-- An entry that is read with nothing behind it, although the map it is in has not ended. -/
def EntryLast (st : ZcborState) : Prop :=
  ∃ key st' val st'', decodePatchKey st = (some key, st') ∧ Decodes st' 0 (some val, st'') ∧
    st''.payload = [] ∧ (st''.indefiniteLengthArray ∨ st''.elemCount ≠ 0)

/-- The payload ends where the next byte is needed to go on. -/
def PatchBreaksOff (datastore : CoreconfValueT) (data : List UInt8) : Prop :=
  (∃ maps, PatchMap datastore data maps ∧ HeadLast maps.ptr) ∨
    ∃ loop, PatchRound datastore data loop ∧ ¬ zcborArrayAtEnd loop.st ∧ (SidLast loop.st ∨ EntryLast loop.st)

def PostBreaksOff (data : List UInt8) : Prop := ∃ loop, PostRound data loop ∧ HeadLast loop.ptr

theorem mapStart_within {nStates : Nat} {ptr : List UInt8} {started : Bool} {st : ZcborState}
    (start : zcborMapStartDecode (zcborNewDecodeState nStates ptr 1) = (started, st)) : st.payload <:+ ptr := by
  have within := zcborMapStartDecode_within (zcborNewDecodeState nStates ptr 1)
  rwa [start] at within

theorem PatchMap.within {datastore : CoreconfValueT} {data : List UInt8} {maps : PatchMaps}
    (reached : PatchMap datastore data maps) : maps.ptr <:+ data := by
  obtain ⟨target, -, -, reached⟩ := reached
  induction reached with
  | refl => exact List.suffix_rfl
  | tail _ again ih =>
      rw [patchMaps_returns_iff] at again
      split at again
      · cases again
      · split at again
        · cases again
        · rename_i st started
          obtain ⟨left, looped, same⟩ := again
          cases same
          have ended := (listMapEndDecode_within left.st).trans (patchEntries_within looped)
          exact (ended.trans (mapStart_within started)).trans ih

theorem PatchRound.within {datastore : CoreconfValueT} {data : List UInt8} {loop : PatchLoop}
    (round : PatchRound datastore data loop) : loop.st.payload <:+ data := by
  obtain ⟨maps, start, map, started, reached⟩ := round
  induction reached with
  | refl => exact (mapStart_within started).trans map.within
  | tail _ again ih => exact (patchEntries_next_within again).trans ih

theorem PatchHands.within {datastore : CoreconfValueT} {data ptr : List UInt8}
    (handed : PatchHands datastore data ptr) : ptr <:+ data := by
  cases handed with
  | map reached => exact reached.within
  | entry round => exact round.within
  | value round _ => exact (decodePatchKey_within _).trans round.within
  | left round done => exact (patchEntries_done_within done).trans round.within

theorem decodePostKey_within {st st' : ZcborState} {key : PostIid × UInt64}
    (keyed : decodePostKey st = some (key, st')) : st.Within st' := by
  unfold decodePostKey at keyed
  split at keyed
  · obtain ⟨⟨sid, behind⟩, read, same⟩ := Option.map_eq_some_iff.mp keyed
    cases same
    exact within_respected.uint64 read
  · obtain ⟨inner, started, keyed⟩ := Option.bind_eq_some_iff.mp keyed
    obtain ⟨⟨sid, second⟩, read, keyed⟩ := Option.bind_eq_some_iff.mp keyed
    obtain ⟨⟨text, third⟩, taken, keyed⟩ := Option.bind_eq_some_iff.mp keyed
    have ended := listMapEndDecode_within third
    simp only at keyed
    split at keyed
    · cases keyed
    · rename_i closed
      cases keyed
      rw [show listMapEndDecode third = _ from closed] at ended
      exact ((ended.trans (within_respected.str taken)).trans (within_respected.uint64 read)).trans
        (listMapStartDecode_within started)
  · cases keyed

theorem PostRound.within {data : List UInt8} {loop : PostLoop} (round : PostRound data loop) :
    loop.ptr <:+ data := by
  obtain ⟨-, reached⟩ := round
  induction reached with
  | refl => exact List.suffix_rfl
  | tail _ again ih =>
      rw [postItems_returns_iff] at again
      split at again
      · cases again
      · split at again
        · cases again
        · rename_i start started
          split at again
          · cases again
          · split at again
            · cases again
            · rename_i iid sid st keyed
              obtain ⟨value, st', decoded, same⟩ := again
              cases value with
              | none => cases same
              | some value =>
                  have ended := listMapEndDecode_within st'
                  rw [postItemStep] at same
                  split at same
                  · cases same
                  · split at same
                    · cases same
                    · rename_i closed
                      split at same
                      · cases same
                      · cases same
                        rw [show listMapEndDecode st' = _ from closed] at ended
                        exact (((ended.trans decoded.within).trans (decodePostKey_within keyed)).trans
                          (mapStart_within started)).trans ih

theorem PostHands.within {data ptr : List UInt8} (handed : PostHands data ptr) : ptr <:+ data := by
  cases handed with
  | item round => exact round.within
  | key round started => exact (mapStart_within started).trans round.within
  | value round started keyed =>
      exact ((decodePostKey_within keyed).trans (mapStart_within started)).trans round.within
  | ended round started keyed decoded =>
      exact ((decoded.within.trans (decodePostKey_within keyed)).trans (mapStart_within started)).trans round.within

theorem pointsInto_iff {data ptr : List UInt8} : PointsInto data ptr ↔ ptr <:+ data ∧ ptr ≠ [] := by
  constructor
  · rintro ⟨front, rfl, shorter⟩
    refine ⟨List.suffix_append front ptr, ?_⟩
    rintro rfl
    simp at shorter
  · rintro ⟨⟨front, rfl⟩, more⟩
    exact ⟨front, rfl, by simpa using List.length_pos_iff.mpr more⟩

theorem zcborArrayAtEnd_exhausted {st : ZcborState} (exhausted : st.payload = []) :
    ¬ zcborArrayAtEnd st ↔ (st.indefiniteLengthArray ∨ st.elemCount ≠ 0) := by
  rw [zcborArrayAtEnd, exhausted]
  cases st.indefiniteLengthArray <;> simp

/-- A map is entered with nothing behind its head where this is all there is. -/
theorem headLast_iff {nStates : Nat} (room : 2 < nStates) {ptr : List UInt8} :
    HeadLast ptr ↔ ∃ start, zcborMapStartDecode (zcborNewDecodeState nStates ptr 1) = (true, start) ∧
      start.payload = [] ∧ ¬ zcborArrayAtEnd start := by
  constructor
  · rintro ⟨framing, n, fits, small, more, rfl⟩
    refine ⟨_, zcborMapStartDecode_new room fits small (List.append_nil _).symm, rfl, ?_⟩
    rw [zcborArrayAtEnd_exhausted rfl]
    cases framing with
    | definite w =>
        have some : n ≠ 0 := more.resolve_left (by simp)
        exact Or.inr (by simp [ZcborState.entered, some])
    | indefinite => exact Or.inl rfl
  · rintro ⟨start, started, exhausted, inside⟩
    obtain ⟨framing, n, fits, small, payload, entered⟩ := zcborMapStartDecode_entered started
    rw [exhausted, List.append_nil] at payload
    refine ⟨framing, n, fits, small, ?_, payload⟩
    rw [zcborArrayAtEnd_exhausted exhausted] at inside
    cases framing with
    | definite w =>
        refine Or.inr fun none => inside.elim ?_ ?_
        · rw [entered]
          exact Bool.false_ne_true
        · rw [entered]
          simp [ZcborState.entered, none]
    | indefinite => exact Or.inl rfl

/-- The SID of an array key is read with nothing behind it where this is all there is. -/
theorem sidLast_iff {st : ZcborState} :
    SidLast st ↔ ∃ sid behind, (zcborListStartDecode st).bind zcborUint64Decode = some (sid, behind) ∧
      behind.payload = [] := by
  constructor
  · rintro ⟨counted, room, framing, n, w, sid, fits, sidFits, more, payload⟩
    have major : majorTypeAt st.payload = some .list := payload ▸ majorTypeAt_opening .list fits (head 0 w sid)
    have started := listMapStartDecode_opening payload (by decide) fits counted
      (show typeCheck st .list = true by rw [typeCheck, major, beq_self_eq_true]) room
    have left : (st.entered framing n (head 0 w sid)).elemCount ≠ 0 := by
      cases framing with
      | definite w => exact more.resolve_left (by simp)
      | indefinite => exact show ZCBOR_LARGE_ELEM_COUNT ≠ 0 by decide
    have read := zcborUint64Decode_item (.uint sidFits)
      (show (st.entered framing n (head 0 w sid)).payload = (Item.uint w sid).encode ++ [] from
        (List.append_nil _).symm) left
    exact ⟨_, _, by rw [zcborListStartDecode, started, Option.bind_some, read]; rfl, rfl⟩
  · rintro ⟨sid, behind, read, exhausted⟩
    obtain ⟨inner, started, read⟩ := Option.bind_eq_some_iff.mp read
    obtain ⟨counted, room, framing, n, fits, payload, entered⟩ := listMapStartDecode_entered started
    rw [zcborUint64Decode] at read
    split_ifs at read with checked
    split at read
    · rename_i value behind' extracted
      cases read
      obtain ⟨left, -, w, valueFits, -, at_sid⟩ := valueExtractFixed_value extracted (eq_of_beq checked)
      rw [exhausted, List.append_nil] at at_sid
      refine ⟨counted, room, framing, n, w, value, fits, valueFits, ?_, by rw [payload, at_sid]; rfl⟩
      cases framing with
      | definite w =>
          refine Or.inr fun none => left ?_
          rw [entered]
          exact none
      | indefinite => exact Or.inl rfl
    · cases read

/-- The pointers that are peeked at are the one that is handed on and, behind the SID of an
array key, the next one. -/
theorem mem_patchKeyPeeks {st : ZcborState} {ptr : List UInt8} :
    ptr ∈ patchKeyPeeks st ↔ ptr = st.payload ∨
      ∃ sid behind, (zcborListStartDecode st).bind zcborUint64Decode = some (sid, behind) ∧
        ptr = behind.payload := by
  have other : majorTypeAt st.payload ≠ some .list → zcborListStartDecode st = none := by
    intro noList
    rw [zcborListStartDecode, listMapStartDecode, if_neg]
    exact fun checked => noList (eq_of_beq checked)
  rw [patchKeyPeeks]
  split
  · split
    · rename_i refused
      simp [refused]
    · rename_i sid behind read
      simp [read]
  · rename_i noList
    simp [other noList]

/-- The rounds of the entry loop are at the heads of the maps and behind the entries. -/
theorem PatchRound.cases {datastore : CoreconfValueT} {data : List UInt8} {loop : PatchLoop}
    (round : PatchRound datastore data loop) :
    (∃ maps, PatchMap datastore data maps ∧
        zcborMapStartDecode (zcborNewDecodeState 8 maps.ptr 1) = (true, loop.st)) ∨
      ∃ before key st val, PatchRound datastore data before ∧ ¬ zcborArrayAtEnd before.st ∧
        decodePatchKey before.st = (some key, st) ∧ Decodes st 0 (some val, loop.st) := by
  obtain ⟨maps, start, map, started, reached⟩ := round
  rcases Relation.ReflTransGen.cases_tail reached with rfl | ⟨before, earlier, again⟩
  · exact Or.inl ⟨maps, map, started⟩
  · rw [patchEntries_returns_iff] at again
    split at again
    · cases again
    · rename_i inside
      split at again
      · cases again
      · rename_i key st keyed
        obtain ⟨value, st', decoded, same⟩ := again
        cases value with
        | none => cases same
        | some val =>
            cases same
            exact Or.inr ⟨before, key, st, val, ⟨maps, start, map, started, earlier⟩, inside, keyed, decoded⟩

theorem PatchRound.next {datastore : CoreconfValueT} {data : List UInt8} {loop : PatchLoop}
    (round : PatchRound datastore data loop) (inside : ¬ zcborArrayAtEnd loop.st) {key : PatchKey}
    {st st' : ZcborState} {val : CoreconfValueT} (keyed : decodePatchKey loop.st = (some key, st))
    (decoded : Decodes st 0 (some val, st')) : ∃ after, PatchRound datastore data after ∧ after.st = st' := by
  obtain ⟨maps, start, map, started, reached⟩ := round
  have again : Returns patchEntries loop (patchEntryStep loop key st' (some val)) := by
    rw [patchEntries_returns_iff, if_neg inside, keyed]
    exact ⟨some val, st', decoded, rfl⟩
  exact ⟨_, ⟨maps, start, map, started, reached.tail again⟩, rfl⟩

/-- The patch loops stay inside a payload exactly if it does not end behind the head of a map
that holds something, behind the SID of an array key, or behind an entry of a map that has
not ended, where they come to it. -/
theorem patchStaysInside_iff (datastore : CoreconfValueT) (data : List UInt8) :
    PatchStaysInside datastore data ↔ ¬ PatchBreaksOff datastore data := by
  constructor
  · rintro stays (⟨maps, map, last⟩ | ⟨loop, round, inside, last | last⟩)
    · obtain ⟨start, started, exhausted, inside⟩ := (headLast_iff (show 2 < 8 by decide)).mp last
      have peeked := stays.peeks ⟨maps.target, maps.count, start⟩ ⟨maps, start, map, started, .refl⟩ inside
        start.payload (mem_patchKeyPeeks.mpr (Or.inl rfl))
      exact (pointsInto_iff.mp peeked).2 exhausted
    · obtain ⟨sid, behind, read, exhausted⟩ := sidLast_iff.mp last
      have peeked := stays.peeks loop round inside behind.payload
        (mem_patchKeyPeeks.mpr (Or.inr ⟨sid, behind, read, rfl⟩))
      exact (pointsInto_iff.mp peeked).2 exhausted
    · obtain ⟨key, st', val, st'', keyed, decoded, exhausted, open_⟩ := last
      obtain ⟨after, next, rfl⟩ := round.next inside keyed decoded
      have peeked := stays.peeks after next ((zcborArrayAtEnd_exhausted exhausted).mpr open_) after.st.payload
        (mem_patchKeyPeeks.mpr (Or.inl rfl))
      exact (pointsInto_iff.mp peeked).2 exhausted
  · intro whole
    refine ⟨fun loop round inside ptr peeked => ?_, fun ptr handed => handed.within⟩
    rw [pointsInto_iff]
    rcases mem_patchKeyPeeks.mp peeked with rfl | ⟨sid, behind, read, rfl⟩
    · refine ⟨round.within, fun exhausted => whole ?_⟩
      obtain ⟨maps, map, started⟩ | ⟨before, key, st, val, earlier, more, keyed, decoded⟩ := round.cases
      · have last := (headLast_iff (show 2 < 8 by decide)).mpr ⟨loop.st, started, exhausted, inside⟩
        exact Or.inl ⟨maps, map, last⟩
      · exact Or.inr ⟨before, earlier, more, Or.inr ⟨key, st, val, loop.st, keyed, decoded, exhausted,
          (zcborArrayAtEnd_exhausted exhausted).mp inside⟩⟩
    · refine ⟨?_, fun exhausted => whole (Or.inr ⟨loop, round, inside, Or.inl (sidLast_iff.mpr
        ⟨sid, behind, read, exhausted⟩)⟩)⟩
      obtain ⟨inner, started, read⟩ := Option.bind_eq_some_iff.mp read
      exact ((within_respected.uint64 read).trans (listMapStartDecode_within started)).trans round.within

theorem postStaysInside_iff (data : List UInt8) : PostStaysInside data ↔ ¬ PostBreaksOff data := by
  constructor
  · rintro stays ⟨loop, round, last⟩
    obtain ⟨start, started, exhausted, inside⟩ := (headLast_iff (show 2 < 12 by decide)).mp last
    exact (pointsInto_iff.mp (stays.peeks loop start round started inside)).2 exhausted
  · intro whole
    refine ⟨fun loop start round started inside => ?_, fun ptr handed => handed.within⟩
    refine pointsInto_iff.mpr ⟨(mapStart_within started).trans round.within, fun exhausted => whole ?_⟩
    exact ⟨loop, round, (headLast_iff (show 2 < 12 by decide)).mpr ⟨start, started, exhausted, inside⟩⟩

/-- Neither function goes past the end of a payload that does not break off. -/
theorem payload_bounds_iff (datastore : CoreconfValueT) (data : List UInt8) :
    (PatchStaysInside datastore data ↔ ¬ PatchBreaksOff datastore data) ∧
      (PostStaysInside data ↔ ¬ PostBreaksOff data) :=
  ⟨patchStaysInside_iff datastore data, postStaysInside_iff data⟩

/-- The head of a map of one entry, and nothing after it. -/
theorem map_head_read_past :
    ¬ PatchStaysInside (.hashmap createCoreconfHashmap) [0xA1] ∧ ¬ PostStaysInside [0xA1] := by
  have patch : zcborMapStartDecode (zcborNewDecodeState 8 [0xA1] 1) =
      (true, ⟨[], 2, false, [⟨0, false⟩], 6⟩) := by
    decide
  have post : zcborMapStartDecode (zcborNewDecodeState 12 [0xA1] 1) =
      (true, ⟨[], 2, false, [⟨0, false⟩], 10⟩) := by
    decide
  constructor
  · intro stays
    obtain ⟨front, whole, shorter⟩ := stays.peeks ⟨createCoreconfHashmap, 0, _⟩
      ⟨_, _, ⟨_, rfl, by decide, .refl⟩, patch, .refl⟩ (by decide) [] (by decide)
    simp [whole] at shorter
  · intro stays
    obtain ⟨front, whole, shorter⟩ := stays.peeks ⟨[], [0xA1]⟩ _ ⟨by decide, .refl⟩ post (by decide)
    simp [whole] at shorter

end Coreconf
