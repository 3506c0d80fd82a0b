import Coreconf.SkipRefused

set_option autoImplicit false

/- How the matcher walks over the items of an event: the SIDs it comes to, and the items at
which it takes a map up that it has not walked to its end. -/
namespace Cbor.Item

/-- The SID of a key, or of a key that is an array of a SID and something else. -/
def iidSid? : Item → Option UInt64
  | uint _ n => some (UInt64.ofNat n)
  | list _ [uint _ n, _] => some (UInt64.ofNat n)
  | _ => none

open Classical in
/-- The SID of a key that is read to its end. -/
noncomputable def readSid? (key : Item) : Option UInt64 := if key.Skippable then key.iidSid? else none

/-- The items to come when a container is left at these, with the items behind it. -/
def behind (framing : Framing) (later : List Item) : List Item → List Item
  | [] => later
  | item :: rest =>
      match framing with
      | .definite _ => item :: (rest ++ later)
      | .indefinite => item :: rest

open Classical in
/-- The items to come when a key is given up, with the items behind it. -/
noncomputable def unread (later : List Item) : Item → List Item
  | list framing (uint _ _ :: []) => behind framing later []
  | list framing (uint _ _ :: item :: rest) =>
      behind framing later (if item.Skippable then rest else item :: rest)
  | list framing items => behind framing later items
  | key => key :: later

open Classical in
/-- The SIDs that are come to in the entries of a map, and the items to come then. -/
noncomputable def round (framing : Framing) (later : List Item) : List (Item × Item) → List UInt64 × List Item
  | [] => ([], later)
  | (key, value) :: rest =>
      match key.readSid? with
      | none => ([], unread (behind framing later (value :: flat rest)) key)
      | some sid =>
          if value.Skippable then (sid :: (round framing later rest).1, (round framing later rest).2)
          else ([sid], behind framing later (value :: flat rest))

/-- The SID is come to in these items. -/
inductive Met (sid : UInt64) : List Item → Prop
  | here {framing entries later} (come : sid ∈ (round framing later entries).1) :
      Met sid (map framing entries :: later)
  | later {framing entries later} (next : Met sid (round framing later entries).2) :
      Met sid (map framing entries :: later)

end Cbor.Item

namespace Coreconf

open Cbor (Item Framing Width breakCode Tags)
open Fuel (Returns Step Monotone)

/-- The bytes are these items and then nothing, or a break. -/
def AtItems (items : List Item) (bytes : List UInt8) : Prop :=
  (∀ item ∈ items, item.WellFormed) ∧
    ∃ stop, bytes = Item.encodeItems items ++ stop ∧ (stop = [] ∨ stop.head? = some 0xFF)

/-- A container that is left at some of its items, or at its end. -/
theorem AtItems.behind {framing : Framing} {items later : List Item} {rest : List UInt8}
    (atLater : AtItems later rest) (formed : ∀ item ∈ items, item.WellFormed) (more : items ≠ []) :
    AtItems (Item.behind framing later items) (Item.encodeItems items ++ (framing.closing ++ rest)) := by
  obtain ⟨laterFormed, stop, rfl, ends⟩ := atLater
  cases items with
  | nil => exact absurd rfl more
  | cons item others =>
      cases framing with
      | definite w =>
          refine ⟨?_, stop, ?_, ends⟩
          · intro member inside
            rw [Item.behind, ← List.cons_append] at inside
            exact (List.mem_append.mp inside).elim (formed member) (laterFormed member)
          · simp only [Item.behind, ← List.cons_append, Item.encodeItems_append, Framing.closing, List.nil_append,
              List.append_assoc]
      | indefinite => exact ⟨formed, _, rfl, Or.inr rfl⟩

theorem AtItems.cons {item : Item} {items : List Item} {rest : List UInt8} (atItems : AtItems items rest)
    (formed : item.WellFormed) : AtItems (item :: items) (item.encode ++ rest) := by
  obtain ⟨others, stop, rfl, ends⟩ := atItems
  exact ⟨List.forall_mem_cons.mpr ⟨formed, others⟩, stop, by rw [Item.encodeItems, List.append_assoc], ends⟩

theorem encode_notBreak {item : Item} (formed : item.WellFormed) (more : List UInt8) :
    (item.encode ++ more).head? ≠ some 0xFF := by
  obtain ⟨byte, rest, same, -, notBreak⟩ := Item.encode_first formed
  have other : byte ≠ 0xFF := notBreak
  rw [same]
  simpa using other

def eventKeys (n : Nat) : ZcborState → Option (Except ZcborState (UInt64 × ZcborState)) :=
  eventKey (zcborAnySkip n)

theorem listStart_item {framing : Framing} {items : List Item} (wellFormed : Item.WellFormed (.list framing items))
    {st : ZcborState} {rest : List UInt8} (payload : st.payload = (Item.list framing items).encode ++ rest)
    (left : st.elemCount ≠ 0) (room : st.backupList.length < st.numBackups) :
    zcborListStartDecode st = some (st.atItems framing items rest) := by
  have checked := typeCheck_item wellFormed payload .list
  rw [Item.encode, List.append_assoc, List.append_assoc] at payload
  cases wellFormed with
  | list fits members => exact listMapStartDecode_opening payload (by decide) fits left checked room

theorem eventKey_uint {w : Width} {n : Nat} (wellFormed : Item.WellFormed (.uint w n)) {st : ZcborState}
    {rest : List UInt8} (payload : st.payload = (Item.uint w n).encode ++ rest) (left : st.elemCount ≠ 0) :
    Returns eventKeys st (.ok (UInt64.ofNat n, st.after rest)) := by
  have major : majorTypeAt st.payload = some .pint := by
    rw [payload, majorTypeAt_item wellFormed]
    rfl
  have read : zcborUint64Decode st = some (UInt64.ofNat n, st.after rest) :=
    zcborUint64Decode_item wellFormed payload left
  exact ⟨0, by simp only [eventKeys, eventKey, major, read]⟩

/-- A key of another kind is given up where it stands. -/
theorem eventKey_other {key : Item} (wellFormed : key.WellFormed) (noUint : key.majorType ≠ .pint)
    (noList : key.majorType ≠ .list) {st : ZcborState} {rest : List UInt8}
    (payload : st.payload = key.encode ++ rest) : Returns eventKeys st (.error st) := by
  have major : majorTypeAt st.payload = some key.majorType := by rw [payload, majorTypeAt_item wellFormed]
  refine ⟨0, ?_⟩
  simp only [eventKeys, eventKey, major]
  split
  · rename_i same
    exact absurd (Option.some.inj same) noUint
  · rename_i same
    exact absurd (Option.some.inj same) noList
  · rfl

/-- The array of a key that does not begin with a SID. -/
theorem eventKey_noSid {st inner : ZcborState} (major : majorTypeAt st.payload = some .list)
    (started : zcborListStartDecode st = some inner) (refused : zcborUint64Decode inner = none) :
    Returns eventKeys st (.error (zcborListEndDecode inner).2) :=
  ⟨0, by simp only [eventKeys, eventKey, major, started, refused]⟩

theorem eventKey_refused {st inner second : ZcborState} {sid : UInt64} (major : majorTypeAt st.payload = some .list)
    (started : zcborListStartDecode st = some inner) (read : zcborUint64Decode inner = some (sid, second))
    (refused : Returns zcborAnySkip second .failed) :
    Returns eventKeys st (.error (zcborListEndDecode second).2) := by
  obtain ⟨n, ran⟩ := refused
  exact ⟨n, by simp only [eventKeys, eventKey, major, started, read, ran, Option.map_some]⟩

theorem eventKey_ended {st inner second behind after : ZcborState} {sid : UInt64}
    (major : majorTypeAt st.payload = some .list) (started : zcborListStartDecode st = some inner)
    (read : zcborUint64Decode inner = some (sid, second))
    (skipped : Returns zcborAnySkip second (.skipped behind 0))
    (ended : zcborListEndDecode behind = (true, after)) : Returns eventKeys st (.ok (sid, after)) := by
  obtain ⟨n, ran⟩ := skipped
  exact ⟨n, by simp only [eventKeys, eventKey, major, started, read, ran, Option.map_some, ended]⟩

theorem eventKey_notEnded {st inner second behind after : ZcborState} {sid : UInt64}
    (major : majorTypeAt st.payload = some .list) (started : zcborListStartDecode st = some inner)
    (read : zcborUint64Decode inner = some (sid, second))
    (skipped : Returns zcborAnySkip second (.skipped behind 0))
    (notEnded : zcborListEndDecode behind = (false, after)) : Returns eventKeys st (.error after) := by
  obtain ⟨n, ran⟩ := skipped
  exact ⟨n, by simp only [eventKeys, eventKey, major, started, read, ran, Option.map_some, notEnded]⟩

/-- A state is put back only behind a head that was read. -/
theorem zcborAnySkip_restored {fuel : Nat} {st : ZcborState} (ran : zcborAnySkip fuel st = some .restored) :
    st.elemCount ≠ 0 := by
  cases fuel with
  | zero => cases ran
  | succ fuel =>
      rw [zcborAnySkip] at ran
      split at ran
      · simp at ran
      · split at ran
        · cases ran
        · simp at ran
        · rename_i copy looped
          obtain ⟨⟨frame, -⟩, -⟩ := skipTagBody_loop looped
          have noMembers : ∀ entered, skipMembers (zcborAnySkip fuel) fuel st entered ≠ some .restored := by
            intro entered ran
            obtain ⟨left, -, same⟩ := Option.map_eq_some_iff.mp ran
            cases left with
            | none => cases same
            | some left =>
                simp only at same
                split at same <;> cases same
          rw [skipValue] at ran
          split at ran
          · split at ran
            · simp at ran
            · exact absurd ran (noMembers _)
          · split at ran
            · simp at ran
            · exact absurd ran (noMembers _)
          · intro empty
            have none_left : copy.elemCount = 0 := by rw [frame]; exact empty
            have extracted : valueExtract copy 8 false = none := by
              rw [valueExtract]
              split
              · rfl
              · rw [if_pos none_left]
            simp [skipScalar, valueExtractFixed, extracted] at ran

/-- Past its last element nothing of a container is skipped. -/
theorem zcborAnySkip_atEnd {framing : Framing} {st : ZcborState} (inside : Inside framing 0 st) {rest : List UInt8}
    (payload : st.payload = framing.closing ++ rest) : Returns zcborAnySkip st .failed := by
  obtain ⟨result, n, ran⟩ := zcborAnySkip_terminates st
  cases framing with
  | definite w =>
      have none_left : st.elemCount = 0 := inside.2
      cases result with
      | failed => exact ⟨n, ran⟩
      | skipped st' past => exact absurd none_left (zcborAnySkip_sound n st st' past ran).counted
      | restored => exact absurd none_left (zcborAnySkip_restored ran)
  | indefinite =>
      have atBreak : st.payload.head? = some 0xFF := by rw [payload]; rfl
      exact zcborAnySkip_break atBreak ran ▸ ⟨n, ran⟩

/-- Where an element is left, a container has not ended. -/
theorem listMapEndDecode_inside {framing : Framing} {count : Nat} {st : ZcborState}
    (inside : Inside framing (count + 1) st) (other : st.payload.head? ≠ some 0xFF) :
    ∃ st', zcborListEndDecode st = (false, st') ∧ st'.payload = st.payload := by
  have same := listMapEndDecode_payload other
  refine ⟨(listMapEndDecode st).2, ?_, same⟩
  suffices refused : (listMapEndDecode st).1 = false by
    rw [zcborListEndDecode, ← refused]
  rw [listMapEndDecode]
  split
  · rfl
  · cases framing with
    | definite w =>
        have more : st.elemCount > 0 := by
          have := inside.2
          omega
        simp [inside.1, more]
    | indefinite =>
        simp only [inside.1, if_true, arrayEndExpect]
        cases payload : st.payload with
        | nil => rfl
        | cons byte rest =>
            have notBreak : byte ≠ 0xFF := by simpa [payload] using other
            simp [notBreak]

theorem readSid?_eq_some {key : Item} {sid : UInt64} (read : key.readSid? = some sid) :
    key.Skippable ∧ ((∃ w n, key = .uint w n ∧ sid = UInt64.ofNat n) ∨
      ∃ framing w n item, key = .list framing [.uint w n, item] ∧ sid = UInt64.ofNat n) := by
  rw [Item.readSid?] at read
  split at read
  · rename_i skippable
    refine ⟨skippable, ?_⟩
    unfold Item.iidSid? at read
    split at read
    · exact Or.inl ⟨_, _, rfl, (Option.some.inj read).symm⟩
    · exact Or.inr ⟨_, _, _, _, rfl, (Option.some.inj read).symm⟩
    · cases read
  · cases read

/-- A list that is left at its end, or at one of its items. -/
theorem left_list {framing : Framing} {items later : List Item} {rest : List UInt8} {inner : ZcborState}
    (inside : Inside framing items.length inner) (saved : ∃ backup backups, inner.backupList = backup :: backups)
    (at_items : inner.payload = Item.encodeItems items ++ (framing.closing ++ rest))
    (formed : ∀ item ∈ items, item.WellFormed) (atLater : AtItems later rest) :
    AtItems (Item.behind framing later items) (zcborListEndDecode inner).2.payload := by
  cases items with
  | nil =>
      obtain ⟨backup, backups, saved⟩ := saved
      rw [zcborListEndDecode, inside.leave at_items saved]
      exact atLater
  | cons item others =>
      have standing : AtItems (Item.behind framing later _) _ := atLater.behind formed (List.cons_ne_nil item others)
      rw [← at_items] at standing
      obtain ⟨st', ended, same⟩ := listMapEndDecode_inside inside (by
        rw [at_items, Item.encodeItems, List.append_assoc]
        exact encode_notBreak (formed item List.mem_cons_self) _)
      rw [ended, same]
      exact standing

/-- No SID is read at the end of a list. -/
theorem zcborUint64Decode_atEnd {framing : Framing} {st : ZcborState} (inside : Inside framing 0 st)
    {rest : List UInt8} (payload : st.payload = framing.closing ++ rest) : zcborUint64Decode st = none := by
  cases framing with
  | definite w =>
      have extracted : valueExtract st 8 false = none := by
        rw [valueExtract]
        split
        · rfl
        · rw [if_pos inside.2]
      simp [zcborUint64Decode, valueExtractFixed, extracted]
  | indefinite =>
      have major : majorTypeAt st.payload = some .simple := by rw [payload]; rfl
      simp [zcborUint64Decode, typeCheck, major]

/-- The array of a key of which the SID has been read, and these items have not. -/
structure AfterSid (framing : Framing) (more : List Item) (rest : List UInt8) (st : ZcborState) (sid : UInt64)
    (here : ZcborState) : Prop where
  major : majorTypeAt st.payload = some .list
  read : ∃ inner, zcborListStartDecode st = some inner ∧ zcborUint64Decode inner = some (sid, here)
  formed : ∀ item ∈ more, item.WellFormed
  payload : here.payload = Item.encodeItems more ++ (framing.closing ++ rest)
  inside : Inside framing more.length here
  saved : ∃ backup backups, here.backupList = backup :: backups
  shorter : here.payload.length ≤ st.payload.length

theorem AfterSid.at_item {framing : Framing} {item : Item} {more : List Item} {rest : List UInt8}
    {st here : ZcborState} {sid : UInt64} (reads : AfterSid framing (item :: more) rest st sid here) :
    here.payload = item.encode ++ (Item.encodeItems more ++ (framing.closing ++ rest)) := by
  rw [reads.payload, Item.encodeItems, List.append_assoc]

/-- The key is given up, with these items to come. -/
def GivenUp (st : ZcborState) (items : List Item) : Prop :=
  ∃ st', Returns eventKeys st (.error st') ∧ AtItems items st'.payload ∧ st'.payload.length ≤ st.payload.length

section Array

variable {framing : Framing} {rest : List UInt8} {st here : ZcborState} {sid : UInt64} {later : List Item}
  (atLater : AtItems later rest)

theorem afterSid_list {w : Width} {n : Nat} {more : List Item}
    (wellFormed : Item.WellFormed (.list framing (.uint w n :: more)))
    (payload : st.payload = (Item.list framing (.uint w n :: more)).encode ++ rest) (left : st.elemCount ≠ 0)
    (room : st.backupList.length < st.numBackups) (size : st.payload.length ≤ ZCBOR_LARGE_ELEM_COUNT) :
    AfterSid framing more rest st (UInt64.ofNat n)
      ((st.atItems framing (.uint w n :: more) rest).after (Item.encodeItems more ++ (framing.closing ++ rest))) := by
  have started := listStart_item wellFormed payload left room
  have entered := atItems_entered wellFormed payload size
  have major : majorTypeAt st.payload = some .list := by
    rw [payload, majorTypeAt_item wellFormed]
    rfl
  cases wellFormed with
  | list fits members =>
      obtain ⟨uintFormed, moreFormed⟩ := List.forall_mem_cons.mp members
      set inner := st.atItems framing (.uint w n :: more) rest with inner_eq
      have at_first : inner.payload =
          (Item.uint w n).encode ++ (Item.encodeItems more ++ (framing.closing ++ rest)) := by
        show Item.encodeItems (.uint w n :: more) ++ (framing.closing ++ rest) = _
        rw [Item.encodeItems, List.append_assoc]
      have shorter := entered.shorter
      rw [at_first, List.length_append] at shorter
      exact ⟨major, ⟨inner, started, zcborUint64Decode_item uintFormed at_first entered.inside.left⟩, moreFormed, rfl,
        entered.inside.after _, ⟨_, _, rfl⟩, (Nat.le_add_left ..).trans shorter⟩

include atLater

/-- What is behind the SID is not passed over, and the array is left there. -/
theorem AfterSid.refused {more : List Item} (reads : AfterSid framing more rest st sid here)
    (refused : Returns zcborAnySkip here .failed) : GivenUp st (Item.behind framing later more) := by
  obtain ⟨inner, started, read⟩ := reads.read
  exact ⟨_, eventKey_refused reads.major started read refused,
    left_list reads.inside reads.saved reads.payload reads.formed atLater, (listMapEndDecode_le here).trans reads.shorter⟩

/-- The SID is all that the array has. -/
theorem AfterSid.alone (reads : AfterSid framing [] rest st sid here) : GivenUp st (Item.behind framing later []) :=
  reads.refused atLater (zcborAnySkip_atEnd reads.inside reads.payload)

theorem AfterSid.stuck {item : Item} {more : List Item} (reads : AfterSid framing (item :: more) rest st sid here)
    (size : st.payload.length ≤ ZCBOR_LARGE_ELEM_COUNT) (stuck : ¬ item.Skippable) :
    GivenUp st (Item.behind framing later (item :: more)) :=
  reads.refused atLater (zcborAnySkip_refused (reads.formed item List.mem_cons_self) stuck Tags.nil reads.at_item
    reads.inside.left (reads.shorter.trans size))

/-- The array has not ended behind its second item. -/
theorem AfterSid.notEnded {item next : Item} {others : List Item}
    (reads : AfterSid framing (item :: next :: others) rest st sid here)
    (size : st.payload.length ≤ ZCBOR_LARGE_ELEM_COUNT) (skippable : item.Skippable) :
    GivenUp st (Item.behind framing later (next :: others)) := by
  obtain ⟨inner, started, read⟩ := reads.read
  obtain ⟨itemFormed, othersFormed⟩ := List.forall_mem_cons.mp reads.formed
  have skipped := zcborAnySkip_item itemFormed skippable reads.at_item reads.inside.left (reads.shorter.trans size)
  have standing : AtItems (Item.behind framing later _) _ :=
    atLater.behind othersFormed (List.cons_ne_nil next others)
  have third := reads.inside.after (Item.encodeItems (next :: others) ++ (framing.closing ++ rest))
  obtain ⟨st', ended, same⟩ := listMapEndDecode_inside third (by
    rw [ZcborState.after_payload, Item.encodeItems, List.append_assoc]
    exact encode_notBreak (othersFormed next List.mem_cons_self) _)
  refine ⟨st', eventKey_notEnded reads.major started read skipped ended, same ▸ standing, ?_⟩
  have shorter := reads.shorter
  rw [reads.at_item, List.length_append] at shorter
  rw [same]
  exact (Nat.le_add_left ..).trans shorter

end Array

section Key

variable {key : Item} {st : ZcborState} {rest : List UInt8} (wellFormed : key.WellFormed)
  (payload : st.payload = key.encode ++ rest) (left : st.elemCount ≠ 0)
  (room : st.backupList.length < st.numBackups) (size : st.payload.length ≤ ZCBOR_LARGE_ELEM_COUNT)

include wellFormed payload left room size

/-- A key with a SID is read to its end. -/
theorem eventKey_read {sid : UInt64} (read : key.readSid? = some sid) :
    Returns eventKeys st (.ok (sid, st.after rest)) := by
  obtain ⟨skippable, ⟨w, n, rfl, rfl⟩ | ⟨framing, w, n, item, rfl, rfl⟩⟩ := readSid?_eq_some read
  · exact eventKey_uint wellFormed payload left
  · have reads := afterSid_list wellFormed payload left room size
    obtain ⟨inner, started, sidRead⟩ := reads.read
    cases skippable with
    | list skippables =>
        have skipped := zcborAnySkip_item (reads.formed item List.mem_cons_self)
          (skippables item (List.mem_cons_of_mem _ List.mem_cons_self)) reads.at_item reads.inside.left
          (reads.shorter.trans size)
        have ended := (reads.inside.after (framing.closing ++ rest)).leave rfl rfl
        exact eventKey_ended reads.major started sidRead skipped ended

omit wellFormed payload in
/-- An array that does not begin with a SID is left before its first item. -/
theorem eventKey_noSidList {framing : Framing} {items : List Item}
    (wellFormed : Item.WellFormed (.list framing items))
    (payload : st.payload = (Item.list framing items).encode ++ rest)
    (refused : zcborUint64Decode (st.atItems framing items rest) = none) {later : List Item}
    (atLater : AtItems later rest) : GivenUp st (Item.behind framing later items) := by
  have started := listStart_item wellFormed payload left room
  have entered := atItems_entered wellFormed payload size
  have major : majorTypeAt st.payload = some .list := by
    rw [payload, majorTypeAt_item wellFormed]
    rfl
  cases wellFormed with
  | list fits members =>
      exact ⟨_, eventKey_noSid major started refused, left_list entered.inside ⟨_, _, rfl⟩ rfl members atLater,
        (listMapEndDecode_le _).trans entered.shorter⟩

omit wellFormed payload in
/-- An array without a SID that is read is given up, at one of its items or at its end. -/
theorem eventKey_unreadList {framing : Framing} {items : List Item}
    (wellFormed : Item.WellFormed (.list framing items))
    (payload : st.payload = (Item.list framing items).encode ++ rest)
    (read : (Item.list framing items).readSid? = none) {later : List Item} (atLater : AtItems later rest) :
    GivenUp st (Item.unread later (.list framing items)) := by
  have entered := atItems_entered wellFormed payload size
  have noSid (refused : zcborUint64Decode (st.atItems framing items rest) = none) :
      GivenUp st (Item.behind framing later items) :=
    eventKey_noSidList left room size wellFormed payload refused atLater
  cases items with
  | nil => exact noSid (zcborUint64Decode_atEnd entered.inside rfl)
  | cons first more =>
      have firstFormed : first.WellFormed := by
        cases wellFormed with
        | list fits members => exact members first List.mem_cons_self
      have sidRead := zcborUint64Decode_item firstFormed
        (show (st.atItems framing (first :: more) rest).payload = _ from List.append_assoc ..) entered.inside.left
      cases first with
      | uint w n =>
          have reads := afterSid_list wellFormed payload left room size
          cases more with
          | nil => exact reads.alone atLater
          | cons item others =>
              rw [Item.unread]
              by_cases skippable : item.Skippable
              · rw [if_pos skippable]
                cases others with
                | nil =>
                    have skippables : (Item.list framing [.uint w n, item]).Skippable := by
                      refine .list fun member inside => ?_
                      rcases List.mem_pair.mp inside with rfl | rfl
                      · exact .uint w n
                      · exact skippable
                    rw [Item.readSid?, if_pos skippables] at read
                    cases read
                | cons next others => exact reads.notEnded atLater size skippable
              · rw [if_neg skippable]
                exact reads.stuck atLater size skippable
      | nint w n => exact noSid sidRead
      | bstr w bytes => exact noSid sidRead
      | tstr w bytes => exact noSid sidRead
      | bstrChunks chunks => exact noSid sidRead
      | tstrChunks chunks => exact noSid sidRead
      | list framing items => exact noSid sidRead
      | map framing entries => exact noSid sidRead
      | tag w n item => exact noSid sidRead
      | primitive w n => exact noSid sidRead

/-- A key without one is given up, at one of its items or behind it. -/
theorem eventKey_unread (read : key.readSid? = none) {later : List Item} (atLater : AtItems later rest) :
    GivenUp st (Item.unread later key) := by
  have other (noUint : key.majorType ≠ .pint) (noList : key.majorType ≠ .list) : GivenUp st (key :: later) := by
    refine ⟨st, eventKey_other wellFormed noUint noList payload, ?_, Nat.le_refl _⟩
    rw [payload]
    exact atLater.cons wellFormed
  cases key with
  | uint w n =>
      rw [Item.readSid?, if_pos (.uint w n)] at read
      cases read
  | list framing items => exact eventKey_unreadList left room size wellFormed payload read atLater
  | nint w n => exact other nofun nofun
  | bstr w bytes => exact other nofun nofun
  | tstr w bytes => exact other nofun nofun
  | bstrChunks chunks => exact other nofun nofun
  | tstrChunks chunks => exact other nofun nofun
  | map framing entries => exact other nofun nofun
  | tag w n item => exact other nofun nofun
  | primitive w n => exact other nofun nofun

end Key

theorem unread_nonempty {later : List Item} (more : later ≠ []) (key : Item) : Item.unread later key ≠ [] := by
  have behind : ∀ framing items, Item.behind framing later items ≠ [] := by
    intro framing items
    cases items with
    | nil => exact more
    | cons item rest => cases framing <;> simp [Item.behind]
  unfold Item.unread
  split
  · exact behind _ _
  · exact behind _ _
  · exact behind _ _
  · exact List.cons_ne_nil _ _

theorem AtItems.notBreak {items : List Item} {bytes : List UInt8} (atItems : AtItems items bytes)
    (more : items ≠ []) : bytes.head? ≠ some 0xFF := by
  obtain ⟨formed, stop, rfl, -⟩ := atItems
  cases items with
  | nil => exact absurd rfl more
  | cons item rest =>
      rw [Item.encodeItems, List.append_assoc]
      exact encode_notBreak (formed item List.mem_cons_self) _

def eventEntries (filterSids : List UInt64) (n : Nat) : ZcborState → Option (Step ZcborState MatchExit) :=
  eventEntryBody (zcborAnySkip n) filterSids

theorem eventKeys_monotone : Monotone eventKeys := by
  refine Monotone.of_extends fun m n st le => ?_
  simp only [eventKeys, eventKey]
  split
  · exact .refl _
  · split
    · exact .refl _
    · split
      · exact .refl _
      · exact (zcborAnySkip_monotone.extends le _).map _
  · exact .refl _

theorem eventEntries_monotone (filterSids : List UInt64) : Monotone (eventEntries filterSids) := by
  refine Monotone.of_extends fun m n st le => ?_
  simp only [eventEntries, eventEntryBody]
  refine .ite (.refl _) ((eventKeys_monotone.extends le st).bind fun key => ?_)
  cases key with
  | error st => exact .refl _
  | ok read => exact .ite (.refl _) ((zcborAnySkip_monotone.extends le read.2).map _)

theorem eventMapBody_monotone (filterSids : List UInt64) : Monotone (eventMapBody filterSids) := by
  refine Monotone.of_extends fun m n ptr le => ?_
  simp only [eventMapBody]
  refine .ite (.refl _) ?_
  split
  · exact .refl _
  · exact ((Fuel.iterate_monotone (eventEntries_monotone filterSids)).extends le _).map _

/-- Four ways in which an entry of an event is taken. -/
theorem eventEntries_ended {filterSids : List UInt64} {st : ZcborState} (atEnd : zcborArrayAtEnd st = true) :
    Returns (eventEntries filterSids) st (.done (.left (zcborMapEndDecode st).2.payload)) :=
  ⟨0, by rw [eventEntries, eventEntryBody, if_pos atEnd]⟩

theorem eventEntries_unread {filterSids : List UInt64} {st st' : ZcborState} (inside : zcborArrayAtEnd st = false)
    (key : Returns eventKeys st (.error st')) :
    Returns (eventEntries filterSids) st (.done (.left (zcborMapEndDecode st').2.payload)) := by
  obtain ⟨n, key⟩ := key
  refine ⟨n, ?_⟩
  simp only [eventEntries, eventEntryBody, inside, Bool.false_eq_true, if_false,
    show eventKey (zcborAnySkip n) st = _ from key, Option.bind_some]

theorem eventEntries_matched {filterSids : List UInt64} {st st' : ZcborState} {sid : UInt64}
    (inside : zcborArrayAtEnd st = false) (key : Returns eventKeys st (.ok (sid, st')))
    (inFilter : streamSidInFilter sid filterSids = true) :
    Returns (eventEntries filterSids) st (.done .matched) := by
  obtain ⟨n, key⟩ := key
  refine ⟨n, ?_⟩
  simp only [eventEntries, eventEntryBody, inside, Bool.false_eq_true, if_false,
    show eventKey (zcborAnySkip n) st = _ from key, Option.bind_some, inFilter, if_true]

theorem eventEntries_skipped {filterSids : List UInt64} {st st' st'' : ZcborState} {sid : UInt64} {past : Nat}
    (inside : zcborArrayAtEnd st = false) (key : Returns eventKeys st (.ok (sid, st')))
    (other : streamSidInFilter sid filterSids = false) (value : Returns zcborAnySkip st' (.skipped st'' past)) :
    Returns (eventEntries filterSids) st (.next st'') := by
  obtain ⟨n, key, value⟩ := Returns.both eventKeys_monotone zcborAnySkip_monotone key value
  refine ⟨n, ?_⟩
  simp only [eventEntries, eventEntryBody, inside, Bool.false_eq_true, if_false,
    show eventKey (zcborAnySkip n) st = _ from key, Option.bind_some, other, value, Option.map_some]

theorem eventEntries_stuck {filterSids : List UInt64} {st st' : ZcborState} {sid : UInt64}
    (inside : zcborArrayAtEnd st = false) (key : Returns eventKeys st (.ok (sid, st')))
    (other : streamSidInFilter sid filterSids = false) (value : Returns zcborAnySkip st' .failed) :
    Returns (eventEntries filterSids) st (.done (.left (zcborMapEndDecode st').2.payload)) := by
  obtain ⟨n, key, value⟩ := Returns.both eventKeys_monotone zcborAnySkip_monotone key value
  refine ⟨n, ?_⟩
  simp only [eventEntries, eventEntryBody, inside, Bool.false_eq_true, if_false,
    show eventKey (zcborAnySkip n) st = _ from key, Option.bind_some, other, value, Option.map_some]

/-- How the loop over the entries of a map is left: with one of the SIDs that it comes to,
or at the items that are to come then. -/
def RoundExit (filterSids : List UInt64) (round : List UInt64 × List Item) (size : Nat) (exit : MatchExit) : Prop :=
  (exit = .matched ∧ ∃ sid ∈ round.1, sid ∈ filterSids) ∨
    ∃ ptr, exit = .left ptr ∧ (∀ sid ∈ round.1, sid ∉ filterSids) ∧ AtItems round.2 ptr ∧
      ptr.length ≤ size

theorem streamSidInFilter_iff {sid : UInt64} {filterSids : List UInt64} :
    streamSidInFilter sid filterSids = true ↔ sid ∈ filterSids := by
  rw [streamSidInFilter, List.contains_iff_mem]

/-- The items from the value of an entry on. -/
theorem AtItems.value {framing : Framing} {value : Item} {others : List (Item × Item)} {later : List Item}
    {rest : List UInt8} (atLater : AtItems later rest) (valueFormed : value.WellFormed)
    (keys : ∀ entry ∈ others, entry.1.WellFormed) (values : ∀ entry ∈ others, entry.2.WellFormed) :
    AtItems (Item.behind framing later (value :: Item.flat others))
      (value.encode ++ (Item.encodeEntries others ++ (framing.closing ++ rest))) := by
  have flatFormed : ∀ item ∈ value :: Item.flat others, item.WellFormed := by
    refine List.forall_mem_cons.mpr ⟨valueFormed, fun item member => ?_⟩
    obtain ⟨entry, within, rfl | rfl⟩ := Item.mem_flat.mp member
    · exact keys entry within
    · exact values entry within
  have standing : AtItems (Item.behind framing later _) _ := atLater.behind flatFormed (List.cons_ne_nil _ _)
  rwa [Item.encodeItems, Item.encodeItems_flat, List.append_assoc] at standing

/-- The loop stands before these entries of a map, with the items behind it. -/
structure AtEntries (framing : Framing) (later : List Item) (rest : List UInt8) (entries : List (Item × Item))
    (st : ZcborState) : Prop where
  keys : ∀ entry ∈ entries, entry.1.WellFormed
  values : ∀ entry ∈ entries, entry.2.WellFormed
  payload : st.payload = Item.encodeEntries entries ++ (framing.closing ++ rest)
  inside : Inside framing (2 * entries.length) st
  saved : ∃ backup backups, st.backupList = backup :: backups
  room : st.backupList.length < st.numBackups
  size : st.payload.length ≤ ZCBOR_LARGE_ELEM_COUNT
  behind : AtItems later rest

namespace AtEntries

variable {framing : Framing} {later : List Item} {rest : List UInt8} {filterSids : List UInt64} {st : ZcborState}

theorem ended (here : AtEntries framing later rest [] st) :
    ∃ exit, Returns (Fuel.iterate (eventEntries filterSids)) st exit ∧
      RoundExit filterSids (Item.round framing later []) st.payload.length exit := by
  obtain ⟨backup, backups, saved⟩ := here.saved
  refine ⟨_, Fuel.iterate_done (eventEntries_monotone filterSids) (eventEntries_ended (here.inside.atEnd here.payload)),
    Or.inr ⟨_, rfl, List.forall_mem_nil _, ?_, listMapEndDecode_le st⟩⟩
  rw [zcborMapEndDecode, here.inside.leave here.payload saved]
  exact here.behind

variable {key value : Item} {others : List (Item × Item)}
  (here : AtEntries framing later rest ((key, value) :: others) st)
include here

theorem at_key :
    st.payload = key.encode ++ (value.encode ++ (Item.encodeEntries others ++ (framing.closing ++ rest))) := by
  rw [here.payload, Item.encodeEntries, List.append_assoc, List.append_assoc]

theorem at_value : AtItems (Item.behind framing later (value :: Item.flat others))
    (value.encode ++ (Item.encodeEntries others ++ (framing.closing ++ rest))) :=
  here.behind.value (here.values _ List.mem_cons_self) (fun entry member => here.keys entry (List.mem_cons_of_mem _ member))
    fun entry member => here.values entry (List.mem_cons_of_mem _ member)

theorem notEnd : zcborArrayAtEnd st = false :=
  Bool.eq_false_iff.mpr (here.inside.not_atEnd (here.keys _ List.mem_cons_self) here.at_key)

omit here in
/-- A map that is left in a state before more of its items. -/
theorem left_at {st' : ZcborState} {items : List Item} (standing : AtItems items st'.payload) (more : items ≠ [])
    (less : st'.payload.length ≤ st.payload.length) :
    AtItems items (zcborMapEndDecode st').2.payload ∧ (zcborMapEndDecode st').2.payload.length ≤ st.payload.length := by
  rw [zcborMapEndDecode, listMapEndDecode_payload (standing.notBreak more)]
  exact ⟨standing, less⟩

omit here in
theorem behind_nonempty (framing : Framing) (later : List Item) (item : Item) (items : List Item) :
    Item.behind framing later (item :: items) ≠ [] := by
  cases framing <;> simp [Item.behind]

/-- The key is given up, and the map with it. -/
theorem unread (read : key.readSid? = none) :
    ∃ exit, Returns (Fuel.iterate (eventEntries filterSids)) st exit ∧
      RoundExit filterSids (Item.round framing later ((key, value) :: others)) st.payload.length exit := by
  obtain ⟨st', returned, standing, less⟩ := eventKey_unread (here.keys _ List.mem_cons_self) here.at_key
    here.inside.left here.room here.size read here.at_value
  obtain ⟨atLeft, less⟩ := left_at standing (unread_nonempty (behind_nonempty framing later value _) key) less
  refine ⟨_, Fuel.iterate_done (eventEntries_monotone filterSids) (eventEntries_unread here.notEnd returned), ?_⟩
  rw [Item.round]
  simp only [read]
  exact Or.inr ⟨_, rfl, List.forall_mem_nil _, atLeft, less⟩

variable {sid : UInt64} (read : key.readSid? = some sid)
include read

theorem key_read : Returns eventKeys st (.ok (sid, st.after
    (value.encode ++ (Item.encodeEntries others ++ (framing.closing ++ rest))))) :=
  eventKey_read (here.keys _ List.mem_cons_self) here.at_key here.inside.left here.room here.size read

omit read in
theorem value_shorter :
    (st.after (value.encode ++ (Item.encodeEntries others ++ (framing.closing ++ rest)))).payload.length ≤
      st.payload.length := by
  rw [here.at_key, ZcborState.after_payload]
  exact (List.suffix_append ..).length_le

theorem matched (inFilter : sid ∈ filterSids) :
    ∃ exit, Returns (Fuel.iterate (eventEntries filterSids)) st exit ∧
      RoundExit filterSids (Item.round framing later ((key, value) :: others)) st.payload.length exit := by
  refine ⟨_, Fuel.iterate_done (eventEntries_monotone filterSids)
    (eventEntries_matched here.notEnd (here.key_read read) (streamSidInFilter_iff.mpr inFilter)),
    Or.inl ⟨rfl, sid, ?_, inFilter⟩⟩
  rw [Item.round]
  simp only [read]
  split <;> exact List.mem_cons_self

/-- The value is not passed over, and the map is left there. -/
theorem stuck (notIn : sid ∉ filterSids) (stuck : ¬ value.Skippable) :
    ∃ exit, Returns (Fuel.iterate (eventEntries filterSids)) st exit ∧
      RoundExit filterSids (Item.round framing later ((key, value) :: others)) st.payload.length exit := by
  have second := here.inside.after (value.encode ++ (Item.encodeEntries others ++ (framing.closing ++ rest)))
  have refused := zcborAnySkip_refused (here.values _ List.mem_cons_self) stuck Tags.nil
    (st.after_payload (value.encode ++ (Item.encodeEntries others ++ (framing.closing ++ rest)))) second.left
    (here.value_shorter.trans here.size)
  have other : streamSidInFilter sid filterSids = false := Bool.eq_false_iff.mpr (notIn ∘ streamSidInFilter_iff.mp)
  obtain ⟨atLeft, less⟩ := left_at (show AtItems _ (st.after _).payload from here.at_value) (behind_nonempty framing later value _)
    here.value_shorter
  refine ⟨_, Fuel.iterate_done (eventEntries_monotone filterSids)
    (eventEntries_stuck here.notEnd (here.key_read read) other refused), ?_⟩
  rw [Item.round]
  simp only [read, if_neg stuck]
  exact Or.inr ⟨_, rfl, List.forall_mem_singleton.mpr notIn, atLeft, less⟩

/-- An entry that is passed over. -/
theorem next (notIn : sid ∉ filterSids) (skippable : value.Skippable) :
    ∃ st', Returns (eventEntries filterSids) st (.next st') ∧ AtEntries framing later rest others st' ∧
      st'.payload.length ≤ st.payload.length := by
  set tail := Item.encodeEntries others ++ (framing.closing ++ rest) with tail_eq
  have second := here.inside.after (value.encode ++ tail)
  have skipped := zcborAnySkip_item (here.values _ List.mem_cons_self) skippable
    (st.after_payload (value.encode ++ tail)) second.left (here.value_shorter.trans here.size)
  have other : streamSidInFilter sid filterSids = false := Bool.eq_false_iff.mpr (notIn ∘ streamSidInFilter_iff.mp)
  have shorter : tail.length ≤ st.payload.length := by
    rw [here.at_key]
    exact ((List.suffix_append ..).trans (List.suffix_append ..)).length_le
  refine ⟨_, eventEntries_skipped here.notEnd (here.key_read read) other skipped,
    ⟨fun entry member => here.keys entry (List.mem_cons_of_mem _ member),
      fun entry member => here.values entry (List.mem_cons_of_mem _ member), rfl, second.after tail, here.saved, here.room,
      shorter.trans here.size, here.behind⟩, shorter⟩

omit here in
/-- What is come to in the entries behind one that is passed over is come to in all. -/
theorem exit_cons (notIn : sid ∉ filterSids) (skippable : value.Skippable) {size size' : Nat} (le : size ≤ size')
    {exit : MatchExit} (exits : RoundExit filterSids (Item.round framing later others) size exit) :
    RoundExit filterSids (Item.round framing later ((key, value) :: others)) size' exit := by
  rw [Item.round]
  simp only [read, if_pos skippable]
  rcases exits with ⟨matched, found, member, inFilter⟩ | ⟨ptr, left, none_in, standing, less⟩
  · exact Or.inl ⟨matched, found, List.mem_cons_of_mem _ member, inFilter⟩
  · exact Or.inr ⟨ptr, left, List.forall_mem_cons.mpr ⟨notIn, none_in⟩, standing, less.trans le⟩

end AtEntries

/-- By induction over the entries, with the state before each. -/
theorem eventEntries_round (filterSids : List UInt64) {framing : Framing} {entries : List (Item × Item)}
    {later : List Item} {st : ZcborState} {rest : List UInt8} (here : AtEntries framing later rest entries st) :
    ∃ exit, Returns (Fuel.iterate (eventEntries filterSids)) st exit ∧
      RoundExit filterSids (Item.round framing later entries) st.payload.length exit := by
  induction entries generalizing st with
  | nil => exact here.ended
  | cons entry others ih =>
      obtain ⟨key, value⟩ := entry
      cases read : key.readSid? with
      | none => exact here.unread read
      | some sid =>
          by_cases inFilter : sid ∈ filterSids
          · exact here.matched read inFilter
          · by_cases skippable : value.Skippable
            · obtain ⟨st', returned, there, less⟩ := here.next read inFilter skippable
              obtain ⟨exit, looped, exits⟩ := ih there
              exact ⟨exit, Fuel.iterate_next (eventEntries_monotone filterSids) returned looped,
                AtEntries.exit_cons read inFilter skippable less exits⟩
            · exact here.stuck read inFilter skippable

/-- The step of the walk that a way to leave the entries is. -/
def exitStep : MatchExit → Step (List UInt8) Bool
  | .matched => .done true
  | .left ptr => .next ptr

theorem AtItems.map_split {framing : Framing} {entries : List (Item × Item)} {later : List Item} {bytes : List UInt8}
    (atItems : AtItems (.map framing entries :: later) bytes) :
    ∃ rest, bytes = (Item.map framing entries).encode ++ rest ∧ AtItems later rest := by
  obtain ⟨formed, stop, rfl, ends⟩ := atItems
  refine ⟨Item.encodeItems later ++ stop, ?_, ?_, stop, rfl, ends⟩
  · rw [Item.encodeItems, List.append_assoc]
  · exact fun item member => formed item (List.mem_cons_of_mem _ member)

/-- A map is entered and its entries are walked over. -/
theorem eventMapBody_map (filterSids : List UInt64) {framing : Framing} {entries : List (Item × Item)}
    {later : List Item} {bytes : List UInt8} (atItems : AtItems (.map framing entries :: later) bytes)
    (size : bytes.length ≤ ZCBOR_LARGE_ELEM_COUNT) :
    ∃ exit, Returns (eventMapBody filterSids) bytes (exitStep exit) ∧
      RoundExit filterSids (Item.round framing later entries) bytes.length exit := by
  have formed := atItems.1 _ List.mem_cons_self
  obtain ⟨rest, payload, atLater⟩ := atItems.map_split
  have sizes := congrArg List.length payload
  simp only [Item.encode, List.length_append] at sizes
  have checked : typeCheck (zcborNewDecodeState 16 bytes 1) .map = true := by
    rw [typeCheck_item formed payload]
    rfl
  cases formed with
  | map fits keys values =>
      have shortest := length_le_encodeEntries keys values
      have limit : ZCBOR_LARGE_ELEM_COUNT = 2 ^ 64 - 1 - 15 := rfl
      have few : entries.length < ZCBOR_MAX_ELEM_COUNT / 2 := by
        rw [ZCBOR_MAX_ELEM_COUNT]
        omega
      have at_entries : bytes = framing.opening 5 entries.length ++
          (Item.encodeEntries entries ++ (framing.closing ++ rest)) := by
        rw [payload, Item.encode, List.append_assoc, List.append_assoc]
      have started := zcborMapStartDecode_opening at_entries fits
        Nat.one_ne_zero checked (Nat.zero_lt_succ _) few
      set st := (zcborNewDecodeState 16 bytes 1).entered framing (2 * entries.length)
        (Item.encodeEntries entries ++ (framing.closing ++ rest)) with st_eq
      have stSize : st.payload.length ≤ bytes.length := by
        show (Item.encodeEntries entries ++ (framing.closing ++ rest)).length ≤ bytes.length
        simp only [List.length_append]
        omega
      have entered : AtEntries framing later rest entries st :=
        ⟨keys, values, rfl, entered_inside (by omega), ⟨_, _, rfl⟩, show 1 < 14 by decide, stSize.trans size, atLater⟩
      obtain ⟨exit, ⟨n, looped⟩, exits⟩ := eventEntries_round filterSids entered
      have nonempty : bytes ≠ [] := by
        rintro rfl
        cases framing <;> simp [Framing.opening, Cbor.head] at at_entries
      refine ⟨exit, ⟨n, ?_⟩, ?_⟩
      · rw [eventMapBody, if_neg nonempty, started]
        refine Option.map_eq_some_iff.mpr ⟨exit, looped, ?_⟩
        cases exit <;> rfl
      · rcases exits with matched | ⟨ptr, left, none_in, standing, less⟩
        · exact Or.inl matched
        · exact Or.inr ⟨ptr, left, none_in, standing, less.trans stSize⟩

/-- Nothing else is taken up. -/
theorem eventMapBody_other (filterSids : List UInt64) {items : List Item} {bytes : List UInt8}
    (atItems : AtItems items bytes) (noMap : ∀ framing entries later, items ≠ .map framing entries :: later) :
    Returns (eventMapBody filterSids) bytes (.done false) := by
  by_cases empty : bytes = []
  · exact ⟨0, by rw [eventMapBody, if_pos empty]⟩
  · have noMajor : majorTypeAt bytes ≠ some .map := by
      obtain ⟨formed, stop, rfl, ends⟩ := atItems
      cases items with
      | nil =>
          rcases ends with rfl | ends
          · exact absurd rfl empty
          · obtain ⟨rest, rfl⟩ := List.head?_eq_some_iff.mp ends
            exact nofun
      | cons item later =>
          rw [Item.encodeItems, List.append_assoc, majorTypeAt_item (formed item List.mem_cons_self)]
          intro same
          cases item with
          | map framing entries => exact noMap framing entries later rfl
          | _ => cases same
    have checked : typeCheck (zcborNewDecodeState 16 bytes 1) .map = false := by
      rw [typeCheck, beq_eq_false_iff_ne]
      exact noMajor
    refine ⟨0, ?_⟩
    rw [eventMapBody, if_neg empty]
    simp [zcborMapStartDecode, listMapStartDecode, checked]

/-- A SID that is come to is found, by induction over how it is come to. -/
theorem eventMaps_met {filterSids : List UInt64} {sid : UInt64} (inFilter : sid ∈ filterSids) {items : List Item}
    (met : Item.Met sid items) {bytes : List UInt8} (atItems : AtItems items bytes)
    (size : bytes.length ≤ ZCBOR_LARGE_ELEM_COUNT) :
    Returns (Fuel.iterate (eventMapBody filterSids)) bytes true := by
  induction met generalizing bytes with
  | @here framing entries later come =>
      obtain ⟨exit, returned, ⟨rfl, -⟩ | ⟨ptr, -, none_in, -⟩⟩ := eventMapBody_map filterSids atItems size
      · exact Fuel.iterate_done (eventMapBody_monotone filterSids) returned
      · exact absurd inFilter (none_in sid come)
  | @later framing entries later next ih =>
      obtain ⟨exit, returned, ⟨rfl, -⟩ | ⟨ptr, rfl, -, standing, less⟩⟩ :=
        eventMapBody_map filterSids atItems size
      · exact Fuel.iterate_done (eventMapBody_monotone filterSids) returned
      · exact Fuel.iterate_next (eventMapBody_monotone filterSids) returned (ih standing (less.trans size))

/-- What is found has been come to, by induction on the fuel. -/
theorem met_of_eventMaps {filterSids : List UInt64} {n fuel : Nat} {bytes : List UInt8}
    (ran : Fuel.loop (eventMapBody filterSids n) fuel bytes = some true) {items : List Item}
    (atItems : AtItems items bytes) (size : bytes.length ≤ ZCBOR_LARGE_ELEM_COUNT) :
    ∃ sid ∈ filterSids, Item.Met sid items := by
  induction fuel generalizing bytes items with
  | zero => cases ran
  | succ fuel ih =>
      by_cases isMap : ∃ framing entries later, items = .map framing entries :: later
      · obtain ⟨framing, entries, later, rfl⟩ := isMap
        obtain ⟨exit, returned, exits⟩ := eventMapBody_map filterSids atItems size
        rcases exits with ⟨rfl, sid, come, inFilter⟩ | ⟨ptr, rfl, -, standing, less⟩
        · exact ⟨sid, inFilter, .here come⟩
        · rcases Fuel.loop_cases ran with left | ⟨ptr', again, rest⟩
          · cases Returns.unique (eventMapBody_monotone filterSids) ⟨n, left⟩ returned
          · cases Returns.unique (eventMapBody_monotone filterSids) ⟨n, again⟩ returned
            obtain ⟨sid, inFilter, met⟩ := ih rest standing (less.trans size)
            exact ⟨sid, inFilter, .later met⟩
      · have returned := eventMapBody_other filterSids atItems
          (fun framing entries later same => isMap ⟨framing, entries, later, same⟩)
        rcases Fuel.loop_cases ran with left | ⟨ptr', again, -⟩
        · cases Returns.unique (eventMapBody_monotone filterSids) ⟨n, left⟩ returned
        · cases Returns.unique (eventMapBody_monotone filterSids) ⟨n, again⟩ returned

end Coreconf
