import Coreconf.SkipItems

set_option autoImplicit false

/- zcbor_any_skip gives up on every other item, and leaves the state where it was. -/
namespace Cbor.Item

/-- The keys and values of entries in the order in which they are encoded. -/
def flat (entries : List (Item × Item)) : List Item := entries.flatMap fun entry => [entry.1, entry.2]

theorem encodeItems_flat (entries : List (Item × Item)) : encodeItems (flat entries) = encodeEntries entries := by
  induction entries with
  | nil => rfl
  | cons entry rest ih =>
      rw [flat, List.flatMap_cons, encodeItems_append, encodeEntries, ← ih]
      simp only [encodeItems, List.append_nil, flat]

theorem length_flat (entries : List (Item × Item)) : (flat entries).length = 2 * entries.length := by
  induction entries with
  | nil => rfl
  | cons entry rest ih =>
      have length : (flat (entry :: rest)).length = 2 + (flat rest).length := by
        rw [flat, List.flatMap_cons, List.length_append]
        rfl
      rw [length, ih, List.length_cons]
      omega

theorem mem_flat {entries : List (Item × Item)} {item : Item} :
    item ∈ flat entries ↔ ∃ entry ∈ entries, item = entry.1 ∨ item = entry.2 := by
  simp only [flat, List.mem_flatMap, List.mem_cons, List.not_mem_nil, or_false]

/-- The first of some items that cannot be skipped. -/
theorem unskippable_split {items : List Item} (stuck : ∃ item ∈ items, ¬ item.Skippable) :
    ∃ before item later, items = before ++ item :: later ∧ (∀ item ∈ before, item.Skippable) ∧
      ¬ item.Skippable := by
  induction items with
  | nil => simp at stuck
  | cons first rest ih =>
      by_cases skippable : first.Skippable
      · have later : ∃ item ∈ rest, ¬ item.Skippable := by
          obtain ⟨item, member, other⟩ := stuck
          rcases List.mem_cons.mp member with rfl | member
          · exact absurd skippable other
          · exact ⟨item, member, other⟩
        obtain ⟨before, item, after, rfl, each, other⟩ := ih later
        exact ⟨first :: before, item, after, rfl, List.forall_mem_cons.mpr ⟨skippable, each⟩, other⟩
      · exact ⟨[], first, rest, rfl, by simp, skippable⟩

end Cbor.Item

namespace Coreconf

open Cbor (Item Framing Width head indefiniteHead breakCode Tags Values)
open Fuel (Returns)

/-- Where a skip finds a value that it gives up on. -/
theorem skipMembers_refused {st entered middle : ZcborState} {count : Nat}
    (steps : SkipSteps count entered middle 0) (inside : zcborArrayAtEnd middle = false)
    (refused : Returns zcborAnySkip middle .failed) :
    ∃ n, skipMembers (zcborAnySkip n) n st entered = some .failed := by
  obtain ⟨n, ran⟩ := refused
  have exit : Returns (Fuel.iterate skipMembersBody) (middle, 0) none :=
    Fuel.iterate_done skipMembersBody_monotone ⟨n, by
      simp only [skipMembersBody, skipMemberBody, inside, Bool.false_eq_true, if_false, ran, Option.map_some]⟩
  obtain ⟨n, looped⟩ := steps.loop exit
  exact ⟨n, Option.map_eq_some_iff.mpr ⟨_, looped, rfl⟩⟩

theorem skipEnter_opening {copy : ZcborState} {t : ZcborMajorType} {framing : Framing} {count inner : Nat}
    {rest : List UInt8} (payload : copy.payload = framing.opening t.number count ++ rest)
    (counted : copy.elemCount ≠ 0) {isMap : Bool} (container : t = if isMap then .map else .list)
    (members : Cbor.Members t.number count inner) (fits : framing.Fits count) :
    ∃ entered, skipEnter copy isMap = some entered ∧ entered.payload = rest ∧
      (inner ≤ ZCBOR_LARGE_ELEM_COUNT → Inside framing inner entered) := by
  cases framing with
  | definite w => exact ⟨_, skipEnter_definite payload counted container members fits, rfl, fun _ => ⟨rfl, rfl⟩⟩
  | indefinite => exact ⟨_, skipEnter_indefinite payload counted isMap, rfl, fun few => ⟨rfl, few⟩⟩

theorem Inside.drop {framing : Framing} {a b : Nat} {st : ZcborState} (inside : Inside framing (a + b) st)
    (rest : List UInt8) : Inside framing b { st with payload := rest, elemCount := st.elemCount - a } := by
  cases framing with
  | definite w => exact ⟨inside.1, by rw [inside.2]; exact Nat.add_sub_cancel_left ..⟩
  | indefinite =>
      have counted := inside.2
      exact ⟨inside.1, by simp only; omega⟩

theorem Inside.le {framing : Framing} {count : Nat} {st : ZcborState} (inside : Inside framing count st) :
    count ≤ st.elemCount := by
  cases framing with
  | definite w => exact inside.2.ge
  | indefinite => exact inside.2

/-- A container with a member that cannot be skipped. -/
theorem container_refused {st : ZcborState} {t : ZcborMajorType} {framing : Framing} {count : Nat}
    {tags rest : List UInt8} {items : List Item} (tagged : Tags tags) (counted : st.elemCount ≠ 0)
    (payload : st.payload = tags ++ (framing.opening t.number count ++ (Item.encodeItems items ++ rest)))
    (members : Cbor.Members t.number count items.length) (fits : framing.Fits count)
    (wellFormed : ∀ item ∈ items, item.WellFormed) (stuck : ∃ item ∈ items, ¬ item.Skippable)
    (size : st.payload.length ≤ ZCBOR_LARGE_ELEM_COUNT)
    (each : ∀ item ∈ items, ¬ item.Skippable → ∀ (member : ZcborState) (later : List UInt8),
      member.payload = item.encode ++ later → member.elemCount ≠ 0 →
      member.payload.length ≤ ZCBOR_LARGE_ELEM_COUNT → Returns zcborAnySkip member .failed) :
    Returns zcborAnySkip st .failed := by
  obtain ⟨isMap, container⟩ : ∃ isMap : Bool, t = if isMap then .map else .list := by
    obtain ⟨number, -⟩ | ⟨number, -⟩ := members
    · exact ⟨false, by cases t <;> simp_all [ZcborMajorType.number]⟩
    · exact ⟨true, by cases t <;> simp_all [ZcborMajorType.number]⟩
  have major := majorTypeAt_opening t fits (Item.encodeItems items ++ rest)
  have sizes := congrArg List.length payload
  simp only [List.length_append] at sizes
  have shortest := length_le_encodeItems wellFormed
  obtain ⟨entered, enter, at_members, inside⟩ := skipEnter_opening
    (payload_with st (framing.opening t.number count ++ (Item.encodeItems items ++ rest))) counted
    container members fits
  have inside := inside (by omega)
  obtain ⟨before, item, later, rfl, skippable, other⟩ := Item.unskippable_split stuck
  rw [Item.encodeItems_append, Item.encodeItems, List.append_assoc, List.append_assoc] at at_members
  have values : Values before.length (Item.encodeItems before) := by
    refine Item.values_items fun first member => ?_
    have part := Item.encode_le_items (List.mem_append_left (item :: later) member)
    have small : first.encode.length ≤ Cbor.largeCount := by
      rw [← largeCount_eq]
      omega
    exact Item.values_item (wellFormed first (List.mem_append_left _ member)) (skippable first member) small Tags.nil
  rw [List.length_append, List.length_cons] at inside
  have next := inside.drop (item.encode ++ (Item.encodeItems later ++ rest))
  have formed := wellFormed item (List.mem_append_right _ List.mem_cons_self)
  have steps := skipSteps_values values at_members (by have := inside.le; omega)
  have refused := each item (List.mem_append_right _ List.mem_cons_self) other
    { entered with
      payload := item.encode ++ (Item.encodeItems later ++ rest)
      elemCount := entered.elemCount - before.length } (Item.encodeItems later ++ rest) rfl next.left (by
    rw [Item.encodeItems_append, Item.encodeItems, List.length_append, List.length_append] at sizes
    simp only [List.length_append]
    omega)
  obtain ⟨n, ran⟩ := skipMembers_refused steps
    (Bool.eq_false_iff.mpr (next.not_atEnd formed rfl)) refused
  exact zcborAnySkip_behindTags tagged payload counted major (by cases isMap <;> subst container <;> decide)
    ⟨n, (skipValue_container major container enter).trans ran⟩

private theorem additional_injective {w w' : Width} {n n' : Nat} (fits : n < w.bound) (fits' : n' < w'.bound)
    (same : w.additional n = w'.additional n') : w.length = w'.length := by
  cases w <;> cases w' <;> simp only [Width.additional, Width.bound] at * <;> first | rfl | omega

private theorem length_of_head {major : Nat} {w w' : Width} {n n' : Nat} {rest rest' : List UInt8}
    (same : head major w n ++ rest = head major w' n' ++ rest') (fits : n < w.bound) (fits' : n' < w'.bound) :
    w'.length = w.length := by
  rw [head, head, List.cons_append, List.cons_append, List.cons.injEq] at same
  have first := congrArg UInt8.toNat same.1
  have small := Width.additional_le fits
  have small' := Width.additional_le fits'
  rw [UInt8.toNat_ofNat', UInt8.toNat_ofNat'] at first
  exact (additional_injective fits fits' (by omega)).symm

/-- A tag of eight bytes is not read. -/
theorem skipTagBody_refused {tags : List UInt8} (tagged : Tags tags) {st : ZcborState} {w : Width} {n : Nat}
    {rest : List UInt8} (payload : st.payload = tags ++ (head 6 w n ++ rest)) (left : st.elemCount ≠ 0)
    (fits : n < w.bound) (long : ¬ w.length ≤ 4) : ∃ fuel, Fuel.loop skipTagBody fuel st = some none := by
  induction tagged generalizing st with
  | nil =>
      have payload : st.payload = head 6 w n ++ rest := payload
      have tag : majorTypeAt st.payload = some .tag := payload ▸ majorTypeAt_head .tag fits rest
      have refused : zcborTagDecode st = none := by
        rw [zcborTagDecode, if_pos (by rw [typeCheck, tag, beq_self_eq_true])]
        cases extracted : valueExtractFixed st 4 with
        | none => rfl
        | some read =>
            obtain ⟨m, st'⟩ := read
            obtain ⟨-, -, w', fits', short, payload'⟩ := valueExtractFixed_value extracted tag
            exact absurd (length_of_head (payload.symm.trans payload') fits fits' ▸ short) long
      exact ⟨1, Fuel.loop_done (by rw [skipTagBody, if_pos tag, refused])⟩
  | @cons w' m later fits' short _ ih =>
      rw [List.append_assoc] at payload
      obtain ⟨fuel, looped⟩ := ih (payload_with st (later ++ (head 6 w n ++ rest))) left
      have again : skipTagBody st = some (.next { st with payload := later ++ (head 6 w n ++ rest) }) := by
        have tag : majorTypeAt st.payload = some .tag := payload ▸ majorTypeAt_head .tag fits' _
        rw [skipTagBody, if_pos tag, zcborTagDecode_head payload fits' short left]
        simp [head]
      exact ⟨fuel + 1, (Fuel.loop_next again).trans looped⟩

/-- A string of indefinite length is not skipped. -/
theorem zcborAnySkip_chunked {st : ZcborState} {t : ZcborMajorType} {tags rest : List UInt8} (tagged : Tags tags)
    (payload : st.payload = tags ++ indefiniteHead t.number :: rest) (counted : st.elemCount ≠ 0)
    (text : t = .bstr ∨ t = .tstr) : Returns zcborAnySkip st .failed := by
  have major := majorTypeAt_indefiniteHead t rest
  have extracted : valueExtractFixed { st with payload := indefiniteHead t.number :: rest } 8 = none := by
    rw [valueExtractFixed,
      valueExtract_indefiniteHead (payload_with st (indefiniteHead t.number :: rest)) (number_lt t) counted]
    rfl
  have noMembers : t ≠ .tag ∧ t ≠ .list ∧ t ≠ .map := by rcases text with rfl | rfl <;> decide
  have skipped := zcborAnySkip_plain tagged payload counted major noMembers
  rwa [skipScalar, extracted] at skipped

/-- What cannot be skipped is refused, by induction over the item. -/
theorem zcborAnySkip_refused {item : Item} (wellFormed : item.WellFormed) (stuck : ¬ item.Skippable)
    {tags rest : List UInt8} (tagged : Tags tags) {st : ZcborState}
    (payload : st.payload = tags ++ (item.encode ++ rest)) (counted : st.elemCount ≠ 0)
    (size : st.payload.length ≤ ZCBOR_LARGE_ELEM_COUNT) : Returns zcborAnySkip st .failed := by
  induction item generalizing tags rest st with
  | uint w n => exact absurd (.uint w n) stuck
  | nint w n => exact absurd (.nint w n) stuck
  | bstr w bytes => exact absurd (.bstr w bytes) stuck
  | tstr w bytes => exact absurd (.tstr w bytes) stuck
  | bstrChunks chunks =>
      rw [Item.encode, Cbor.chunked] at payload
      exact zcborAnySkip_chunked (t := .bstr) tagged payload counted (Or.inl rfl)
  | tstrChunks chunks =>
      rw [Item.encode, Cbor.chunked] at payload
      exact zcborAnySkip_chunked (t := .tstr) tagged payload counted (Or.inr rfl)
  | list framing items ih =>
      cases wellFormed with
      | list fits members =>
          have inner : ∃ item ∈ items, ¬ item.Skippable := by
            by_contra none
            push Not at none
            exact stuck (.list none)
          rw [Item.encode] at payload
          simp only [List.append_assoc] at payload
          exact container_refused (t := .list) tagged counted payload (Or.inl ⟨rfl, rfl⟩) fits members inner size
            (fun item member other st later within count small =>
              ih item member (members item member) other Tags.nil within count small)
  | map framing entries ih =>
      cases wellFormed with
      | map fits keys values =>
          have formed : ∀ item ∈ Item.flat entries, item.WellFormed := by
            intro item member
            obtain ⟨entry, inside, rfl | rfl⟩ := Item.mem_flat.mp member
            · exact keys entry inside
            · exact values entry inside
          have inner : ∃ item ∈ Item.flat entries, ¬ item.Skippable := by
            by_contra none
            push Not at none
            exact stuck (.map (fun entry member => none _ (Item.mem_flat.mpr ⟨entry, member, Or.inl rfl⟩))
              (fun entry member => none _ (Item.mem_flat.mpr ⟨entry, member, Or.inr rfl⟩)))
          have few : entries.length ≤ (2 ^ 64 - 1) / 2 := by
            have shortest := length_le_encodeEntries keys values
            have sizes := congrArg List.length payload
            simp only [Item.encode, List.length_append] at sizes
            have limit : ZCBOR_LARGE_ELEM_COUNT = 2 ^ 64 - 1 - 15 := rfl
            omega
          rw [Item.encode, ← Item.encodeItems_flat] at payload
          simp only [List.append_assoc] at payload
          refine container_refused (t := .map) tagged counted payload
            (Or.inr ⟨rfl, Item.length_flat entries, few⟩) fits formed inner size ?_
          intro item member other st later within count small
          obtain ⟨entry, inside, rfl | rfl⟩ := Item.mem_flat.mp member
          · exact (ih entry inside).1 (keys entry inside) other Tags.nil within count small
          · exact (ih entry inside).2 (values entry inside) other Tags.nil within count small
  | tag w n item ih =>
      cases wellFormed with
      | tag fits inner =>
          rw [Item.encode, List.append_assoc] at payload
          by_cases short : w.length ≤ 4
          · have other : ¬ item.Skippable := fun skippable => stuck (.tag short skippable)
            rw [← List.append_assoc] at payload
            refine ih inner other (tagged.append ?_) payload counted size
            exact List.append_nil (head 6 w n) ▸ Tags.cons fits short Tags.nil
          · obtain ⟨fuel, looped⟩ := skipTagBody_refused tagged payload counted fits short
            have nonempty : st.payload ≠ [] := by
              rw [payload]
              simp [head]
            exact ⟨fuel + 1, by rw [zcborAnySkip, if_neg nonempty, looped]⟩
  | primitive w n => exact absurd (.primitive w n) stuck

end Coreconf
