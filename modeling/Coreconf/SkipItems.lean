import Coreconf.PatchRun
import Coreconf.StreamSlices

set_option autoImplicit false

/- The items that zcbor_any_skip passes over: all but strings in chunks and tags of eight
bytes, at any depth. -/
namespace Cbor.Item

inductive Skippable : Item → Prop
  | uint (w n) : Skippable (.uint w n)
  | nint (w n) : Skippable (.nint w n)
  | bstr (w bytes) : Skippable (.bstr w bytes)
  | tstr (w bytes) : Skippable (.tstr w bytes)
  | list {framing items} (members : ∀ item ∈ items, Skippable item) : Skippable (.list framing items)
  | map {framing entries} (keys : ∀ entry ∈ entries, Skippable entry.1)
      (values : ∀ entry ∈ entries, Skippable entry.2) : Skippable (.map framing entries)
  | tag {w n item} (short : w.length ≤ 4) (inner : Skippable item) : Skippable (.tag w n item)
  | primitive (w n) : Skippable (.primitive w n)

theorem encode_le_items {item : Item} {items : List Item} (member : item ∈ items) :
    item.encode.length ≤ (encodeItems items).length := by
  obtain ⟨before, later, rfl⟩ := List.append_of_mem member
  rw [encodeItems_append, encodeItems, List.length_append, List.length_append]
  omega

theorem encode_le_entries {entry : Item × Item} {entries : List (Item × Item)} (member : entry ∈ entries) :
    entry.1.encode.length + entry.2.encode.length ≤ (encodeEntries entries).length := by
  obtain ⟨before, later, rfl⟩ := List.append_of_mem member
  rw [encodeEntries_append, encodeEntries, List.length_append, List.length_append, List.length_append]
  omega

theorem values_items {items : List Item} (each : ∀ item ∈ items, Values 1 item.encode) :
    Values items.length (encodeItems items) := by
  induction items with
  | nil => exact Values.nil
  | cons item rest ih =>
      obtain ⟨first, others⟩ := List.forall_mem_cons.mp each
      rw [List.length_cons, Nat.add_comm]
      exact Values.append first (ih others)

theorem values_entries {entries : List (Item × Item)} (keys : ∀ entry ∈ entries, Values 1 entry.1.encode)
    (values : ∀ entry ∈ entries, Values 1 entry.2.encode) :
    Values (2 * entries.length) (encodeEntries entries) := by
  induction entries with
  | nil => exact Values.nil
  | cons entry rest ih =>
      obtain ⟨firstKey, otherKeys⟩ := List.forall_mem_cons.mp keys
      obtain ⟨first, others⟩ := List.forall_mem_cons.mp values
      have two : 2 * (entry :: rest).length = 1 + 1 + 2 * rest.length := by
        rw [List.length_cons]
        omega
      rw [two]
      exact Values.append (Values.append firstKey first) (ih otherKeys others)

/-- The bytes between the head of a container and its end, with their number. -/
theorem values_container {major count inner : Nat} {framing : Framing} {body tags : List UInt8}
    (tagged : Tags tags) (fits : framing.Fits count) (inside : Values inner body)
    (members : Members major count inner) (few : body.length ≤ largeCount) :
    Values 1 (tags ++ (framing.opening major count ++ body ++ framing.closing)) := by
  cases framing with
  | definite w =>
      rw [Framing.closing, List.append_nil]
      exact Values.definite tagged members fits inside
  | indefinite =>
      have container : major = 4 ∨ major = 5 := members.imp And.left And.left
      exact Values.indefinite tagged container (inside.count_le.trans few) inside

/-- By induction over the item, with the tags in front of it. -/
theorem values_item {item : Item} (wellFormed : item.WellFormed) (skippable : item.Skippable)
    (size : item.encode.length ≤ largeCount) {tags : List UInt8} (tagged : Tags tags) :
    Values 1 (tags ++ item.encode) := by
  induction item generalizing tags with
  | uint w n =>
      cases wellFormed with
      | uint fits => exact Values.scalar tagged (Or.inl rfl) fits
  | nint w n =>
      cases wellFormed with
      | nint fits => exact Values.scalar tagged (Or.inr (Or.inl rfl)) fits
  | bstr w bytes =>
      cases wellFormed with
      | bstr fits => exact Values.string tagged (Or.inl rfl) fits
  | tstr w bytes =>
      cases wellFormed with
      | tstr fits => exact Values.string tagged (Or.inr rfl) fits
  | bstrChunks chunks => cases skippable
  | tstrChunks chunks => cases skippable
  | list framing items ih =>
      cases wellFormed with
      | list fits members =>
          cases skippable with
          | list skippables =>
              simp only [encode, List.length_append] at size
              refine values_container tagged fits (values_items ?_) (Or.inl ⟨rfl, rfl⟩) (by omega)
              intro item member
              have part := encode_le_items member
              exact ih item member (members item member) (skippables item member) (by omega) Tags.nil
  | map framing entries ih =>
      cases wellFormed with
      | map fits keys values =>
          cases skippable with
          | map skippableKeys skippableValues =>
              simp only [encode, List.length_append] at size
              have inside : Values (2 * entries.length) (encodeEntries entries) := by
                refine values_entries (fun entry member => ?_) (fun entry member => ?_)
                · have part := encode_le_entries member
                  exact (ih entry member).1 (keys entry member) (skippableKeys entry member) (by omega) Tags.nil
                · have part := encode_le_entries member
                  exact (ih entry member).2 (values entry member) (skippableValues entry member) (by omega) Tags.nil
              have few := inside.count_le
              refine values_container tagged fits inside (Or.inr ⟨rfl, rfl, ?_⟩) (by omega)
              rw [largeCount] at size
              omega
  | tag w n item ih =>
      cases wellFormed with
      | tag fits inner =>
          cases skippable with
          | tag short skippable =>
              rw [encode, List.length_append] at size
              rw [encode, ← List.append_assoc]
              refine ih inner skippable (by omega) (tagged.append ?_)
              exact List.append_nil (head 6 w n) ▸ Tags.cons fits short Tags.nil
  | primitive w n =>
      cases wellFormed with
      | primitive fits simple => exact Values.scalar tagged (Or.inr (Or.inr rfl)) fits

/-- A well-formed map of such items is cut out of a sequence. -/
theorem sequenceMap_item {framing : Framing} {entries : List (Item × Item)}
    (wellFormed : WellFormed (.map framing entries)) (keys : ∀ entry ∈ entries, Skippable entry.1)
    (values : ∀ entry ∈ entries, Skippable entry.2) (size : (map framing entries).encode.length < 2 ^ 63) :
    SequenceMap (map framing entries).encode := by
  cases wellFormed with
  | map fits formedKeys formedValues =>
      simp only [encode, List.length_append] at size ⊢
      have inside : Values (2 * entries.length) (encodeEntries entries) := by
        refine values_entries (fun entry member => ?_) (fun entry member => ?_)
        · have part := encode_le_entries member
          exact values_item (formedKeys entry member) (keys entry member) (by rw [largeCount]; omega) Tags.nil
        · have part := encode_le_entries member
          exact values_item (formedValues entry member) (values entry member) (by rw [largeCount]; omega) Tags.nil
      have few := inside.count_le
      cases framing with
      | definite w =>
          rw [Framing.closing, List.append_nil]
          exact SequenceMap.definite fits (by omega) inside
      | indefinite => exact SequenceMap.indefinite (by rw [largeCount]; omega) inside

/-- What the decoder reads, the skip passes over. -/
theorem skippable_of_value {item : Item} {value : Coreconf.CoreconfValueT} (read : item.value? = some value) :
    item.Skippable := by
  induction item generalizing value with
  | uint w n => exact .uint w n
  | nint w n => exact .nint w n
  | bstr w bytes => exact .bstr w bytes
  | tstr w bytes => exact .tstr w bytes
  | bstrChunks chunks => cases read
  | tstrChunks chunks => cases read
  | list framing items ih =>
      obtain ⟨values, read, -⟩ := Option.map_eq_some_iff.mp read
      refine .list fun item member => ?_
      obtain ⟨value, found⟩ := mem_values? read member
      exact ih item member found
  | map framing entries ih =>
      rw [value?] at read
      split_ifs at read
      obtain ⟨members, read, -⟩ := Option.map_eq_some_iff.mp read
      refine .map (fun entry member => ?_) (fun entry member => ?_)
      · obtain ⟨sid, value, keyed, -, -⟩ := mem_members? read member
        obtain ⟨w, n, same⟩ : ∃ w n, entry.1 = .uint w n := by
          cases key : entry.1 <;> simp_all [sid?]
        rw [same]
        exact .uint w n
      · obtain ⟨sid, value, -, found, -⟩ := mem_members? read member
        exact (ih entry member).2 found
  | tag w n item ih => cases read
  | primitive w n => exact .primitive w n

/-- So are the keys of a patch that the patch loop reads. -/
theorem skippable_of_patchKey {key : Item} {read : Coreconf.PatchKey} (keyed : key.patchKey? = some read) :
    key.Skippable := by
  rw [patchKey?.eq_def] at keyed
  split at keyed
  · exact .uint _ _
  · refine .list fun item member => ?_
    rcases List.mem_pair.mp member with rfl | rfl
    · exact .uint _ _
    · exact .tstr _ _
  · cases keyed

end Cbor.Item

namespace Coreconf

open Cbor (Item Tags)
open Fuel (Returns)

theorem SkipSteps.single {st st' : ZcborState} {past : Nat} (steps : SkipSteps 1 st st' past) :
    Returns zcborAnySkip st (.skipped st' past) := by
  cases steps.chain with
  | head skipped later =>
      cases later with
      | refl => exact skipped

/-- An item that can be skipped is passed over, whatever is behind it. -/
theorem zcborAnySkip_item {item : Item} (wellFormed : item.WellFormed) (skippable : item.Skippable)
    {st : ZcborState} {rest : List UInt8} (payload : st.payload = item.encode ++ rest) (left : st.elemCount ≠ 0)
    (size : st.payload.length ≤ ZCBOR_LARGE_ELEM_COUNT) :
    Returns zcborAnySkip st (.skipped (st.after rest) 0) := by
  have small : item.encode.length ≤ Cbor.largeCount := by
    have sizes := congrArg List.length payload
    rw [List.length_append] at sizes
    rw [← largeCount_eq]
    omega
  exact (skipSteps_values (Item.values_item wellFormed skippable small Tags.nil) payload
    (Nat.one_le_iff_ne_zero.mpr left)).single

end Coreconf
