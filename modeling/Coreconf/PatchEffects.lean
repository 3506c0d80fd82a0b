import Coreconf.Codec
import Coreconf.PatchRun

set_option autoImplicit false

/- iPATCH: what a payload with an error in it does, and what a payload leaves alone. -/
namespace Cbor.Item

/-- The SID of a key, or the SID inside an array key. -/
def keySid? : Item → Option UInt64
  | uint _ n => some (UInt64.ofNat n)
  | list _ (uint _ n :: _) => some (UInt64.ofNat n)
  | _ => none

end Cbor.Item

namespace Coreconf

open Cbor (Item Framing)
open CoreconfValueT (Valid)
open Fuel (Returns)

variable {target : CoreconfHashMapT CoreconfValueT}

/-- A complete sequence of well-formed maps of which every key and value is supported. -/
def Supported (data : List UInt8) : Prop :=
  ∃ pairs, PatchPayload data pairs ∧
    ∀ entry ∈ pairs, entry.1.patchKey?.isSome ∧ entry.2.Readable

/-- An error is -1 and changes nothing; any other result is that of all the entries. -/
def ErrorAtomic (target : CoreconfHashMapT CoreconfValueT) (data : List UInt8) : Prop :=
  (¬ Supported data → Returns applyPayload (.hashmap target, data) (-1, .hashmap target)) ∧
    ∀ n datastore, Returns applyPayload (.hashmap target, data) (n, datastore) → 0 ≤ n →
      ∃ pairs entries, PatchPayload data pairs ∧ pairs.map readPair? = entries.map some ∧
        n = (applyEntries target 0 entries).2 ∧ datastore = .hashmap (applyEntries target 0 entries).1

theorem patchEntryStep_count {loop next : PatchLoop} {key : PatchKey} {st : ZcborState}
    {value : Option CoreconfValueT} (again : patchEntryStep loop key st value = .next next) :
    loop.count ≤ next.count := by
  cases value with
  | none => cases again
  | some val =>
      cases again
      dsimp only
      split
      · omega
      · exact le_refl _

private theorem patchEntries_count {loop left : PatchLoop}
    (looped : Returns (Fuel.iterate patchEntries) loop left) : loop.count ≤ left.count := by
  obtain ⟨fuel, ran⟩ := looped
  have keep : ∀ now next : PatchLoop, loop.count ≤ now.count →
      patchEntries fuel now = some (.next next) → loop.count ≤ next.count := by
    intro now next le again
    have next := patchEntries_returns_iff.mp ⟨fuel, again⟩
    split at next
    · cases next
    · split at next
      · cases next
      · obtain ⟨value, st', -, same⟩ := next
        exact le.trans (patchEntryStep_count same.symm)
  have exit : ∀ now left : PatchLoop, loop.count ≤ now.count →
      patchEntries fuel now = some (.done left) → loop.count ≤ left.count := by
    intro now left le done
    have done := patchEntries_returns_iff.mp ⟨fuel, done⟩
    split at done
    · cases done
      exact le
    · split at done
      · cases done
        exact le
      · obtain ⟨value, st', -, same⟩ := done
        cases value with
        | none =>
            cases same
            exact le
        | some val => cases same
  exact Fuel.loop_invariant keep exit (le_refl _) ran

/-- The count of a payload that is not empty is never negative. -/
theorem applyPayload_count {data : List UInt8} (nonempty : data ≠ []) {n : Int}
    {datastore : CoreconfValueT}
    (returned : Returns applyPayload (.hashmap target, data) (n, datastore)) : 0 ≤ n := by
  obtain ⟨left, ⟨fuel, ran⟩, same⟩ := (applyPayload_returns_iff nonempty).mp returned
  cases same
  have keep : ∀ maps next : PatchMaps, 0 ≤ maps.count →
      patchMaps fuel maps = some (.next next) → 0 ≤ next.count := by
    intro maps next le again
    have next := patchMaps_returns_iff.mp ⟨fuel, again⟩
    split at next
    · cases next
    · split at next
      · cases next
      · obtain ⟨left, looped, same⟩ := next
        cases same
        exact le.trans (patchEntries_count looped)
  have exit : ∀ (maps : PatchMaps) (left : Int × CoreconfHashMapT CoreconfValueT), 0 ≤ maps.count →
      patchMaps fuel maps = some (.done left) → 0 ≤ left.1 := by
    intro maps left le done
    have done := patchMaps_returns_iff.mp ⟨fuel, done⟩
    split at done
    · cases done
      exact le
    · split at done
      · cases done
        exact le
      · obtain ⟨left, looped, same⟩ := done
        cases same
  exact Fuel.loop_invariant keep exit (le_refl _) ran

theorem readEntries_all {pairs : List (Item × Item)}
    (every : ∀ entry ∈ pairs, (readPair? entry).isSome) :
    pairs.map readPair? = (readEntries pairs).map some := by
  induction pairs with
  | nil => rfl
  | cons entry rest ih =>
      obtain ⟨first, others⟩ := List.forall_mem_cons.mp every
      obtain ⟨read, found⟩ := Option.isSome_iff_exists.mp first
      simp only [readEntries, found, List.map_cons, ih others]

theorem containersRead_of_readable {pairs : List (Item × Item)}
    (readable : ∀ entry ∈ pairs, entry.2.isContainer → entry.2.Readable) : ContainersRead pairs := by
  induction pairs with
  | nil => trivial
  | cons entry rest ih =>
      obtain ⟨first, others⟩ := List.forall_mem_cons.mp readable
      exact ⟨fun _ => first, fun _ => ih others⟩

/-- A payload of one map whose values are all read. -/
theorem applyPayload_map {framing : Framing} {entries : List (Item × Item)}
    (wellFormed : Item.WellFormed (.map framing entries)) (keys : ∀ entry ∈ entries, entry.1.IsPatchKey)
    (readable : ∀ entry ∈ entries, entry.2.Readable) (payload : Payload)
    (encoded : payload.bytes = (Item.map framing entries).encode)
    (target : CoreconfHashMapT CoreconfValueT) :
    Returns applyPayload (.hashmap target, payload.bytes)
      ((applyEntries target 0 (readEntries entries)).2,
        .hashmap (applyEntries target 0 (readEntries entries)).1) := by
  have nonempty : payload.bytes ≠ [] := by
    obtain ⟨byte, rest, head, -⟩ := Item.encode_first wellFormed
    simp [encoded, head]
  exact applyPayload_run (encoded ▸ PatchPayload.one wellFormed keys) nonempty
    (containersRead_of_readable fun entry member _ => readable entry member) payload.object target

theorem Supported.nil : Supported [] := ⟨[], .nil, by simp⟩

/-- Errors are atomic on the payloads that have none, and on no other: whatever stands
first in a payload, the result is a count. -/
theorem error_atomic_iff (payload : Payload) (target : CoreconfHashMapT CoreconfValueT) :
    ErrorAtomic target payload.bytes ↔ Supported payload.bytes := by
  constructor
  · rintro ⟨refused, -⟩
    by_contra unsupported
    have nonempty : payload.bytes ≠ [] := fun same => unsupported (same ▸ .nil)
    have positive := applyPayload_count nonempty (refused unsupported)
    omega
  · rintro ⟨pairs, sequence, supported⟩
    refine ⟨fun unsupported => absurd ⟨pairs, sequence, supported⟩ unsupported, ?_⟩
    intro n datastore returned positive
    have nonempty : payload.bytes ≠ [] := by
      intro same
      rw [same] at returned
      obtain ⟨fuel, ran⟩ := returned
      cases ran
      omega
    have every : ∀ entry ∈ pairs, (readPair? entry).isSome := by
      intro entry member
      obtain ⟨key, keyed⟩ := Option.isSome_iff_exists.mp (supported entry member).1
      obtain ⟨value, read⟩ := Option.isSome_iff_exists.mp (supported entry member).2.1
      simp [readPair?, keyed, read]
    have containers := containersRead_of_readable fun entry member _ => (supported entry member).2
    have expected := applyPayload_run sequence nonempty containers payload.object target
    have same := Returns.unique applyPayload_monotone returned expected
    cases same
    exact ⟨pairs, readEntries pairs, sequence, readEntries_all every, rfl, rfl⟩

/-- A map without its stop code: the entry before the error is applied and counted. -/
theorem unclosed_patch_applied :
    ¬ ErrorAtomic (insertCoreconfHashMap createCoreconfHashmap 5 (some .true)).2
      [0xBF, 0x05, 0xF4, 0x60] := by
  rintro ⟨refused, -⟩
  have unsupported : ¬ Supported [0xBF, 0x05, 0xF4, 0x60] := by
    rintro ⟨pairs, sequence, -⟩
    generalize same : ([0xBF, 0x05, 0xF4, 0x60] : List UInt8) = data at sequence
    cases sequence with
    | nil => cases same
    | @map framing entries later pairs wellFormed keys rest =>
        have closed := breakCode_mem_encode wellFormed same.symm
        have inside : Cbor.breakCode ∈ ([0xBF, 0x05, 0xF4, 0x60] : List UInt8) :=
          same ▸ List.mem_append_left _ closed
        exact absurd inside (by decide)
  have applied : Returns applyPayload
      (.hashmap (insertCoreconfHashMap createCoreconfHashmap 5 (some .true)).2, [0xBF, 0x05, 0xF4, 0x60])
      (1, .hashmap (insertCoreconfHashMap createCoreconfHashmap 5 (some .false)).2) := ⟨4, rfl⟩
  cases Returns.unique applyPayload_monotone (refused unsupported) applied

theorem keySid?_patchKey {key : Item} {read : PatchKey} (keyed : key.patchKey? = some read) :
    key.keySid? = some read.keySid := by
  unfold Item.patchKey? at keyed
  split at keyed <;> cases keyed <;> rfl

theorem mem_readEntries {pairs : List (Item × Item)} {read : PatchKey × CoreconfValueT}
    (member : read ∈ readEntries pairs) : ∃ entry ∈ pairs, readPair? entry = some read := by
  induction pairs with
  | nil => cases member
  | cons entry rest ih =>
      rw [readEntries] at member
      split at member
      · rename_i found
        rcases List.mem_cons.mp member with rfl | member
        · exact ⟨entry, List.mem_cons_self, found⟩
        · obtain ⟨other, inside, same⟩ := ih member
          exact ⟨other, List.mem_cons_of_mem _ inside, same⟩
      · cases member

theorem readPair?_eq_some {entry : Item × Item} {read : PatchKey × CoreconfValueT} :
    readPair? entry = some read ↔ entry.1.patchKey? = some read.1 ∧ entry.2.value? = some read.2 := by
  obtain ⟨key, val⟩ := read
  unfold readPair?
  split
  · rename_i keyed found
    rw [keyed, found]
    simp
  · rename_i refused
    simp only [reduceCtorEq, false_iff]
    rintro ⟨keyed, found⟩
    exact refused _ _ keyed found

theorem readEntries_valid (pairs : List (Item × Item)) :
    ∀ entry ∈ readEntries pairs, entry.2.Valid := by
  intro read member
  obtain ⟨entry, -, found⟩ := mem_readEntries member
  exact Item.value?_valid (readPair?_eq_some.mp found).2

/-- Where the decoder comes to the end of every container it is given, only the SIDs of
the keys of the top-level maps change. -/
theorem patch_frame (payload : Payload) (valid : Valid (.hashmap target)) {pairs : List (Item × Item)}
    (sequence : PatchPayload payload.bytes pairs) (containers : ContainersRead pairs) :
    ∃ n target', Returns applyPayload (.hashmap target, payload.bytes) (n, .hashmap target') ∧
      ∀ sid, (∀ pair ∈ pairs, pair.1.keySid? ≠ some sid) →
        getCoreconfHashMap target' sid = getCoreconfHashMap target sid := by
  by_cases empty : payload.bytes = []
  · rw [empty]
    exact ⟨-1, target, ⟨0, rfl⟩, fun _ _ => rfl⟩
  · refine ⟨_, _, applyPayload_run sequence empty containers payload.object target, ?_⟩
    intro sid elsewhere
    refine applyEntries_other valid 0 (readEntries_valid pairs) fun read member same => ?_
    obtain ⟨entry, inside, found⟩ := mem_readEntries member
    have keyed := keySid?_patchKey (readPair?_eq_some.mp found).1
    exact elsewhere entry inside (same ▸ keyed)

/-- Maps nested this deep around a map that binds SID 9. -/
def nestedMaps : Nat → Item
  | 0 => .map (.definite .immediate) [(.uint .immediate 9, .primitive .immediate 21)]
  | n + 1 => .map (.definite .immediate) [(.uint .immediate 1, nestedMaps n)]

theorem nestedMaps_wellFormed (n : Nat) : (nestedMaps n).WellFormed := by
  induction n with
  | zero =>
      refine .map (by decide) ?_ ?_
      · rintro entry (_ | ⟨_, ⟨⟩⟩)
        exact .uint (by decide)
      · rintro entry (_ | ⟨_, ⟨⟩⟩)
        exact .primitive (by decide) (by decide)
  | succ n ih =>
      refine .map (by simp [Cbor.Framing.Fits, Cbor.Width.bound]) ?_ ?_
      · rintro entry (_ | ⟨_, ⟨⟩⟩)
        exact .uint (by decide)
      · rintro entry (_ | ⟨_, ⟨⟩⟩)
        exact ih

theorem patch_frame_instance :
    ∃ n target', Returns applyPayload (.hashmap (insertCoreconfHashMap createCoreconfHashmap 5
        (some .true)).2, [0xA1, 0x82, 0x07, 0x61, 0x61] ++ (nestedMaps 1).encode) (n, .hashmap target') ∧
      ∀ sid, (∀ pair ∈ [(Item.list (.definite .immediate) [.uint .immediate 7, .tstr .immediate [0x61]],
          nestedMaps 1)], pair.1.keySid? ≠ some sid) →
        getCoreconfHashMap target' sid = getCoreconfHashMap (insertCoreconfHashMap createCoreconfHashmap 5
          (some .true)).2 sid := by
  refine patch_frame ⟨[0xA1, 0x82, 0x07, 0x61, 0x61] ++ (nestedMaps 1).encode, by decide⟩
    (CoreconfValueT.valid_createCoreconfHashmap.insert (.leaf rfl) 5) ?_ ?_
  · refine show PatchPayload (Item.map (.definite .immediate) [(.list (.definite .immediate)
      [.uint .immediate 7, .tstr .immediate [0x61]], nestedMaps 1)]).encode _ from .one ?_ ?_
    · refine .map (by decide) ?_ ?_
      · rintro entry (_ | ⟨_, ⟨⟩⟩)
        refine .list (by decide) ?_
        rintro item (_ | ⟨_, _ | ⟨_, ⟨⟩⟩⟩)
        · exact .uint (by decide)
        · exact .tstr (by decide)
      · rintro entry (_ | ⟨_, ⟨⟩⟩)
        exact nestedMaps_wellFormed 1
    · rintro entry (_ | ⟨_, ⟨⟩⟩)
      exact .listInstance _ _ _ _ _
  · exact ⟨fun _ _ => by decide, fun _ => trivial⟩

/-- The seventh nested map finds no backup, and its only key becomes a top-level SID. -/
theorem nested_key_leaks :
    ∃ pairs n target', PatchPayload ([0xA1, 0x01] ++ (nestedMaps 5).encode) pairs ∧
      Returns applyPayload (.hashmap createCoreconfHashmap, [0xA1, 0x01] ++ (nestedMaps 5).encode)
        (n, .hashmap target') ∧
      (∀ pair ∈ pairs, pair.1.keySid? ≠ some 9) ∧
      getCoreconfHashMap target' 9 ≠ getCoreconfHashMap createCoreconfHashmap 9 := by
  have sequence : PatchPayload ([0xA1, 0x01] ++ (nestedMaps 5).encode) [(.uint .immediate 1, nestedMaps 5)] := by
    refine show PatchPayload (nestedMaps 6).encode _ from .one ?_ ?_
    · exact nestedMaps_wellFormed 6
    · rintro entry (_ | ⟨_, ⟨⟩⟩)
      exact .sid _ _
  refine ⟨_, 2, _, sequence, ⟨12, rfl⟩, ?_, ?_⟩
  · rintro pair (_ | ⟨_, ⟨⟩⟩)
    decide
  · exact fun same => by cases same

end Coreconf
