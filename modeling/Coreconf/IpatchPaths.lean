import Coreconf.ItemContents
import Coreconf.Overrides
import Coreconf.PatchEffects
import Coreconf.ServerInvariant

set_option autoImplicit false

/- The two ways to apply one map of SIDs: apply_ipatch_raw entry by entry as it is read,
and apply_ipatch in the order of the parsed map's table. -/
namespace Coreconf

open Cbor (Item Framing)
open CoreconfValueT (Valid valid_createCoreconfHashmap)
open Fuel (Returns)

/-- An entry as both ways apply it where no map comes in the place of a list. -/
def bindOrDelete (target : CoreconfHashMapT CoreconfValueT) (entry : UInt64 × CoreconfValueT) :
    CoreconfHashMapT CoreconfValueT :=
  if isNull entry.2 then (deleteFromCoreconfHashMap target entry.1).2
  else (insertCoreconfHashMap target entry.1 (some entry.2)).2

def RefusesEntry (target : CoreconfHashMapT CoreconfValueT) (entry : UInt64 × CoreconfValueT) : Prop :=
  isNull entry.2 = false ∧ (insertCoreconfHashMap target entry.1 (some entry.2)).1 ≠ 0

instance (target : CoreconfHashMapT CoreconfValueT) (entry : UInt64 × CoreconfValueT) :
    Decidable (RefusesEntry target entry) := inferInstanceAs (Decidable (_ ∧ _))

/-- The SIDs whose insertion is refused when the entries are applied in turn. -/
def refusedSids (target : CoreconfHashMapT CoreconfValueT) : List (UInt64 × CoreconfValueT) → List UInt64
  | [] => []
  | entry :: rest =>
      let later := refusedSids (bindOrDelete target entry) rest
      if RefusesEntry target entry then entry.1 :: later else later

/-- The objects of a map as entries, in the order of its table. -/
def CoreconfHashMapT.entries (map : CoreconfHashMapT CoreconfValueT) : List (UInt64 × CoreconfValueT) :=
  map.objects.filterMap fun object => object.value.map fun value => (object.key, value)

variable {target : CoreconfHashMapT CoreconfValueT}

/-- This is the overriding of the entries of any values, with null for what is dropped. -/
theorem bindOrDelete_eq : bindOrDelete = bindOrDrop isNull := rfl

theorem refusedSids_eq (target : CoreconfHashMapT CoreconfValueT) (entries : List (UInt64 × CoreconfValueT)) :
    refusedSids target entries = refusals isNull target entries := by
  induction entries generalizing target with
  | nil => rfl
  | cons entry rest ih =>
      rw [refusedSids, refusals, ih]
      rfl

theorem bindOrDelete_other (inv : target.RepInv) {entry : UInt64 × CoreconfValueT} {sid : UInt64}
    (other : sid ≠ entry.1) :
    getCoreconfHashMap (bindOrDelete target entry) sid = getCoreconfHashMap target sid :=
  bindOrDrop_other inv other

/-- Entries with the same distinct SIDs, in two orders in which the same are refused. -/
theorem bindAll_same {entries entries' : List (UInt64 × CoreconfValueT)} (inv : target.RepInv)
    (distinct : (entries.map Prod.fst).Nodup) (distinct' : (entries'.map Prod.fst).Nodup)
    (same : ∀ entry, entry ∈ entries' ↔ entry ∈ entries)
    (refused : ∀ sid, sid ∈ refusedSids target entries' ↔ sid ∈ refusedSids target entries)
    (sid : UInt64) :
    getCoreconfHashMap (entries'.foldl bindOrDelete target) sid =
      getCoreconfHashMap (entries.foldl bindOrDelete target) sid := by
  simp only [refusedSids_eq] at refused
  rw [bindOrDelete_eq]
  by_cases bound : ∃ value, (sid, value) ∈ entries
  · obtain ⟨value, member⟩ := bound
    rw [overrideAll_entry inv distinct member, overrideAll_entry inv distinct' ((same _).mpr member)]
    simp only [refused]
  · have others : ∀ entry ∈ entries, sid ≠ entry.1 := fun entry member found =>
      bound ⟨entry.2, found ▸ member⟩
    rw [overrideAll_other inv others, overrideAll_other inv fun entry member => others entry ((same _).mp member)]

/-- A map for the SID of a list, which only one of the two ways makes a list of. -/
def WrapsEntry (target : CoreconfHashMapT CoreconfValueT) (entry : UInt64 × CoreconfValueT) : Prop :=
  ∃ map elements, entry.2 = .hashmap map ∧ getCoreconfHashMap target entry.1 = some (.array elements)

theorem applySidEntry_bindOrDelete {entry : UInt64 × CoreconfValueT} (plain : ¬ WrapsEntry target entry) :
    applySidEntry target entry.1 entry.2 = bindOrDelete target entry := by
  obtain ⟨sid, value⟩ := entry
  unfold applySidEntry bindOrDelete
  split
  · rfl
  · split
    · rename_i elements map found same
      exact absurd ⟨map, elements, same, found⟩ plain
    · rfl

/-- The entries of one map, applied as they are read. -/
theorem applyEntries_sids {entries : List (UInt64 × CoreconfValueT)} (inv : target.RepInv)
    (distinct : (entries.map Prod.fst).Nodup) (plain : ∀ entry ∈ entries, ¬ WrapsEntry target entry)
    (count : Int) :
    (applyEntries target count (entries.map fun entry => (.sid entry.1, entry.2))).1 =
      entries.foldl bindOrDelete target := by
  induction entries generalizing target count with
  | nil => rfl
  | cons entry rest ih =>
      obtain ⟨first, later⟩ := List.forall_mem_cons.mp plain
      rw [List.map_cons, List.nodup_cons] at distinct
      have unchanged : ∀ other ∈ rest, ¬ WrapsEntry (bindOrDelete target entry) other := by
        rintro other inside ⟨map, elements, value, found⟩
        have apart : other.1 ≠ entry.1 := fun same => distinct.1 (same ▸ List.mem_map_of_mem inside)
        rw [bindOrDelete_other inv apart] at found
        exact later other inside ⟨map, elements, value, found⟩
      rw [List.map_cons, applyEntries, List.foldl_cons, List.foldl_cons, applyCounted, ← applyEntries]
      simp only [applyEntry]
      rw [applySidEntry_bindOrDelete first]
      exact ih (bindOrDrop_repInv inv entry) distinct.2 unchanged _

theorem applyOneSid_target (ctx : ApplyPatchCtx) (key : UInt64) (value : CoreconfValueT) :
    (applyOneSid ctx ⟨key, some value⟩).target = bindOrDelete ctx.target (key, value) := by
  simp only [applyOneSid, bindOrDelete]
  split
  · rfl
  · split <;> rename_i inserted <;> rw [inserted]

/-- apply_ipatch goes through the table of the parsed map. -/
theorem applyIpatch_entries (target patch : CoreconfHashMapT CoreconfValueT) :
    (applyIpatch (.hashmap target) (some (.hashmap patch))).2 =
      .hashmap (patch.entries.foldl bindOrDelete target) := by
  have walk : ∀ (objects : List (CoreconfObjectT CoreconfValueT)) (ctx : ApplyPatchCtx),
      (objects.foldl applyOneSid ctx).target =
        (objects.filterMap fun object => object.value.map fun value => (object.key, value)).foldl
          bindOrDelete ctx.target := by
    intro objects
    induction objects with
    | nil => exact fun ctx => rfl
    | cons object rest ih =>
        intro ctx
        obtain ⟨key, value?⟩ := object
        rw [List.foldl_cons, ih]
        cases value? with
        | none => rfl
        | some value => rw [applyOneSid_target]; rfl
  simp only [applyIpatch, iterateCoreconfHashMap_eq, CoreconfHashMapT.entries]
  rw [walk]

theorem mem_entries {map : CoreconfHashMapT CoreconfValueT} {entry : UInt64 × CoreconfValueT} :
    entry ∈ map.entries ↔ ⟨entry.1, some entry.2⟩ ∈ map.objects := mem_assignments

theorem entries_distinct {map : CoreconfHashMapT CoreconfValueT} (inv : map.RepInv) :
    (map.entries.map Prod.fst).Nodup := assignments_distinct inv

/-- A map of few members with distinct SIDs holds just these. -/
theorem mem_entries_members {members : List (UInt64 × CoreconfValueT)}
    (distinct : (members.map Prod.fst).Nodup) (few : members.length ≤ Item.maxEntries)
    (entry : UInt64 × CoreconfValueT) :
    entry ∈ (insertMembers members createCoreconfHashmap).entries ↔ entry ∈ members := by
  have empty : (createCoreconfHashmap : CoreconfHashMapT CoreconfValueT).size = 0 := rfl
  rw [mem_entries, mem_insertMembers repInv_create distinct (by rw [empty]; omega)]
  constructor
  · rintro (⟨member, inside, same⟩ | ⟨before, -⟩)
    · simp only [CoreconfObjectT.mk.injEq, Option.some.injEq] at same
      exact (show entry = member from Prod.ext same.1 same.2) ▸ inside
    · simp at before
  · intro inside
    exact Or.inl ⟨entry, inside, rfl⟩

theorem readEntries_members {entries : List (Item × Item)} {members : List (UInt64 × CoreconfValueT)}
    (read : Item.members? entries = some members) :
    readEntries entries = members.map fun member => (.sid member.1, member.2) := by
  induction entries generalizing members with
  | nil =>
      cases read
      rfl
  | cons entry rest ih =>
      obtain ⟨key, item⟩ := entry
      rw [Item.members?] at read
      split at read
      · rename_i sid value later keyed found foundLater
        cases read
        have pair : readPair? (key, item) = some (.sid sid, value) := by
          refine readPair?_eq_some.mpr ⟨?_, found⟩
          cases key <;> simp_all [Item.sid?, Item.patchKey?]
        rw [readEntries, pair, ih foundLater]
        rfl
      · cases read

/-- Equal bindings are equal contents. -/
theorem content_of_gets {map map' : CoreconfHashMapT CoreconfValueT} (inv : map.RepInv)
    (inv' : map'.RepInv)
    (same : ∀ sid, getCoreconfHashMap map' sid = getCoreconfHashMap map sid) : map'.content = map.content := by
  refine FinMap.ext (CoreconfHashMapT.content_sorted _) (CoreconfHashMapT.content_sorted _) fun k => ?_
  ext tree
  rw [inv.lookup_content, inv'.lookup_content]
  constructor
  · rintro ⟨key, value, member, rfl, rfl⟩
    exact ⟨key, value, inv.get_eq_some.mp (same key ▸ inv'.get_eq_some.mpr member), rfl, rfl⟩
  · rintro ⟨key, value, member, rfl, rfl⟩
    exact ⟨key, value, inv'.get_eq_some.mp (same key ▸ inv.get_eq_some.mpr member), rfl, rfl⟩

/-- Both ways end, and the datastore holds the same after either. -/
def PathsAgree (target : CoreconfHashMapT CoreconfValueT) (data : List UInt8) : Prop :=
  ∃ n target₁ patch target₂,
    Returns applyPayload (.hashmap target, data) (n, .hashmap target₁) ∧
    Returns parseIpatchRequest data patch ∧
    (applyIpatch (.hashmap target) patch).2 = .hashmap target₂ ∧ target₂.content = target₁.content

/-- A well-formed map of values with distinct unsigned integers as keys, no deeper than
the eight states of a request allow. -/
structure SidPatch (framing : Framing) (entries : List (Item × Item))
    (members : List (UInt64 × CoreconfValueT)) : Prop where
  wellFormed : Item.WellFormed (.map framing entries)
  distinct : (entries.map fun entry => entry.1.sid?).Nodup
  shallow : (Item.map framing entries).depth ≤ 6
  read : Item.members? entries = some members

namespace SidPatch

variable {framing : Framing} {entries : List (Item × Item)} {members : List (UInt64 × CoreconfValueT)}

theorem parses (patch : SidPatch framing entries members) (payload : Payload)
    (encoded : payload.bytes = (Item.map framing entries).encode)
    (few : entries.length ≤ Item.maxEntries) :
    Returns parseIpatchRequest payload.bytes
      (some (.hashmap (insertMembers members createCoreconfHashmap))) := by
  refine parseRequest_item payload patch.wellFormed encoded ?_ patch.shallow
  rw [Item.value?, if_neg (by omega), patch.read]
  rfl

theorem applies (patch : SidPatch framing entries members) (payload : Payload)
    (encoded : payload.bytes = (Item.map framing entries).encode)
    (target : CoreconfHashMapT CoreconfValueT) :
    ∃ n, Returns applyPayload (.hashmap target, payload.bytes)
      (n, .hashmap (applyEntries target 0 (members.map fun member => (.sid member.1, member.2))).1) := by
  have keys : ∀ entry ∈ entries, entry.1.IsPatchKey := fun entry member => by
    obtain ⟨sid, value, keyed, -, -⟩ := Item.mem_members? patch.read member
    obtain ⟨key, item⟩ := entry
    cases key with
    | uint w n => exact .sid w n
    | _ => cases keyed
  have readable : ∀ entry ∈ entries, entry.2.Readable := fun entry member => by
    obtain ⟨sid, value, -, found, -⟩ := Item.mem_members? patch.read member
    have inside := Item.depth_le_depthEntries member
    have shallow := patch.shallow
    rw [Item.depth] at shallow
    exact ⟨by rw [found]; rfl, by omega⟩
  have returned := applyPayload_map patch.wellFormed keys readable payload encoded target
  rw [readEntries_members patch.read] at returned
  exact ⟨_, returned⟩

end SidPatch

/-- A map of at most 51 entries with distinct SIDs does the same in both ways, if none of
its maps comes in the place of a list and full chains refuse the same SIDs in the order
of the payload and in that of the parsed map's table. -/
theorem two_paths_agree (valid : Valid (.hashmap target)) (payload : Payload) {framing : Framing}
    {entries : List (Item × Item)} {members : List (UInt64 × CoreconfValueT)}
    (patch : SidPatch framing entries members)
    (encoded : payload.bytes = (Item.map framing entries).encode)
    (few : entries.length ≤ Item.maxEntries) (plain : ∀ entry ∈ members, ¬ WrapsEntry target entry)
    (refused : ∀ sid, sid ∈ refusedSids target (insertMembers members createCoreconfHashmap).entries ↔
      sid ∈ refusedSids target members) : PathsAgree target payload.bytes := by
  have apart := Item.members?_distinct patch.read patch.distinct
  have inv := valid.repInv
  obtain ⟨n, applied⟩ := patch.applies payload encoded target
  rw [applyEntries_sids inv apart plain 0] at applied
  refine ⟨n, _, _, _, applied, patch.parses payload encoded few, applyIpatch_entries _ _, ?_⟩
  refine content_of_gets (overrideAll_repInv inv) (overrideAll_repInv inv) fun sid => ?_
  refine bindAll_same inv apart (entries_distinct (insertMembers_repInv repInv_create members))
    (mem_entries_members apart ?_) refused sid
  rw [Item.members?_length patch.read]
  exact few

/-- Where there is room for every entry none is refused. -/
theorem refusedSids_room {entries : List (UInt64 × CoreconfValueT)} (inv : target.RepInv)
    (room : target.size + entries.length ≤ Item.maxEntries) : refusedSids target entries = [] := by
  induction entries generalizing target with
  | nil => rfl
  | cons entry rest ih =>
      rw [List.length_cons] at room
      simp only [Item.maxEntries] at room ih
      have short := (inv.chain_length_le entry.1).trans
        (show target.size ≤ CORECONF_MAX_LOOP + 1 from by omega)
      have taken : ¬ RefusesEntry target entry := fun refused =>
        refused.2 (insertCoreconfHashMap_short short)
      have grown : (bindOrDelete target entry).size ≤ target.size + 1 := by
        unfold bindOrDelete
        split
        · have smaller : (deleteFromCoreconfHashMap target entry.1).2.size ≤ target.size := by
            unfold deleteFromCoreconfHashMap
            split
            · exact le_refl _
            · exact Nat.sub_le _ _
          omega
        · exact insertCoreconfHashMap_size_le _ _ _
      rw [refusedSids, if_neg taken]
      exact ih (bindOrDrop_repInv inv entry) (by omega)

/-- A deletion and a new map, {5: null, 6: {1: 2}}. -/
theorem two_paths_agree_deletion :
    PathsAgree (mapOf [(5, .true)]) [0xA2, 0x05, 0xF6, 0x06, 0xA1, 0x01, 0x02] := by
  have valid : Valid (.hashmap (mapOf [(5, .true)])) := mapOf_valid (by simpa using .leaf rfl)
  have inv := valid.repInv
  have patch : SidPatch (.definite .immediate)
      [(.uint .immediate 5, .primitive .immediate 22),
        (.uint .immediate 6, .map (.definite .immediate) [(.uint .immediate 1, .uint .immediate 2)])]
      [(5, .null), (6, .hashmap (insertMembers [(1, .uint64 2)] createCoreconfHashmap))] := by
    refine ⟨.map (by decide) ?_ ?_, by decide, by decide, rfl⟩
    · simp only [List.forall_mem_cons]
      exact ⟨.uint (by decide), .uint (by decide), by simp⟩
    · simp only [List.forall_mem_cons]
      exact ⟨.primitive (by decide) (by decide), .map (by decide) (by simpa using .uint (by decide))
        (by simpa using .uint (by decide)), by simp⟩
  refine two_paths_agree valid ⟨[0xA2, 0x05, 0xF6, 0x06, 0xA1, 0x01, 0x02], by decide⟩ patch rfl (by decide) ?_ ?_
  · rintro entry member ⟨map, elements, -, found⟩
    rcases List.mem_cons.mp member with rfl | member
    · cases found
    · cases List.mem_singleton.mp member
      cases found
  · intro sid
    rw [refusedSids_room inv (by decide), refusedSids_room inv (by decide)]

/-- Whether a SID is bound to a list after either way, both with the same fuel. -/
private def probePaths (fuel : Nat) (target : CoreconfHashMapT CoreconfValueT) (data : List UInt8)
    (sid : UInt64) : Option (Option Bool × Option Bool) :=
  match applyIpatchRaw fuel (.hashmap target) data, parseIpatchRequest fuel data with
  | some (_, .hashmap target₁), some patch =>
      match (applyIpatch (.hashmap target) patch).2 with
      | .hashmap target₂ =>
          some ((getCoreconfHashMap target₁ sid).map fun value => value.toTree.isList,
            (getCoreconfHashMap target₂ sid).map fun value => value.toTree.isList)
      | _ => none
  | _, _ => none

private theorem applyIpatch_repInv (inv : target.RepInv) {patch : Option CoreconfValueT}
    {target₂ : CoreconfHashMapT CoreconfValueT}
    (applied : (applyIpatch (.hashmap target) patch).2 = .hashmap target₂) : target₂.RepInv := by
  rcases patch with _ | patch
  · cases applied
    exact inv
  cases patch with
  | hashmap map =>
      rw [applyIpatch_entries] at applied
      cases applied
      exact overrideAll_repInv inv
  | _ =>
      cases applied
      exact inv

private theorem paths_disagree_of_probe (valid : Valid (.hashmap target)) {data : List UInt8}
    {sid : UInt64} {fuel : Nat} {first second : Option Bool}
    (probed : probePaths fuel target data sid = some (first, second)) (differ : first ≠ second) :
    ¬ PathsAgree target data := by
  rintro ⟨n, target₁, patch, target₂, raw, parsed, applied, same⟩
  unfold probePaths at probed
  split at probed
  · rename_i ran m target₁' patch' ranRaw ranParse
    cases Returns.unique applyPayload_monotone raw ⟨fuel, ranRaw⟩
    cases Returns.unique parseRequest_monotone parsed ⟨fuel, ranParse⟩
    rw [applied] at probed
    obtain ⟨rfl, rfl⟩ := Prod.mk.inj (Option.some.inj probed)
    obtain ⟨target', rfl', valid'⟩ := applyIpatchRaw_valid valid ranRaw
    cases rfl'
    have bound : (getCoreconfHashMap target₂ sid).map CoreconfValueT.toTree =
        (getCoreconfHashMap target₁ sid).map CoreconfValueT.toTree := by
      rw [← (applyIpatch_repInv valid.repInv applied).lookup_content_get sid, same,
        valid'.repInv.lookup_content_get sid]
    have lists := congrArg (Option.map Tree.isList) bound
    simp only [Option.map_map, Function.comp_def] at lists
    exact differ lists.symm
  · cases probed

/-- A patch of the right shape, and yet the two ways leave different contents. -/
def PathsDiffer (target : CoreconfHashMapT CoreconfValueT) (framing : Framing)
    (entries : List (Item × Item)) : Prop :=
  Valid (.hashmap target) ∧ (∃ members, SidPatch framing entries members) ∧
    ¬ PathsAgree target (Item.map framing entries).encode

/-- An empty map for the SID of a list, a map of 52 entries, and a patch that deletes one
SID of a full chain and then inserts another. -/
theorem paths_differ :
    PathsDiffer (mapOf [(5, .array [])]) (.definite .immediate)
        [(.uint .immediate 5, .map (.definite .immediate) [])] ∧
      PathsDiffer createCoreconfHashmap .indefinite
        ((List.range 52).map fun i => (.uint .one (i + 24), .primitive .immediate 21)) ∧
      PathsDiffer (mapOf ((List.range 52).map fun i => (UInt64.ofNat (i * 2 ^ 32 + 1), .true))) .indefinite
        [(.uint .immediate 1, .primitive .immediate 22),
          (.uint .eight (52 * 2 ^ 32 + 1), .primitive .immediate 21)] := by
  refine ⟨⟨mapOf_valid (by simpa using .array (by simp)), ⟨[(5, .hashmap createCoreconfHashmap)], ?_⟩, ?_⟩,
    ⟨valid_createCoreconfHashmap, ⟨(List.range 52).map fun i => (UInt64.ofNat (i + 24), .true), ?_⟩, ?_⟩,
    ⟨mapOf_valid ?_, ⟨[(1, .null), (UInt64.ofNat (52 * 2 ^ 32 + 1), .true)], ?_⟩, ?_⟩⟩
  · refine ⟨.map (by decide) ?_ ?_, by decide, by decide, rfl⟩
    · simpa using .uint (by decide)
    · simpa using .map (by decide) (by simp) (by simp)
  · exact paths_disagree_of_probe (mapOf_valid (by simpa using .array (by simp)))
      (show probePaths 60 _ [0xA1, 0x05, 0xA0] 5 = some (some true, some false) by decide +kernel)
      (by decide)
  · refine ⟨.map trivial ?_ ?_, by decide +kernel, by decide +kernel, rfl⟩
    · intro entry member
      obtain ⟨i, small, rfl⟩ := List.mem_map.mp member
      have := List.mem_range.mp small
      exact .uint (show i + 24 < 256 by omega)
    · intro entry member
      obtain ⟨i, small, rfl⟩ := List.mem_map.mp member
      exact .primitive (by decide) (by decide)
  · exact paths_disagree_of_probe valid_createCoreconfHashmap
      (show probePaths 60 createCoreconfHashmap _ 75 = some (some false, none) by decide +kernel)
      (by decide)
  · intro member inside
    obtain ⟨i, -, rfl⟩ := List.mem_map.mp inside
    exact .leaf rfl
  · refine ⟨.map (by decide) ?_ ?_, by decide, by decide, rfl⟩
    · simp only [List.forall_mem_cons]
      exact ⟨.uint (by decide), .uint (by decide), by simp⟩
    · simp only [List.forall_mem_cons]
      exact ⟨.primitive (by decide) (by decide), .primitive (by decide) (by decide), by simp⟩
  · refine paths_disagree_of_probe (mapOf_valid ?_)
      (show probePaths 60 _ _ (UInt64.ofNat (52 * 2 ^ 32 + 1)) = some (some false, none) by decide +kernel)
      (by decide)
    intro member inside
    obtain ⟨i, -, rfl⟩ := List.mem_map.mp inside
    exact .leaf rfl

end Coreconf
