import Coreconf.PathLookup

set_option autoImplicit false

/- The index of a model has for every SID exactly the maps that it is a member of, each once. -/
namespace Coreconf

open CoreconfValueT

/-- The list that the index has for a SID. -/
def storedParents (clookupHashmap : List CLookupT) (sid : Int64) : Option DynamicLongListT :=
  (hashmapGet clookupCompare clookupHashmap ⟨sid, []⟩).map (·.dynamicLongList)

theorem parentsOf_stored (clookupHashmap : List CLookupT) (sid : UInt64) :
    parentsOf clookupHashmap sid = storedParents clookupHashmap sid.toInt64 := rfl

theorem storedParents_set (clookupHashmap : List CLookupT) (sid other : Int64) (parents : DynamicLongListT) :
    storedParents (hashmapSet clookupCompare clookupHashmap ⟨sid, parents⟩) other =
      if other = sid then some parents else storedParents clookupHashmap other := by
  rw [storedParents, hashmapGet_set CLookupT.childSID clookupCompare_key]
  split <;> rfl

theorem childSIDs_set (clookupHashmap : List CLookupT) (clookup : CLookupT) :
    (hashmapSet clookupCompare clookupHashmap clookup).map (·.childSID) =
      if clookup.childSID ∈ clookupHashmap.map (·.childSID) then clookupHashmap.map (·.childSID)
      else clookupHashmap.map (·.childSID) ++ [clookup.childSID] :=
  keys_set CLookupT.childSID clookupCompare_key clookupHashmap clookup

/-- What is kept of an index: one item for a SID, and in each item a parent at least and none
twice. -/
structure TidyIndex (clookupHashmap : List CLookupT) : Prop where
  distinct : (clookupHashmap.map (·.childSID)).Nodup
  parents : ∀ clookup ∈ clookupHashmap, clookup.dynamicLongList ≠ [] ∧ clookup.dynamicLongList.Nodup

theorem TidyIndex.empty : TidyIndex [] := ⟨List.nodup_nil, fun _ member => by cases member⟩

theorem distinct_set {clookupHashmap : List CLookupT} (distinct : (clookupHashmap.map (·.childSID)).Nodup)
    (clookup : CLookupT) : ((hashmapSet clookupCompare clookupHashmap clookup).map (·.childSID)).Nodup := by
  rw [childSIDs_set]
  split
  · exact distinct
  · rename_i absent
    rw [← List.concat_eq_append]
    exact distinct.concat absent

theorem mem_set {clookupHashmap : List CLookupT} {clookup other : CLookupT}
    (member : other ∈ hashmapSet clookupCompare clookupHashmap clookup) :
    other = clookup ∨ other ∈ clookupHashmap := by
  rw [hashmapSet] at member
  split at member
  · rcases List.mem_append.mp member with old | new
    · exact Or.inr old
    · exact Or.inl (List.mem_singleton.mp new)
  · obtain ⟨found, inside, same⟩ := List.mem_map.mp member
    split at same
    · exact Or.inr (same ▸ inside)
    · exact Or.inl same.symm

theorem addUniqueLong_nodup {parents : DynamicLongListT} (distinct : parents.Nodup) (value : Int64) :
    addUniqueLong parents value ≠ [] ∧ (addUniqueLong parents value).Nodup := by
  rw [addUniqueLong]
  split
  · rename_i member
    exact ⟨List.ne_nil_of_mem member, distinct⟩
  · rename_i new
    refine ⟨by simp [addLong], ?_⟩
    rw [addLong, List.nodup_append]
    refine ⟨distinct, List.nodup_singleton value, ?_⟩
    intro old inside other single
    rw [List.mem_singleton.mp single]
    exact fun same => new (same ▸ inside)

@[simp] theorem mem_addUniqueLong {parents : DynamicLongListT} {value parent : Int64} :
    parent ∈ addUniqueLong parents value ↔ parent ∈ parents ∨ parent = value := by
  rw [addUniqueLong]
  split
  · rename_i member
    constructor
    · exact Or.inl
    · rintro (old | rfl)
      · exact old
      · exact member
  · simp [addLong]

theorem TidyIndex.set {clookupHashmap : List CLookupT} (tidy : TidyIndex clookupHashmap) (sid parent : Int64)
    {parents : DynamicLongListT} (distinct : parents.Nodup) :
    TidyIndex (hashmapSet clookupCompare clookupHashmap ⟨sid, addUniqueLong parents parent⟩) := by
  refine ⟨distinct_set tidy.distinct _, ?_⟩
  intro clookup member
  rcases mem_set member with rfl | old
  · exact addUniqueLong_nodup distinct parent
  · exact tidy.parents clookup old

theorem TidyIndex.record {clookupHashmap : List CLookupT} (tidy : TidyIndex clookupHashmap) (sid parent : Int64) :
    TidyIndex (recordParent clookupHashmap sid parent) := by
  rw [recordParent]
  cases found : hashmapGet clookupCompare clookupHashmap ⟨sid, []⟩ with
  | none => exact tidy.set sid parent List.nodup_nil
  | some clookup => exact tidy.set _ parent (tidy.parents clookup (List.mem_of_find?_eq_some found)).2

theorem TidyIndex.recordAll {clookupHashmap : List CLookupT} (tidy : TidyIndex clookupHashmap)
    (edges : List (UInt64 × UInt64)) : TidyIndex (recordAll clookupHashmap edges) := by
  induction edges generalizing clookupHashmap with
  | nil => exact tidy
  | cons edge edges ih => exact ih (tidy.record edge.2.toInt64 edge.1.toInt64)

/-- What has been recorded of a SID is what was there and the pairs with it. -/
theorem mem_recordAll {clookupHashmap : List CLookupT} {edges : List (UInt64 × UInt64)} {parent sid : UInt64} :
    parent.toInt64 ∈ (parentsOf (recordAll clookupHashmap edges) sid).getD [] ↔
      parent.toInt64 ∈ (parentsOf clookupHashmap sid).getD [] ∨ (parent, sid) ∈ edges := by
  induction edges generalizing clookupHashmap with
  | nil => simp [recordAll]
  | cons edge edges ih =>
      obtain ⟨parent', sid'⟩ := edge
      have later := @ih (recordParent clookupHashmap sid'.toInt64 parent'.toInt64)
      rw [recordAll, List.foldl_cons]
      rw [parentsOf_record] at later
      refine later.trans ?_
      by_cases named : sid = sid'
      · subst named
        simp only [if_true, Option.getD_some, mem_addUniqueLong, toInt64_inj, List.mem_cons, Prod.mk.injEq,
          and_true, or_assoc]
      · rw [if_neg named]
        simp only [List.mem_cons, Prod.mk.injEq, named, and_false, false_or]

theorem edges_iff {root : CoreconfValueT} {levels : Nat} (nests : NestsWithin levels root) {parent child : UInt64} :
    (parent, child) ∈ edges levels 0 root ↔
      ∃ map object, NodeAt root parent (.hashmap map) ∧ object ∈ map.objects ∧ object.key = child - parent := by
  constructor
  · intro edge
    obtain ⟨⟨parent, object⟩, binding, same⟩ := List.mem_map.mp edge
    cases same
    obtain ⟨map, located, member⟩ := bindings_sound levels binding
    refine ⟨map, object, located, member, ?_⟩
    rw [UInt64.add_comm, UInt64.add_sub_cancel]
  · rintro ⟨map, object, located, member, delta⟩
    refine List.mem_map.mpr ⟨(parent, object), bindings_complete nests located member, ?_⟩
    rw [delta, UInt64.add_comm, UInt64.sub_add_cancel]

theorem index_recorded {root : CoreconfValueT} {clookupHashmap : List CLookupT}
    (built : buildCLookupHashmapFromCoreconf root [] 0 0 = some clookupHashmap) :
    clookupHashmap = recordAll [] (edges (MAX_CORECONF_RECURSION_DEPTH + 1) 0 root) :=
  @buildLevels_recorded _ 0 (some root) _ _ built

/-- A parent that is recorded is the first one, or has been recorded itself. -/
theorem edges_parent {levels : Nat} {base : UInt64} {value : CoreconfValueT} {parent child : UInt64}
    (edge : (parent, child) ∈ edges levels base value) :
    parent = base ∨ ∃ above, (above, parent) ∈ edges levels base value := by
  induction levels generalizing base value with
  | zero => cases edge
  | succ levels ih =>
      cases value with
      | hashmap map =>
          rw [edges, bindings, List.map_flatMap] at edge ⊢
          obtain ⟨object, member, recorded⟩ := List.mem_flatMap.mp edge
          rcases List.mem_cons.mp recorded with here | below
          · exact Or.inl (congrArg Prod.fst here)
          · right
            cases present : object.value with
            | none =>
                rw [present] at below
                cases below
            | some value =>
                rw [present] at below
                rcases ih below with rfl | ⟨above, earlier⟩
                · exact ⟨base, List.mem_flatMap.mpr ⟨object, member, List.mem_cons_self⟩⟩
                · refine ⟨above, List.mem_flatMap.mpr ⟨object, member, List.mem_cons_of_mem _ ?_⟩⟩
                  rw [present]
                  exact earlier
      | array elements =>
          rw [edges, bindings, List.map_flatMap] at edge ⊢
          obtain ⟨element, member, recorded⟩ := List.mem_flatMap.mp edge
          rcases ih recorded with top | ⟨above, earlier⟩
          · exact Or.inl top
          · exact Or.inr ⟨above, List.mem_flatMap.mpr ⟨element, member, earlier⟩⟩
      | _ => cases edge

/-- A map has the SID p and a key for c exactly if p is a parent of c, and the index has one
item for c, in which p is once. -/
structure ExactParents (root : CoreconfValueT) (clookupHashmap : List CLookupT) : Prop where
  exact : ∀ child parent : UInt64, parent.toInt64 ∈ (parentsOf clookupHashmap child).getD [] ↔
    ∃ map object, NodeAt root parent (.hashmap map) ∧ object ∈ map.objects ∧ object.key = child - parent
  tidy : TidyIndex clookupHashmap

/-- The index of a model that nests as deep as the recursion goes, which is one level more than
MAX_CORECONF_RECURSION_DEPTH, has exactly the parents. -/
theorem index_has_exact_parents {root : CoreconfValueT}
    (nests : NestsWithin (MAX_CORECONF_RECURSION_DEPTH + 1) root) :
    (NoNull root → ∃ clookupHashmap, buildCLookupHashmapFromCoreconf root [] 0 0 = some clookupHashmap) ∧
      ∀ clookupHashmap, buildCLookupHashmapFromCoreconf root [] 0 0 = some clookupHashmap →
        ExactParents root clookupHashmap := by
  constructor
  · intro noNull
    exact Option.isSome_iff_exists.mp (buildLevels_isSome _ noNull [] 0)
  · intro clookupHashmap built
    rw [index_recorded built]
    constructor
    · intro child parent
      rw [mem_recordAll, ← edges_iff nests]
      simp [parentsOf, hashmapGet]
    · exact TidyIndex.empty.recordAll _

/-- The maps in an array are both under the SID of the array. -/
theorem keyed_entries_indexed :
    NestsWithin (MAX_CORECONF_RECURSION_DEPTH + 1) (keyedModel [.uint8 7, .uint8 9]) ∧
      ∃ clookupHashmap, buildCLookupHashmapFromCoreconf (keyedModel [.uint8 7, .uint8 9]) [] 0 0 =
        some clookupHashmap ∧ ExactParents (keyedModel [.uint8 7, .uint8 9]) clookupHashmap := by
  have leaves : ∀ value ∈ [CoreconfValueT.uint8 7, .uint8 9], value.isContainer = Bool.false := by
    intro value member
    simp only [List.mem_cons, List.not_mem_nil, or_false] at member
    rcases member with rfl | rfl <;> rfl
  have nests := keyedModel_nests leaves
  obtain ⟨builds, exact⟩ := index_has_exact_parents nests
  obtain ⟨clookupHashmap, built⟩ := builds (keyedModel_indexable leaves).valid.noNull
  exact ⟨nests, clookupHashmap, built, exact clookupHashmap built⟩

end Coreconf
