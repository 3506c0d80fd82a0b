import Coreconf.Climb
import Coreconf.ParentIndex

set_option autoImplicit false

/- The loop of findRequirementForSID as a way up through the lists of the index. It takes the
parents that it reads off these lists: this is why it ends, whatever the index says, and why a
lookup may be another one after a lookup. -/
namespace Coreconf

open Climb

def requirementStart (sid : UInt64) (clookupHashmap : List CLookupT) (keyMappingHashMap : List KeyMappingT) :
    PathSearch where
  currentSID := sid.toInt64
  clookupHashmap := clookupHashmap
  pathNodes := prependPathNode [⟨0, none⟩] sid.toInt64 (sidKeysOf keyMappingHashMap sid.toInt64)

theorem findRequirementForSID_eq (fuel : Nat) (sid : UInt64) (clookupHashmap : List CLookupT)
    (keyMappingHashMap : List KeyMappingT) :
    findRequirementForSID fuel sid clookupHashmap keyMappingHashMap =
      Fuel.loop (requirementBody keyMappingHashMap) fuel
        (requirementStart sid clookupHashmap keyMappingHashMap) := rfl

/-- The loop runs this often before its guard fails or its body returns. -/
inductive Iterations (keyMappingHashMap : List KeyMappingT) :
    Nat → PathSearch → Option (List PathNodeT) × List CLookupT → Prop
  | guard {search result} (top : search.currentSID = 0)
      (left : requirementBody keyMappingHashMap search = some (.done result)) :
      Iterations keyMappingHashMap 0 search result
  | last {search result} (inside : search.currentSID ≠ 0)
      (left : requirementBody keyMappingHashMap search = some (.done result)) :
      Iterations keyMappingHashMap 1 search result
  | again {search later iterations result} (next : requirementBody keyMappingHashMap search = some (.next later))
      (rest : Iterations keyMappingHashMap iterations later result) :
      Iterations keyMappingHashMap (iterations + 1) search result

theorem Iterations.loop {keyMappingHashMap : List KeyMappingT} {iterations : Nat} {search : PathSearch}
    {result : Option (List PathNodeT) × List CLookupT}
    (ends : Iterations keyMappingHashMap iterations search result) :
    Fuel.loop (requirementBody keyMappingHashMap) (iterations + 1) search = some result := by
  induction ends with
  | guard _ left => exact Fuel.loop_done left
  | last _ left => exact Fuel.loop_done left
  | again next _ ih => exact (Fuel.loop_next next).trans ih

def totalParents (clookupHashmap : List CLookupT) : Nat :=
  (clookupHashmap.map fun clookup => clookup.dynamicLongList.length).sum

theorem popLong_above (parents : DynamicLongListT) : popLong parents = (above 0 parents, parents.dropLast) :=
  popLong_eq parents

theorem totalParents_set {clookupHashmap : List CLookupT} (distinct : (clookupHashmap.map (·.childSID)).Nodup)
    {sid : Int64} {parents : DynamicLongListT} (stored : storedParents clookupHashmap sid = some parents)
    (parents' : DynamicLongListT) :
    totalParents (hashmapSet clookupCompare clookupHashmap ⟨sid, parents'⟩) + parents.length =
      totalParents clookupHashmap + parents'.length := by
  obtain ⟨clookup, found, rfl⟩ := Option.map_eq_some_iff.mp stored
  have named := hashmapGet_key CLookupT.childSID clookupCompare_key found
  obtain ⟨before, after, rfl⟩ := List.append_of_mem (List.mem_of_find?_eq_some found)
  have found' : hashmapGet clookupCompare (before ++ clookup :: after) ⟨sid, parents'⟩ = some clookup := found
  have others : ∀ part : List CLookupT, (∀ other ∈ part, sid ≠ other.childSID) →
      part.map (fun other => if clookupCompare ⟨sid, parents'⟩ other then other else ⟨sid, parents'⟩) = part := by
    intro part apart
    conv_rhs => rw [← List.map_id part]
    apply List.map_congr_left
    intro other inside
    simp [clookupCompare, apart other inside]
  simp only [List.map_append, List.map_cons, List.nodup_append, List.nodup_cons, List.mem_map, List.mem_cons]
    at distinct
  have front := others before (fun other inside same => distinct.2.2 _ ⟨other, inside, rfl⟩ _ (Or.inl rfl)
    (same.symm.trans named.symm))
  have back := others after (fun other inside same => distinct.2.1.1 ⟨other, inside, same.symm.trans named.symm⟩)
  have here : (if clookupCompare ⟨sid, parents'⟩ clookup then clookup else ⟨sid, parents'⟩) =
      (⟨sid, parents'⟩ : CLookupT) := by
    simp [clookupCompare, named]
  rw [hashmapSet, found']
  simp only [List.map_append, List.map_cons, front, back, here, totalParents, List.sum_append, List.sum_cons]
  omega

section Body

variable {keyMappingHashMap : List KeyMappingT} {search : PathSearch}

theorem requirementBody_arrived (top : search.currentSID = 0) :
    requirementBody keyMappingHashMap search =
      some (.done (some search.pathNodes, search.clookupHashmap)) := by
  rw [requirementBody, if_pos top]

variable (inside : search.currentSID ≠ 0)
include inside

theorem requirementBody_lost (absent : storedParents search.clookupHashmap search.currentSID = none) :
    requirementBody keyMappingHashMap search = some (.done (none, search.clookupHashmap)) := by
  have missing := Option.map_eq_none_iff.mp absent
  rw [requirementBody, if_neg inside, missing]

theorem requirementBody_up {parents : DynamicLongListT}
    (stored : storedParents search.clookupHashmap search.currentSID = some parents) :
    requirementBody keyMappingHashMap search =
      some (.next
        { currentSID := above 0 parents
          clookupHashmap :=
            hashmapSet clookupCompare search.clookupHashmap ⟨search.currentSID, parents.dropLast⟩
          pathNodes :=
            if above 0 parents ≠ 0 then
              prependPathNode search.pathNodes (above 0 parents) (sidKeysOf keyMappingHashMap (above 0 parents))
            else search.pathNodes }) := by
  obtain ⟨clookup, found, rfl⟩ := Option.map_eq_some_iff.mp stored
  have named := hashmapGet_key CLookupT.childSID clookupCompare_key found
  simp only [requirementBody, if_neg inside, found, popLong_above, named]

end Body

def sidNode (keyMappingHashMap : List KeyMappingT) (sid : Int64) : PathNodeT :=
  ⟨sid, sidKeysOf keyMappingHashMap sid⟩

/-- The path with the node of a SID in front, where it is not the root. -/
def nodesFrom (keyMappingHashMap : List KeyMappingT) (sid : Int64) (pathNodes : List PathNodeT) :
    List PathNodeT :=
  if sid = 0 then pathNodes else sidNode keyMappingHashMap sid :: pathNodes

/-- The nodes of the places of a way, from the top, in front of the others. A lost way has no
path. -/
def pathUp (keyMappingHashMap : List KeyMappingT) (places : List Int64) (arrived : Bool)
    (pathNodes : List PathNodeT) : Option (List PathNodeT) :=
  if arrived then some (places.reverse.map (sidNode keyMappingHashMap) ++ pathNodes) else none

theorem pathUp_cons (keyMappingHashMap : List KeyMappingT) (sid : Int64) (places : List Int64) (arrived : Bool)
    (pathNodes : List PathNodeT) :
    pathUp keyMappingHashMap (sid :: places) arrived pathNodes =
      pathUp keyMappingHashMap places arrived (sidNode keyMappingHashMap sid :: pathNodes) := by
  simp [pathUp]

theorem storedParents_take (clookupHashmap : List CLookupT) (sid : Int64) (parents : DynamicLongListT) :
    storedParents (hashmapSet clookupCompare clookupHashmap ⟨sid, parents⟩) =
      Function.update (storedParents clookupHashmap) sid (some parents) := by
  funext other
  rw [storedParents_set, Function.update_apply]

/-- The loop goes a way up and ends. Each iteration takes a stored parent, or it has come to an
empty list and is the last but for the guard. -/
theorem requirement_way (keyMappingHashMap : List KeyMappingT) {clookupHashmap : List CLookupT}
    (distinct : (clookupHashmap.map (·.childSID)).Nodup) (sid : Int64) (pathNodes : List PathNodeT) :
    ∃ iterations places left arrived, iterations ≤ totalParents clookupHashmap + 1 ∧
      Way 0 (storedParents clookupHashmap) sid places (storedParents left) arrived ∧
      (left.map (·.childSID)).Nodup ∧
      Iterations keyMappingHashMap iterations ⟨sid, clookupHashmap, nodesFrom keyMappingHashMap sid pathNodes⟩
        (pathUp keyMappingHashMap places arrived pathNodes, left) := by
  induction total : totalParents clookupHashmap using Nat.strongRecOn generalizing clookupHashmap sid pathNodes with
  | ind bound ih =>
      by_cases top : sid = 0
      · subst top
        exact ⟨0, [], clookupHashmap, true, by omega, .arrived, distinct, .guard rfl (requirementBody_arrived rfl)⟩
      cases stored : storedParents clookupHashmap sid with
      | none =>
          exact ⟨1, [], clookupHashmap, false, by omega, .lost top stored, distinct,
            .last top (requirementBody_lost top stored)⟩
      | some parents =>
          have counted := totalParents_set distinct stored parents.dropLast
          have distinct' := distinct_set distinct ⟨sid, parents.dropLast⟩
          have up : requirementBody keyMappingHashMap
              ⟨sid, clookupHashmap, nodesFrom keyMappingHashMap sid pathNodes⟩ =
                some (.next ⟨above 0 parents,
                  hashmapSet clookupCompare clookupHashmap ⟨sid, parents.dropLast⟩,
                  nodesFrom keyMappingHashMap (above 0 parents)
                    (sidNode keyMappingHashMap sid :: pathNodes)⟩) := by
            rw [requirementBody_up top stored]
            simp only [nodesFrom, if_neg top, ite_not]
            rfl
          cases parents with
          | nil =>
              rw [List.dropLast_nil] at distinct' up
              have way : Way 0 (storedParents clookupHashmap) sid [sid]
                  (storedParents (hashmapSet clookupCompare clookupHashmap ⟨sid, []⟩)) true := by
                refine .up top stored ?_
                rw [storedParents_take]
                exact .arrived
              refine ⟨1, [sid], _, true, by omega, way, distinct', ?_⟩
              rw [pathUp_cons]
              exact .again up (.guard rfl (requirementBody_arrived rfl))
          | cons parent parents =>
              rw [List.length_dropLast, List.length_cons] at counted
              obtain ⟨iterations, places, left, arrived, few, way, kept, ends⟩ :=
                ih _ (by omega) distinct' (above 0 (parent :: parents))
                  (sidNode keyMappingHashMap sid :: pathNodes) rfl
              rw [storedParents_take] at way
              refine ⟨iterations + 1, sid :: places, left, arrived, by omega, .up top stored way, kept, ?_⟩
              rw [pathUp_cons]
              exact .again up ends

/-- An index, as any finite map from SIDs to lists of parents. -/
structure ParentIndex where
  items : List CLookupT
  distinct : (items.map (·.childSID)).Nodup

/-- The nodes in the path under those of the loop: SID 0 itself has one more. -/
def lastNodes (keyMappingHashMap : List KeyMappingT) (sid : Int64) : List PathNodeT :=
  if sid = 0 then [sidNode keyMappingHashMap 0, ⟨0, none⟩] else [⟨0, none⟩]

theorem requirementStart_nodes (sid : UInt64) (clookupHashmap : List CLookupT) (keyMappingHashMap : List KeyMappingT) :
    requirementStart sid clookupHashmap keyMappingHashMap =
      ⟨sid.toInt64, clookupHashmap,
        nodesFrom keyMappingHashMap sid.toInt64 (lastNodes keyMappingHashMap sid.toInt64)⟩ := by
  rw [requirementStart, nodesFrom, lastNodes]
  split
  · rename_i top
    rw [top]
    rfl
  · rfl

/-- Whatever the index, the loop ends after one iteration more than it has parents at most. -/
theorem parent_walk_ends (index : ParentIndex) (keyMappingHashMap : List KeyMappingT) (sid : UInt64) :
    ∃ iterations result, iterations ≤ totalParents index.items + 1 ∧
      Iterations keyMappingHashMap iterations (requirementStart sid index.items keyMappingHashMap) result ∧
      findRequirementForSID (iterations + 1) sid index.items keyMappingHashMap = some result := by
  obtain ⟨iterations, places, left, arrived, few, -, -, ends⟩ :=
    requirement_way keyMappingHashMap index.distinct sid.toInt64 (lastNodes keyMappingHashMap sid.toInt64)
  rw [← requirementStart_nodes] at ends
  refine ⟨iterations, _, few, ends, ?_⟩
  rw [findRequirementForSID_eq]
  exact ends.loop

/-- Two SIDs, each a parent of the other. -/
def cyclicIndex : ParentIndex := ⟨[⟨1, [2, 2]⟩, ⟨2, [1]⟩], by decide⟩

/-- The walk takes the three parents, and comes round once more. -/
example : findRequirementForSID 4 1 cyclicIndex.items [] = none ∧
    findRequirementForSID 5 1 cyclicIndex.items [] =
      some (some [⟨2, none⟩, ⟨1, none⟩, ⟨2, none⟩, ⟨1, none⟩, ⟨0, none⟩], [⟨1, []⟩, ⟨2, []⟩]) := by decide

/-- The indexes that are built, from one model after another. -/
inductive BuiltIndex : List CLookupT → Prop
  | empty : BuiltIndex []
  | build {clookupHashmap after value parentSID recursionDepth} (before : BuiltIndex clookupHashmap)
      (built : buildCLookupHashmapFromCoreconf value clookupHashmap parentSID recursionDepth = some after) :
      BuiltIndex after

theorem BuiltIndex.tidy {clookupHashmap : List CLookupT} (index : BuiltIndex clookupHashmap) :
    TidyIndex clookupHashmap := by
  induction index with
  | empty => exact TidyIndex.empty
  | @build clookupHashmap after value parentSID recursionDepth before built ih =>
      rw [buildCLookupHashmapFromCoreconf, ← parentSID.toInt64_toUInt64] at built
      rw [buildLevels_recorded built]
      exact ih.recordAll _

theorem TidyIndex.stored {clookupHashmap : List CLookupT} (tidy : TidyIndex clookupHashmap) {sid : Int64}
    {parents : DynamicLongListT} (stored : storedParents clookupHashmap sid = some parents) :
    parents ≠ [] ∧ parents.Nodup := by
  obtain ⟨clookup, found, rfl⟩ := Option.map_eq_some_iff.mp stored
  exact tidy.parents clookup (List.mem_of_find?_eq_some found)

/-- The lookup returns the path, or NULL, and leaves the index. -/
def LooksUpPath (keyMappingHashMap : List KeyMappingT) (clookupHashmap : List CLookupT) (sid : UInt64)
    (path : Option (List PathNodeT)) (left : List CLookupT) : Prop :=
  ∃ fuel, findRequirementForSID fuel sid clookupHashmap keyMappingHashMap = some (path, left)

theorem LooksUpPath.unique {keyMappingHashMap : List KeyMappingT} {clookupHashmap left left' : List CLookupT}
    {sid : UInt64} {path path' : Option (List PathNodeT)}
    (found : LooksUpPath keyMappingHashMap clookupHashmap sid path left)
    (found' : LooksUpPath keyMappingHashMap clookupHashmap sid path' left') : path = path' ∧ left = left' := by
  have mono : Fuel.Monotone fun fuel => Fuel.loop (requirementBody keyMappingHashMap) fuel :=
    Fuel.Monotone.of_extends fun _ _ search le => Fuel.loop_extends (fun _ => Fuel.Extends.refl _) le search
  have same := Fuel.Returns.unique mono found found'
  exact ⟨congrArg Prod.fst same, congrArg Prod.snd same⟩

theorem looksUpPath_way (keyMappingHashMap : List KeyMappingT) {clookupHashmap : List CLookupT}
    (distinct : (clookupHashmap.map (·.childSID)).Nodup) (sid : UInt64) :
    ∃ places left arrived, Way 0 (storedParents clookupHashmap) sid.toInt64 places (storedParents left) arrived ∧
      (left.map (·.childSID)).Nodup ∧
      LooksUpPath keyMappingHashMap clookupHashmap sid
        (pathUp keyMappingHashMap places arrived (lastNodes keyMappingHashMap sid.toInt64)) left := by
  obtain ⟨iterations, places, left, arrived, -, way, kept, ends⟩ :=
    requirement_way keyMappingHashMap distinct sid.toInt64 (lastNodes keyMappingHashMap sid.toInt64)
  rw [← requirementStart_nodes] at ends
  exact ⟨places, left, arrived, way, kept, iterations + 1, ends.loop⟩

theorem pathUp_inj {keyMappingHashMap : List KeyMappingT} {places places' : List Int64} {arrived arrived' : Bool}
    {pathNodes : List PathNodeT} :
    pathUp keyMappingHashMap places arrived pathNodes = pathUp keyMappingHashMap places' arrived' pathNodes ↔
      arrived = arrived' ∧ (arrived = true → places = places') := by
  have injective : Function.Injective (sidNode keyMappingHashMap) := fun _ _ same => congrArg PathNodeT.parentSID same
  cases arrived <;> cases arrived' <;> simp [pathUp, injective.list_map.eq_iff]

/-- The lookup of `other` gives one path whether or not the lookup of `sid` was before it. -/
def KeepsPath (keyMappingHashMap : List KeyMappingT) (clookupHashmap : List CLookupT) (sid other : UInt64) : Prop :=
  ∃ path left path' leftAlone leftAfter,
    LooksUpPath keyMappingHashMap clookupHashmap other path leftAlone ∧
      LooksUpPath keyMappingHashMap clookupHashmap sid path' left ∧
      LooksUpPath keyMappingHashMap left other path leftAfter

/-- On the way up from `other` the first SID that is also on the way up from `sid`, if there is
one, has the root as its only parent; or the way up from `other` is lost at a SID that the index
does not have, with the parents that the way up from `sid` takes and without them. -/
def HarmlessTo (clookupHashmap : List CLookupT) (sid other : Int64) : Prop :=
  ∃ taken left arrived, Way 0 (storedParents clookupHashmap) sid taken left arrived ∧
    ((∃ places leftAlone arrives, Way 0 (storedParents clookupHashmap) other places leftAlone arrives ∧
        ∀ first, places.find? (· ∈ taken) = some first → storedParents clookupHashmap first = some [0]) ∨
      Lost 0 (storedParents clookupHashmap) other ∧ Lost 0 left other)

theorem keepsPath_ways {clookupHashmap : List CLookupT} (tidy : TidyIndex clookupHashmap)
    (keyMappingHashMap : List KeyMappingT) {sid other : UInt64} {taken places places' : List Int64}
    {left leftAlone leftAfter : Stacks Int64} {arrived arrives arrives' : Bool}
    (way : Way 0 (storedParents clookupHashmap) sid.toInt64 taken left arrived)
    (wayAlone : Way 0 (storedParents clookupHashmap) other.toInt64 places leftAlone arrives)
    (wayAfter : Way 0 left other.toInt64 places' leftAfter arrives') :
    KeepsPath keyMappingHashMap clookupHashmap sid other ↔
      (∀ first, places.find? (· ∈ taken) = some first → storedParents clookupHashmap first = some [0]) ∨
        arrives = false ∧ arrives' = false := by
  rw [← way.same_iff (fun _ _ stored => tidy.stored stored) wayAlone wayAfter,
    ← @pathUp_inj keyMappingHashMap _ _ _ _ (lastNodes keyMappingHashMap other.toInt64)]
  obtain ⟨_, index, _, way', kept, found⟩ := looksUpPath_way keyMappingHashMap tidy.distinct sid
  obtain ⟨_, _, _, wayAlone', -, foundAlone⟩ := looksUpPath_way keyMappingHashMap tidy.distinct other
  obtain ⟨_, _, _, wayAfter', -, foundAfter⟩ := looksUpPath_way keyMappingHashMap kept other
  obtain ⟨rfl, rfl, rfl⟩ := way'.unique way
  obtain ⟨rfl, rfl, rfl⟩ := wayAlone'.unique wayAlone
  obtain ⟨rfl, rfl, rfl⟩ := wayAfter'.unique wayAfter
  constructor
  · rintro ⟨path, _, _, _, _, alone, first, after⟩
    obtain ⟨-, rfl⟩ := first.unique found
    obtain ⟨rfl, -⟩ := alone.unique foundAlone
    exact (after.unique foundAfter).1
  · intro equal
    rw [← equal] at foundAfter
    exact ⟨_, _, _, _, _, foundAlone, found, foundAfter⟩

/-- In an index that was built the parents that a lookup takes are missed exactly by the lookups
that it is not harmless to. -/
theorem lookup_keeps_path_iff {clookupHashmap : List CLookupT} (built : BuiltIndex clookupHashmap)
    (keyMappingHashMap : List KeyMappingT) (sid other : UInt64) :
    KeepsPath keyMappingHashMap clookupHashmap sid other ↔
      HarmlessTo clookupHashmap sid.toInt64 other.toInt64 := by
  have tidy := built.tidy
  obtain ⟨taken, left, arrived, way, kept, -⟩ := looksUpPath_way keyMappingHashMap tidy.distinct sid
  obtain ⟨places, leftAlone, arrives, wayAlone, -, -⟩ := looksUpPath_way keyMappingHashMap tidy.distinct other
  obtain ⟨places', leftAfter, arrives', wayAfter, -, -⟩ := looksUpPath_way keyMappingHashMap kept other
  rw [keepsPath_ways tidy keyMappingHashMap way wayAlone wayAfter]
  constructor
  · intro harmless
    refine ⟨taken, _, arrived, way, ?_⟩
    rcases harmless with clear | ⟨rfl, rfl⟩
    · exact Or.inl ⟨places, _, arrives, wayAlone, clear⟩
    · exact Or.inr ⟨⟨places, _, wayAlone⟩, ⟨places', _, wayAfter⟩⟩
  · rintro ⟨_, _, _, way', harmless⟩
    obtain ⟨rfl, rfl, rfl⟩ := way'.unique way
    rcases harmless with ⟨_, _, _, wayAlone', clear⟩ | ⟨⟨_, _, lostAlone⟩, ⟨_, _, lostAfter⟩⟩
    · obtain ⟨rfl, -, -⟩ := wayAlone'.unique wayAlone
      exact Or.inl clear
    · exact Or.inr ⟨(wayAlone.unique lostAlone).2.2, (wayAfter.unique lostAfter).2.2⟩

/-- The index of one model has every SID that it stores as a parent, but the root. -/
theorem model_index_closed {root : CoreconfValueT} {clookupHashmap : List CLookupT}
    (built : buildCLookupHashmapFromCoreconf root [] 0 0 = some clookupHashmap) :
    Closed 0 (storedParents clookupHashmap) := by
  have stored : ∀ child parent : Int64, parent ∈ (storedParents clookupHashmap child).getD [] ↔
      (parent.toUInt64, child.toUInt64) ∈ edges (MAX_CORECONF_RECURSION_DEPTH + 1) 0 root := by
    intro child parent
    have inside := @mem_recordAll [] (edges (MAX_CORECONF_RECURSION_DEPTH + 1) 0 root) parent.toUInt64 child.toUInt64
    rw [← index_recorded built, parentsOf_stored, Int64.toInt64_toUInt64, Int64.toInt64_toUInt64] at inside
    simpa [parentsOf, hashmapGet] using inside
  intro child parents found parent member
  have edge := (stored child parent).mp (by rwa [found])
  rcases edges_parent edge with top | ⟨above, earlier⟩
  · exact Or.inl (by simpa using congrArg UInt64.toInt64 top)
  · right
    have inside := (stored parent above.toInt64).mpr (by rwa [UInt64.toUInt64_toInt64])
    cases there : storedParents clookupHashmap parent with
    | none =>
        rw [there] at inside
        cases inside
    | some parents => rfl

/-- What an index of one model keeps when SIDs are looked up. -/
structure ClosedIndex (clookupHashmap : List CLookupT) : Prop where
  distinct : (clookupHashmap.map (·.childSID)).Nodup
  closed : Closed 0 (storedParents clookupHashmap)

theorem LooksUpPath.closedIndex {keyMappingHashMap : List KeyMappingT} {clookupHashmap left : List CLookupT}
    {sid : UInt64} {path : Option (List PathNodeT)}
    (found : LooksUpPath keyMappingHashMap clookupHashmap sid path left) (index : ClosedIndex clookupHashmap) :
    ClosedIndex left ∧
      ∀ other, (storedParents left other).isSome = (storedParents clookupHashmap other).isSome := by
  obtain ⟨_, _, _, way, distinct, found'⟩ := looksUpPath_way keyMappingHashMap index.distinct sid
  obtain ⟨-, rfl⟩ := found.unique found'
  obtain ⟨closed, same⟩ := way.keeps_closed index.closed
  exact ⟨⟨distinct, closed⟩, same⟩

theorem ClosedIndex.finds {clookupHashmap : List CLookupT} (index : ClosedIndex clookupHashmap)
    (keyMappingHashMap : List KeyMappingT) {sid : UInt64} (indexed : (parentsOf clookupHashmap sid).isSome) :
    ∃ path left, LooksUpPath keyMappingHashMap clookupHashmap sid (some path) left := by
  obtain ⟨places, left, arrived, way, -, found⟩ := looksUpPath_way keyMappingHashMap index.distinct sid
  rw [way.arrives index.closed (Or.inr indexed), pathUp, if_pos rfl] at found
  exact ⟨_, left, found⟩

/-- One index after lookups from another one. -/
def LookedUp (keyMappingHashMap : List KeyMappingT) : List CLookupT → List CLookupT → Prop :=
  Relation.ReflTransGen fun clookupHashmap left =>
    ∃ sid path, LooksUpPath keyMappingHashMap clookupHashmap sid path left

/-- After any lookups in the index of one model, every SID that the index had is found, if not
with the path it had. -/
theorem model_sids_always_found {root : CoreconfValueT} {clookupHashmap left : List CLookupT}
    {keyMappingHashMap : List KeyMappingT}
    (built : buildCLookupHashmapFromCoreconf root [] 0 0 = some clookupHashmap)
    (lookups : LookedUp keyMappingHashMap clookupHashmap left) {sid : UInt64}
    (indexed : (parentsOf clookupHashmap sid).isSome) :
    ∃ path after, LooksUpPath keyMappingHashMap left sid (some path) after := by
  have start : ClosedIndex clookupHashmap :=
    ⟨(BuiltIndex.empty.build built).tidy.distinct, model_index_closed built⟩
  have kept : ClosedIndex left ∧
      ∀ other, (storedParents left other).isSome = (storedParents clookupHashmap other).isSome := by
    induction lookups with
    | refl => exact ⟨start, fun _ => rfl⟩
    | tail _ lookup ih =>
        obtain ⟨_, _, found⟩ := lookup
        obtain ⟨index, same⟩ := found.closedIndex ih.1
        exact ⟨index, fun other => (same other).trans (ih.2 other)⟩
  exact kept.1.finds keyMappingHashMap ((kept.2 _).trans indexed)

/-- For a SID of the index of one model a lookup is harmless exactly if the first SID that both
ways come to, where there is one, has the root as its only parent. -/
theorem model_lookup_keeps_path_iff {root : CoreconfValueT} {clookupHashmap : List CLookupT}
    (built : buildCLookupHashmapFromCoreconf root [] 0 0 = some clookupHashmap)
    (keyMappingHashMap : List KeyMappingT) {sid other : UInt64} (indexed : (parentsOf clookupHashmap other).isSome) :
    KeepsPath keyMappingHashMap clookupHashmap sid other ↔
      ∃ taken left arrived places leftAlone,
        Way 0 (storedParents clookupHashmap) sid.toInt64 taken left arrived ∧
          Way 0 (storedParents clookupHashmap) other.toInt64 places leftAlone true ∧
          ∀ first, places.find? (· ∈ taken) = some first → storedParents clookupHashmap first = some [0] := by
  have tidy := (BuiltIndex.empty.build built).tidy
  have closed := model_index_closed built
  obtain ⟨taken, left, arrived, way, kept, -⟩ := looksUpPath_way keyMappingHashMap tidy.distinct sid
  obtain ⟨places, leftAlone, arrives, wayAlone, -, -⟩ := looksUpPath_way keyMappingHashMap tidy.distinct other
  obtain ⟨places', leftAfter, arrives', wayAfter, -, -⟩ := looksUpPath_way keyMappingHashMap kept other
  obtain ⟨closed', same⟩ := way.keeps_closed closed
  have alone := wayAlone.arrives closed (Or.inr indexed)
  have after := wayAfter.arrives closed' (Or.inr ((same _).trans indexed))
  subst alone
  subst after
  rw [keepsPath_ways tidy keyMappingHashMap way wayAlone wayAfter]
  constructor
  · intro harmless
    refine ⟨taken, _, arrived, places, _, way, wayAlone, ?_⟩
    simpa using harmless
  · rintro ⟨_, _, _, _, _, way', wayAlone', clear⟩
    obtain ⟨rfl, rfl, rfl⟩ := way'.unique way
    obtain ⟨rfl, -, -⟩ := wayAlone'.unique wayAlone
    exact Or.inl clear

theorem keyedModel_index : BuiltIndex [⟨1, [0]⟩, ⟨2, [1]⟩] := by
  have leaves : ∀ value ∈ [CoreconfValueT.uint8 7], value.isContainer = false := by
    intro value member
    rw [List.mem_singleton.mp member]
    rfl
  have recorded : edges (MAX_CORECONF_RECURSION_DEPTH + 1) 0 (keyedModel [.uint8 7]) = [(0, 1), (1, 2)] := by
    rw [edges, keyedModel_bindings leaves]
    rfl
  have built := buildLevels_eq (MAX_CORECONF_RECURSION_DEPTH + 1) 0 (keyedModel_indexable leaves).valid.noNull []
  rw [recorded] at built
  exact @BuiltIndex.build [] _ (keyedModel [.uint8 7]) 0 0 .empty built

/-- SID 2 has a path, and SID 1 is not on it when it is asked for again. -/
theorem second_lookup_differs :
    ¬ ∀ clookupHashmap, BuiltIndex clookupHashmap → ∀ keyMappingHashMap sid other,
      KeepsPath keyMappingHashMap clookupHashmap sid other := by
  intro keeps
  obtain ⟨path, left, path', _, _, alone, first, after⟩ := keeps _ keyedModel_index [] 2 2
  have found : LooksUpPath [] [⟨1, [0]⟩, ⟨2, [1]⟩] 2 (some [⟨1, none⟩, ⟨2, none⟩, ⟨0, none⟩]) [⟨1, []⟩, ⟨2, []⟩] :=
    ⟨3, by decide⟩
  have again : LooksUpPath [] [⟨1, []⟩, ⟨2, []⟩] 2 (some [⟨2, none⟩, ⟨0, none⟩]) [⟨1, []⟩, ⟨2, []⟩] :=
    ⟨2, by decide⟩
  obtain ⟨-, rfl⟩ := first.unique found
  obtain ⟨rfl, -⟩ := alone.unique found
  obtain ⟨equal, -⟩ := after.unique again
  cases equal

/-- A lookup of SID 1 takes its only parent, the root, and is harmless to SID 2. -/
theorem lookup_under_root_harmless : KeepsPath [] [⟨1, [0]⟩, ⟨2, [1]⟩] 1 2 := by
  apply (lookup_keeps_path_iff keyedModel_index [] 1 2).mpr
  refine ⟨[1], _, true, .up (by decide) rfl .arrived, Or.inl ⟨[2, 1], _, true,
    .up (by decide) rfl (.up (by decide) rfl .arrived), ?_⟩⟩
  intro first found
  obtain rfl : 1 = first := Option.some.inj found
  rfl

end Coreconf
