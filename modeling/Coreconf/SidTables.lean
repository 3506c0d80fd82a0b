import Coreconf.SidHashmaps

set_option autoImplicit false

/- The index and the key mappings over the tables of hashmap.c are the ones over lists: a
model is indexed, a mapping is decoded and paths are found with the same results. -/
namespace Coreconf

open Fuel (Step Returns)

theorem keyMappingCompare_key (a b : KeyMappingT) : keyMappingCompare a b = (a.key != b.key) := rfl

theorem length_set (clookupHashmap : List CLookupT) (clookup : CLookupT) :
    clookupHashmap.length ≤ (hashmapSet clookupCompare clookupHashmap clookup).length := by
  have keys := congrArg List.length (childSIDs_set clookupHashmap clookup)
  rw [List.length_map] at keys
  split at keys <;> simp only [List.length_append, List.length_map] at keys <;> omega

theorem length_record (clookupHashmap : List CLookupT) (childSID parentSID : Int64) :
    clookupHashmap.length ≤ (recordParent clookupHashmap childSID parentSID).length := by
  rw [recordParent]
  split <;> exact length_set _ _

theorem length_recordAll (clookupHashmap : List CLookupT) (edges : List (UInt64 × UInt64)) :
    clookupHashmap.length ≤ (recordAll clookupHashmap edges).length := by
  induction edges generalizing clookupHashmap with
  | nil => exact le_refl _
  | cons edge edges ih => exact (length_record clookupHashmap _ _).trans (ih _)

theorem length_buildLevels {levels : Nat} {value : Option CoreconfValueT} {clookupHashmap after : List CLookupT}
    {parentSID : Int64} (built : buildLevels levels value clookupHashmap parentSID = some after) :
    clookupHashmap.length ≤ after.length := by
  rw [← Int64.toInt64_toUInt64 parentSID] at built
  rw [buildLevels_recorded built]
  exact length_recordAll _ _

/-- A fold that never comes back to where a bound holds once it is passed. -/
theorem foldlM_bounded {S A : Type} {items : List A} {f : S → A → Option S} {B : S → Prop}
    (back : ∀ item ∈ items, ∀ s s', f s item = some s' → B s' → B s) {s s' : S}
    (folded : items.foldlM f s = some s') (last : B s') : B s := by
  induction items generalizing s with
  | nil => exact Option.some.inj folded ▸ last
  | cons item items ih =>
      rw [List.foldlM_cons] at folded
      obtain ⟨middle, first, rest⟩ := Option.bind_eq_some_iff.mp folded
      exact back item List.mem_cons_self s middle first
        (ih (fun other member => back other (List.mem_cons_of_mem item member)) rest)

/-- Two folds in step, as far as the bound on the states of the first holds. -/
theorem foldlM_related {S T A : Type} {items : List A} {f : S → A → Option S} {g : T → A → Option T}
    {R : S → T → Prop} {B : S → Prop}
    (back : ∀ item ∈ items, ∀ s s', f s item = some s' → B s' → B s)
    (each : ∀ item ∈ items, ∀ s t s', R s t → f s item = some s' → B s' →
      ∃ t', g t item = some t' ∧ R s' t') {s s' : S} {t : T} (start : R s t)
    (folded : items.foldlM f s = some s') (last : B s') : ∃ t', items.foldlM g t = some t' ∧ R s' t' := by
  induction items generalizing s t with
  | nil => exact ⟨t, rfl, Option.some.inj folded ▸ start⟩
  | cons item items ih =>
      rw [List.foldlM_cons] at folded
      obtain ⟨middle, first, rest⟩ := Option.bind_eq_some_iff.mp folded
      have back' : ∀ other ∈ items, _ := fun other member => back other (List.mem_cons_of_mem item member)
      obtain ⟨t', first', related⟩ :=
        each item List.mem_cons_self s t middle start first (foldlM_bounded back' rest last)
      obtain ⟨t'', rest', related⟩ :=
        ih back' (fun other member => each other (List.mem_cons_of_mem item member)) related rest
      exact ⟨t'', by rw [List.foldlM_cons, first']; exact rest', related⟩

/-- The index in a table. -/
abbrev MirrorsIndex : Hashmap CLookupT → List CLookupT → Prop := Mirrors CLookupT.childSID

abbrev MirrorsKeys : Hashmap KeyMappingT → List KeyMappingT → Prop := Mirrors KeyMappingT.key

section Index

variable {table : Hashmap CLookupT} {clookupHashmap : List CLookupT}

theorem recordParent_mirrors (mirrors : MirrorsIndex table clookupHashmap) {childSID parentSID : Int64}
    (few : (recordParent clookupHashmap childSID parentSID).length ≤ 65535) :
    ∃ table', SidHashmaps.recordParent table childSID parentSID = some table' ∧
      MirrorsIndex table' (recordParent clookupHashmap childSID parentSID) := by
  obtain ⟨table', changed, after⟩ := mirrors.change clookupCompare_key ⟨childSID, []⟩
    (f := fun clookup => { clookup with dynamicLongList := addUniqueLong clookup.dynamicLongList parentSID })
    fun _ => rfl
  rw [SidHashmaps.recordParent, changed]
  rw [recordParent] at few ⊢
  cases found : hashmapGet clookupCompare clookupHashmap ⟨childSID, []⟩ with
  | some clookup =>
      rw [found] at after
      exact ⟨table', rfl, after⟩
  | none =>
      rw [found] at after few
      have absent : hashmapGet clookupCompare clookupHashmap ⟨childSID, addUniqueLong [] parentSID⟩ = none := found
      have longer : clookupHashmap.length < 65535 := by
        dsimp only at few
        rw [hashmapSet, absent, List.length_append] at few
        exact few
      obtain ⟨table'', ran, stored⟩ := after.set clookupCompare_key longer ⟨childSID, addUniqueLong [] parentSID⟩
      exact ⟨table'', by rw [Option.bind_some]; dsimp only; rw [ran]; rfl, stored⟩

/-- The recursion records the same in both. -/
theorem buildLevels_mirrors {levels : Nat} {value : Option CoreconfValueT} {after : List CLookupT}
    {parentSID : Int64} (built : buildLevels levels value clookupHashmap parentSID = some after)
    (few : after.length ≤ 65535) (mirrors : MirrorsIndex table clookupHashmap) :
    ∃ table', SidHashmaps.buildLevels levels value table parentSID = some table' ∧ MirrorsIndex table' after := by
  induction levels generalizing value clookupHashmap after parentSID table with
  | zero => exact ⟨table, rfl, Option.some.inj built ▸ mirrors⟩
  | succ levels ih =>
      cases value with
      | none => cases built
      | some value =>
          cases value with
          | hashmap map =>
              refine foldlM_related (R := fun list table => MirrorsIndex table list)
                (B := fun list => list.length ≤ 65535) (fun object _ list later built few => ?_)
                (fun object _ list table later mirrors built few => ?_) mirrors built few
              · exact ((length_record list _ _).trans (length_buildLevels built)).trans few
              · obtain ⟨table', recorded, mirrors'⟩ :=
                  recordParent_mirrors mirrors ((length_buildLevels built).trans few)
                dsimp only
                rw [recorded]
                exact ih built few mirrors'
          | array elements =>
              refine foldlM_related (R := fun list table => MirrorsIndex table list)
                (B := fun list => list.length ≤ 65535) (fun element _ list later built few => ?_)
                (fun element _ list table later mirrors built few => ?_) mirrors built few
              · exact (length_buildLevels built).trans few
              · exact ih built few mirrors
          | _ => exact ⟨table, rfl, Option.some.inj built ▸ mirrors⟩

end Index

section Paths

variable {keyTable : Hashmap KeyMappingT} {keyMappings : List KeyMappingT}

theorem sidKeysOf_mirrors (mirrors : MirrorsKeys keyTable keyMappings) (sid : Int64) :
    SidHashmaps.sidKeysOf keyTable sid = some (sidKeysOf keyMappings sid) := by
  rw [SidHashmaps.sidKeysOf, mirrors.get keyMappingCompare_key]
  rfl

structure SameSearch (search : PathSearch) (search' : SidHashmaps.PathSearch) : Prop where
  currentSID : search'.currentSID = search.currentSID
  clookupHashmap : MirrorsIndex search'.clookupHashmap search.clookupHashmap
  pathNodes : search'.pathNodes = search.pathNodes

def SameResult (result : Option (List PathNodeT) × List CLookupT)
    (result' : Option (List PathNodeT) × Hashmap CLookupT) : Prop :=
  result'.1 = result.1 ∧ MirrorsIndex result'.2 result.2

theorem requirementBody_mirrors (mirrors : MirrorsKeys keyTable keyMappings) {search : PathSearch}
    {search' : SidHashmaps.PathSearch} (same : SameSearch search search')
    {step : Step PathSearch (Option (List PathNodeT) × List CLookupT)}
    (ran : requirementBody keyMappings search = some step) :
    ∃ step', SidHashmaps.requirementBody keyTable search' = some step' ∧
      Step.Related SameSearch SameResult step step' := by
  rw [requirementBody] at ran
  rw [SidHashmaps.requirementBody, same.currentSID]
  split at ran
  next top =>
    rw [if_pos top, same.pathNodes]
    cases ran
    exact ⟨_, rfl, .done ⟨rfl, same.clookupHashmap⟩⟩
  next below =>
    rw [if_neg below]
    obtain ⟨table', changed, after⟩ := same.clookupHashmap.change clookupCompare_key ⟨search.currentSID, []⟩
      (f := fun clookup => { clookup with dynamicLongList := (popLong clookup.dynamicLongList).2 }) fun _ => rfl
    rw [changed]
    cases found : hashmapGet clookupCompare search.clookupHashmap ⟨search.currentSID, []⟩ with
    | none =>
        rw [found] at ran after
        cases ran
        exact ⟨_, rfl, .done ⟨rfl, after⟩⟩
    | some clookup =>
        rw [found] at ran after
        cases ran
        rw [Option.bind_some]
        dsimp only
        split
        next inner =>
          rw [sidKeysOf_mirrors mirrors]
          exact ⟨_, rfl, .next ⟨rfl, after, by rw [same.pathNodes]; exact (if_pos inner).symm⟩⟩
        next top => exact ⟨_, rfl, .next ⟨rfl, after, same.pathNodes.trans (if_neg top).symm⟩⟩

theorem findRequirementForSID_mirrors (mirrors : MirrorsKeys keyTable keyMappings) {fuel : Nat} {sid : UInt64}
    {clookupHashmap : List CLookupT} {result : Option (List PathNodeT) × List CLookupT}
    (found : findRequirementForSID fuel sid clookupHashmap keyMappings = some result)
    {table : Hashmap CLookupT} (index : MirrorsIndex table clookupHashmap) :
    ∃ result', SidHashmaps.findRequirementForSID fuel sid table keyTable = some result' ∧
      SameResult result result' := by
  rw [SidHashmaps.findRequirementForSID, sidKeysOf_mirrors mirrors]
  refine Fuel.loop_related (R := SameSearch) (fun search search' step same ran => ?_) ⟨rfl, index, rfl⟩ found
  exact requirementBody_mirrors mirrors same ran

/-- Lookups one after another, each with the index that the one before has left. -/
def findRequirements (fuel : Nat) (keyMappings : List KeyMappingT) :
    List UInt64 → List CLookupT → Option (List (Option (List PathNodeT)) × List CLookupT)
  | [], clookupHashmap => some ([], clookupHashmap)
  | sid :: sids, clookupHashmap =>
      (findRequirementForSID fuel sid clookupHashmap keyMappings).bind fun (path, clookupHashmap) =>
        (findRequirements fuel keyMappings sids clookupHashmap).map fun (paths, clookupHashmap) =>
          (path :: paths, clookupHashmap)

def SidHashmaps.findRequirements (fuel : Nat) (keyTable : Hashmap KeyMappingT) :
    List UInt64 → Hashmap CLookupT → Option (List (Option (List PathNodeT)) × Hashmap CLookupT)
  | [], table => some ([], table)
  | sid :: sids, table =>
      (findRequirementForSID fuel sid table keyTable).bind fun (path, table) =>
        (findRequirements fuel keyTable sids table).map fun (paths, table) => (path :: paths, table)

theorem findRequirements_mirrors (mirrors : MirrorsKeys keyTable keyMappings) {fuel : Nat} {sids : List UInt64}
    {clookupHashmap left : List CLookupT} {paths : List (Option (List PathNodeT))}
    (found : findRequirements fuel keyMappings sids clookupHashmap = some (paths, left))
    {table : Hashmap CLookupT} (index : MirrorsIndex table clookupHashmap) :
    ∃ left', SidHashmaps.findRequirements fuel keyTable sids table = some (paths, left') ∧
      MirrorsIndex left' left := by
  induction sids generalizing clookupHashmap paths table with
  | nil =>
      cases found
      exact ⟨table, rfl, index⟩
  | cons sid sids ih =>
      obtain ⟨⟨path, middle⟩, first, rest⟩ := Option.bind_eq_some_iff.mp found
      obtain ⟨⟨others, last⟩, later, same⟩ := Option.map_eq_some_iff.mp rest
      cases same
      obtain ⟨⟨path', middle'⟩, first', same, index'⟩ := findRequirementForSID_mirrors mirrors first index
      obtain ⟨left', later', index''⟩ := ih later index'
      refine ⟨left', ?_, index''⟩
      rw [SidHashmaps.findRequirements, first', Option.bind_some]
      dsimp only at later' same ⊢
      rw [later', same]
      rfl

end Paths

section KeyMappings

structure SameLoop (loop : KeyMappingLoop) (loop' : SidHashmaps.KeyMappingLoop) : Prop where
  mirrors : MirrorsKeys loop'.keyMappingHashMap loop.keyMappingHashMap
  loopCounter : loop'.loopCounter = loop.loopCounter
  st : loop'.st = loop.st
  counted : loop.keyMappingHashMap.length ≤ loop.loopCounter

/-- The same mapping, or NULL both times, and the same state. -/
def SameMapping (result : KeyMappingResult) (result' : SidHashmaps.KeyMappingResult) : Prop :=
  Option.Rel (fun items table => MirrorsKeys table items) result.1 result'.1 ∧ result'.2 = result.2

/-- The elements of a list are counted on from the entries before. -/
theorem sidKeyLoop_counts {fuel : Nat} {loop : SidKeyLoop} {result : Bool × SidKeyLoop}
    (ran : Fuel.loop sidKeyBody fuel loop = some result) : loop.loopCounter ≤ result.2.loopCounter := by
  refine @Fuel.loop_invariant _ _ _ (fun later => loop.loopCounter ≤ later.loopCounter)
    (fun result => loop.loopCounter ≤ result.2.loopCounter) (fun s s' before again => ?_)
    (fun s r before left => ?_) _ _ _ (le_refl _) ran
  · rw [sidKeyBody] at again
    split at again
    · cases again
    · split at again
      · cases again
      · split at again <;> cases again
        exact Nat.le_succ_of_le before
  · rw [sidKeyBody] at left
    split at left
    · cases left
      exact before
    · split at left
      · cases left
        exact before
      · split at left <;> cases left
        exact before

theorem storeKeyMapping_mirrors {loop : KeyMappingLoop} {loop' : SidHashmaps.KeyMappingLoop}
    (same : SameLoop loop loop') (counted : loop.loopCounter ≤ CORECONF_MAX_LOOP) (key : UInt64)
    {inner : Bool × SidKeyLoop} (later : loop.loopCounter ≤ inner.2.loopCounter) :
    ∃ step', SidHashmaps.storeKeyMapping loop' key inner = some step' ∧
      Step.Related SameLoop SameMapping (storeKeyMapping loop key inner) step' := by
  obtain ⟨ended, inner⟩ := inner
  cases ended with
  | false => exact ⟨_, rfl, .done ⟨.none, rfl⟩⟩
  | true =>
      rw [SidHashmaps.storeKeyMapping, storeKeyMapping]
      rcases closed : zcborListEndDecode inner.st with ⟨_ | _, st⟩
      · exact ⟨_, rfl, .done ⟨.none, rfl⟩⟩
      · have small : loop.keyMappingHashMap.length < 65535 := by
          have := same.counted
          simp only [CORECONF_MAX_LOOP] at counted
          omega
        obtain ⟨table, ran, mirrors⟩ :=
          same.mirrors.set keyMappingCompare_key small ⟨key.toInt64, inner.dynamicLongList⟩
        dsimp only
        rw [ran]
        refine ⟨_, rfl, .next ⟨mirrors, rfl, rfl, ?_⟩⟩
        have added := congrArg List.length
          (keys_set KeyMappingT.key keyMappingCompare_key loop.keyMappingHashMap ⟨key.toInt64, inner.dynamicLongList⟩)
        rw [List.length_map] at added
        have := same.counted
        dsimp only at later ⊢
        split at added <;> simp only [List.length_append, List.length_map, List.length_singleton] at added <;> omega

theorem keyMappingBody_mirrors {fuel : Nat} {loop : KeyMappingLoop} {loop' : SidHashmaps.KeyMappingLoop}
    (same : SameLoop loop loop') {step : Step KeyMappingLoop KeyMappingResult}
    (ran : keyMappingBody fuel loop = some step) :
    ∃ step', SidHashmaps.keyMappingBody fuel loop' = some step' ∧ Step.Related SameLoop SameMapping step step' := by
  rw [keyMappingBody] at ran
  rw [SidHashmaps.keyMappingBody, same.st, same.loopCounter]
  split at ran
  next atEnd =>
    rw [if_pos atEnd]
    rcases closed : zcborMapEndDecode loop.st with ⟨_ | _, st⟩
    all_goals rw [closed] at ran; cases ran
    · exact ⟨_, rfl, .done ⟨.none, rfl⟩⟩
    · exact ⟨_, rfl, .done ⟨.some same.mirrors, rfl⟩⟩
  next inside =>
    rw [if_neg inside]
    split at ran
    next passed =>
      rw [if_pos passed]
      cases ran
      exact ⟨_, rfl, .done ⟨.none, rfl⟩⟩
    next counted =>
      rw [if_neg counted]
      cases decoded : zcborUint64Decode loop.st with
      | none =>
          rw [decoded] at ran
          cases ran
          exact ⟨_, rfl, .done ⟨.none, rfl⟩⟩
      | some keyed =>
          obtain ⟨key, st⟩ := keyed
          rw [decoded] at ran
          dsimp only at ran ⊢
          cases started : zcborListStartDecode st with
          | none =>
              rw [started] at ran
              cases ran
              exact ⟨_, rfl, .done ⟨.none, rfl⟩⟩
          | some st' =>
              rw [started] at ran
              obtain ⟨inner, elements, rfl⟩ := Option.map_eq_some_iff.mp ran
              dsimp only
              rw [elements, Option.bind_some]
              exact storeKeyMapping_mirrors same (Nat.le_of_not_lt counted) key (sidKeyLoop_counts elements)

/-- Whatever is decoded as a mapping into a list is decoded into a table. -/
theorem cborToKeyMappingHashMap_mirrors {fuel : Nat} {st : ZcborState} {result : KeyMappingResult}
    (decoded : cborToKeyMappingHashMap fuel st = some result) :
    ∃ result', SidHashmaps.cborToKeyMappingHashMap fuel st = some result' ∧ SameMapping result result' := by
  rw [cborToKeyMappingHashMap] at decoded
  rw [SidHashmaps.cborToKeyMappingHashMap]
  rcases started : zcborMapStartDecode st with ⟨_ | _, st'⟩
  · rw [started] at decoded
    cases decoded
    exact ⟨_, rfl, .none, rfl⟩
  · rw [started] at decoded
    refine Fuel.loop_related (R := SameLoop) (fun loop loop' step same ran => ?_) ?_ decoded
    · exact keyMappingBody_mirrors same ran
    · exact ⟨.new keyMappingCalls_keyed 0, rfl, rfl, Nat.zero_le _⟩

end KeyMappings

/-- A model that is indexed and a mapping that is decoded: the tables of both answer every
sequence of lookups with the paths that the lists answer. -/
theorem tables_find_paths {root : CoreconfValueT} {clookupHashmap : List CLookupT}
    (built : buildCLookupHashmapFromCoreconf root [] 0 0 = some clookupHashmap)
    (few : clookupHashmap.length ≤ 65535) {fuel : Nat} {st st' : ZcborState} {keyMappings : List KeyMappingT}
    (decoded : cborToKeyMappingHashMap fuel st = some (some keyMappings, st')) :
    ∃ index keyTable,
      SidHashmaps.buildCLookupHashmapFromCoreconf root (Hashmap.new clookupCalls 0) 0 0 = some index ∧
      SidHashmaps.cborToKeyMappingHashMap fuel st = some (some keyTable, st') ∧
      ∀ steps sids paths left, findRequirements steps keyMappings sids clookupHashmap = some (paths, left) →
        ∃ left', SidHashmaps.findRequirements steps keyTable sids index = some (paths, left') ∧
          left'.items.Perm left := by
  obtain ⟨index, indexed, mirrors⟩ := buildLevels_mirrors built few (.new clookupCalls_keyed 0)
  obtain ⟨⟨keyTable, st''⟩, ran, same, rfl⟩ := cborToKeyMappingHashMap_mirrors decoded
  cases same with
  | some keys =>
      refine ⟨index, _, indexed, ran, fun steps sids paths left found => ?_⟩
      obtain ⟨left', found', mirrors'⟩ := findRequirements_mirrors keys found mirrors
      exact ⟨left', found', mirrors'.perm⟩

/-- The model with two entries and the mapping that keys them by SID 2. -/
theorem keyed_tables_find_paths :
    ∃ index keyTable,
      SidHashmaps.buildCLookupHashmapFromCoreconf (keyedModel [.uint8 3, .uint8 7]) (Hashmap.new clookupCalls 0) 0 0 =
        some index ∧
      SidHashmaps.cborToKeyMappingHashMap 3 (zcborNewDecodeState 5 [0xBF, 0x01, 0x9F, 0x02, 0xFF, 0xFF] 1) =
        some (some keyTable, ⟨[], 0, false, [], 3⟩) ∧
      ∀ steps sids paths left, findRequirements steps keyedBySecond sids [⟨1, [0]⟩, ⟨2, [1]⟩] = some (paths, left) →
        ∃ left', SidHashmaps.findRequirements steps keyTable sids index = some (paths, left') ∧
          left'.items.Perm left :=
  tables_find_paths rfl (by decide) rfl

example : ((SidHashmaps.buildCLookupHashmapFromCoreconf (keyedModel [.uint8 3, .uint8 7])
    (Hashmap.new clookupCalls 0) 0 0).bind fun index =>
      (SidHashmaps.findRequirements 3 (Hashmap.new keyMappingCalls 0) [2, 2] index).map Prod.fst) =
    some [some [⟨1, none⟩, ⟨2, none⟩, ⟨0, none⟩], some [⟨2, none⟩, ⟨0, none⟩]] := by decide

/-- A table of key mappings, whatever calls have filled it, is encoded in the order of its
buckets and decoded into a table that has the same keys for every SID. -/
theorem key_mapping_tables_round_trip {cap : Hashmap.Capacity} {run : List (Hashmap.Call KeyMappingT)}
    (small : Hashmap.staysSmall (Hashmap.new keyMappingCalls cap) run) {results : List (Hashmap.Result KeyMappingT)}
    {keyTable : Hashmap KeyMappingT}
    (ran : Hashmap.runCalls (Hashmap.new keyMappingCalls cap) run = some (results, keyTable))
    (few : countKeysAndElements keyTable.items ≤ CORECONF_MAX_LOOP + 1) {bufferSize : Nat} {encoded : EncodeState}
    (written : SidHashmaps.keyMappingHashMapToCBOR keyTable (zcborNewEncodeState bufferSize) = some encoded)
    {st : ZcborState} {rest : List UInt8} (payload : st.payload = encoded.payload ++ rest) (left : st.elemCount ≠ 0)
    (backups : st.backupList.length + 2 ≤ st.numBackups) :
    ∃ decoded st', Returns SidHashmaps.cborToKeyMappingHashMap st (some decoded, st') ∧
      ∀ sid, SidHashmaps.sidKeysOf decoded sid = SidHashmaps.sidKeysOf keyTable sid := by
  obtain ⟨_, _, _, ran', -, wf, calls, -⟩ :=
    Hashmap.runCalls_meets run (Hashmap.new_wellFormed keyMappingCalls cap) keyMappingCalls_keyed
      (Hashmap.new_represents keyMappingCalls cap) (Nat.zero_le _) small
  obtain ⟨rfl, rfl⟩ := Prod.mk.inj (Option.some.inj (ran.symm.trans ran'))
  have source : MirrorsKeys keyTable keyTable.items := ⟨wf, calls ▸ keyMappingCalls_keyed, .refl _⟩
  have bytes : encoded.payload = (keyMappingItem keyTable.items).encode := by
    rw [SidHashmaps.keyMappingHashMapToCBOR, Hashmap.items_once wf] at written
    change keyMappingHashMapToCBOR keyTable.items _ = _ at written
    rw [keyMappingHashMapToCBOR_eq, EncodeState.put] at written
    split at written
    · rw [← Option.some.inj written]
      exact List.nil_append _
    · cases written
  rw [bytes] at payload
  obtain ⟨items, st', ⟨fuel, decoded⟩, accepted, -⟩ :=
    cborToKeyMappingHashMap_item ⟨keyTable.items, source.distinct⟩ payload left backups
  obtain rfl := accepted (accepted_of_count (by rwa [Nat.zero_add]))
  obtain ⟨⟨table, st''⟩, ran'', same, rfl⟩ := cborToKeyMappingHashMap_mirrors decoded
  cases same with
  | some mirrors =>
      refine ⟨_, _, ⟨fuel, ran''⟩, fun sid => ?_⟩
      rw [sidKeysOf_mirrors mirrors, sidKeysOf_mirrors source]

/-- Two key mappings, of which the second comes to stand before the first. -/
def mappingRun : List (Hashmap.Call KeyMappingT) := [.set true ⟨100, [1, 2, 3]⟩, .set true ⟨200, [10, 20]⟩]

def mappingTable : Hashmap KeyMappingT :=
  ((Hashmap.runCalls (Hashmap.new keyMappingCalls 0) mappingRun).map Prod.snd).getD (Hashmap.new keyMappingCalls 0)

theorem mapping_table_round_trip :
    ∃ decoded st', Returns SidHashmaps.cborToKeyMappingHashMap
        (zcborNewDecodeState 5 [0xBF, 0x18, 0xC8, 0x9F, 0x0A, 0x14, 0xFF, 0x18, 0x64, 0x9F, 0x01, 0x02, 0x03, 0xFF,
          0xFF] 1) (some decoded, st') ∧
      ∀ sid, SidHashmaps.sidKeysOf decoded sid = SidHashmaps.sidKeysOf mappingTable sid :=
  @key_mapping_tables_round_trip 0 mappingRun (by decide) _ mappingTable rfl (by decide) 256 _ rfl _ [] (by decide)
    (by decide) (by decide)

end Coreconf
