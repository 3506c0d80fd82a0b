import Coreconf.PathIndex
import Mathlib.Algebra.Order.BigOperators.Group.List
import Mathlib.Algebra.Order.Ring.Nat
import Mathlib.Data.List.Forall2
import Mathlib.Data.List.Perm.Subperm

set_option autoImplicit false

/- The search along a path finds the node that the walk with the requested values comes to. -/
namespace Coreconf

open CoreconfValueT

/-- The key leaves that the key mapping has for a SID. -/
def keyLeaves (keyMappingHashMap : List KeyMappingT) (sid : UInt64) : List Int64 :=
  (sidKeysOf keyMappingHashMap sid.toInt64).getD []

def CoreconfValueT.integer? (value : CoreconfValueT) : Option Int :=
  match value.toTree with
  | .int i => some i
  | _ => none

/-- The integer that an element of the array at the SID holds at a key leaf. -/
def leafInteger (sid : UInt64) (leaf : Int64) : CoreconfValueT → Option Int
  | .hashmap map => (getCoreconfHashMap map (leaf.toUInt64 - sid)).bind integer?
  | _ => none

/-- The element's key leaves equal the values, one each. -/
def HoldsValues (same : Int → Int64 → Prop) (sid : UInt64) (leaves values : List Int64)
    (element : CoreconfValueT) : Prop :=
  List.Forall₂ (fun leaf value => ∃ i, leafInteger sid leaf element = some i ∧ same i value) leaves values

/-- The walk from a value under `base` along the SIDs: the deltas are followed, and of an
array the first element is taken whose key leaves equal the next of the values. -/
inductive Walk (same : Int → Int64 → Prop) (keyMappingHashMap : List KeyMappingT) :
    UInt64 → CoreconfValueT → List UInt64 → List Int64 → CoreconfValueT → Prop
  | here {base node} : Walk same keyMappingHashMap base node [] [] node
  | member {base map sid value later values node}
      (bound : getCoreconfHashMap map (sid - base) = some value) (noArray : ∀ elements, value ≠ .array elements)
      (walk : Walk same keyMappingHashMap sid value later values node) :
      Walk same keyMappingHashMap base (.hashmap map) (sid :: later) values node
  | entry {base map sid before element after asked later values node}
      (bound : getCoreconfHashMap map (sid - base) = some (.array (before ++ element :: after)))
      (others : ∀ other ∈ before, ¬ HoldsValues same sid (keyLeaves keyMappingHashMap sid) asked other)
      (chosen : HoldsValues same sid (keyLeaves keyMappingHashMap sid) asked element)
      (walk : Walk same keyMappingHashMap sid element later values node) :
      Walk same keyMappingHashMap base (.hashmap map) (sid :: later) (asked ++ values) node

/-- On a chain exactly the SIDs of arrays have key leaves, each once, and every element is a
map with an integer at each of them. -/
structure KeyedChain (root : CoreconfValueT) (keyMappingHashMap : List KeyMappingT) (chain : List UInt64) :
    Prop where
  arrays : ∀ sid ∈ chain, ∀ parent node, Binds root parent sid node →
    ((∃ elements, node = .array elements) ↔ keyLeaves keyMappingHashMap sid ≠ [])
  distinct : ∀ sid ∈ chain, (keyLeaves keyMappingHashMap sid).Nodup
  integers : ∀ sid ∈ chain, ∀ parent elements, Binds root parent sid (.array elements) →
    ∀ element ∈ elements, ∀ leaf ∈ keyLeaves keyMappingHashMap sid, (leafInteger sid leaf element).isSome

/-- The integer is the value, as a long. -/
def SameLong (i : Int) (value : Int64) : Prop := Int64.ofInt i = value

theorem getCoreconfValueAsUint64_integer {value : CoreconfValueT} {i : Int} (integer : value.integer? = some i) :
    getCoreconfValueAsUint64 value = some (Int64.ofInt i).toUInt64 := by
  cases value <;> simp only [integer?, toTree, Option.some.injEq, reduceCtorEq] at integer <;>
    subst integer <;> rw [getCoreconfValueAsUint64]
  case int8 i => simp
  case int16 i => simp
  case int32 i => simp
  case int64 i => simp
  case uint8 u => simp [Int64.ofInt_eq_ofNat]
  case uint16 u => simp [Int64.ofInt_eq_ofNat]
  case uint32 u => simp [Int64.ofInt_eq_ofNat]
  case uint64 u => simp [Int64.ofInt_eq_ofNat]

theorem leafInteger_map {sid : UInt64} {leaf : Int64} {element : CoreconfValueT} {i : Int}
    (holds : leafInteger sid leaf element = some i) :
    ∃ map value, element = .hashmap map ∧ getCoreconfHashMap map (leaf.toUInt64 - sid) = some value ∧
      value.integer? = some i := by
  cases element with
  | hashmap map =>
      obtain ⟨value, found, integer⟩ := Option.bind_eq_some_iff.mp holds
      exact ⟨map, value, rfl, found, integer⟩
  | _ => cases holds

theorem popLong_eq (dynamicLongList : DynamicLongListT) :
    popLong dynamicLongList = (dynamicLongList.getLast?.getD 0, dynamicLongList.dropLast) := by
  rw [popLong]
  cases last : dynamicLongList.getLast? with
  | none =>
      rw [List.getLast?_eq_none_iff.mp last]
      rfl
  | some value => rfl

@[simp] theorem popLong_append (front : List Int64) (last : Int64) : popLong (front ++ [last]) = (last, front) := by
  simp [popLong]

/-- The element agrees with the value at the leaf. -/
def agrees (sid : UInt64) (element : CoreconfValueT) (asked : Int64 × Int64) : Bool :=
  (leafInteger sid asked.1 element).map Int64.ofInt = some asked.2

theorem holdsValues_iff {sid : UInt64} {element : CoreconfValueT} {leaves values : List Int64} :
    HoldsValues SameLong sid leaves values element ↔
      leaves.length = values.length ∧ ∀ asked ∈ leaves.zip values, agrees sid element asked := by
  rw [HoldsValues, List.forall₂_iff_zip]
  simp only [agrees, SameLong, decide_eq_true_eq, Option.map_eq_some_iff, Prod.forall]

/-- The leaves at which the element agrees. -/
def agreeing (sid : UInt64) (element : CoreconfValueT) (leaves values : List Int64) : List Int64 :=
  ((leaves.zip values).filter (agrees sid element)).map Prod.fst

theorem matchSidKey_leaf {sid : UInt64} {element : CoreconfValueT} {leaf value : Int64}
    (integer : (leafInteger sid leaf element).isSome) (front matched : List Int64) :
    matchSidKey element sid.toInt64 (some (front ++ [value]), matched) leaf =
      some (some front, if agrees sid element (leaf, value) then addUniqueLong matched leaf else matched) := by
  obtain ⟨i, holds⟩ := Option.isSome_iff_exists.mp integer
  obtain ⟨map, held, rfl, found, integer⟩ := leafInteger_map holds
  have equal : (Int64.ofInt i).toUInt64 = value.toUInt64 ↔ Int64.ofInt i = value :=
    ⟨fun same => by simpa using congrArg UInt64.toInt64 same, congrArg Int64.toUInt64⟩
  simp only [matchSidKey, UInt64.toUInt64_toInt64, found, Option.bind_some,
    getCoreconfValueAsUint64_integer integer, popLong_append, agrees, holds, Option.map_some, equal,
    Option.some.injEq, decide_eq_true_eq]

/-- The loop over the leaves takes one value each off the end of the request keys. -/
theorem foldlM_matchSidKey {sid : UInt64} {element : CoreconfValueT} {leaves values : List Int64}
    (integers : ∀ leaf ∈ leaves, (leafInteger sid leaf element).isSome)
    (counted : leaves.length = values.length) (front : List Int64) {matched : List Int64}
    (distinct : (matched ++ leaves).Nodup) :
    leaves.foldlM (matchSidKey element sid.toInt64) (some (front ++ values.reverse), matched) =
      some (some front, matched ++ agreeing sid element leaves values) := by
  induction leaves generalizing values matched with
  | nil =>
      obtain rfl := List.eq_nil_of_length_eq_zero counted.symm
      simp [agreeing]
  | cons leaf leaves ih =>
      cases values with
      | nil => cases counted
      | cons value values =>
          have first := @matchSidKey_leaf sid element leaf value (integers leaf List.mem_cons_self)
            (front ++ values.reverse) matched
          have rest := fun matched distinct => @ih values
            (fun other member => integers other (List.mem_cons_of_mem leaf member)) (by simpa using counted)
            matched distinct
          rw [List.reverse_cons, ← List.append_assoc, List.foldlM_cons, first, Option.bind_eq_bind,
            Option.bind_some]
          have new : leaf ∉ matched := by
            intro member
            exact (List.disjoint_of_nodup_append distinct) member List.mem_cons_self
          by_cases agree : agrees sid element (leaf, value)
          · have added : addUniqueLong matched leaf = matched ++ [leaf] := by rw [addUniqueLong, if_neg new, addLong]
            rw [if_pos agree, added, rest _ (by simpa using distinct)]
            simp [agreeing, agree]
          · rw [if_neg agree, rest _ (distinct.sublist (by simp))]
            simp [agreeing, agree]

theorem agreeing_sublist {sid : UInt64} {element : CoreconfValueT} {leaves values : List Int64}
    (counted : leaves.length = values.length) : (agreeing sid element leaves values).Sublist leaves := by
  have all : (leaves.zip values).map Prod.fst = leaves := List.map_fst_zip (Nat.le_of_eq counted)
  have sub := (List.filter_sublist (p := agrees sid element) (l := leaves.zip values)).map Prod.fst
  rwa [all] at sub

theorem compareDynamicLongList_sublist {leaves matched : List Int64} (sublist : matched.Sublist leaves)
    (nonempty : leaves ≠ []) : compareDynamicLongList leaves matched ↔ matched = leaves := by
  constructor
  · intro equal
    refine sublist.eq_of_length ?_
    by_contra differ
    rw [compareDynamicLongList] at equal
    split at equal
    · cases equal
    · rw [if_pos (Ne.symm differ)] at equal
      cases equal
  · rintro rfl
    simp [compareDynamicLongList, nonempty]

/-- An element matches exactly if its key leaves equal the values. -/
theorem compareDynamicLongList_agreeing {sid : UInt64} {element : CoreconfValueT} {leaves values : List Int64}
    (counted : leaves.length = values.length) (nonempty : leaves ≠ []) :
    compareDynamicLongList leaves (agreeing sid element leaves values) ↔
      HoldsValues SameLong sid leaves values element := by
  rw [compareDynamicLongList_sublist (agreeing_sublist counted) nonempty, holdsValues_iff,
    and_iff_right counted, ← List.length_filter_eq_length_iff]
  have zipped : (leaves.zip values).length = leaves.length := by simp [counted]
  constructor
  · intro all
    have size := congrArg List.length all
    rw [agreeing, List.length_map] at size
    omega
  · intro all
    refine (agreeing_sublist counted).eq_of_length ?_
    rw [agreeing, List.length_map]
    omega

/-- The keys that a map with integers at the leaves has are no more than its table holds. -/
theorem keyLeaves_few {sid : UInt64} {leaves : List Int64} {element : CoreconfValueT} (valid : Valid element)
    (distinct : leaves.Nodup) (nonempty : leaves ≠ [])
    (integers : ∀ leaf ∈ leaves, (leafInteger sid leaf element).isSome) : leaves.length < 2 ^ 31 := by
  obtain ⟨first, member⟩ := List.exists_mem_of_ne_nil leaves nonempty
  obtain ⟨i, holds⟩ := Option.isSome_iff_exists.mp (integers first member)
  obtain ⟨map, -, rfl, -, -⟩ := leafInteger_map holds
  have keys : leaves.map (fun leaf => leaf.toUInt64 - sid) ⊆ map.objects.map (·.key) := by
    intro key member
    obtain ⟨leaf, inside, rfl⟩ := List.mem_map.mp member
    obtain ⟨i, holds⟩ := Option.isSome_iff_exists.mp (integers leaf inside)
    obtain ⟨map', value, same, found, -⟩ := leafInteger_map holds
    cases same
    exact List.mem_map.mpr ⟨_, valid.repInv.get_eq_some.mp found, rfl⟩
  have injective : Function.Injective fun leaf : Int64 => leaf.toUInt64 - sid := by
    intro leaf leaf' same
    have equal := congrArg (fun key => (key + sid).toInt64) same
    simpa using equal
  have fewer := ((distinct.map injective).subperm keys).length_le
  have held : map.objects.length ≤ HASHMAP_TABLE_SIZE * (CORECONF_MAX_LOOP + 2) := by
    have chains : ∀ length ∈ map.table.map List.length, length ≤ CORECONF_MAX_LOOP + 2 := by
      intro length member
      obtain ⟨chain, inside, rfl⟩ := List.mem_map.mp member
      obtain ⟨i, bound, rfl⟩ := List.getElem_of_mem inside
      have short := valid.repInv.chainLength i
      rwa [List.getD_eq_getElem _ _ bound] at short
    have total := List.sum_le_card_nsmul _ _ chains
    rw [List.length_map, valid.repInv.tableLength] at total
    rw [CoreconfHashMapT.objects, List.length_flatten]
    exact total
  simp only [List.length_map, HASHMAP_TABLE_SIZE, CORECONF_MAX_LOOP] at fewer held
  omega

theorem loopedSidKeys_eq {leaves : List Int64} (few : leaves.length < 2 ^ 31) : loopedSidKeys leaves = leaves := by
  rw [loopedSidKeys, List.take_of_length_le]
  have same := Int32.toInt_ofNat_of_lt few
  omega

/-- What the request keys are once an element has been selected. -/
def keysLeft (front requestKeys : List Int64) : List Int64 := if front = [] then requestKeys else front

/-- The first element that matches is selected. -/
theorem selectElement_first {sid : UInt64} {leaves asked : List Int64} {before after : List CoreconfValueT}
    {element : CoreconfValueT} (few : leaves.length < 2 ^ 31) (nonempty : leaves ≠ []) (distinct : leaves.Nodup)
    (integers : ∀ other ∈ before ++ element :: after, ∀ leaf ∈ leaves, (leafInteger sid leaf other).isSome)
    (others : ∀ other ∈ before, ¬ HoldsValues SameLong sid leaves asked other)
    (chosen : HoldsValues SameLong sid leaves asked element) (front : List Int64) :
    selectElement leaves sid.toInt64 (front ++ asked.reverse) (before ++ element :: after) =
      some (some element, keysLeft front (front ++ asked.reverse)) := by
  have counted : leaves.length = asked.length := (holdsValues_iff.mp chosen).1
  have cloned : cloneDynamicLongList (front ++ asked.reverse) none = some (front ++ asked.reverse) := by
    have positive := List.length_pos_iff.mpr nonempty
    rw [cloneDynamicLongList, if_neg]
    rw [List.length_append, List.length_reverse]
    omega
  have checked : ∀ other ∈ before ++ element :: after,
      (loopedSidKeys leaves).foldlM (matchSidKey other sid.toInt64)
        (cloneDynamicLongList (front ++ asked.reverse) none, []) =
          some (some front, agreeing sid other leaves asked) := by
    intro other member
    rw [loopedSidKeys_eq few, cloned, foldlM_matchSidKey (integers other member) counted front
      (show ([] ++ leaves).Nodup from distinct)]
    rfl
  induction before with
  | nil =>
      have matched := (compareDynamicLongList_agreeing counted nonempty).mpr chosen
      rw [List.nil_append, selectElement, checked element List.mem_cons_self]
      simp only [matched, if_true, Option.bind_some, cloneDynamicLongList, keysLeft, List.length_eq_zero_iff]
      split <;> rfl
  | cons other before ih =>
      have differs := mt (compareDynamicLongList_agreeing counted nonempty).mp (others other List.mem_cons_self)
      rw [List.cons_append, selectElement, checked other List.mem_cons_self]
      simp only [if_neg differs]
      exact ih (fun later member => integers later (List.mem_cons_of_mem other member))
        (fun later member => others later (List.mem_cons_of_mem other member))
        (fun later member => checked later (List.mem_cons_of_mem other member))

section Path

variable {keyMappingHashMap : List KeyMappingT} {map : CoreconfHashMapT CoreconfValueT} {base sid : UInt64}
  (nonzero : sid ≠ 0) {value : CoreconfValueT} (bound : getCoreconfHashMap map (sid - base) = some value)
include nonzero bound

/-- A SID without key leaves is a step to its value. -/
theorem examinePath_member (leafless : keyLeaves keyMappingHashMap sid = []) (later : List PathNodeT)
    (requestKeys : List Int64) :
    examinePath (pathNodeOf keyMappingHashMap sid :: later) (some (.hashmap map)) base.toInt64 requestKeys =
      examinePath later (some value) sid.toInt64 requestKeys := by
  have inner : ¬ sid.toInt64 = 0 := fun zero => nonzero (toInt64_inj.mp zero)
  rw [keyLeaves] at leafless
  simp only [examinePath, pathNodeOf, if_neg inner, Int64.toUInt64_sub, UInt64.toUInt64_toInt64, bound]
  cases keys : sidKeysOf keyMappingHashMap sid.toInt64 with
  | none => rfl
  | some sidKeys =>
      rw [keys, Option.getD_some] at leafless
      rw [leafless]

/-- At an array the search goes on in the element that is selected. -/
theorem examinePath_entry {elements : List CoreconfValueT} (array : value = .array elements)
    (nonempty : keyLeaves keyMappingHashMap sid ≠ []) {requestKeys left : List Int64} {element : CoreconfValueT}
    (selected : selectElement (keyLeaves keyMappingHashMap sid) sid.toInt64 requestKeys elements =
      some (some element, left)) (later : List PathNodeT) :
    examinePath (pathNodeOf keyMappingHashMap sid :: later) (some (.hashmap map)) base.toInt64 requestKeys =
      examinePath later (some element) sid.toInt64 left := by
  have inner : ¬ sid.toInt64 = 0 := fun zero => nonzero (toInt64_inj.mp zero)
  subst array
  rw [keyLeaves] at nonempty selected
  simp only [examinePath, pathNodeOf, if_neg inner, Int64.toUInt64_sub, UInt64.toUInt64_toInt64, bound]
  cases keys : sidKeysOf keyMappingHashMap sid.toInt64 with
  | none => exact absurd (by rw [keys]; rfl) nonempty
  | some sidKeys =>
      rw [keys, Option.getD_some] at nonempty selected
      cases sidKeys with
      | nil => exact absurd rfl nonempty
      | cons leaf leaves =>
          simp only [selected, Option.getD_some]

end Path

/-- Where the walk comes to a node, the search does, if the request keys are the values from
the last to the first. -/
theorem examinePath_walk {root : CoreconfValueT} (model : Indexable root) {keyMappingHashMap : List KeyMappingT}
    {all : List UInt64} (keyed : KeyedChain root keyMappingHashMap all) {base : UInt64}
    {value node : CoreconfValueT} {chain : List UInt64} {values : List Int64}
    (walk : Walk SameLong keyMappingHashMap base value chain values node) (inside : ∀ sid ∈ chain, sid ∈ all)
    (located : NodeAt root base value) {requestKeys : List Int64}
    (asked : values ≠ [] → requestKeys = values.reverse) :
    ∃ left, examinePath (pathTo keyMappingHashMap chain) (some value) base.toInt64 requestKeys =
      some (some ((chain.getLast?.getD base).toInt64, some node), left) := by
  induction walk generalizing requestKeys with
  | here => exact ⟨requestKeys, rfl⟩
  | @member base map sid value later values node bound noArray walk ih =>
      have binds := located.binds model.valid bound
      have leafless : keyLeaves keyMappingHashMap sid = [] := by
        by_contra nonempty
        obtain ⟨elements, array⟩ := (keyed.arrays sid (inside sid List.mem_cons_self) base value binds).mpr nonempty
        exact noArray elements array
      have nonzero := model.nonzero base sid ⟨value, binds⟩
      have rest : ∀ other ∈ later, other ∈ all :=
        fun other member => inside other (List.mem_cons_of_mem sid member)
      obtain ⟨left, found⟩ := ih rest binds.nodeAt asked
      refine ⟨left, ?_⟩
      rw [List.getLast?_cons, Option.getD_some]
      exact (examinePath_member nonzero bound leafless _ requestKeys).trans found
  | @entry base map sid before element after block later values node bound others chosen walk ih =>
      have binds := located.binds model.valid bound
      have onChain := inside sid List.mem_cons_self
      have nonempty := (keyed.arrays sid onChain base _ binds).mp ⟨_, rfl⟩
      have integers := keyed.integers sid onChain base _ binds
      have distinct := keyed.distinct sid onChain
      have nonzero := model.nonzero base sid ⟨_, binds⟩
      have there : element ∈ before ++ element :: after := by simp
      have under : NodeAt root sid element := binds.nodeAt.tail (.element there)
      have few := keyLeaves_few (under.valid model.valid) distinct nonempty (integers element there)
      have counted := (holdsValues_iff.mp chosen).1
      have keys : requestKeys = values.reverse ++ block.reverse := by
        rw [← List.reverse_append]
        refine asked fun none => ?_
        rw [(List.append_eq_nil_iff.mp none).1] at counted
        exact nonempty (List.eq_nil_of_length_eq_zero counted)
      have selected := selectElement_first few nonempty distinct integers others chosen values.reverse
      rw [← keys] at selected
      have rest : ∀ other ∈ later, other ∈ all :=
        fun other member => inside other (List.mem_cons_of_mem sid member)
      obtain ⟨left, found⟩ := @ih rest under
        (keysLeft values.reverse requestKeys) (fun more => if_neg fun none => more (List.reverse_eq_nil_iff.mp none))
      refine ⟨left, ?_⟩
      rw [List.getLast?_cons, Option.getD_some]
      exact (examinePath_entry nonzero bound rfl nonempty selected _).trans found

theorem ChainTo.getLast {root : CoreconfValueT} {sid : UInt64} {chain : List UInt64}
    (chained : ChainTo root sid chain) : chain.getLast?.getD 0 = sid := by
  cases chained with
  | root => rfl
  | child above parentOf => rw [List.getLast?_concat, Option.getD_some]

/-- What a lookup of a SID is to give: the path is its chain, and the search along it the map
of the SID and the node that the walk comes to, whichever values are requested. -/
structure LooksUp (same : Int → Int64 → Prop) (root : CoreconfValueT) (keyMappingHashMap : List KeyMappingT)
    (clookupHashmap : List CLookupT) (sid : UInt64) (chain : List UInt64) : Prop where
  path : ∃ fuel left, findRequirementForSID fuel sid clookupHashmap keyMappingHashMap =
    some (some (pathTo keyMappingHashMap chain), left)
  node : ∀ values node, Walk same keyMappingHashMap 0 root chain values node →
    ∃ map left, examineCoreconfValue (some root) values.reverse (some (pathTo keyMappingHashMap chain)) =
      some (some (.hashmap map), left) ∧ map.objects = [⟨sid, some node⟩]

theorem examineCoreconfValue_walk {root : CoreconfValueT} (model : Indexable root)
    {keyMappingHashMap : List KeyMappingT} {sid : UInt64} {chain : List UInt64} (chained : ChainTo root sid chain)
    (keyed : KeyedChain root keyMappingHashMap chain) {values : List Int64} {node : CoreconfValueT}
    (walk : Walk SameLong keyMappingHashMap 0 root chain values node) :
    ∃ map left, examineCoreconfValue (some root) values.reverse (some (pathTo keyMappingHashMap chain)) =
      some (some (.hashmap map), left) ∧ map.objects = [⟨sid, some node⟩] := by
  obtain ⟨left, found⟩ := examinePath_walk model keyed walk (fun _ member => member) .refl (fun _ => rfl)
  rw [chained.getLast] at found
  refine ⟨_, left, ?_, insert_create_objects sid node⟩
  rw [examineCoreconfValue]
  exact congrArg (Option.map _) found

/-- With the index of a model every SID is looked up, where its chain is keyed and key leaves
are compared as longs. -/
theorem sids_looked_up {root : CoreconfValueT} (model : Indexable root) (keyMappingHashMap : List KeyMappingT) :
    ∃ clookupHashmap, buildCLookupHashmapFromCoreconf root [] 0 0 = some clookupHashmap ∧
      ∀ parent sid, ParentOf root parent sid → ∃ chain, ChainTo root sid chain ∧
        (KeyedChain root keyMappingHashMap chain →
          LooksUp SameLong root keyMappingHashMap clookupHashmap sid chain) := by
  obtain ⟨clookupHashmap, built, recorded⟩ := parentsOf_built model
  refine ⟨clookupHashmap, built, fun parent sid parentOf => ?_⟩
  obtain ⟨chain, chained⟩ := parentOf.chain
  have nonzero := model.nonzero parent sid parentOf
  refine ⟨chain, chained, fun keyed => ⟨?_, fun values node walk => ?_⟩⟩
  · exact findRequirementForSID_chain model recorded chained nonzero
  · exact examineCoreconfValue_walk model chained keyed walk

/-- A map of one member, with the delta 1. -/
def entryOf (value : CoreconfValueT) : CoreconfHashMapT CoreconfValueT :=
  (insertCoreconfHashMap createCoreconfHashmap 1 (some value)).2

theorem entryOf_objects (value : CoreconfValueT) : (entryOf value).objects = [⟨1, some value⟩] :=
  insert_create_objects 1 value

theorem entryOf_get (value : CoreconfValueT) : getCoreconfHashMap (entryOf value) 1 = some value := rfl

theorem entryOf_valid {value : CoreconfValueT} (valid : Valid value) : Valid (.hashmap (entryOf value)) :=
  valid_createCoreconfHashmap.insert valid 1

/-- At SID 1 an array of maps with the values at SID 2. -/
def keyedModel (values : List CoreconfValueT) : CoreconfValueT :=
  .hashmap (entryOf (.array (values.map fun value => .hashmap (entryOf value))))

/-- SID 2 is the key leaf of SID 1. -/
def keyedBySecond : List KeyMappingT := [⟨1, [2]⟩]

theorem bindings_leaf {levels : Nat} {base : UInt64} {value : CoreconfValueT}
    (leaf : value.isContainer = Bool.false) : bindings levels base value = [] := by
  cases levels with
  | zero => rfl
  | succ levels => cases value <;> first | rfl | cases leaf

theorem leafInteger_entryOf {sid : UInt64} {leaf : Int64} (delta : leaf.toUInt64 - sid = 1) (value : CoreconfValueT) :
    leafInteger sid leaf (.hashmap (entryOf value)) = value.integer? := by
  rw [leafInteger, delta, entryOf_get, Option.bind_some]

section KeyedModel

variable {values : List CoreconfValueT} (leaves : ∀ value ∈ values, value.isContainer = Bool.false)
include leaves

theorem keyedModel_nests : NestsWithin (MAX_CORECONF_RECURSION_DEPTH + 1) (keyedModel values) := by
  refine .hashmap fun object member array present => ?_
  rw [entryOf_objects, List.mem_singleton] at member
  subst member
  cases present
  refine .array fun element inside => ?_
  obtain ⟨value, listed, rfl⟩ := List.mem_map.mp inside
  refine .hashmap fun object member leaf present => ?_
  rw [entryOf_objects, List.mem_singleton] at member
  subst member
  cases present
  exact .leaf (leaves value listed)

theorem keyedModel_bindings : bindings (MAX_CORECONF_RECURSION_DEPTH + 1) 0 (keyedModel values) =
    (0, ⟨1, some (.array (values.map fun value => .hashmap (entryOf value)))⟩) ::
      values.map fun value => (1, ⟨1, some value⟩) := by
  simp only [MAX_CORECONF_RECURSION_DEPTH, keyedModel, bindings, entryOf_objects, List.flatMap_cons,
    List.flatMap_nil, Option.map_some, Option.getD_some, List.append_nil, List.cons.injEq, true_and,
    List.flatMap_map]
  rw [List.map_eq_flatMap]
  refine List.flatMap_congr fun value listed => ?_
  rw [bindings_leaf (leaves value listed)]
  rfl

theorem keyedModel_binds {parent sid : UInt64} {node : CoreconfValueT} :
    Binds (keyedModel values) parent sid node ↔
      parent = 0 ∧ sid = 1 ∧ node = .array (values.map fun value => .hashmap (entryOf value)) ∨
        parent = 1 ∧ sid = 2 ∧ node ∈ values := by
  rw [binds_iff (keyedModel_nests leaves), keyedModel_bindings leaves]
  simp only [List.mem_cons, List.mem_map, Prod.mk.injEq, CoreconfObjectT.mk.injEq, Option.some.injEq]
  constructor
  · rintro ⟨key, ⟨rfl, rfl, rfl⟩ | ⟨value, listed, rfl, rfl, rfl⟩, rfl⟩
    · exact Or.inl ⟨rfl, rfl, rfl⟩
    · exact Or.inr ⟨rfl, rfl, listed⟩
  · rintro (⟨rfl, rfl, rfl⟩ | ⟨rfl, rfl, listed⟩)
    · exact ⟨1, Or.inl ⟨rfl, rfl, rfl⟩, rfl⟩
    · exact ⟨1, Or.inr ⟨node, listed, rfl, rfl, rfl⟩, rfl⟩

theorem keyedModel_indexable : Indexable (keyedModel values) := by
  refine ⟨entryOf_valid (.array fun element inside => ?_), keyedModel_nests leaves, ?_, ?_⟩
  · obtain ⟨value, listed, rfl⟩ := List.mem_map.mp inside
    exact entryOf_valid (.leaf (leaves value listed))
  · rintro parent sid ⟨node, binds⟩
    rcases (keyedModel_binds leaves).mp binds with ⟨-, rfl, -⟩ | ⟨-, rfl, -⟩ <;> decide
  · rintro parent parent' sid ⟨node, binds⟩ ⟨node', binds'⟩
    rcases (keyedModel_binds leaves).mp binds with ⟨rfl, rfl, -⟩ | ⟨rfl, rfl, -⟩ <;>
      rcases (keyedModel_binds leaves).mp binds' with ⟨rfl, same, -⟩ | ⟨rfl, same, -⟩ <;>
      first | rfl | cases same

theorem keyedModel_chain (nonempty : values ≠ []) : ChainTo (keyedModel values) 2 [1, 2] := by
  obtain ⟨value, listed⟩ := List.exists_mem_of_ne_nil values nonempty
  have first : ParentOf (keyedModel values) 0 1 := ⟨_, (keyedModel_binds leaves).mpr (Or.inl ⟨rfl, rfl, rfl⟩)⟩
  have second : ParentOf (keyedModel values) 1 2 :=
    ⟨value, (keyedModel_binds leaves).mpr (Or.inr ⟨rfl, rfl, listed⟩)⟩
  exact .child (.child .root first) second

theorem keyedModel_keyed (integers : ∀ value ∈ values, value.integer?.isSome) :
    KeyedChain (keyedModel values) keyedBySecond [1, 2] := by
  refine ⟨fun sid onChain parent node binds => ?_, fun sid onChain => ?_,
    fun sid onChain parent elements binds => ?_⟩
  · rcases (keyedModel_binds leaves).mp binds with ⟨-, rfl, rfl⟩ | ⟨-, rfl, listed⟩
    · exact ⟨fun _ => by decide, fun _ => ⟨_, rfl⟩⟩
    · refine ⟨fun array => ?_, fun keyed => absurd (by decide) keyed⟩
      obtain ⟨elements, rfl⟩ := array
      cases leaves _ listed
  · rcases List.mem_pair.mp onChain with rfl | rfl <;> decide
  · intro element inside leaf member
    rcases (keyedModel_binds leaves).mp binds with ⟨-, rfl, array⟩ | ⟨-, rfl, listed⟩
    · obtain rfl := CoreconfValueT.array.inj array
      obtain ⟨value, listed, rfl⟩ := List.mem_map.mp inside
      obtain rfl : leaf = 2 := List.mem_singleton.mp member
      rw [leafInteger_entryOf (show Int64.toUInt64 2 - 1 = 1 by decide)]
      exact integers value listed
    · cases member

end KeyedModel

theorem keyedModel_holds {same : Int → Int64 → Prop} {asked : Int64} {value : CoreconfValueT} :
    HoldsValues same 1 (keyLeaves keyedBySecond 1) [asked] (.hashmap (entryOf value)) ↔
      ∃ i, value.integer? = some i ∧ same i asked := by
  rw [HoldsValues, show keyLeaves keyedBySecond 1 = [2] by decide, List.forall₂_cons, and_iff_left .nil,
    leafInteger_entryOf (show Int64.toUInt64 2 - 1 = 1 by decide)]

/-- The walk to the first value that equals the requested one. -/
theorem keyedModel_walk {same : Int → Int64 → Prop} {asked : Int64} {before after : List CoreconfValueT}
    {value : CoreconfValueT} (others : ∀ other ∈ before, ¬ ∃ i, other.integer? = some i ∧ same i asked)
    (chosen : ∃ i, value.integer? = some i ∧ same i asked) :
    Walk same keyedBySecond 0 (keyedModel (before ++ value :: after)) [1, 2] [asked] value := by
  have bound : getCoreconfHashMap (entryOf (.array ((before ++ value :: after).map fun value =>
      .hashmap (entryOf value)))) (1 - 0) = some (.array (before.map (fun value => .hashmap (entryOf value)) ++
        .hashmap (entryOf value) :: after.map fun value => .hashmap (entryOf value))) := by
    rw [List.map_append, List.map_cons]
    exact entryOf_get _
  have inner : Walk same keyedBySecond 1 (.hashmap (entryOf value)) [2] [] value := by
    refine .member (entryOf_get value) (fun elements array => ?_) .here
    obtain ⟨i, integer, -⟩ := chosen
    rw [array] at integer
    cases integer
  refine .entry bound (fun element inside => ?_) (keyedModel_holds.mpr chosen) inner
  obtain ⟨other, member, rfl⟩ := List.mem_map.mp inside
  exact mt keyedModel_holds.mp (others other member)

/-- The key 9 is that of the second entry. -/
theorem second_entry_looked_up :
    ∃ map left, examineCoreconfValue (some (keyedModel [.uint8 7, .uint8 9])) [9]
        (some (pathTo keyedBySecond [1, 2])) = some (some (.hashmap map), left) ∧
      map.objects = [⟨2, some (.uint8 9)⟩] := by
  have leaves : ∀ value ∈ [CoreconfValueT.uint8 7, .uint8 9], value.isContainer = Bool.false := by
    simp [isContainer]
  have integers : ∀ value ∈ [CoreconfValueT.uint8 7, .uint8 9], value.integer?.isSome := by
    simp [integer?, toTree]
  have model := keyedModel_indexable leaves
  have chained := keyedModel_chain leaves (List.cons_ne_nil _ _)
  have second : ParentOf (keyedModel [.uint8 7, .uint8 9]) 1 2 :=
    ⟨.uint8 9, (keyedModel_binds leaves).mpr (Or.inr ⟨rfl, rfl, by simp⟩)⟩
  obtain ⟨clookupHashmap, -, looked⟩ := sids_looked_up model keyedBySecond
  obtain ⟨chain, chained', looksUp⟩ := looked 1 2 second
  obtain rfl := chained.unique model chained'
  have walk : Walk SameLong keyedBySecond 0 (keyedModel ([.uint8 7] ++ .uint8 9 :: [])) [1, 2] [9] (.uint8 9) :=
    keyedModel_walk (by simp [integer?, toTree, SameLong]) ⟨9, rfl, rfl⟩
  exact (looksUp (keyedModel_keyed leaves integers)).node [9] _ walk

/-- The integer is the value. -/
def SameInteger (i : Int) (value : Int64) : Prop := i = value.toInt

/-- The request for -1 finds the entry with the unsigned key 2^64 - 1 in front of the one
with the key -1. -/
theorem unsigned_key_found :
    Indexable (keyedModel [.uint64 (-1), .int64 (-1)]) ∧
      ChainTo (keyedModel [.uint64 (-1), .int64 (-1)]) 2 [1, 2] ∧
      KeyedChain (keyedModel [.uint64 (-1), .int64 (-1)]) keyedBySecond [1, 2] ∧
      ∀ clookupHashmap, ¬ LooksUp SameInteger (keyedModel [.uint64 (-1), .int64 (-1)]) keyedBySecond clookupHashmap
        2 [1, 2] := by
  have leaves : ∀ value ∈ [CoreconfValueT.uint64 (-1), .int64 (-1)], value.isContainer = Bool.false := by
    simp [isContainer]
  have integers : ∀ value ∈ [CoreconfValueT.uint64 (-1), .int64 (-1)], value.integer?.isSome := by
    simp [integer?, toTree]
  have model := keyedModel_indexable leaves
  have chained := keyedModel_chain leaves (List.cons_ne_nil _ _)
  have keyed := keyedModel_keyed leaves integers
  refine ⟨model, chained, keyed, fun clookupHashmap looksUp => ?_⟩
  have first : Walk SameLong keyedBySecond 0 (keyedModel ([] ++ .uint64 (-1) :: [.int64 (-1)])) [1, 2] [-1]
      (.uint64 (-1)) := keyedModel_walk (by simp) ⟨18446744073709551615, rfl, show Int64.ofInt _ = _ by decide⟩
  have second : Walk SameInteger keyedBySecond 0 (keyedModel ([.uint64 (-1)] ++ .int64 (-1) :: [])) [1, 2] [-1]
      (.int64 (-1)) :=
    keyedModel_walk (by simp [integer?, toTree, SameInteger]) ⟨-1, rfl, show _ = Int64.toInt _ by decide⟩
  obtain ⟨map, left, examined, objects⟩ := looksUp.node [-1] _ second
  obtain ⟨map', left', examined', objects'⟩ := examineCoreconfValue_walk model chained keyed first
  cases examined.symm.trans examined'
  cases objects.symm.trans objects'

end Coreconf
