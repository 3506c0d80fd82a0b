import Coreconf.EncoderItems
import Coreconf.Manipulation
import Mathlib.Logic.Relation

set_option autoImplicit false

/- The index that is built from a model, and the way up that is found with it: from a SID to
its only parent, as far as the root. -/
namespace Coreconf

open Fuel CoreconfValueT

theorem toInt64_inj {a b : UInt64} : a.toInt64 = b.toInt64 ↔ a = b :=
  ⟨fun same => by simpa using congrArg Int64.toUInt64 same, congrArg UInt64.toInt64⟩

section Items

variable {T : Type} {compare : T → T → Bool} (key : T → Int64) (byKey : ∀ a b, compare a b = (key a != key b))
include byKey

theorem hashmapGet_eq (items : List T) (item : T) :
    hashmapGet compare items item = items.find? fun found => key item == key found := by
  rw [hashmapGet]
  congr 1
  funext found
  rw [byKey, bne, Bool.not_not]

theorem hashmapGet_key {items : List T} {item found : T} (got : hashmapGet compare items item = some found) :
    key found = key item := by
  rw [hashmapGet_eq key byKey] at got
  have same : key item = key found := by simpa using List.find?_some got
  exact same.symm

theorem hashmapGet_set (items : List T) (item probe : T) :
    hashmapGet compare (hashmapSet compare items item) probe =
      if key probe = key item then some item else hashmapGet compare items probe := by
  rw [hashmapSet]
  cases present : hashmapGet compare items item with
  | none =>
      rw [hashmapGet_eq key byKey] at present
      simp only [hashmapGet_eq key byKey, List.find?_append]
      by_cases same : key probe = key item
      · simp [same, present]
      · simp [same]
  | some old =>
      have replaced : ∀ found, (if compare item found then found else item) =
          if key item = key found then item else found := by
        intro found
        by_cases same : key item = key found <;> simp [byKey, same]
      have kept : (fun found => key probe == key found) ∘
          (fun found => if key item = key found then item else found) =
            fun found => key probe == key found := by
        funext found
        by_cases same : key item = key found <;> simp [same]
      simp only [replaced, hashmapGet_eq key byKey, List.find?_map, kept]
      by_cases same : key probe = key item
      · rw [hashmapGet_eq key byKey] at present
        rw [same, present, if_pos rfl, Option.map_some, if_pos]
        simpa using List.find?_some present
      · rw [if_neg same]
        cases there : items.find? fun found => key probe == key found with
        | none => rfl
        | some found =>
            have named : key probe = key found := by simpa using List.find?_some there
            rw [Option.map_some, if_neg (named ▸ Ne.symm same)]

theorem keys_set (items : List T) (item : T) :
    (hashmapSet compare items item).map key =
      if key item ∈ items.map key then items.map key else items.map key ++ [key item] := by
  have got := hashmapGet_eq key byKey items item
  rw [hashmapSet]
  cases found : hashmapGet compare items item with
  | none =>
      have absent : key item ∉ items.map key := by
        intro member
        obtain ⟨other, inside, same⟩ := List.mem_map.mp member
        rw [found, eq_comm, List.find?_eq_none] at got
        exact got other inside (by simp [same])
      rw [if_neg absent, List.map_append]
      rfl
  | some old =>
      have inside : old ∈ items := List.mem_of_find?_eq_some found
      have named := hashmapGet_key key byKey found
      rw [if_pos (List.mem_map.mpr ⟨old, inside, named⟩), List.map_map]
      apply List.map_congr_left
      intro other _
      by_cases same : key item = key other
      · simp [byKey, same]
      · simp [byKey, same]

end Items

/-- The parents that the index has for a SID. -/
def parentsOf (clookupHashmap : List CLookupT) (sid : UInt64) : Option DynamicLongListT :=
  (hashmapGet clookupCompare clookupHashmap ⟨sid.toInt64, []⟩).map (·.dynamicLongList)

theorem clookupCompare_key (a b : CLookupT) : clookupCompare a b = (a.childSID != b.childSID) := rfl

theorem parentsOf_set (clookupHashmap : List CLookupT) (sid other : UInt64) (parents : DynamicLongListT) :
    parentsOf (hashmapSet clookupCompare clookupHashmap ⟨sid.toInt64, parents⟩) other =
      if other = sid then some parents else parentsOf clookupHashmap other := by
  rw [parentsOf, hashmapGet_set CLookupT.childSID clookupCompare_key]
  simp only [toInt64_inj]
  split <;> rfl

theorem parentsOf_record (clookupHashmap : List CLookupT) (sid parent other : UInt64) :
    parentsOf (recordParent clookupHashmap sid.toInt64 parent.toInt64) other =
      if other = sid then some (addUniqueLong ((parentsOf clookupHashmap sid).getD []) parent.toInt64)
      else parentsOf clookupHashmap other := by
  rw [recordParent, parentsOf.eq_def clookupHashmap sid]
  cases found : hashmapGet clookupCompare clookupHashmap ⟨sid.toInt64, []⟩ with
  | none => exact parentsOf_set clookupHashmap sid other _
  | some clookup =>
      have named := hashmapGet_key CLookupT.childSID clookupCompare_key found
      simp only [named, Option.map_some, Option.getD_some]
      exact parentsOf_set clookupHashmap sid other _

/-- The index after the records of these pairs of a parent and a SID. -/
def recordAll (clookupHashmap : List CLookupT) (edges : List (UInt64 × UInt64)) : List CLookupT :=
  edges.foldl (fun clookupHashmap edge => recordParent clookupHashmap edge.2.toInt64 edge.1.toInt64)
    clookupHashmap

/-- A SID that is recorded with one parent only has this parent. -/
theorem parentsOf_recordAll {edges : List (UInt64 × UInt64)} {clookupHashmap : List CLookupT}
    {parent sid : UInt64} (only : ∀ other, (other, sid) ∈ edges → other = parent)
    (before : parentsOf clookupHashmap sid = none ∨ parentsOf clookupHashmap sid = some [parent.toInt64])
    (recorded : (parent, sid) ∈ edges ∨ parentsOf clookupHashmap sid = some [parent.toInt64]) :
    parentsOf (recordAll clookupHashmap edges) sid = some [parent.toInt64] := by
  induction edges generalizing clookupHashmap with
  | nil =>
      rcases recorded with member | present
      · cases member
      · exact present
  | cons edge edges ih =>
      obtain ⟨parent', sid'⟩ := edge
      rw [recordAll, List.foldl_cons]
      have later : ∀ other, (other, sid) ∈ edges → other = parent :=
        fun other member => only other (List.mem_cons_of_mem _ member)
      have here := parentsOf_record clookupHashmap sid' parent' sid
      by_cases named : sid = sid'
      · subst named
        obtain rfl := only parent' List.mem_cons_self
        have single : addUniqueLong ((parentsOf clookupHashmap sid).getD []) parent'.toInt64 =
            [parent'.toInt64] := by
          rcases before with absent | present
          · simp [absent, addUniqueLong, addLong]
          · simp [present, addUniqueLong]
        rw [if_pos rfl, single] at here
        exact ih later (Or.inr here) (Or.inr here)
      · rw [if_neg named] at here
        refine ih later (by rw [here]; exact before) ?_
        rw [here]
        rcases recorded with member | present
        · rcases List.mem_cons.mp member with first | member
          · exact absurd (congrArg Prod.snd first) named
          · exact Or.inl member
        · exact Or.inr present

/-- A value right under another, each with the SID that its members' keys are deltas to. -/
inductive Under : UInt64 × CoreconfValueT → UInt64 × CoreconfValueT → Prop
  | member {base key map value} (bound : (⟨key, some value⟩ : CoreconfObjectT CoreconfValueT) ∈ map.objects) :
      Under (base, .hashmap map) (base + key, value)
  | element {base elements value} (inside : value ∈ elements) : Under (base, .array elements) (base, value)

/-- The value is somewhere in the model, under this SID. -/
def NodeAt (root : CoreconfValueT) (sid : UInt64) (node : CoreconfValueT) : Prop :=
  Relation.ReflTransGen Under (0, root) (sid, node)

/-- A map under the parent binds the SID to the value. -/
def Binds (root : CoreconfValueT) (parent sid : UInt64) (node : CoreconfValueT) : Prop :=
  ∃ map key, NodeAt root parent (.hashmap map) ∧
    (⟨key, some node⟩ : CoreconfObjectT CoreconfValueT) ∈ map.objects ∧ sid = parent + key

def ParentOf (root : CoreconfValueT) (parent sid : UInt64) : Prop := ∃ node, Binds root parent sid node

/-- Containers nest at most this deep. -/
inductive NestsWithin : Nat → CoreconfValueT → Prop
  | hashmap {depth map} (each : ∀ object ∈ map.objects, ∀ value, object.value = some value →
      NestsWithin depth value) : NestsWithin (depth + 1) (.hashmap map)
  | array {depth elements} (each : ∀ element ∈ elements, NestsWithin depth element) :
      NestsWithin (depth + 1) (.array elements)
  | leaf {depth value} (leaf : value.isContainer = Bool.false) : NestsWithin depth value

/-- A model of which every SID has one parent, to be indexed from its root. -/
structure Indexable (root : CoreconfValueT) : Prop where
  valid : Valid root
  nests : NestsWithin (MAX_CORECONF_RECURSION_DEPTH + 1) root
  nonzero : ∀ parent sid, ParentOf root parent sid → sid ≠ 0
  oneParent : ∀ parent parent' sid, ParentOf root parent sid → ParentOf root parent' sid → parent = parent'

/-- The objects of the maps, each with its parent, in the order in which they are recorded. -/
def bindings : Nat → UInt64 → CoreconfValueT → List (UInt64 × CoreconfObjectT CoreconfValueT)
  | 0, _, _ => []
  | levels + 1, base, .hashmap map =>
      map.objects.flatMap fun object =>
        (base, object) :: (object.value.map (bindings levels (base + object.key))).getD []
  | levels + 1, base, .array elements => elements.flatMap (bindings levels base)
  | _ + 1, _, _ => []

/-- The pairs of a parent and a SID in the order in which they are recorded. -/
def edges (levels : Nat) (base : UInt64) (value : CoreconfValueT) : List (UInt64 × UInt64) :=
  (bindings levels base value).map fun binding => (binding.1, binding.1 + binding.2.key)

/-- A list of recursions that have each recorded their pairs, where they have come back. -/
theorem foldlM_recorded {T : Type} {items : List T} {f : List CLookupT → T → Option (List CLookupT)}
    {pairs : T → List (UInt64 × UInt64)}
    (each : ∀ item ∈ items, ∀ clookupHashmap after, f clookupHashmap item = some after →
      after = recordAll clookupHashmap (pairs item))
    {clookupHashmap after : List CLookupT} (folded : items.foldlM f clookupHashmap = some after) :
    after = recordAll clookupHashmap (items.flatMap pairs) := by
  induction items generalizing clookupHashmap with
  | nil => exact (Option.some.inj folded).symm
  | cons item items ih =>
      rw [List.foldlM_cons] at folded
      obtain ⟨middle, first, rest⟩ := Option.bind_eq_some_iff.mp folded
      have first := each item List.mem_cons_self clookupHashmap middle first
      have rest := ih (fun other member => each other (List.mem_cons_of_mem item member)) rest
      rw [rest, first, List.flatMap_cons, recordAll, recordAll, recordAll, List.foldl_append]

/-- The recursion records the pairs of the objects it comes to, and passes by the NULL values
that are deeper than it goes. -/
theorem buildLevels_recorded {levels : Nat} {base : UInt64} {value : Option CoreconfValueT}
    {clookupHashmap after : List CLookupT}
    (built : buildLevels levels value clookupHashmap base.toInt64 = some after) :
    after = recordAll clookupHashmap ((value.map (edges levels base)).getD []) := by
  induction levels generalizing base value clookupHashmap after with
  | zero =>
      cases value with
      | none => exact (Option.some.inj built).symm
      | some value => exact (Option.some.inj built).symm
  | succ levels ih =>
      cases value with
      | none => cases built
      | some value =>
          cases value with
          | hashmap map =>
              rw [Option.map_some, Option.getD_some, edges, bindings, List.map_flatMap]
              rw [buildLevels] at built
              refine foldlM_recorded ?_ built
              intro object _ before after built
              rw [UInt64.add_comm, UInt64.toUInt64_toInt64] at built
              rw [ih built]
              cases object.value <;> rfl
          | array elements =>
              rw [Option.map_some, Option.getD_some, edges, bindings, List.map_flatMap]
              rw [buildLevels] at built
              exact foldlM_recorded (fun element _ before after built => ih built) built
          | _ => exact (Option.some.inj built).symm

theorem foldlM_isSome {S T : Type} {items : List T} {f : S → T → Option S}
    (each : ∀ item ∈ items, ∀ state, (f state item).isSome) (state : S) : (items.foldlM f state).isSome := by
  induction items generalizing state with
  | nil => rfl
  | cons item items ih =>
      obtain ⟨middle, first⟩ := Option.isSome_iff_exists.mp (each item List.mem_cons_self state)
      rw [List.foldlM_cons, first]
      exact ih (fun other member => each other (List.mem_cons_of_mem item member)) middle

theorem buildLevels_isSome (levels : Nat) {value : CoreconfValueT} (noNull : NoNull value)
    (clookupHashmap : List CLookupT) (base : Int64) :
    (buildLevels levels (some value) clookupHashmap base).isSome := by
  induction levels generalizing value clookupHashmap base with
  | zero => rfl
  | succ levels ih =>
      cases noNull with
      | hashmap present each =>
          apply foldlM_isSome
          intro object member clookupHashmap
          obtain ⟨below, bound⟩ := Option.ne_none_iff_exists'.mp (present object member)
          rw [bound]
          exact ih (each object member below bound) _ _
      | array each =>
          apply foldlM_isSome
          intro element member clookupHashmap
          exact ih (each element member) clookupHashmap base
      | leaf leaf =>
          cases value with
          | hashmap map => cases leaf
          | array elements => cases leaf
          | _ => rfl

theorem buildLevels_eq (levels : Nat) (base : UInt64) {value : CoreconfValueT} (noNull : NoNull value)
    (clookupHashmap : List CLookupT) :
    buildLevels levels (some value) clookupHashmap base.toInt64 =
      some (recordAll clookupHashmap (edges levels base value)) := by
  obtain ⟨after, built⟩ :=
    Option.isSome_iff_exists.mp (buildLevels_isSome levels noNull clookupHashmap base.toInt64)
  rw [built, buildLevels_recorded built]
  rfl

theorem bindings_sound (levels : Nat) {base parent : UInt64} {value : CoreconfValueT}
    {object : CoreconfObjectT CoreconfValueT} (binding : (parent, object) ∈ bindings levels base value) :
    ∃ map, Relation.ReflTransGen Under (base, value) (parent, .hashmap map) ∧ object ∈ map.objects := by
  induction levels generalizing base value with
  | zero => cases binding
  | succ levels ih =>
      cases value with
      | hashmap map =>
          rw [bindings] at binding
          obtain ⟨above, member, here | later⟩ := by
            simpa only [List.mem_flatMap, List.mem_cons] using binding
          · cases here
            exact ⟨map, .refl, member⟩
          · cases present : above.value with
            | none =>
                rw [present] at later
                cases later
            | some value =>
                rw [present] at later
                obtain ⟨map', under, member'⟩ := ih later
                have step : Under (base, .hashmap map) (base + above.key, value) :=
                  .member (by rw [← present]; exact member)
                exact ⟨map', .head step under, member'⟩
      | array elements =>
          rw [bindings] at binding
          obtain ⟨element, member, later⟩ := List.mem_flatMap.mp binding
          obtain ⟨map', under, member'⟩ := ih later
          exact ⟨map', .head (.element member) under, member'⟩
      | _ => cases binding

/-- Within the recursion's depth no object is left out. -/
theorem bindings_complete {levels : Nat} {base parent : UInt64} {value : CoreconfValueT}
    {map : CoreconfHashMapT CoreconfValueT} (nests : NestsWithin levels value)
    (under : Relation.ReflTransGen Under (base, value) (parent, .hashmap map))
    {object : CoreconfObjectT CoreconfValueT} (member : object ∈ map.objects) :
    (parent, object) ∈ bindings levels base value := by
  induction levels generalizing base value with
  | zero =>
      cases nests with
      | leaf leaf =>
          rcases under.cases_head with same | ⟨next, step, -⟩
          · cases same
            cases leaf
          · cases step <;> cases leaf
  | succ levels ih =>
      rcases under.cases_head with same | ⟨next, step, later⟩
      · cases same
        rw [bindings]
        exact List.mem_flatMap.mpr ⟨object, member, List.mem_cons_self⟩
      · cases step with
        | member bound =>
            cases nests with
            | hashmap each =>
                rw [bindings]
                exact List.mem_flatMap.mpr ⟨_, bound, List.mem_cons_of_mem _ (ih (each _ bound _ rfl) later)⟩
            | leaf leaf => cases leaf
        | element inside =>
            cases nests with
            | array each =>
                rw [bindings]
                exact List.mem_flatMap.mpr ⟨_, inside, ih (each _ inside) later⟩
            | leaf leaf => cases leaf

/-- What the maps of a model bind can be listed. -/
theorem binds_iff {root : CoreconfValueT} {levels : Nat} (nests : NestsWithin levels root)
    {parent sid : UInt64} {node : CoreconfValueT} :
    Binds root parent sid node ↔
      ∃ key, (parent, ⟨key, some node⟩) ∈ bindings levels 0 root ∧ sid = parent + key := by
  constructor
  · rintro ⟨map, key, located, bound, named⟩
    exact ⟨key, bindings_complete nests located bound, named⟩
  · rintro ⟨key, binding, named⟩
    obtain ⟨map, under, member⟩ := bindings_sound levels binding
    exact ⟨map, key, under, member, named⟩

theorem Under.valid {at' under : UInt64 × CoreconfValueT} (step : Under at' under) (valid : Valid at'.2) :
    Valid under.2 := by
  cases step with
  | member bound => exact valid.value _ bound _ rfl
  | element inside => exact valid.element _ inside

theorem NodeAt.valid {root node : CoreconfValueT} {sid : UInt64} (located : NodeAt root sid node)
    (valid : Valid root) : Valid node := by
  have kept : ∀ reached, Relation.ReflTransGen Under (0, root) reached → Valid reached.2 := by
    intro reached under
    induction under with
    | refl => exact valid
    | tail _ step ih => exact step.valid ih
  exact kept (sid, node) located

theorem Binds.nodeAt {root node : CoreconfValueT} {parent sid : UInt64} (bound : Binds root parent sid node) :
    NodeAt root sid node := by
  obtain ⟨map, key, located, member, rfl⟩ := bound
  exact located.tail (.member member)

theorem NodeAt.binds {root node : CoreconfValueT} {map : CoreconfHashMapT CoreconfValueT} {base sid : UInt64}
    (located : NodeAt root base (.hashmap map)) (valid : Valid root)
    (bound : getCoreconfHashMap map (sid - base) = some node) : Binds root base sid node := by
  refine ⟨map, sid - base, located, (located.valid valid).repInv.get_eq_some.mp bound, ?_⟩
  rw [UInt64.add_comm, UInt64.sub_add_cancel]

/-- The index has the parent of every SID, and no other. -/
theorem parentsOf_built {root : CoreconfValueT} (model : Indexable root) :
    ∃ clookupHashmap, buildCLookupHashmapFromCoreconf root [] 0 0 = some clookupHashmap ∧
      ∀ parent sid, ParentOf root parent sid → parentsOf clookupHashmap sid = some [parent.toInt64] := by
  refine ⟨_, buildLevels_eq (MAX_CORECONF_RECURSION_DEPTH + 1) 0 model.valid.noNull [], fun parent sid parentOf => ?_⟩
  refine parentsOf_recordAll (fun other edge => ?_) (Or.inl rfl) (Or.inl ?_)
  · obtain ⟨⟨above, object⟩, binding, same⟩ := List.mem_map.mp edge
    cases same
    obtain ⟨map, located, member⟩ := bindings_sound _ binding
    have valid : Valid (.hashmap map) := NodeAt.valid located model.valid
    obtain ⟨node, present⟩ := Option.ne_none_iff_exists'.mp (valid.repInv.noNull object member)
    have bound : (⟨object.key, some node⟩ : CoreconfObjectT CoreconfValueT) ∈ map.objects := by
      rw [← present]
      exact member
    exact model.oneParent above parent _ ⟨node, map, object.key, located, bound, rfl⟩ parentOf
  · obtain ⟨node, map, key, located, bound, rfl⟩ := parentOf
    exact List.mem_map.mpr ⟨_, bindings_complete model.nests located bound, rfl⟩

/-- The SIDs from the root down to this one. -/
inductive ChainTo (root : CoreconfValueT) : UInt64 → List UInt64 → Prop
  | root : ChainTo root 0 []
  | child {parent sid chain} (above : ChainTo root parent chain) (parentOf : ParentOf root parent sid) :
      ChainTo root sid (chain ++ [sid])

theorem ParentOf.chain {root : CoreconfValueT} {parent sid : UInt64} (parentOf : ParentOf root parent sid) :
    ∃ chain, ChainTo root sid chain := by
  have reached : ∀ located, Relation.ReflTransGen Under (0, root) located →
      ∃ chain, ChainTo root located.1 chain := by
    intro located under
    induction under with
    | refl => exact ⟨[], .root⟩
    | tail above step ih =>
        obtain ⟨chain, chained⟩ := ih
        cases step with
        | member bound => exact ⟨_, .child chained ⟨_, _, _, above, bound, rfl⟩⟩
        | element inside => exact ⟨chain, chained⟩
  obtain ⟨node, bound⟩ := parentOf
  exact reached _ bound.nodeAt

/-- A chain to each of its SIDs is no longer. -/
theorem ChainTo.shorter {root : CoreconfValueT} {sid member : UInt64} {chain : List UInt64}
    (chained : ChainTo root sid chain) (inside : member ∈ chain) :
    ∃ parent front, ParentOf root parent member ∧ ChainTo root member front ∧
      front.length ≤ chain.length := by
  induction chained with
  | root => cases inside
  | @child parent sid chain above parentOf ih =>
      rcases List.mem_append.mp inside with earlier | last
      · obtain ⟨parent', front, parentOf', chained', shorter⟩ := ih earlier
        refine ⟨parent', front, parentOf', chained', ?_⟩
        rw [List.length_append]
        omega
      · obtain rfl := List.mem_singleton.mp last
        exact ⟨parent, _, parentOf, .child above parentOf, Nat.le_refl _⟩

section Chain

variable {root : CoreconfValueT} (model : Indexable root)
include model

theorem ChainTo.unique {sid : UInt64} {chain chain' : List UInt64} (chained : ChainTo root sid chain)
    (chained' : ChainTo root sid chain') : chain = chain' := by
  induction chained generalizing chain' with
  | root =>
      cases chained' with
      | root => rfl
      | child above parentOf => exact absurd rfl (model.nonzero _ _ parentOf)
  | child above parentOf ih =>
      cases chained' with
      | root => exact absurd rfl (model.nonzero _ _ parentOf)
      | child above' parentOf' =>
          obtain rfl := model.oneParent _ _ _ parentOf parentOf'
          rw [ih above']

theorem ChainTo.fresh {parent sid : UInt64} {chain : List UInt64} (above : ChainTo root parent chain)
    (parentOf : ParentOf root parent sid) : sid ∉ chain := by
  intro inside
  obtain ⟨_, front, _, chained, shorter⟩ := above.shorter inside
  have same := chained.unique model (.child above parentOf)
  rw [same, List.length_append, List.length_singleton] at shorter
  omega

end Chain

def pathNodeOf (keyMappingHashMap : List KeyMappingT) (sid : UInt64) : PathNodeT :=
  ⟨sid.toInt64, sidKeysOf keyMappingHashMap sid.toInt64⟩

/-- The path that ends with the node of SID 0. -/
def pathTo (keyMappingHashMap : List KeyMappingT) (chain : List UInt64) : List PathNodeT :=
  chain.map (pathNodeOf keyMappingHashMap) ++ [⟨0, none⟩]

/-- The loop goes up the chain, and each of its steps takes the record of a SID that is not
on the chain any more. -/
theorem requirement_loop {root : CoreconfValueT} (model : Indexable root)
    {keyMappingHashMap : List KeyMappingT} {sid : UInt64} {chain : List UInt64} (chained : ChainTo root sid chain)
    {clookupHashmap : List CLookupT}
    (recorded : ∀ parent member, member ∈ chain → ParentOf root parent member →
      parentsOf clookupHashmap member = some [parent.toInt64])
    (tail : List PathNodeT) :
    ∃ fuel left, Fuel.loop (requirementBody keyMappingHashMap) fuel
      ⟨sid.toInt64, clookupHashmap, if sid = 0 then tail else pathNodeOf keyMappingHashMap sid :: tail⟩ =
        some (some (chain.map (pathNodeOf keyMappingHashMap) ++ tail), left) := by
  induction chained generalizing clookupHashmap tail with
  | root => exact ⟨1, clookupHashmap, rfl⟩
  | @child parent sid chain above parentOf ih =>
      have nonzero := model.nonzero _ _ parentOf
      have here := recorded parent sid (List.mem_append_right chain List.mem_cons_self) parentOf
      rw [parentsOf] at here
      obtain ⟨clookup, found, parents⟩ := Option.map_eq_some_iff.mp here
      have named := hashmapGet_key CLookupT.childSID clookupCompare_key found
      have later := @ih (hashmapSet clookupCompare clookupHashmap ⟨sid.toInt64, []⟩) (by
        intro parent' member inside parentOf'
        rw [parentsOf_set, if_neg]
        · exact recorded parent' member (List.mem_append_left [sid] inside) parentOf'
        · rintro rfl
          exact above.fresh model parentOf inside) (pathNodeOf keyMappingHashMap sid :: tail)
      obtain ⟨fuel, left, looped⟩ := later
      refine ⟨fuel + 1, left, ?_⟩
      rw [if_neg nonzero, Fuel.loop_next, List.map_append, List.append_assoc]
      · exact looped
      · have started : ¬ sid.toInt64 = 0 := fun zero => nonzero (toInt64_inj.mp zero)
        simp only [requirementBody, if_neg started, found, parents, popLong, List.getLast?_singleton,
          List.dropLast_singleton, named, prependPathNode]
        by_cases top : parent = 0
        · subst top
          rfl
        · have inner : parent.toInt64 ≠ 0 := fun zero => top (toInt64_inj.mp zero)
          rw [if_pos inner, if_neg top]
          rfl

/-- The path that is found is the chain of SIDs. -/
theorem findRequirementForSID_chain {root : CoreconfValueT} (model : Indexable root)
    {keyMappingHashMap : List KeyMappingT} {clookupHashmap : List CLookupT}
    (recorded : ∀ parent sid, ParentOf root parent sid → parentsOf clookupHashmap sid = some [parent.toInt64])
    {sid : UInt64} {chain : List UInt64} (chained : ChainTo root sid chain) (nonzero : sid ≠ 0) :
    ∃ fuel left, findRequirementForSID fuel sid clookupHashmap keyMappingHashMap =
      some (some (pathTo keyMappingHashMap chain), left) := by
  have looped := @requirement_loop root model keyMappingHashMap sid chain chained clookupHashmap
    (fun parent member _ parentOf => recorded parent member parentOf) [⟨0, none⟩]
  rw [if_neg nonzero] at looped
  exact looped

end Coreconf
