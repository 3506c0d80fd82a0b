import Coreconf.FinMap
import Coreconf.TypesInvariant

set_option autoImplicit false

/- What a value says, apart from how it is stored: integers without their width,
containers as finite maps from SIDs. -/
namespace Coreconf

inductive Tree where
  | int (i : Int)
  | str (bytes : List UInt8)
  | real (bits : UInt64)
  | bool (b : Bool)
  | null
  | list (elements : List Tree)
  | map (members : List (Nat × Tree))

namespace CoreconfValueT

def isContainer : CoreconfValueT → Bool
  | .array _ => Bool.true
  | .hashmap _ => Bool.true
  | _ => Bool.false

/-- Induction over values, with the hypothesis for every element and every member. -/
@[elab_as_elim, induction_eliminator]
theorem induct {motive : CoreconfValueT → Prop}
    (array : ∀ elements, (∀ element ∈ elements, motive element) → motive (.array elements))
    (hashmap : ∀ map : CoreconfHashMapT CoreconfValueT,
      (∀ object ∈ map.objects, ∀ value, object.value = some value → motive value) →
        motive (.hashmap map))
    (leaf : ∀ value : CoreconfValueT, value.isContainer = Bool.false → motive value)
    (value : CoreconfValueT) : motive value := by
  refine @CoreconfValueT.rec motive (fun elements => ∀ element ∈ elements, motive element)
    (fun map => ∀ object ∈ map.objects, ∀ value, object.value = some value → motive value)
    (fun table => ∀ chain ∈ table, ∀ object ∈ chain, ∀ value, object.value = some value → motive value)
    (fun chain => ∀ object ∈ chain, ∀ value, object.value = some value → motive value)
    (fun object => ∀ value, object.value = some value → motive value)
    (fun value? => ∀ value, value? = some value → motive value)
    array (fun s => leaf _ rfl) (fun _ => leaf _ rfl) (fun _ => leaf _ rfl) (fun _ => leaf _ rfl)
    (fun _ => leaf _ rfl) (fun _ => leaf _ rfl) (fun _ => leaf _ rfl) (fun _ => leaf _ rfl)
    (fun _ => leaf _ rfl) (fun _ => leaf _ rfl) (leaf _ rfl) (leaf _ rfl) (leaf _ rfl) hashmap
    ?_ ?_ ?_ ?_ ?_ ?_ ?_ ?_ ?_ ?_ value
  · simp
  · intro head rest ihHead ihRest element member
    rcases List.mem_cons.mp member with rfl | member
    · exact ihHead
    · exact ihRest element member
  · intro table size ih object member
    obtain ⟨chain, inTable, inChain⟩ := List.mem_flatten.mp member
    exact ih chain inTable object inChain
  · simp
  · intro head rest ihHead ihRest chain member
    rcases List.mem_cons.mp member with rfl | member
    · exact ihHead
    · exact ihRest chain member
  · simp
  · intro head rest ihHead ihRest object member
    rcases List.mem_cons.mp member with rfl | member
    · exact ihHead
    · exact ihRest object member
  · exact fun key value ih => ih
  · simp
  · intro value ih other same
    cases same
    exact ih

mutual

def toTree : CoreconfValueT → Tree
  | .array elements => .list (elementTrees elements)
  | .string s => .str s.bytes
  | .real bits => .real bits
  | .int8 i => .int i.toInt
  | .int16 i => .int i.toInt
  | .int32 i => .int i.toInt
  | .int64 i => .int i.toInt
  | .uint8 u => .int u.toNat
  | .uint16 u => .int u.toNat
  | .uint32 u => .int u.toNat
  | .uint64 u => .int u.toNat
  | .true => .bool Bool.true
  | .false => .bool Bool.false
  | .null => .null
  | .hashmap map => .map (FinMap.ofList (mapTrees map))

def elementTrees : List CoreconfValueT → List Tree
  | [] => []
  | element :: rest => toTree element :: elementTrees rest

def mapTrees : CoreconfHashMapT CoreconfValueT → List (Nat × Tree)
  | ⟨table, _⟩ => tableTrees table

def tableTrees : List (List (CoreconfObjectT CoreconfValueT)) → List (Nat × Tree)
  | [] => []
  | chain :: rest => chainTrees chain ++ tableTrees rest

def chainTrees : List (CoreconfObjectT CoreconfValueT) → List (Nat × Tree)
  | [] => []
  | object :: rest => objectTrees object ++ chainTrees rest

def objectTrees : CoreconfObjectT CoreconfValueT → List (Nat × Tree)
  | ⟨_, none⟩ => []
  | ⟨key, some value⟩ => [(key.toNat, toTree value)]

end

theorem elementTrees_eq (elements : List CoreconfValueT) :
    elementTrees elements = elements.map toTree := by
  induction elements with
  | nil => rfl
  | cons element rest ih => rw [elementTrees, ih, List.map_cons]

end CoreconfValueT

namespace CoreconfHashMapT

open FinMap

variable {map : CoreconfHashMapT CoreconfValueT}

/-- The bindings of a map in table order; an object without a value binds nothing. -/
def members (map : CoreconfHashMapT CoreconfValueT) : List (Nat × Tree) :=
  map.objects.filterMap fun object => object.value.map fun value => (object.key.toNat, value.toTree)

/-- The finite map a hash map stands for. -/
def content (map : CoreconfHashMapT CoreconfValueT) : List (Nat × Tree) := FinMap.ofList map.members

private theorem objectTrees_eq (object : CoreconfObjectT CoreconfValueT) :
    CoreconfValueT.objectTrees object =
      (object.value.map fun value => (object.key.toNat, value.toTree)).toList := by
  obtain ⟨key, value⟩ := object
  cases value <;> rfl

private theorem chainTrees_eq (chain : List (CoreconfObjectT CoreconfValueT)) :
    CoreconfValueT.chainTrees chain =
      chain.filterMap fun object => object.value.map fun value => (object.key.toNat, value.toTree) := by
  induction chain with
  | nil => rfl
  | cons object rest ih =>
      rw [CoreconfValueT.chainTrees, ih, objectTrees_eq, List.filterMap_cons]
      cases object.value <;> rfl

theorem toTree_hashmap (map : CoreconfHashMapT CoreconfValueT) :
    (CoreconfValueT.hashmap map).toTree = .map map.content := by
  have table : ∀ table : List (List (CoreconfObjectT CoreconfValueT)),
      CoreconfValueT.tableTrees table = table.flatten.filterMap fun object =>
        object.value.map fun value => (object.key.toNat, value.toTree) := by
    intro table
    induction table with
    | nil => rfl
    | cons chain rest ih =>
        rw [CoreconfValueT.tableTrees, chainTrees_eq, ih, List.flatten_cons, List.filterMap_append]
  obtain ⟨buckets, size⟩ := map
  rw [CoreconfValueT.toTree, CoreconfValueT.mapTrees, table]
  rfl

theorem toTree_array (elements : List CoreconfValueT) :
    (CoreconfValueT.array elements).toTree = .list (elements.map CoreconfValueT.toTree) := by
  rw [CoreconfValueT.toTree, CoreconfValueT.elementTrees_eq]

theorem mem_members {k : Nat} {tree : Tree} :
    (k, tree) ∈ map.members ↔ ∃ key value, (⟨key, some value⟩ : CoreconfObjectT CoreconfValueT) ∈
      map.objects ∧ key.toNat = k ∧ value.toTree = tree := by
  simp only [members, List.mem_filterMap, Option.map_eq_some_iff, Prod.mk.injEq]
  constructor
  · rintro ⟨⟨key, value?⟩, member, value, rfl, rfl, rfl⟩
    exact ⟨key, value, member, rfl, rfl⟩
  · rintro ⟨key, value, member, rfl, rfl⟩
    exact ⟨⟨key, some value⟩, member, value, rfl, rfl, rfl⟩

theorem content_sorted (map : CoreconfHashMapT CoreconfValueT) : Sorted map.content :=
  sorted_ofList _

@[simp] theorem content_create : (createCoreconfHashmap : CoreconfHashMapT CoreconfValueT).content = [] := by
  simp [content, members, FinMap.ofList]

namespace RepInv

private theorem members_distinct (inv : map.RepInv) : (map.members.map Prod.fst).Nodup :=
  inv.bindings_distinct (fun _ _ => UInt64.toNat_inj.mp) CoreconfValueT.toTree

theorem lookup_content (inv : map.RepInv) {k : Nat} {tree : Tree} :
    lookup k map.content = some tree ↔
      ∃ key value, (⟨key, some value⟩ : CoreconfObjectT CoreconfValueT) ∈ map.objects ∧
        key.toNat = k ∧ value.toTree = tree := by
  rw [content, lookup_ofList inv.members_distinct, lookup_eq_some inv.members_distinct, mem_members]

theorem content_length (inv : map.RepInv) : map.content.length = map.objects.length := by
  rw [content, length_ofList_iff.mpr inv.members_distinct, members]
  have noNull := inv.noNull
  revert noNull
  induction map.objects with
  | nil => exact fun _ => rfl
  | cons object rest ih =>
      intro noNull
      obtain ⟨first, others⟩ := List.forall_mem_cons.mp noNull
      obtain ⟨value, found⟩ := Option.ne_none_iff_exists'.mp first
      rw [List.filterMap_cons, found, Option.map_some, List.length_cons, List.length_cons, ih others]

/-- Reading a key of the hash map is reading the finite map. -/
theorem lookup_content_get (inv : map.RepInv) (key : UInt64) :
    lookup key.toNat map.content = (getCoreconfHashMap map key).map CoreconfValueT.toTree := by
  ext tree
  rw [inv.lookup_content, Option.map_eq_some_iff]
  constructor
  · rintro ⟨key', value, member, same, rfl⟩
    rw [UInt64.toNat_inj] at same
    exact ⟨value, inv.get_eq_some.mpr (same ▸ member), rfl⟩
  · rintro ⟨value, found, rfl⟩
    exact ⟨key, value, inv.get_eq_some.mp found, rfl, rfl⟩

/-- A map that differs from another in one binding. -/
private theorem content_bind (inv : map.RepInv) {map' : CoreconfHashMapT CoreconfValueT}
    (inv' : map'.RepInv) {key : UInt64} {value : CoreconfValueT}
    (same : ∀ object : CoreconfObjectT CoreconfValueT, object ∈ map'.objects ↔
      object = ⟨key, some value⟩ ∨ (object ∈ map.objects ∧ object.key ≠ key)) :
    map'.content = FinMap.insert key.toNat value.toTree map.content := by
  refine FinMap.ext (content_sorted _) (sorted_insert _ _ (content_sorted _)) fun k => ?_
  ext tree
  rw [inv'.lookup_content, lookup_insert]
  simp only [same]
  by_cases same : k = key.toNat
  · subst same
    simp only [↓reduceIte, Option.some.injEq]
    constructor
    · rintro ⟨key', value', equal | ⟨-, other⟩, same, rfl⟩
      · cases equal
        rfl
      · exact absurd (UInt64.toNat_inj.mp same) other
    · rintro rfl
      exact ⟨key, value, Or.inl rfl, rfl, rfl⟩
  · simp only [same, ↓reduceIte]
    rw [inv.lookup_content]
    constructor
    · rintro ⟨key', value', equal | ⟨member, -⟩, rfl, rfl⟩
      · cases equal
        exact absurd rfl same
      · exact ⟨key', value', member, rfl, rfl⟩
    · rintro ⟨key', value', member, rfl, rfl⟩
      exact ⟨key', value', Or.inr ⟨member, fun equal => same (by rw [equal])⟩, rfl, rfl⟩

theorem content_insert (inv : map.RepInv) {key : UInt64} {value : CoreconfValueT}
    (inserted : (insertCoreconfHashMap map key (some value)).1 = 0) :
    (insertCoreconfHashMap map key (some value)).2.content =
      FinMap.insert key.toNat value.toTree map.content :=
  inv.content_bind (inv.insert key value) fun _ => inv.mem_insert inserted

theorem content_storeThroughGet (inv : map.RepInv) {key : UInt64} {old : Option CoreconfValueT}
    (present : ⟨key, old⟩ ∈ map.objects) (value : CoreconfValueT) :
    (Coreconf.storeThroughGet map key value).content =
      FinMap.insert key.toNat value.toTree map.content :=
  inv.content_bind (inv.storeThroughGet present value) fun _ => inv.mem_storeThroughGet present

theorem content_delete (inv : map.RepInv) (key : UInt64) :
    (deleteFromCoreconfHashMap map key).2.content = FinMap.erase key.toNat map.content := by
  refine FinMap.ext (content_sorted _) (sorted_erase _ (content_sorted _)) fun k => ?_
  ext tree
  rw [(inv.delete key).lookup_content, lookup_erase (content_sorted _)]
  simp only [inv.mem_delete]
  by_cases same : k = key.toNat
  · subst same
    simp only [↓reduceIte, reduceCtorEq, iff_false]
    rintro ⟨key', value', ⟨-, other⟩, same, -⟩
    exact other (UInt64.toNat_inj.mp same)
  · simp only [same, ↓reduceIte]
    rw [inv.lookup_content]
    constructor
    · rintro ⟨key', value', ⟨member, -⟩, rfl, rfl⟩
      exact ⟨key', value', member, rfl, rfl⟩
    · rintro ⟨key', value', member, rfl, rfl⟩
      exact ⟨key', value', ⟨member, fun equal => same (by rw [equal])⟩, rfl, rfl⟩

end RepInv

end CoreconfHashMapT

namespace CoreconfValueT

/-- Every hash map nested in the value satisfies its representation invariant. -/
inductive Valid : CoreconfValueT → Prop
  | array {elements} (each : ∀ element ∈ elements, Valid element) : Valid (.array elements)
  | hashmap {map : CoreconfHashMapT CoreconfValueT} (inv : map.RepInv)
      (each : ∀ object ∈ map.objects, ∀ value, object.value = some value → Valid value) :
      Valid (.hashmap map)
  | leaf {value : CoreconfValueT} (leaf : value.isContainer = Bool.false) : Valid value

theorem Valid.element {elements : List CoreconfValueT} (valid : Valid (.array elements)) :
    ∀ element ∈ elements, Valid element := by
  cases valid with
  | array each => exact each
  | leaf leaf => cases leaf

theorem Valid.repInv {map : CoreconfHashMapT CoreconfValueT} (valid : Valid (.hashmap map)) :
    map.RepInv := by
  cases valid with
  | hashmap inv each => exact inv
  | leaf leaf => cases leaf

theorem Valid.value {map : CoreconfHashMapT CoreconfValueT} (valid : Valid (.hashmap map)) :
    ∀ object ∈ map.objects, ∀ value, object.value = some value → Valid value := by
  cases valid with
  | hashmap inv each => exact each
  | leaf leaf => cases leaf

theorem Valid.get {map : CoreconfHashMapT CoreconfValueT} (valid : Valid (.hashmap map))
    {key : UInt64} {value : CoreconfValueT} (found : getCoreconfHashMap map key = some value) :
    Valid value :=
  valid.value _ (valid.repInv.get_eq_some.mp found) _ rfl

theorem valid_createCoreconfHashmap : Valid (.hashmap createCoreconfHashmap) :=
  .hashmap repInv_create (by simp)

theorem Valid.insert {map : CoreconfHashMapT CoreconfValueT} (valid : Valid (.hashmap map))
    {value : CoreconfValueT} (new : Valid value) (key : UInt64) :
    Valid (.hashmap (insertCoreconfHashMap map key (some value)).2) := by
  by_cases inserted : (insertCoreconfHashMap map key (some value)).1 = 0
  · refine .hashmap (valid.repInv.insert key value) fun object member other same => ?_
    rcases (valid.repInv.mem_insert inserted).mp member with rfl | ⟨member, -⟩
    · cases same
      exact new
    · exact valid.value object member other same
  · rwa [insertCoreconfHashMap_refused inserted]

theorem Valid.storeThroughGet {map : CoreconfHashMapT CoreconfValueT} (valid : Valid (.hashmap map))
    {key : UInt64} {old value : CoreconfValueT} (found : getCoreconfHashMap map key = some old)
    (new : Valid value) : Valid (.hashmap (storeThroughGet map key value)) := by
  have present := valid.repInv.get_eq_some.mp found
  refine .hashmap (valid.repInv.storeThroughGet present value) fun object member other same => ?_
  rcases (valid.repInv.mem_storeThroughGet present).mp member with rfl | ⟨member, -⟩
  · cases same
    exact new
  · exact valid.value object member other same

theorem Valid.delete {map : CoreconfHashMapT CoreconfValueT} (valid : Valid (.hashmap map))
    (key : UInt64) : Valid (.hashmap (deleteFromCoreconfHashMap map key).2) :=
  .hashmap (valid.repInv.delete key) fun object member =>
    valid.value object (valid.repInv.mem_delete.mp member).1

end CoreconfValueT

end Coreconf
