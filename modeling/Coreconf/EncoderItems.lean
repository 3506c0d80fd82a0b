import Coreconf.Encoder
import Coreconf.ItemContents

set_option autoImplicit false

/- The item that is the encoding of a value, and that the encoder writes it. -/
namespace Coreconf

open Cbor (Item Width Framing head)

def integerItem (i : Int) : Item :=
  if i < 0 then .nint (Width.least (-1 - i).toNat) (-1 - i).toNat
  else .uint (Width.least i.toNat) i.toNat

def keyItem (key : UInt64) : Item := .uint (Width.least key.toNat) key.toNat

theorem keyItem_wellFormed (key : UInt64) : (keyItem key).WellFormed :=
  .uint (Width.least_fits key.toNat_lt)

namespace CoreconfValueT

mutual

def toItem : CoreconfValueT → Item
  | .array elements => .list .indefinite (elementItems elements)
  | .string s => .tstr (Width.least s.bytes.length) s.bytes
  | .real bits => .primitive .eight bits.toNat
  | .int8 i => integerItem i.toInt
  | .int16 i => integerItem i.toInt
  | .int32 i => integerItem i.toInt
  | .int64 i => integerItem i.toInt
  | .uint8 u => integerItem u.toNat
  | .uint16 u => integerItem u.toNat
  | .uint32 u => integerItem u.toNat
  | .uint64 u => integerItem u.toNat
  | .true => .primitive .immediate 21
  | .false => .primitive .immediate 20
  | .null => .primitive .immediate 22
  | .hashmap map => .map .indefinite (mapItems map)

def elementItems : List CoreconfValueT → List Item
  | [] => []
  | element :: rest => toItem element :: elementItems rest

def mapItems : CoreconfHashMapT CoreconfValueT → List (Item × Item)
  | ⟨table, _⟩ => tableItems table

def tableItems : List (List (CoreconfObjectT CoreconfValueT)) → List (Item × Item)
  | [] => []
  | chain :: rest => chainItems chain ++ tableItems rest

def chainItems : List (CoreconfObjectT CoreconfValueT) → List (Item × Item)
  | [] => []
  | object :: rest => objectItems object ++ chainItems rest

def objectItems : CoreconfObjectT CoreconfValueT → List (Item × Item)
  | ⟨_, none⟩ => []
  | ⟨key, some value⟩ => [(keyItem key, toItem value)]

end

/-- Values whose containers nest at most so deep, whose maps are of at most 51 distinct
keys with a value each; a string is an object in memory. -/
inductive Nests : Nat → CoreconfValueT → Prop
  | array {nesting elements} (each : ∀ element ∈ elements, Nests nesting element) :
      Nests (nesting + 1) (.array elements)
  | hashmap {nesting} {map : CoreconfHashMapT CoreconfValueT}
      (distinct : (map.objects.map (·.key)).Nodup) (few : map.objects.length ≤ Item.maxEntries)
      (noNull : ∀ object ∈ map.objects, object.value ≠ none)
      (each : ∀ object ∈ map.objects, ∀ value, object.value = some value → Nests nesting value) :
      Nests (nesting + 1) (.hashmap map)
  | leaf {nesting value} (leaf : value.isContainer = Bool.false)
      (object : ∀ s, value = .string s → s.bytes.length < 2 ^ 63) : Nests nesting value

/-- Values whose containers nest at most so deep, whose maps are of distinct keys with
a value each, and which are small enough for the decoder. -/
inductive Fits : Nat → CoreconfValueT → Prop
  | array {nesting elements} (each : ∀ element ∈ elements, Fits nesting element) :
      Fits (nesting + 1) (.array elements)
  | hashmap {nesting} {map : CoreconfHashMapT CoreconfValueT}
      (distinct : (map.objects.map (·.key)).Nodup) (few : map.objects.length ≤ Item.maxEntries)
      (noNull : ∀ object ∈ map.objects, object.value ≠ none)
      (each : ∀ object ∈ map.objects, ∀ value, object.value = some value → Fits nesting value) :
      Fits (nesting + 1) (.hashmap map)
  | string {nesting} {s : CString} (short : s.bytes.length < 2 ^ 31) : Fits nesting (.string s)
  | leaf {nesting value} (leaf : value.isContainer = Bool.false) (notString : ∀ s, value ≠ .string s) :
      Fits nesting value

/-- No object of a nested hash map has a NULL value. -/
inductive NoNull : CoreconfValueT → Prop
  | array {elements} (each : ∀ element ∈ elements, NoNull element) : NoNull (.array elements)
  | hashmap {map : CoreconfHashMapT CoreconfValueT}
      (noNull : ∀ object ∈ map.objects, object.value ≠ none)
      (each : ∀ object ∈ map.objects, ∀ value, object.value = some value → NoNull value) :
      NoNull (.hashmap map)
  | leaf {value : CoreconfValueT} (leaf : value.isContainer = Bool.false) : NoNull value

theorem Nests.noNull {nesting : Nat} {value : CoreconfValueT} (nests : value.Nests nesting) :
    value.NoNull := by
  induction nests with
  | array each ih => exact .array ih
  | hashmap distinct few noNull each ih => exact .hashmap noNull ih
  | leaf leaf object => exact .leaf leaf

theorem Fits.nests {nesting : Nat} {value : CoreconfValueT} (fits : value.Fits nesting) :
    value.Nests nesting := by
  induction fits with
  | array each ih => exact .array ih
  | hashmap distinct few noNull each ih => exact .hashmap distinct few noNull ih
  | string short =>
      refine .leaf rfl fun s same => ?_
      cases same
      omega
  | leaf leaf notString => exact .leaf leaf fun s same => absurd same (notString s)

theorem Fits.noNull {nesting : Nat} {value : CoreconfValueT} (fits : value.Fits nesting) :
    value.NoNull := fits.nests.noNull

theorem Valid.noNull {value : CoreconfValueT} (valid : value.Valid) : value.NoNull := by
  induction valid with
  | array each ih => exact .array ih
  | hashmap inv each ih => exact .hashmap inv.noNull ih
  | leaf leaf => exact .leaf leaf

theorem elementItems_eq (elements : List CoreconfValueT) :
    elementItems elements = elements.map toItem := by
  induction elements with
  | nil => rfl
  | cons element rest ih => rw [elementItems, ih, List.map_cons]

theorem chainItems_eq (chain : List (CoreconfObjectT CoreconfValueT)) :
    chainItems chain = chain.flatMap objectItems := by
  induction chain with
  | nil => rfl
  | cons object rest ih => rw [chainItems, ih, List.flatMap_cons]

theorem mapItems_eq (map : CoreconfHashMapT CoreconfValueT) :
    mapItems map = map.objects.flatMap objectItems := by
  obtain ⟨table, size⟩ := map
  show tableItems table = table.flatten.flatMap objectItems
  induction table with
  | nil => rfl
  | cons chain rest ih => rw [tableItems, ih, chainItems_eq, List.flatten_cons, List.flatMap_append]

end CoreconfValueT

theorem integerItem_wellFormed {i : Int} (low : -2 ^ 63 ≤ i) (high : i < 2 ^ 64) :
    (integerItem i).WellFormed := by
  unfold integerItem
  split
  · exact .nint (Width.least_fits (by omega))
  · exact .uint (Width.least_fits (by omega))

theorem integerItem_value {i : Int} (low : -2 ^ 63 ≤ i) (high : i < 2 ^ 64) :
    ∃ value, (integerItem i).value? = some value ∧ value.toTree = .int i := by
  unfold integerItem
  split
  · rename_i negative
    have small : (-1 - i).toNat < 2 ^ 63 := by omega
    refine ⟨_, if_pos small, ?_⟩
    rw [CoreconfValueT.toTree, flipped_toInt small, Int.toNat_of_nonneg (by omega)]
    congr 1
    omega
  · refine ⟨_, rfl, ?_⟩
    rw [CoreconfValueT.toTree, UInt64.toNat_ofNat_of_lt' (by simp only [UInt64.size]; omega),
      Int.toNat_of_nonneg (by omega)]

namespace CoreconfValueT

/-- A leaf is an integer, or one of the items of a simple value. -/
theorem leaf_toItem {value : CoreconfValueT} (leaf : value.isContainer = Bool.false)
    (notString : ∀ s, value ≠ .string s) :
    (∃ i : Int, -2 ^ 63 ≤ i ∧ i < 2 ^ 64 ∧ value.toItem = integerItem i ∧ value.toTree = .int i) ∨
    (∃ w n, value.toItem = .primitive w n ∧ n < w.bound ∧ w ≠ .one ∧
      ∃ value', Item.simpleValue? w n = some value' ∧ value'.toTree = value.toTree) := by
  cases value with
  | array elements => cases leaf
  | hashmap map => cases leaf
  | string s => exact absurd rfl (notString s)
  | real bits =>
      refine Or.inr ⟨.eight, bits.toNat, rfl, bits.toNat_lt, by decide, _, rfl, ?_⟩
      simp only [toTree, UInt64.ofNat_toNat]
  | int8 i =>
      have low := i.le_toInt
      have high := i.toInt_lt
      exact Or.inl ⟨i.toInt, by omega, by omega, rfl, rfl⟩
  | int16 i =>
      have low := i.le_toInt
      have high := i.toInt_lt
      exact Or.inl ⟨i.toInt, by omega, by omega, rfl, rfl⟩
  | int32 i =>
      have low := i.le_toInt
      have high := i.toInt_lt
      exact Or.inl ⟨i.toInt, by omega, by omega, rfl, rfl⟩
  | int64 i =>
      have low := i.le_toInt
      have high := i.toInt_lt
      exact Or.inl ⟨i.toInt, by omega, by omega, rfl, rfl⟩
  | uint8 u =>
      have high := u.toNat_lt
      exact Or.inl ⟨u.toNat, by omega, by omega, rfl, rfl⟩
  | uint16 u =>
      have high := u.toNat_lt
      exact Or.inl ⟨u.toNat, by omega, by omega, rfl, rfl⟩
  | uint32 u =>
      have high := u.toNat_lt
      exact Or.inl ⟨u.toNat, by omega, by omega, rfl, rfl⟩
  | uint64 u =>
      have high := u.toNat_lt
      exact Or.inl ⟨u.toNat, by omega, by omega, rfl, rfl⟩
  | true => exact Or.inr ⟨.immediate, 21, rfl, by decide, by decide, _, rfl, rfl⟩
  | false => exact Or.inr ⟨.immediate, 20, rfl, by decide, by decide, _, rfl, rfl⟩
  | null => exact Or.inr ⟨.immediate, 22, rfl, by decide, by decide, _, rfl, rfl⟩

/-- The items of the objects of a chain that all have a value. -/
private theorem objectItems_eq {object : CoreconfObjectT CoreconfValueT} (noNull : object.value ≠ none) :
    ∃ value, object.value = some value ∧ objectItems object = [(keyItem object.key, value.toItem)] := by
  obtain ⟨key, value⟩ := object
  cases value with
  | none => exact absurd rfl noNull
  | some value => exact ⟨value, rfl, rfl⟩

private theorem mem_objectItems {object : CoreconfObjectT CoreconfValueT} {entry : Item × Item}
    (member : entry ∈ objectItems object) :
    ∃ value, object.value = some value ∧ entry = (keyItem object.key, value.toItem) := by
  obtain ⟨key, value⟩ := object
  cases value with
  | none => cases member
  | some value => exact ⟨value, rfl, List.mem_singleton.mp member⟩

theorem mapItems_length {map : CoreconfHashMapT CoreconfValueT}
    (noNull : ∀ object ∈ map.objects, object.value ≠ none) :
    (mapItems map).length = map.objects.length := by
  rw [mapItems_eq]
  revert noNull
  induction map.objects with
  | nil => exact fun _ => rfl
  | cons object rest ih =>
      intro noNull
      obtain ⟨first, others⟩ := List.forall_mem_cons.mp noNull
      obtain ⟨value, -, items⟩ := objectItems_eq first
      rw [List.flatMap_cons, items, List.length_append, ih others, List.length_cons, Nat.add_comm]
      rfl

/-- A leaf is a string, or one of the other items of a leaf. -/
private theorem leaf_cases (value : CoreconfValueT) :
    (∃ s, value = .string s) ∨ ∀ s, value ≠ .string s := by
  by_cases isString : ∃ s, value = .string s
  · exact Or.inl isString
  · exact Or.inr (not_exists.mp isString)

/-- The item of any other leaf is a number or a simple value. -/
private theorem leaf_item {value : CoreconfValueT} (leaf : value.isContainer = Bool.false)
    (notString : ∀ s, value ≠ .string s) :
    ∃ w n, value.toItem = .uint w n ∨ value.toItem = .nint w n ∨ value.toItem = .primitive w n := by
  rcases leaf_toItem leaf notString with ⟨i, low, high, same, -⟩ | ⟨w, n, same, -⟩
  · rw [same, integerItem]
    split
    · exact ⟨_, _, Or.inr (Or.inl rfl)⟩
    · exact ⟨_, _, Or.inl rfl⟩
  · exact ⟨w, n, Or.inr (Or.inr same)⟩

/-- A value whose encoding is an object in memory is a well-formed item. -/
theorem toItem_wellFormed {value : CoreconfValueT} (object : value.toItem.encode.length < 2 ^ 63) :
    value.toItem.WellFormed := by
  induction value with
  | array elements ih =>
      rw [toItem, elementItems_eq] at object ⊢
      rw [Item.encode, List.length_append, List.length_append] at object
      refine .list trivial fun item member => ?_
      have shorter := Item.length_encode_items member
      obtain ⟨element, inside, rfl⟩ := List.mem_map.mp member
      exact ih element inside (by omega)
  | hashmap map ih =>
      rw [toItem, mapItems_eq] at object ⊢
      rw [Item.encode, List.length_append, List.length_append] at object
      refine .map trivial ?_ ?_
      · intro entry member
        obtain ⟨object, inside, member⟩ := List.mem_flatMap.mp member
        obtain ⟨value, -, rfl⟩ := mem_objectItems member
        exact keyItem_wellFormed _
      · intro entry member
        have shorter := Item.length_encode_entries member
        obtain ⟨object, inside, member⟩ := List.mem_flatMap.mp member
        obtain ⟨value, found, rfl⟩ := mem_objectItems member
        exact ih object inside value found (shorter.trans_lt (by omega))
  | leaf value leaf =>
      rcases leaf_cases value with ⟨s, rfl⟩ | notString
      · rw [toItem, Item.encode, Cbor.string, List.length_append] at object
        exact .tstr (Width.least_fits (by omega))
      · rcases leaf_toItem leaf notString with ⟨i, low, high, same, -⟩ | ⟨w, n, same, fits, other, -⟩
        · exact same ▸ integerItem_wellFormed low high
        · exact same ▸ .primitive fits fun one => absurd one other

namespace Nests

variable {nesting : Nat} {value : CoreconfValueT}

theorem wellFormed (nests : value.Nests nesting) : value.toItem.WellFormed := by
  induction nests with
  | array each ih =>
      rw [toItem, elementItems_eq]
      refine .list trivial fun item member => ?_
      obtain ⟨element, inside, rfl⟩ := List.mem_map.mp member
      exact ih element inside
  | hashmap distinct few noNull each ih =>
      rw [toItem, mapItems_eq]
      refine .map trivial ?_ ?_
      · intro entry member
        obtain ⟨object, inside, member⟩ := List.mem_flatMap.mp member
        obtain ⟨value, -, rfl⟩ := mem_objectItems member
        exact keyItem_wellFormed _
      · intro entry member
        obtain ⟨object, inside, member⟩ := List.mem_flatMap.mp member
        obtain ⟨value, found, rfl⟩ := mem_objectItems member
        exact ih object inside value found
  | @leaf nesting value leaf object =>
      rcases leaf_cases value with ⟨s, rfl⟩ | notString
      · have short := object s rfl
        exact .tstr (Width.least_fits (by omega))
      · rcases leaf_toItem leaf notString with ⟨i, low, high, same, -⟩ | ⟨w, n, same, fits, other, -⟩
        · exact same ▸ integerItem_wellFormed low high
        · exact same ▸ .primitive fits fun one => absurd one other

theorem depth_le (nests : value.Nests nesting) : value.toItem.depth ≤ nesting := by
  induction nests with
  | array each ih =>
      rw [toItem, elementItems_eq, Item.depth]
      refine Nat.succ_le_succ (Item.depthItems_le fun item member => ?_)
      obtain ⟨element, inside, rfl⟩ := List.mem_map.mp member
      exact ih element inside
  | hashmap distinct few noNull each ih =>
      rw [toItem, mapItems_eq, Item.depth]
      refine Nat.succ_le_succ (Item.depthEntries_le (fun entry member => ?_) fun entry member => ?_)
      all_goals
        obtain ⟨object, inside, member⟩ := List.mem_flatMap.mp member
        obtain ⟨value, found, rfl⟩ := mem_objectItems member
      · exact Nat.zero_le _
      · exact ih object inside value found
  | @leaf nesting value leaf object =>
      rcases leaf_cases value with ⟨s, rfl⟩ | notString
      · exact Nat.zero_le _
      · obtain ⟨w, n, same | same | same⟩ := leaf_item leaf notString
        all_goals
          rw [same]
          exact Nat.zero_le _

theorem mono {nesting' : Nat} (nests : value.Nests nesting) (le : nesting ≤ nesting') : value.Nests nesting' := by
  induction nests generalizing nesting' with
  | array each ih =>
      obtain ⟨deeper, rfl⟩ := Nat.exists_eq_add_one.mpr (Nat.zero_lt_of_lt le)
      exact .array fun element member => ih element member (Nat.le_of_succ_le_succ le)
  | hashmap distinct few noNull each ih =>
      obtain ⟨deeper, rfl⟩ := Nat.exists_eq_add_one.mpr (Nat.zero_lt_of_lt le)
      exact .hashmap distinct few noNull fun object member value found =>
        ih object member value found (Nat.le_of_succ_le_succ le)
  | leaf leaf object => exact .leaf leaf object

/-- What holds of the items of the leaves and maps of a value holds of all its item. -/
private theorem each {p : Item → Prop} (nests : value.Nests nesting)
    (list : ∀ items, p (.list .indefinite items))
    (map : ∀ map : CoreconfHashMapT CoreconfValueT, (map.objects.map (·.key)).Nodup →
      p (.map .indefinite (map.objects.flatMap objectItems)))
    (leaf : ∀ value : CoreconfValueT, value.isContainer = Bool.false → p value.toItem) :
    value.toItem.Each p := by
  induction nests with
  | array each ih =>
      rw [toItem, elementItems_eq, Item.each_list]
      refine ⟨list _, fun item member => ?_⟩
      obtain ⟨element, inside, rfl⟩ := List.mem_map.mp member
      exact ih element inside
  | hashmap distinct few noNull each ih =>
      rw [toItem, mapItems_eq, Item.each_map]
      refine ⟨map _ distinct, fun entry member => ?_⟩
      obtain ⟨object, inside, member⟩ := List.mem_flatMap.mp member
      obtain ⟨value, found, rfl⟩ := mem_objectItems member
      exact ih object inside value found
  | @leaf nesting value isLeaf object =>
      have here := leaf value isLeaf
      rcases leaf_cases value with ⟨s, rfl⟩ | notString
      · exact here
      · obtain ⟨w, n, same | same | same⟩ := leaf_item isLeaf notString
        all_goals
          rw [same] at here ⊢
          exact here

theorem distinctKeys (nests : value.Nests nesting) : value.toItem.DistinctKeys := by
  refine nests.each (fun _ => trivial) ?_ ?_
  · intro map distinct
    refine List.Nodup.sublist ?_ (distinct.map (Option.some_injective UInt64))
    rw [List.map_map]
    induction map.objects with
    | nil => exact List.Sublist.slnil
    | cons object rest ih =>
        obtain ⟨key, value⟩ := object
        cases value with
        | none => exact ih.cons _
        | some value =>
            have keyed : (keyItem key).sid? = some key := by simp [keyItem, Item.sid?]
            rw [List.flatMap_cons, objectItems, List.singleton_append, List.map_cons, keyed]
            exact ih.cons_cons _
  · intro value leaf
    rcases leaf_cases value with ⟨s, rfl⟩ | notString
    · trivial
    · obtain ⟨w, n, same | same | same⟩ := leaf_item leaf notString
      all_goals
        rw [same]
        trivial

theorem nulFree (nests : value.Nests nesting) : value.toItem.NulFree := by
  refine nests.each (fun _ => trivial) (fun _ _ => trivial) ?_
  intro value leaf
  rcases leaf_cases value with ⟨s, rfl⟩ | notString
  · exact s.noNul
  · obtain ⟨w, n, same | same | same⟩ := leaf_item leaf notString
    all_goals
      rw [same]
      trivial

private theorem values {elements : List CoreconfValueT}
    (each : ∀ element ∈ elements, (∃ value, element.toItem.value? = some value) ∧
      element.toItem.tree? = some element.toTree) :
    (∃ values, Item.values? (elements.map toItem) = some values) ∧
      Item.trees? (elements.map toItem) = some (elements.map toTree) := by
  induction elements with
  | nil => exact ⟨⟨[], rfl⟩, rfl⟩
  | cons element rest ih =>
      obtain ⟨first, others⟩ := List.forall_mem_cons.mp each
      obtain ⟨⟨value, read⟩, tree⟩ := first
      obtain ⟨⟨values, readRest⟩, trees⟩ := ih others
      refine ⟨⟨value :: values, ?_⟩, ?_⟩
      · simp [Item.values?, read, readRest]
      · simp [Item.trees?, tree, trees]

private theorem members {objects : List (CoreconfObjectT CoreconfValueT)}
    (each : ∀ object ∈ objects, ∀ value, object.value = some value →
      (∃ value', value.toItem.value? = some value') ∧ value.toItem.tree? = some value.toTree) :
    (∃ members, Item.members? (objects.flatMap objectItems) = some members) ∧
      Item.bindings? (objects.flatMap objectItems) =
        some (objects.filterMap fun object => object.value.map fun value =>
          (object.key.toNat, value.toTree)) := by
  induction objects with
  | nil => exact ⟨⟨[], rfl⟩, rfl⟩
  | cons object rest ih =>
      obtain ⟨first, others⟩ := List.forall_mem_cons.mp each
      obtain ⟨⟨members, readRest⟩, trees⟩ := ih others
      obtain ⟨key, value⟩ := object
      cases value with
      | none => exact ⟨⟨members, readRest⟩, trees⟩
      | some value =>
          obtain ⟨⟨value', read⟩, tree⟩ := first value rfl
          have keyed : (keyItem key).sid? = some key := by simp [keyItem, Item.sid?]
          refine ⟨⟨(key, value') :: members, ?_⟩, ?_⟩
          · simp [objectItems, Item.members?, keyed, read, readRest]
          · simp [objectItems, Item.bindings?, keyed, tree, trees]

/-- The item of a value is one that the decoder can hold, with the value's content. -/
theorem value_tree (nests : value.Nests nesting) :
    (∃ value', value.toItem.value? = some value') ∧ value.toItem.tree? = some value.toTree := by
  induction nests with
  | array each ih =>
      obtain ⟨⟨values, read⟩, trees⟩ := values ih
      refine ⟨⟨.array values, ?_⟩, ?_⟩
      · rw [toItem, elementItems_eq, Item.value?, read]
        rfl
      · rw [toItem, elementItems_eq, Item.tree?, trees, CoreconfHashMapT.toTree_array]
        rfl
  | @hashmap nesting map distinct few noNull each ih =>
      obtain ⟨⟨members, read⟩, trees⟩ := members ih
      have length := mapItems_length noNull
      rw [mapItems_eq] at length
      refine ⟨⟨.hashmap (insertMembers members createCoreconfHashmap), ?_⟩, ?_⟩
      · rw [toItem, mapItems_eq, Item.value?, if_neg (by omega), read]
        rfl
      · rw [toItem, mapItems_eq, Item.tree?, trees, CoreconfHashMapT.toTree_hashmap]
        rfl
  | @leaf nesting value leaf object =>
      rcases leaf_cases value with ⟨s, rfl⟩ | notString
      · exact ⟨⟨_, rfl⟩, rfl⟩
      · rcases leaf_toItem leaf notString with ⟨i, low, high, same, tree⟩ | ⟨w, n, same, fits, -, read⟩
        · obtain ⟨value', read, tree'⟩ := integerItem_value low high
          have wellFormed := integerItem_wellFormed low high
          have textual : (integerItem i).Textual := by
            unfold integerItem
            split <;> trivial
          rw [same, tree, ← tree']
          exact ⟨⟨value', read⟩, Item.tree?_of_value read wellFormed textual⟩
        · obtain ⟨value', read, tree⟩ := read
          rw [same, ← tree]
          exact ⟨⟨value', read⟩, Item.simpleTree?_of_value read⟩

/-- What is read back has the content of the value exactly where no text is cut. -/
theorem readable_iff (nests : value.Nests nesting) {value' : CoreconfValueT}
    (read : value.toItem.value? = some value') :
    value'.toTree = value.toTree ↔ value.toItem.KeepsTexts := by
  refine Iff.trans ?_ (and_iff_left nests.nulFree)
  rw [← Item.tree?_iff_survives read nests.wellFormed nests.distinctKeys, nests.value_tree.2,
    Option.some.injEq, eq_comm]

end Nests

namespace Fits

variable {nesting : Nat} {value : CoreconfValueT}

theorem wellFormed (fits : value.Fits nesting) : value.toItem.WellFormed := fits.nests.wellFormed

theorem depth_le (fits : value.Fits nesting) : value.toItem.depth ≤ nesting := fits.nests.depth_le

theorem keepsTexts (fits : value.Fits nesting) : value.toItem.KeepsTexts := by
  induction fits with
  | array each ih =>
      rw [toItem, elementItems_eq, Item.keepsTexts_list]
      intro item member
      obtain ⟨element, inside, rfl⟩ := List.mem_map.mp member
      exact ih element inside
  | hashmap distinct few noNull each ih =>
      rw [toItem, mapItems_eq, Item.keepsTexts_map]
      intro entry member
      obtain ⟨object, inside, member⟩ := List.mem_flatMap.mp member
      obtain ⟨value, found, rfl⟩ := mem_objectItems member
      exact ih object inside value found
  | string short => exact Or.inl short
  | leaf leaf notString =>
      obtain ⟨w, n, same | same | same⟩ := leaf_item leaf notString
      all_goals
        rw [same]
        trivial

/-- The item of a value is a value of the same content. -/
theorem readable (fits : value.Fits nesting) :
    ∃ value', value.toItem.value? = some value' ∧ value'.toTree = value.toTree := by
  obtain ⟨value', read⟩ := fits.nests.value_tree.1
  exact ⟨value', read, (fits.nests.readable_iff read).mpr fits.keepsTexts⟩

end Fits

end CoreconfValueT

end Coreconf
