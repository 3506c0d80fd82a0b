import Coreconf.ListInstances

set_option autoImplicit false

/- List instances and their key leaf: the searches accept a string under any key of an
entry, so what they find depends on the other leaves of the entries in front. -/
namespace Coreconf

/-- The string an entry holds under the key leaf of its list. -/
def keyLeaf (delta : UInt64) : CoreconfValueT → Option CString
  | .hashmap map =>
      match getCoreconfHashMap map delta with
      | some (.string s) => some s
      | _ => none
  | _ => none

def isInstance (delta : UInt64) (k : CString) (entry : CoreconfValueT) : Bool := keyLeaf delta entry == some k

/-- Every entry is a map with a string at the key leaf, no two with the same. -/
structure KeyedBy (delta : UInt64) (elements : List CoreconfValueT) : Prop where
  held : ∀ entry ∈ elements, (keyLeaf delta entry).isSome
  distinct : (elements.map (keyLeaf delta)).Nodup

/-- An entry of a list into the FETCH response, in an array of its own. -/
def encodeInstance (st : EncodeState) (sid : UInt64) : Option CoreconfValueT → EncodeState
  | some entry =>
      let st := (putResult st (zcborUint64Put st sid)).2
      let st := (putResult st (zcborListStartEncode st)).2
      let st := (coreconfToCBOR entry st).2
      (putResult st (zcborListEndEncode st)).2
  | none => st

/-- Every search for the key finds the entry with this key leaf, or nothing where there is
none; so a delete leaves all other entries and a FETCH answers with no other. A request
has the key as far as the key buffer holds it. -/
structure SelectsInstance (delta : UInt64) (elements : List CoreconfValueT) (k : CString) : Prop where
  fetched : ∀ map sid, getCoreconfHashMap map sid = some (.array elements) →
    fetchValueByIid (.hashmap map) (.withStrKey sid k) = elements.find? (isInstance delta k)
  listEntry : findListEntryByKey elements k = elements.findIdx? (isInstance delta k)
  served : fetchFindListEntry elements k = elements.findIdx? (isInstance delta k)
  deleted : ∀ target sid, getCoreconfHashMap target sid = some (.array elements) →
    getCoreconfHashMap (applyEntry target (.listInstance sid (keyBuffer k.bytes)) .null).1 sid =
      some (.array (elements.filter (!isInstance delta k ·)))
  answered : ∀ root st sid, getCoreconfHashMap root sid = some (.array elements) →
    encodeFetchIid root st (.list sid (keyBuffer k.bytes)) =
      encodeInstance st sid (elements.find? (isInstance delta k))

/-- No entry in front of the instance of `k` holds the string that is searched for, and the
instance does. -/
def FoundBy (delta : UInt64) (elements : List CoreconfValueT) (k searched : CString) : Prop :=
  (∀ entry ∈ elements.takeWhile (!isInstance delta k ·), ¬ holdsString searched entry) ∧
    ∀ entry, elements.find? (isInstance delta k) = some entry → holdsString searched entry

theorem holdsString_of_keyLeaf {delta : UInt64} {entry : CoreconfValueT} {k : CString}
    (found : keyLeaf delta entry = some k) : holdsString k entry := by
  cases entry with
  | hashmap map =>
      rw [keyLeaf] at found
      split at found
      · rename_i s bound
        cases found
        rw [getCoreconfHashMap] at bound
        split at bound
        · cases bound
        · rename_i object first
          have member := CoreconfHashMapT.RepInv.mem_objects_of_chain (List.mem_of_find?_eq_some first)
          exact List.any_eq_true.mpr ⟨object, member, by simp [bound]⟩
      · cases found
  | _ => cases found

/-- The key leaf is one of the strings, so only the entries in front matter. -/
theorem foundBy_key {delta : UInt64} {elements : List CoreconfValueT} {k : CString} :
    FoundBy delta elements k k ↔
      ∀ entry ∈ elements.takeWhile (!isInstance delta k ·), ¬ holdsString k entry := by
  refine and_iff_left fun entry found => ?_
  have leaf : isInstance delta k entry := List.find?_some found
  exact holdsString_of_keyLeaf (eq_of_beq leaf)

theorem find?_overwrite {V : Type} (key : UInt64) (value : V) (chain : List (CoreconfObjectT V)) :
    (overwrite key value chain).find? (·.key = key) =
      (chain.find? (·.key = key)).map fun object => { object with value := some value } := by
  induction chain with
  | nil => rfl
  | cons current next ih =>
      rw [overwrite, List.find?_cons]
      by_cases here : current.key = key
      · simp [here]
      · simp [here, ih]

/-- A store through the pointer that a get gave is what the next get sees, in any table. -/
theorem get_storeThroughGet_of_get {map : CoreconfHashMapT CoreconfValueT} {sid : UInt64}
    {old : CoreconfValueT} (found : getCoreconfHashMap map sid = some old) (value : CoreconfValueT) :
    getCoreconfHashMap (storeThroughGet map sid value) sid = some value := by
  rw [getCoreconfHashMap] at found
  split at found
  · cases found
  · rename_i object first
    have bound : hashKey sid.toUInt32 < map.table.length := by
      by_contra outside
      rw [CoreconfHashMapT.chain, List.getD_eq_default _ _ (Nat.not_lt.mp outside)] at first
      cases first
    have chain : (storeThroughGet map sid value).chain sid = overwrite sid value (map.chain sid) := by
      rw [CoreconfHashMapT.chain, storeThroughGet, CoreconfHashMapT.setChain, ChainTable.getD_set bound, if_pos rfl]
    rw [getCoreconfHashMap, chain, find?_overwrite, first]
    rfl

theorem encodeFetchIid_list {root : CoreconfHashMapT CoreconfValueT} {sid : UInt64}
    {elements : List CoreconfValueT} (found : getCoreconfHashMap root sid = some (.array elements))
    (st : EncodeState) (key : CString) :
    encodeFetchIid root st (.list sid key) = encodeInstance st sid (elements.find? (holdsString key)) := by
  rw [List.find?_eq_bind_findIdx?_getElem?, encodeFetchIid, found]
  rfl

/-- The removal of a list entry under a key. -/
theorem get_applyEntry_null {target : CoreconfHashMapT CoreconfValueT} {sid : UInt64}
    {elements : List CoreconfValueT} (found : getCoreconfHashMap target sid = some (.array elements))
    (key : CString) :
    getCoreconfHashMap (applyEntry target (.listInstance sid key) .null).1 sid =
      some (.array (elements.eraseP (holdsString key))) := by
  have removed : applyListEntry elements key .null = elements.eraseP (holdsString key) :=
    applyListEntry_eq elements key .null
  have stored := get_storeThroughGet_of_get found (.array (applyListEntry elements key .null))
  simp only [applyEntry, applyInstanceEntry, found]
  rw [stored, removed]

/-- The searches are by the key leaf exactly where no entry in front of the instance holds
the key under another leaf, and the same of what the key buffer holds of a longer key. -/
theorem selects_instance_iff {delta : UInt64} {elements : List CoreconfValueT}
    (keyed : KeyedBy delta elements) (k : CString) :
    SelectsInstance delta elements k ↔
      (∀ entry ∈ elements.takeWhile (!isInstance delta k ·), ¬ holdsString k entry) ∧
        FoundBy delta elements k (keyBuffer k.bytes) := by
  rw [← foundBy_key]
  have once : elements.Pairwise fun x y => ¬ (isInstance delta k x ∧ isInstance delta k y) := by
    refine (List.pairwise_map.mp keyed.distinct).imp fun differ => ?_
    rintro ⟨first, second⟩
    exact differ ((eq_of_beq first).trans (eq_of_beq second).symm)
  constructor
  · intro selects
    refine ⟨KeyedList.findIdx?_eq_iff.mp selects.listEntry, ?_⟩
    have bound : getCoreconfHashMap (insertCoreconfHashMap createCoreconfHashmap 0
        (some (CoreconfValueT.array elements))).2 0 = some (.array elements) := by
      rw [(repInv_create.insert 0 _).get_eq_some, insert_create_objects]
      exact List.mem_singleton.mpr rfl
    have deleted := selects.deleted _ _ bound
    rw [get_applyEntry_null bound, Option.some.injEq, CoreconfValueT.array.injEq] at deleted
    exact KeyedList.findIdx?_eq_iff.mp (KeyedList.findIdx?_eq_of_eraseP_eq keyed.distinct.of_map deleted)
  · rintro ⟨whole, cut⟩
    have sameWhole := KeyedList.findIdx?_eq_iff.mpr whole
    have sameCut := KeyedList.findIdx?_eq_iff.mpr cut
    refine ⟨fun map sid found => ?_, sameWhole, sameWhole, fun target sid found => ?_,
      fun root st sid found => ?_⟩
    · simp only [fetchValueByIid, InstanceIdentifier.sid, found]
      exact KeyedList.find?_eq_of_findIdx?_eq sameWhole
    · rw [get_applyEntry_null found, KeyedList.eraseP_eq_of_findIdx?_eq sameCut,
        KeyedList.eraseP_eq_filter once]
    · rw [encodeFetchIid_list found, KeyedList.find?_eq_of_findIdx?_eq sameCut]

/-- The entries {1: "a", 2: "b"} and {1: "b"}, whose key leaf is 1. -/
def describedByOther : List CoreconfValueT :=
  [.hashmap (mapOf [(1, .string (CString.ofBuffer [0x61])), (2, .string (CString.ofBuffer [0x62]))]),
    .hashmap (mapOf [(1, .string (CString.ofBuffer [0x62]))])]

private theorem describedByOther_keyed : KeyedBy 1 describedByOther :=
  ⟨by decide, by decide⟩

theorem first_instance_selected : SelectsInstance 1 describedByOther (CString.ofBuffer [0x61]) :=
  (selects_instance_iff describedByOther_keyed (CString.ofBuffer [0x61])).mpr
    ⟨by decide, by decide, fun _ found => by cases found; decide⟩

/-- The string "b" is looked for and the first entry found, which has it under another leaf. -/
theorem other_instance_selected :
    KeyedBy 1 describedByOther ∧
      describedByOther.findIdx? (isInstance 1 (CString.ofBuffer [0x62])) = some 1 ∧
      findListEntryByKey describedByOther (CString.ofBuffer [0x62]) = some 0 ∧
      fetchFindListEntry describedByOther (CString.ofBuffer [0x62]) = some 0 ∧
      ¬ SelectsInstance 1 describedByOther (CString.ofBuffer [0x62]) := by
  have found : findListEntryByKey describedByOther (CString.ofBuffer [0x62]) = some 0 := by decide
  have named : describedByOther.findIdx? (isInstance 1 (CString.ofBuffer [0x62])) = some 1 := by decide
  refine ⟨describedByOther_keyed, named, found, found, fun selects => ?_⟩
  have same := selects.listEntry
  rw [found, named] at same
  cases same

end Coreconf
