import Coreconf.Ipatch
import Coreconf.KeyedList
import Coreconf.Tree
import Mathlib.Data.List.InsertIdx

set_option autoImplicit false

/- What an entry of a patch means for the finite map of a datastore, and that
apply_ipatch_raw's branches do it. -/
namespace Coreconf

open CoreconfValueT (Valid)
open KeyedList (update)

namespace Tree

/-- A map with a member whose value is the text. -/
def holdsText (keyStr : CString) : Tree → Bool
  | .map members => members.any fun member =>
      match member.2 with
      | .str bytes => bytes == keyStr.bytes
      | _ => false
  | _ => false

def nonNull? : Tree → Option Tree
  | .null => none
  | tree => some tree

def isList : Tree → Bool
  | .list _ => true
  | _ => false

/-- A map in the place of a list becomes the only element of one. -/
def wrapped (old : Option Tree) (value : Tree) : Tree :=
  match value with
  | .map members => if old.any isList then .list [.map members] else .map members
  | value => value

end Tree

/-- The SID that an entry is about. -/
def PatchKey.keySid : PatchKey → UInt64
  | .sid key => key
  | .listInstance key _ => key

/-- The finite map after an entry, and whether the entry counts: null removes a SID,
another value is bound to it; in the list of a SID, null removes the first instance
with the key, another value replaces it or is appended. -/
def patchMembers (members : List (Nat × Tree)) (key : PatchKey) (value : Tree) :
    List (Nat × Tree) × Bool :=
  match key with
  | .sid sid =>
      match value.nonNull? with
      | none => (FinMap.erase sid.toNat members, true)
      | some value =>
          (FinMap.insert sid.toNat (Tree.wrapped (FinMap.lookup sid.toNat members) value) members, true)
  | .listInstance sid keyStr =>
      match FinMap.lookup sid.toNat members with
      | some (.list elements) =>
          (FinMap.insert sid.toNat (.list (update Tree.holdsText elements (keyStr, value.nonNull?))) members,
            true)
      | _ => (members, false)

variable {target : CoreconfHashMapT CoreconfValueT}

theorem isNull_iff {val : CoreconfValueT} : isNull val = true ↔ val.toTree.nonNull? = none := by
  cases val <;> simp [isNull, CoreconfValueT.toTree, Tree.nonNull?]

theorem nonNull?_eq_some {val : CoreconfValueT} (value : isNull val = false) :
    val.toTree.nonNull? = some val.toTree := by
  cases val <;> first | rfl | cases value

theorem holdsText_toTree {value : CoreconfValueT} (valid : value.Valid) (keyStr : CString) :
    value.toTree.holdsText keyStr = holdsString keyStr value := by
  have text : ∀ {value : CoreconfValueT} {bytes : List UInt8}, value.toTree = .str bytes →
      ∃ s : CString, value = .string s ∧ s.bytes = bytes := by
    intro value bytes same
    cases value <;> cases same
    exact ⟨_, rfl, rfl⟩
  cases value with
  | hashmap map =>
      have inv := valid.repInv
      rw [CoreconfHashMapT.toTree_hashmap, Tree.holdsText, holdsString, Bool.eq_iff_iff,
        List.any_eq_true, List.any_eq_true]
      constructor
      · rintro ⟨⟨k, tree⟩, member, held⟩
        have found := FinMap.lookup_of_mem (CoreconfHashMapT.content_sorted map).distinct member
        obtain ⟨key, value, inside, -, rfl⟩ := inv.lookup_content.mp found
        dsimp only at held
        split at held
        · rename_i bytes isText
          obtain ⟨s, rfl, rfl⟩ := text isText
          refine ⟨_, inside, ?_⟩
          obtain ⟨sBytes, sNoNul⟩ := s
          obtain ⟨kBytes, kNoNul⟩ := keyStr
          simpa using held
        · cases held
      · rintro ⟨⟨key, value?⟩, member, held⟩
        dsimp only at held
        split at held
        · cases of_decide_eq_true held
          have bound : FinMap.lookup key.toNat map.content = some (.str keyStr.bytes) :=
            inv.lookup_content.mpr ⟨key, .string keyStr, member, rfl, rfl⟩
          exact ⟨_, FinMap.lookup_mem bound, by simp⟩
        · cases held
  | _ => rfl

theorem findListEntryByKey_toTree {elements : List CoreconfValueT}
    (each : ∀ element ∈ elements, Valid element) (keyStr : CString) :
    (elements.map CoreconfValueT.toTree).findIdx? (Tree.holdsText keyStr) =
      findListEntryByKey elements keyStr := by
  induction elements with
  | nil => rfl
  | cons element rest ih =>
      obtain ⟨first, others⟩ := List.forall_mem_cons.mp each
      rw [findListEntryByKey, List.map_cons, List.findIdx?_cons, List.findIdx?_cons,
        holdsText_toTree first, ih others, findListEntryByKey]

/-- An entry with an instance key updates the list of the trees. -/
theorem applyListEntry_toTree {elements : List CoreconfValueT}
    (each : ∀ element ∈ elements, Valid element) (keyStr : CString) (val : CoreconfValueT) :
    (applyListEntry elements keyStr val).map CoreconfValueT.toTree =
      update Tree.holdsText (elements.map CoreconfValueT.toTree) (keyStr, val.toTree.nonNull?) := by
  have found := findListEntryByKey_toTree each keyStr
  unfold applyListEntry
  cases null : isNull val with
  | true =>
      rw [isNull_iff.mp null, update, List.eraseP_eq_eraseIdx, found]
      cases findListEntryByKey elements keyStr with
      | none => rfl
      | some idx => exact (List.eraseIdx_map _ _ _).symm
  | false =>
      rw [nonNull?_eq_some null, update]
      cases entry : findListEntryByKey elements keyStr with
      | none =>
          rw [entry] at found
          have absent := (List.findIdx?_isSome (p := Tree.holdsText keyStr)).symm.trans
            (congrArg Option.isSome found)
          rw [absent]
          exact List.map_append
      | some idx =>
          rw [entry] at found
          have present := (List.findIdx?_isSome (p := Tree.holdsText keyStr)).symm.trans
            (congrArg Option.isSome found)
          rw [present, if_pos Option.isSome_some, KeyedList.replaceFirst_eq_set found]
          exact List.map_set

theorem wrapped_toTree (old : Option CoreconfValueT) (val : CoreconfValueT) :
    CoreconfValueT.toTree (match old, val with
      | some (.array _), .hashmap map => .array (addToCoreconfArray [] (.hashmap map))
      | _, _ => val) = Tree.wrapped (old.map CoreconfValueT.toTree) val.toTree := by
  cases val with
  | hashmap map =>
      cases old with
      | none => rfl
      | some old => cases old <;> rfl
  | _ =>
      cases old with
      | none => rfl
      | some old => cases old <;> rfl

theorem applySidEntry_valid (valid : Valid (.hashmap target)) {val : CoreconfValueT} (new : val.Valid)
    (sid : UInt64) : Valid (.hashmap (applySidEntry target sid val)) := by
  unfold applySidEntry
  split
  · exact valid.delete sid
  · split
    · refine valid.insert (.array ?_) sid
      intro element member
      rw [addToCoreconfArray, List.nil_append, List.mem_singleton] at member
      exact member ▸ new
    · exact valid.insert new sid

theorem applyListEntry_valid {elements : List CoreconfValueT}
    (each : ∀ element ∈ elements, Valid element) {val : CoreconfValueT} (new : val.Valid)
    (keyStr : CString) : ∀ element ∈ applyListEntry elements keyStr val, Valid element := by
  unfold applyListEntry
  split
  · split
    · exact fun element member => each element (List.mem_of_mem_eraseIdx member)
    · intro element member
      rcases List.mem_or_eq_of_mem_set member with member | rfl
      · exact each element member
      · exact new
  · split
    · exact each
    · intro element member
      rcases List.mem_append.mp member with member | member
      · exact each element member
      · exact List.mem_singleton.mp member ▸ new

/-- An entry of a patch keeps the datastore valid, whatever it does. -/
theorem applyEntry_valid (valid : Valid (.hashmap target)) {val : CoreconfValueT} (new : val.Valid)
    (key : PatchKey) : Valid (.hashmap (applyEntry target key val).1) := by
  cases key with
  | sid sid => exact applySidEntry_valid valid new sid
  | listInstance sid keyStr =>
      simp only [applyEntry, applyInstanceEntry]
      split
      · rename_i elements found
        exact valid.storeThroughGet found
          (.array (applyListEntry_valid (valid.get found).element new keyStr))
      · exact valid

/-- The insertion that an entry makes, if it makes one, finds room in its chain. -/
def EntryInserts (target : CoreconfHashMapT CoreconfValueT) (key : PatchKey) (val : CoreconfValueT) :
    Prop :=
  match key with
  | .sid sid => isNull val = false → ∀ value, (insertCoreconfHashMap target sid value).1 = 0
  | .listInstance _ _ => True

/-- No insertion made by the entries in turn is refused. -/
def Inserts (target : CoreconfHashMapT CoreconfValueT) : List (PatchKey × CoreconfValueT) → Prop
  | [] => True
  | entry :: rest =>
      EntryInserts target entry.1 entry.2 ∧ Inserts (applyEntry target entry.1 entry.2).1 rest

/-- An entry does to the datastore what it means for the finite map. -/
theorem applyEntry_meaning (valid : Valid (.hashmap target)) {key : PatchKey} {val : CoreconfValueT}
    (inserts : EntryInserts target key val) :
    ((applyEntry target key val).1.content, (applyEntry target key val).2) =
      patchMembers target.content key val.toTree := by
  have inv := valid.repInv
  cases key with
  | sid sid =>
      simp only [applyEntry, applySidEntry, patchMembers]
      cases null : isNull val with
      | true =>
          rw [isNull_iff.mp null]
          exact congrArg (·, true) (inv.content_delete sid)
      | false =>
          rw [nonNull?_eq_some null]
          dsimp only
          rw [if_neg (by decide), inv.content_insert (inserts null _), inv.lookup_content_get]
          exact congrArg (fun tree => (FinMap.insert sid.toNat tree target.content, true))
            (wrapped_toTree _ val)
  | listInstance sid keyStr =>
      simp only [applyEntry, applyInstanceEntry, patchMembers, inv.lookup_content_get]
      cases found : getCoreconfHashMap target sid with
      | none => rfl
      | some old =>
          cases old with
          | array elements =>
              have stored := inv.content_storeThroughGet (inv.get_eq_some.mp found)
                (.array (applyListEntry elements keyStr val))
              rw [CoreconfHashMapT.toTree_array, applyListEntry_toTree (valid.get found).element] at stored
              simp only [Option.map_some, CoreconfHashMapT.toTree_array]
              exact congrArg (·, true) stored
          | _ => rfl

private theorem get_congr {map map' : CoreconfHashMapT CoreconfValueT} (inv : map.RepInv)
    (inv' : map'.RepInv) {sid : UInt64}
    (same : ∀ value, ⟨sid, some value⟩ ∈ map'.objects ↔ ⟨sid, some value⟩ ∈ map.objects) :
    getCoreconfHashMap map' sid = getCoreconfHashMap map sid := by
  ext value
  rw [inv'.get_eq_some, inv.get_eq_some, same]

theorem get_insert_other (inv : target.RepInv) {key sid : UInt64} (other : sid ≠ key)
    (value : CoreconfValueT) :
    getCoreconfHashMap (insertCoreconfHashMap target key (some value)).2 sid =
      getCoreconfHashMap target sid := by
  by_cases inserted : (insertCoreconfHashMap target key (some value)).1 = 0
  · refine get_congr inv (inv.insert key value) fun value => ?_
    rw [inv.mem_insert inserted]
    simp [other]
  · rw [insertCoreconfHashMap_refused inserted]

theorem get_delete_other (inv : target.RepInv) {key sid : UInt64} (other : sid ≠ key) :
    getCoreconfHashMap (deleteFromCoreconfHashMap target key).2 sid = getCoreconfHashMap target sid :=
  get_congr inv (inv.delete key) fun value => by rw [inv.mem_delete]; simp [other]

theorem get_storeThroughGet_other (inv : target.RepInv) {key sid : UInt64} (other : sid ≠ key)
    {old : CoreconfValueT} (found : getCoreconfHashMap target key = some old) (value : CoreconfValueT) :
    getCoreconfHashMap (storeThroughGet target key value) sid = getCoreconfHashMap target sid := by
  have present := inv.get_eq_some.mp found
  refine get_congr inv (inv.storeThroughGet present value) fun value => ?_
  rw [inv.mem_storeThroughGet present]
  simp [other]

/-- One entry leaves the binding of every other SID alone. -/
theorem applyEntry_other (inv : target.RepInv) {key : PatchKey} {sid : UInt64}
    (other : sid ≠ key.keySid) (val : CoreconfValueT) :
    getCoreconfHashMap (applyEntry target key val).1 sid = getCoreconfHashMap target sid := by
  cases key with
  | sid key =>
      simp only [applyEntry, applySidEntry]
      split
      · exact get_delete_other inv other
      · exact get_insert_other inv other _
  | listInstance key keyStr =>
      simp only [applyEntry, applyInstanceEntry]
      split
      · rename_i elements found
        exact get_storeThroughGet_other inv other found _
      · rfl

/-- The datastore and the count after one entry. -/
def applyCounted (applied : CoreconfHashMapT CoreconfValueT × Int) (entry : PatchKey × CoreconfValueT) :
    CoreconfHashMapT CoreconfValueT × Int :=
  ((applyEntry applied.1 entry.1 entry.2).1,
    if (applyEntry applied.1 entry.1 entry.2).2 then applied.2 + 1 else applied.2)

def applyEntries (target : CoreconfHashMapT CoreconfValueT) (count : Int)
    (entries : List (PatchKey × CoreconfValueT)) : CoreconfHashMapT CoreconfValueT × Int :=
  entries.foldl applyCounted (target, count)

@[simp] theorem applyEntries_nil (target : CoreconfHashMapT CoreconfValueT) (count : Int) :
    applyEntries target count [] = (target, count) := rfl

theorem applyEntries_cons (target : CoreconfHashMapT CoreconfValueT) (count : Int)
    (entry : PatchKey × CoreconfValueT) (rest : List (PatchKey × CoreconfValueT)) :
    applyEntries target count (entry :: rest) =
      applyEntries (applyCounted (target, count) entry).1 (applyCounted (target, count) entry).2 rest :=
  rfl

theorem applyEntries_append (target : CoreconfHashMapT CoreconfValueT) (count : Int)
    (entries later : List (PatchKey × CoreconfValueT)) :
    applyEntries target count (entries ++ later) =
      applyEntries (applyEntries target count entries).1 (applyEntries target count entries).2 later := by
  rw [applyEntries, applyEntries, applyEntries, List.foldl_append]

theorem applyEntries_other (valid : Valid (.hashmap target)) (count : Int) {sid : UInt64}
    {entries : List (PatchKey × CoreconfValueT)} (new : ∀ entry ∈ entries, entry.2.Valid)
    (other : ∀ entry ∈ entries, sid ≠ entry.1.keySid) :
    getCoreconfHashMap (applyEntries target count entries).1 sid = getCoreconfHashMap target sid := by
  induction entries generalizing target count with
  | nil => rfl
  | cons entry rest ih =>
      obtain ⟨first, later⟩ := List.forall_mem_cons.mp other
      obtain ⟨newFirst, newLater⟩ := List.forall_mem_cons.mp new
      have tail := ih (applyEntry_valid valid newFirst entry.1) (applyCounted (target, count) entry).2
        newLater later
      exact tail.trans (applyEntry_other valid.repInv first entry.2)

/-- The finite map and the count after one entry. -/
def patchCounted (patched : List (Nat × Tree) × Int) (entry : PatchKey × Tree) :
    List (Nat × Tree) × Int :=
  ((patchMembers patched.1 entry.1 entry.2).1,
    if (patchMembers patched.1 entry.1 entry.2).2 then patched.2 + 1 else patched.2)

def patchAll (members : List (Nat × Tree)) (count : Int) (entries : List (PatchKey × Tree)) :
    List (Nat × Tree) × Int :=
  entries.foldl patchCounted (members, count)

def entryTrees (entries : List (PatchKey × CoreconfValueT)) : List (PatchKey × Tree) :=
  entries.map fun entry => (entry.1, entry.2.toTree)

/-- The entries in turn do what they mean in turn. -/
theorem applyEntries_meaning (valid : Valid (.hashmap target)) (count : Int)
    {entries : List (PatchKey × CoreconfValueT)} (new : ∀ entry ∈ entries, entry.2.Valid)
    (inserts : Inserts target entries) :
    ((applyEntries target count entries).1.content, (applyEntries target count entries).2) =
      patchAll target.content count (entryTrees entries) := by
  induction entries generalizing target count with
  | nil => rfl
  | cons entry rest ih =>
      obtain ⟨newFirst, newLater⟩ := List.forall_mem_cons.mp new
      have meaning := applyEntry_meaning valid inserts.1
      have content : (applyEntry target entry.1 entry.2).1.content =
          (patchMembers target.content entry.1 entry.2.toTree).1 := congrArg Prod.fst meaning
      have counted : (applyEntry target entry.1 entry.2).2 =
          (patchMembers target.content entry.1 entry.2.toTree).2 := congrArg Prod.snd meaning
      have tail := ih (applyEntry_valid valid newFirst entry.1) (applyCounted (target, count) entry).2
        newLater inserts.2
      have here : patchCounted (target.content, count) (entry.1, entry.2.toTree) =
          ((applyEntry target entry.1 entry.2).1.content, (applyCounted (target, count) entry).2) := by
        rw [patchCounted, applyCounted, content, counted]
      refine tail.trans ?_
      rw [entryTrees, entryTrees, patchAll, patchAll, List.map_cons, List.foldl_cons, here]

theorem applyEntries_valid (valid : Valid (.hashmap target)) (count : Int)
    {entries : List (PatchKey × CoreconfValueT)} (new : ∀ entry ∈ entries, entry.2.Valid) :
    Valid (.hashmap (applyEntries target count entries).1) := by
  induction entries generalizing target count with
  | nil => exact valid
  | cons entry rest ih =>
      obtain ⟨newFirst, newLater⟩ := List.forall_mem_cons.mp new
      exact ih (applyEntry_valid valid newFirst entry.1) (applyCounted (target, count) entry).2 newLater

end Coreconf
