import Coreconf.PatchEffects

set_option autoImplicit false

/- iPATCH twice with one payload. Entries about different SIDs do not meet, so each
SID is looked at on its own. -/
namespace Coreconf

open Cbor (Item)
open CoreconfValueT (Valid)
open Fuel (Returns)
open KeyedList (Update replay Separate)

/-- What an entry does to the binding of its SID. -/
def PatchKey.bind (key : PatchKey) (value : Tree) (old : Option Tree) : Option Tree :=
  match key with
  | .sid _ => value.nonNull?.map (Tree.wrapped old)
  | .listInstance _ keyStr =>
      match old with
      | some (.list elements) =>
          some (.list (KeyedList.update Tree.holdsText elements (keyStr, value.nonNull?)))
      | _ => old

def bindAll (entries : List (PatchKey × Tree)) (old : Option Tree) : Option Tree :=
  entries.foldl (fun old entry => entry.1.bind entry.2 old) old

variable {members : List (Nat × Tree)} {entries : List (PatchKey × Tree)}

theorem patchMembers_sorted (sorted : FinMap.Sorted members) (key : PatchKey) (value : Tree) :
    FinMap.Sorted (patchMembers members key value).1 := by
  unfold patchMembers
  split
  · split
    · exact FinMap.sorted_erase _ sorted
    · exact FinMap.sorted_insert _ _ sorted
  · split
    · exact FinMap.sorted_insert _ _ sorted
    · exact sorted

theorem lookup_patchMembers (sorted : FinMap.Sorted members) (key : PatchKey) (value : Tree) (k : Nat) :
    FinMap.lookup k (patchMembers members key value).1 =
      if k = key.keySid.toNat then key.bind value (FinMap.lookup k members) else FinMap.lookup k members := by
  cases key with
  | sid sid =>
      simp only [patchMembers, PatchKey.keySid, PatchKey.bind]
      cases value.nonNull? with
      | none => exact FinMap.lookup_erase sorted _ _
      | some value =>
          dsimp only
          rw [FinMap.lookup_insert]
          by_cases same : k = sid.toNat
          · simp only [same, ↓reduceIte, Option.map_some]
          · simp only [same, ↓reduceIte]
  | listInstance sid keyStr =>
      simp only [patchMembers, PatchKey.keySid, PatchKey.bind]
      by_cases same : k = sid.toNat
      · subst same
        simp only [↓reduceIte]
        rcases found : FinMap.lookup sid.toNat members with _ | old
        · exact found
        · cases old with
          | list elements => simp only [FinMap.lookup_insert, ↓reduceIte]
          | _ => exact found
      · simp only [same, ↓reduceIte]
        split
        · simp only [FinMap.lookup_insert, same, ↓reduceIte]
        · rfl

theorem patchAll_sorted (sorted : FinMap.Sorted members) (count : Int)
    (entries : List (PatchKey × Tree)) :
    FinMap.Sorted (patchAll members count entries).1 := by
  induction entries generalizing members count with
  | nil => exact sorted
  | cons entry rest ih => exact ih (patchMembers_sorted sorted entry.1 entry.2) _

/-- A binding is changed by the entries about its SID only. -/
theorem lookup_patchAll (sorted : FinMap.Sorted members) (count : Int) (k : Nat) :
    FinMap.lookup k (patchAll members count entries).1 =
      bindAll (entries.filter fun entry => entry.1.keySid.toNat = k) (FinMap.lookup k members) := by
  induction entries generalizing members count with
  | nil => rfl
  | cons entry rest ih =>
      have here := lookup_patchMembers sorted entry.1 entry.2 k
      have later := ih (patchMembers_sorted sorted entry.1 entry.2)
        (patchCounted (members, count) entry).2
      refine later.trans ?_
      rw [here]
      by_cases about : entry.1.keySid.toNat = k
      · rw [if_pos about.symm, List.filter_cons_of_pos (by simpa using about)]
        rfl
      · rw [if_neg (Ne.symm about), List.filter_cons_of_neg (by simpa using about)]

/-- An instance entry leaves a list a list, and anything else as it is. -/
theorem bind_instance_isList (sid : UInt64) (keyStr : CString) (value : Tree) (old : Option Tree) :
    ((PatchKey.listInstance sid keyStr).bind value old).any Tree.isList = old.any Tree.isList := by
  simp only [PatchKey.bind]
  split <;> rfl

theorem bind_sid_congr {old old' : Option Tree} (same : old.any Tree.isList = old'.any Tree.isList)
    (sid : UInt64) (value : Tree) :
    (PatchKey.sid sid).bind value old = (PatchKey.sid sid).bind value old' := by
  have wrapped : Tree.wrapped old = Tree.wrapped old' := by
    funext value
    cases value <;> simp only [Tree.wrapped, same]
  simp only [PatchKey.bind, wrapped]

/-- After an entry for the SID itself, all that is left of a binding is whether it
was a list. -/
theorem bindAll_congr {sid : UInt64} {value : Tree} (whole : (PatchKey.sid sid, value) ∈ entries)
    {old old' : Option Tree} (same : old.any Tree.isList = old'.any Tree.isList) :
    bindAll entries old = bindAll entries old' := by
  induction entries generalizing old old' with
  | nil => cases whole
  | cons entry rest ih =>
      obtain ⟨key, new⟩ := entry
      show bindAll rest (key.bind new old) = bindAll rest (key.bind new old')
      cases key with
      | sid sid' => rw [bind_sid_congr same]
      | listInstance sid' keyStr =>
          have later : (PatchKey.sid sid, value) ∈ rest := by
            rcases List.mem_cons.mp whole with equal | later
            · cases equal
            · exact later
          exact ih later (by rw [bind_instance_isList, bind_instance_isList, same])

/-- Entries either make the binding what it is not by what it was, or they keep a list
a list and anything else something else. -/
theorem bindAll_constant_or_isList (entries : List (PatchKey × Tree)) :
    (∀ old old', bindAll entries old = bindAll entries old') ∨
      ∀ old, (bindAll entries old).any Tree.isList = old.any Tree.isList := by
  induction entries with
  | nil => exact Or.inr fun _ => rfl
  | cons entry rest ih =>
      obtain ⟨key, value⟩ := entry
      have unfolded : ∀ old, bindAll ((key, value) :: rest) old = bindAll rest (key.bind value old) :=
        fun _ => rfl
      simp only [unfolded]
      rcases ih with constant | keeps
      · exact Or.inl fun old old' => constant _ _
      cases key with
      | listInstance sid keyStr => exact Or.inr fun old => by rw [keeps, bind_instance_isList]
      | sid sid =>
          cases value with
          | map members =>
              refine Or.inr fun old => ?_
              rw [keeps]
              cases list : old.any Tree.isList <;>
                simp [PatchKey.bind, Tree.nonNull?, Tree.wrapped, list, Tree.isList]
          | _ => exact Or.inl fun old old' => rfl

theorem bindAll_whole {sid : UInt64} {value : Tree} (whole : (PatchKey.sid sid, value) ∈ entries)
    (old : Option Tree) : bindAll entries (bindAll entries old) = bindAll entries old := by
  rcases bindAll_constant_or_isList entries with constant | keeps
  · exact constant _ _
  · exact bindAll_congr whole (keeps old)

/-- The instance entries about a SID, as updates of its list. -/
def instanceUpdates (sid : UInt64) (entries : List (PatchKey × Tree)) : List (Update Tree CString) :=
  entries.filterMap fun entry =>
    match entry.1 with
    | .sid _ => none
    | .listInstance key keyStr => if key = sid then some (keyStr, entry.2.nonNull?) else none

theorem bindAll_instances {sid : UInt64} (parts : ∀ value, (PatchKey.sid sid, value) ∉ entries)
    (elements : List Tree) :
    bindAll (entries.filter fun entry => entry.1.keySid.toNat = sid.toNat) (some (.list elements)) =
      some (.list (replay Tree.holdsText elements (instanceUpdates sid entries))) := by
  induction entries generalizing elements with
  | nil => rfl
  | cons entry rest ih =>
      obtain ⟨key, value⟩ := entry
      have later := ih fun value member => parts value (List.mem_cons_of_mem _ member)
      cases key with
      | sid key =>
          have other : key ≠ sid := by
            rintro rfl
            exact parts value List.mem_cons_self
          rw [List.filter_cons_of_neg (by simpa [PatchKey.keySid, UInt64.toNat_inj] using other), later]
          rfl
      | listInstance key keyStr =>
          by_cases about : key = sid
          · subst about
            rw [List.filter_cons_of_pos (by simp [PatchKey.keySid])]
            refine (later (KeyedList.update Tree.holdsText elements (keyStr, value.nonNull?))).trans ?_
            simp [instanceUpdates, replay]
          · rw [List.filter_cons_of_neg (by simpa [PatchKey.keySid, UInt64.toNat_inj] using about), later]
            simp [instanceUpdates, about]

theorem bindAll_notList {old : Option Tree} (other : ∀ elements, old ≠ some (.list elements))
    (parts : ∀ entry ∈ entries, ∀ sid, entry.1 ≠ .sid sid) : bindAll entries old = old := by
  induction entries with
  | nil => rfl
  | cons entry rest ih =>
      obtain ⟨first, others⟩ := List.forall_mem_cons.mp parts
      have same : entry.1.bind entry.2 old = old := by
        cases key : entry.1 with
        | sid sid => exact absurd key (first sid)
        | listInstance sid keyStr =>
            simp only [PatchKey.bind]
      show bindAll rest (entry.1.bind entry.2 old) = old
      rw [same, ih others]

/-- The entries about a SID can be repeated: one is for the SID itself, or it holds no
list, or the instance entries leave the list as it is that they have made. -/
def Repeatable (members : List (Nat × Tree)) (entries : List (PatchKey × Tree)) (sid : UInt64) : Prop :=
  (∃ value, (PatchKey.sid sid, value) ∈ entries) ∨
    ∀ elements, FinMap.lookup sid.toNat members = some (.list elements) →
      replay Tree.holdsText (replay Tree.holdsText elements (instanceUpdates sid entries))
          (instanceUpdates sid entries) =
        replay Tree.holdsText elements (instanceUpdates sid entries)

/-- The instance entries do not interfere, and every instance that is to go is gone after
the first time. -/
def Separable (sid : UInt64) (entries : List (PatchKey × Tree)) (elements : List Tree) : Prop :=
  Separate Tree.holdsText (instanceUpdates sid entries) ∧
    ∀ keyStr, (keyStr, none) ∈ instanceUpdates sid entries →
      elements.countP (Tree.holdsText keyStr) ≤ ((instanceUpdates sid entries).map Prod.fst).count keyStr

/-- In the list that the instance entries have made, the first instance with a key is the one
that was written under it, and no removed key is held. -/
def Finished (sid : UInt64) (entries : List (PatchKey × Tree)) (elements : List Tree) : Prop :=
  (∀ keyStr value, (keyStr, some value) ∈ instanceUpdates sid entries →
    (replay Tree.holdsText elements (instanceUpdates sid entries)).find? (Tree.holdsText keyStr) = some value) ∧
  ∀ keyStr, (keyStr, none) ∈ instanceUpdates sid entries →
    ∀ element ∈ replay Tree.holdsText elements (instanceUpdates sid entries), ¬ element.holdsText keyStr

theorem repeatable_of_instances {sid : UInt64} (instances : ∀ elements,
    FinMap.lookup sid.toNat members = some (.list elements) →
      Separable sid entries elements ∨ Finished sid entries elements) : Repeatable members entries sid := by
  refine Or.inr fun elements found => ?_
  rcases instances elements found with ⟨separate, removals⟩ | ⟨latest, absent⟩
  · exact KeyedList.replay_replay separate removals
  · exact KeyedList.replay_done latest absent

/-- What the entries about a SID do to its binding the second time is nothing exactly
where they can be repeated. -/
theorem bindAll_repeatable_iff {sid : UInt64} :
    bindAll (entries.filter fun entry => entry.1.keySid.toNat = sid.toNat)
        (bindAll (entries.filter fun entry => entry.1.keySid.toNat = sid.toNat)
          (FinMap.lookup sid.toNat members)) =
      bindAll (entries.filter fun entry => entry.1.keySid.toNat = sid.toNat)
        (FinMap.lookup sid.toNat members) ↔ Repeatable members entries sid := by
  rcases Classical.em (∃ value, (PatchKey.sid sid, value) ∈ entries) with ⟨value, whole⟩ | parts
  · have inside : (PatchKey.sid sid, value) ∈
        entries.filter fun entry => entry.1.keySid.toNat = sid.toNat :=
      List.mem_filter.mpr ⟨whole, by simp [PatchKey.keySid]⟩
    exact iff_of_true (bindAll_whole inside _) (Or.inl ⟨value, whole⟩)
  · rw [Repeatable, or_iff_right parts]
    have parts := not_exists.mp parts
    by_cases list : ∃ elements, FinMap.lookup sid.toNat members = some (.list elements)
    · obtain ⟨elements, found⟩ := list
      rw [found, bindAll_instances parts, bindAll_instances parts]
      simp only [Option.some.injEq, Tree.list.injEq, forall_eq']
    · have instances : ∀ entry ∈ entries.filter (fun entry => entry.1.keySid.toNat = sid.toNat),
          ∀ sid', entry.1 ≠ .sid sid' := by
        rintro ⟨key, value⟩ member sid' rfl
        obtain ⟨inside, about⟩ := List.mem_filter.mp member
        have about : sid' = sid := by simpa [PatchKey.keySid, UInt64.toNat_inj] using about
        exact parts value (about ▸ inside)
      have same := bindAll_notList (not_exists.mp list) instances
      exact iff_of_true (by rw [same, same]) fun elements found => absurd ⟨elements, found⟩ list

/-- Entries can be applied twice exactly where those about each SID can be repeated. -/
theorem patchAll_repeatable_iff (sorted : FinMap.Sorted members) (count count' : Int) :
    (patchAll (patchAll members count entries).1 count' entries).1 = (patchAll members count entries).1 ↔
      ∀ sid, Repeatable members entries sid := by
  have once := patchAll_sorted sorted count entries
  constructor
  · intro same sid
    have lookups := congrArg (FinMap.lookup sid.toNat) same
    rw [lookup_patchAll once, lookup_patchAll sorted] at lookups
    exact bindAll_repeatable_iff.mp lookups
  · intro repeatable
    refine FinMap.ext (patchAll_sorted once count' entries) once fun k => ?_
    rw [lookup_patchAll once, lookup_patchAll sorted]
    by_cases about : ∃ entry ∈ entries, entry.1.keySid.toNat = k
    · obtain ⟨entry, -, rfl⟩ := about
      exact bindAll_repeatable_iff.mpr (repeatable entry.1.keySid)
    · have none : entries.filter (fun entry => entry.1.keySid.toNat = k) = [] := by
        rw [List.filter_eq_nil_iff]
        exact fun entry member same => about ⟨entry, member, by simpa using same⟩
      rw [none]
      rfl

/-- Applied twice, the payload leaves the content that it leaves applied once. -/
def PatchedOnce (target : CoreconfHashMapT CoreconfValueT) (data : List UInt8) : Prop :=
  ∃ n n' target' target'',
    Returns applyPayload (.hashmap target, data) (n, .hashmap target') ∧
    Returns applyPayload (.hashmap target', data) (n', .hashmap target'') ∧
    (CoreconfValueT.hashmap target'').toTree = (CoreconfValueT.hashmap target').toTree

/-- The text "a". -/
private def keyA : CString := ⟨[0x61], by decide⟩

/-- A datastore of one SID with a list. -/
private def listStore (elements : List CoreconfValueT) : CoreconfHashMapT CoreconfValueT :=
  (insertCoreconfHashMap createCoreconfHashmap 7 (some (.array elements))).2

private theorem listStore_valid {elements : List CoreconfValueT}
    (each : ∀ element ∈ elements, Valid element) : Valid (.hashmap (listStore elements)) :=
  CoreconfValueT.valid_createCoreconfHashmap.insert (.array each) 7

/-- A map of entries for instances of the list, each with its key. -/
private def instances (entries : List (UInt8 × Item)) : List (Item × Item) :=
  entries.map fun entry =>
    (.list (.definite .immediate) [.uint .immediate 7, .tstr .immediate [entry.1]], entry.2)

private theorem instances_wellFormed {entries : List (UInt8 × Item)}
    (values : ∀ entry ∈ entries, entry.2.WellFormed) :
    Item.WellFormed (.map .indefinite (instances entries)) := by
  refine .map trivial (fun entry member => ?_) fun entry member => ?_
  all_goals obtain ⟨entry, inside, rfl⟩ := List.mem_map.mp member
  · refine .list (show 2 < 24 by decide) ?_
    rintro item (_ | ⟨_, _ | ⟨_, ⟨⟩⟩⟩)
    · exact .uint (by decide)
    · exact .tstr (show 1 < 24 by decide)
  · exact values entry inside

private theorem instances_patchKeys (entries : List (UInt8 × Item)) :
    ∀ entry ∈ instances entries, entry.1.IsPatchKey := by
  intro entry member
  obtain ⟨entry, -, rfl⟩ := List.mem_map.mp member
  exact .listInstance _ _ _ _ _

/-- A map of texts of one letter. -/
private def texts (entries : List (Nat × UInt8)) : Item :=
  .map .indefinite (entries.map fun entry => (.uint .immediate entry.1, .tstr .immediate [entry.2]))

private theorem texts_wellFormed {entries : List (Nat × UInt8)} (small : ∀ entry ∈ entries, entry.1 < 24) :
    (texts entries).WellFormed := by
  refine .map trivial (fun entry member => ?_) fun entry member => ?_
  all_goals obtain ⟨entry, inside, rfl⟩ := List.mem_map.mp member
  · exact .uint (small entry inside)
  · exact .tstr (show 1 < 24 by decide)

private def namesA : List (Item × Item) := instances [(0x61, texts [(1, 0x61)])]

/-- For each element of the list a SID is bound to, whether it holds "a". -/
private def heldA (target : CoreconfHashMapT CoreconfValueT) (sid : UInt64) : Option (List Bool) :=
  (FinMap.lookup sid.toNat target.content).map fun
    | .list elements => elements.map (Tree.holdsText keyA)
    | _ => []

/-- What is seen of a SID after the first and after the second time. -/
private def probeTwice (fuel : Nat) (target : CoreconfHashMapT CoreconfValueT) (data : List UInt8)
    (sid : UInt64) : Option (Option (List Bool) × Option (List Bool)) :=
  match applyPayload fuel (.hashmap target, data) with
  | some (_, .hashmap target') =>
      match applyPayload fuel (.hashmap target', data) with
      | some (_, .hashmap target'') => some (heldA target' sid, heldA target'' sid)
      | _ => none
  | _ => none

private theorem not_patchedOnce {target : CoreconfHashMapT CoreconfValueT} {data : List UInt8} {sid : UInt64}
    {fuel : Nat} {first second : Option (List Bool)}
    (probed : probeTwice fuel target data sid = some (first, second)) (differ : first ≠ second) :
    ¬ PatchedOnce target data := by
  rintro ⟨n, n', target', target'', ran, again, same⟩
  rw [CoreconfHashMapT.toTree_hashmap, CoreconfHashMapT.toTree_hashmap] at same
  unfold probeTwice at probed
  split at probed
  · rename_i m once ranOnce
    cases Returns.unique applyPayload_monotone ran ⟨fuel, ranOnce⟩
    split at probed
    · rename_i m' twice ranTwice
      cases Returns.unique applyPayload_monotone again ⟨fuel, ranTwice⟩
      obtain ⟨rfl, rfl⟩ := Prod.mk.inj (Option.some.inj probed)
      exact differ (by rw [heldA, heldA, Tree.map.inj same])
    · cases probed
  · cases probed

/-- A patch of the right shape that changes more the second time. -/
def TwiceDiffers (target : CoreconfHashMapT CoreconfValueT) (data : List UInt8) (pairs : List (Item × Item)) :
    Prop :=
  Valid (.hashmap target) ∧ PatchPayload data pairs ∧ (∀ entry ∈ pairs, entry.2.Readable) ∧
    ¬ PatchedOnce target data

/-- One map of entries for instances, on the list of these elements. -/
private theorem instances_twice {elements : List CoreconfValueT} (valid : ∀ element ∈ elements, Valid element)
    {entries : List (UInt8 × Item)} (values : ∀ entry ∈ entries, entry.2.WellFormed)
    (readable : ∀ entry ∈ entries, entry.2.Readable) {fuel : Nat} {first second : Option (List Bool)}
    (probed : probeTwice fuel (listStore elements) (Item.map .indefinite (instances entries)).encode 7 =
      some (first, second)) (differ : first ≠ second) :
    TwiceDiffers (listStore elements) (Item.map .indefinite (instances entries)).encode (instances entries) := by
  refine ⟨listStore_valid valid, .one (instances_wellFormed values) (instances_patchKeys entries), ?_,
    not_patchedOnce probed differ⟩
  intro entry member
  obtain ⟨entry, inside, rfl⟩ := List.mem_map.mp member
  exact readable entry inside

private def instanceA : CoreconfValueT := .hashmap (insertMembers [(1, .string keyA)] createCoreconfHashmap)

/-- 52 SIDs of one bucket. -/
private def fullChain : CoreconfHashMapT CoreconfValueT :=
  insertMembers ((List.range 52).map fun i => (UInt64.ofNat (i * 2 ^ 32 + 1), .true)) createCoreconfHashmap

end Coreconf
