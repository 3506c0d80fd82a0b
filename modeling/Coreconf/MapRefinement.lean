import Coreconf.TypesInvariant
import Mathlib.Data.Set.Card
import Mathlib.Logic.Function.Basic

set_option autoImplicit false

/- The hash map as a finite map from SIDs to value pointers, over any sequence of
calls. A pointer may be NULL, so a SID can be bound to no value. -/
namespace Coreconf

open Function (update)

variable {V : Type}

inductive HashMapCall (V : Type) where
  | insert (key : UInt64) (value : Option V)
  | delete (key : UInt64)
  | get (key : UInt64)

inductive HashMapResult (V : Type) where
  | code (n : Int)
  | value (value : Option V)

def HashMapCall.run (map : CoreconfHashMapT V) :
    HashMapCall V → HashMapResult V × CoreconfHashMapT V
  | insert key value =>
      (.code (insertCoreconfHashMap map key value).1, (insertCoreconfHashMap map key value).2)
  | delete key => (.code (deleteFromCoreconfHashMap map key).1, (deleteFromCoreconfHashMap map key).2)
  | get key => (.value (getCoreconfHashMap map key), map)

def runCalls (map : CoreconfHashMapT V) :
    List (HashMapCall V) → List (HashMapResult V) × CoreconfHashMapT V
  | [] => ([], map)
  | call :: rest =>
      ((call.run map).1 :: (runCalls (call.run map).2 rest).1, (runCalls (call.run map).2 rest).2)

/-- The pointer of each bound SID. -/
abbrev SidMap (V : Type) := UInt64 → Option (Option V)

/-- What a call may answer on a finite map, and the map after it. -/
inductive Meets : SidMap V → HashMapCall V → HashMapResult V → SidMap V → Prop
  | inserted {m key value} : Meets m (.insert key value) (.code 0) (update m key (some value))
  | refused {m key value} : Meets m (.insert key value) (.code (-1)) m
  | deleted {m key} (bound : m key ≠ none) : Meets m (.delete key) (.code 0) (update m key none)
  | missing {m key} (unbound : m key = none) : Meets m (.delete key) (.code (-1)) m
  | read {m key} : Meets m (.get key) (.value (m key).join) m

inductive MeetsAll : SidMap V → List (HashMapCall V) → List (HashMapResult V) → SidMap V → Prop
  | nil (m) : MeetsAll m [] [] m
  | cons {m m' m'' call result calls results} (first : Meets m call result m')
      (rest : MeetsAll m' calls results m'') : MeetsAll m (call :: calls) (result :: results) m''

/-- The bindings in the order in which `iterateCoreconfHashMap` visits them. -/
def CoreconfHashMapT.visits (map : CoreconfHashMapT V) : List (UInt64 × Option V) :=
  iterateCoreconfHashMap map (fun seen object => seen ++ [(object.key, object.value)]) []

/-- Each binding is visited once, and `size` is the number of bindings. -/
structure Represents (map : CoreconfHashMapT V) (m : SidMap V) : Prop where
  once : (map.visits.map Prod.fst).Nodup
  visited : ∀ key value, (key, value) ∈ map.visits ↔ m key = some value
  size : map.size = {key | m key ≠ none}.ncard

/-- The object with another value under its key. -/
def CoreconfObjectT.mapValue {W : Type} (g : Option V → Option W) (object : CoreconfObjectT V) :
    CoreconfObjectT W := ⟨object.key, g object.value⟩

/-- The same hash map with other values. -/
def CoreconfHashMapT.mapValues {W : Type} (g : Option V → Option W) (map : CoreconfHashMapT V) :
    CoreconfHashMapT W where
  table := map.table.map fun chain => chain.map (CoreconfObjectT.mapValue g)
  size := map.size

section MapValues

variable {W : Type} (g : Option V → Option W)

theorem walkChain_mapValue (key : UInt64) (value : Option V) (loopCount : Nat)
    (chain : List (CoreconfObjectT V)) :
    walkChain key (g value) loopCount (chain.map (CoreconfObjectT.mapValue g)) =
      match walkChain key value loopCount chain with
      | .updated chain' => .updated (chain'.map (CoreconfObjectT.mapValue g))
      | .absent => .absent
      | .loopCountExceeded => .loopCountExceeded := by
  induction chain generalizing loopCount with
  | nil => rfl
  | cons current next ih =>
      rw [List.map_cons, walkChain, walkChain, ih]
      by_cases exceeded : loopCount > CORECONF_MAX_LOOP
      · rw [if_pos exceeded, if_pos exceeded]
      · rw [if_neg exceeded, if_neg exceeded]
        by_cases here : current.key = key
        · rw [if_pos here, if_pos (show (current.mapValue g).key = key from here)]
          rfl
        · rw [if_neg here, if_neg (show ¬ (current.mapValue g).key = key from here)]
          cases walkChain key value (loopCount + 1) next <;> rfl

theorem unlink_mapValue (key : UInt64) (chain : List (CoreconfObjectT V)) :
    unlink key (chain.map (CoreconfObjectT.mapValue g)) =
      (unlink key chain).map (List.map (CoreconfObjectT.mapValue g)) := by
  induction chain with
  | nil => rfl
  | cons cur next ih =>
      rw [List.map_cons, unlink, unlink, ih]
      by_cases here : cur.key = key
      · rw [if_pos here, if_pos (show (cur.mapValue g).key = key from here)]
        rfl
      · rw [if_neg here, if_neg (show ¬ (cur.mapValue g).key = key from here), Option.map_map, Option.map_map]
        rfl

namespace CoreconfHashMapT

theorem chain_mapValues (map : CoreconfHashMapT V) (key : UInt64) :
    (map.mapValues g).chain key = (map.chain key).map (CoreconfObjectT.mapValue g) := by
  rw [chain, chain, mapValues, List.getD_eq_getElem?_getD, List.getElem?_map, List.getD_eq_getElem?_getD]
  cases map.table[hashKey key.toUInt32]? <;> rfl

theorem setChain_mapValues (map : CoreconfHashMapT V) (key : UInt64)
    (chain : List (CoreconfObjectT V)) :
    (map.mapValues g).setChain key (chain.map (CoreconfObjectT.mapValue g)) =
      (map.setChain key chain).map fun chain => chain.map (CoreconfObjectT.mapValue g) := by
  rw [setChain, setChain, List.map_set]
  rfl

theorem insert_mapValues (map : CoreconfHashMapT V) (key : UInt64) (value : Option V) :
    insertCoreconfHashMap (map.mapValues g) key (g value) =
      ((insertCoreconfHashMap map key value).1, (insertCoreconfHashMap map key value).2.mapValues g) := by
  rw [insertCoreconfHashMap, insertCoreconfHashMap, chain_mapValues, walkChain_mapValue]
  cases walkChain key value 0 (map.chain key) with
  | loopCountExceeded => rfl
  | updated chain =>
      dsimp only
      rw [setChain_mapValues]
      rfl
  | absent =>
      dsimp only
      rw [show (⟨key, g value⟩ : CoreconfObjectT W) = CoreconfObjectT.mapValue g ⟨key, value⟩ from rfl,
        ← List.map_cons, setChain_mapValues]
      rfl

theorem delete_mapValues (map : CoreconfHashMapT V) (key : UInt64) :
    deleteFromCoreconfHashMap (map.mapValues g) key =
      ((deleteFromCoreconfHashMap map key).1, (deleteFromCoreconfHashMap map key).2.mapValues g) := by
  rw [deleteFromCoreconfHashMap, deleteFromCoreconfHashMap, chain_mapValues, unlink_mapValue]
  cases unlink key (map.chain key) with
  | none => rfl
  | some chain =>
      dsimp only [Option.map_some]
      rw [setChain_mapValues]
      rfl

theorem objects_mapValues (map : CoreconfHashMapT V) :
    (map.mapValues g).objects = map.objects.map (CoreconfObjectT.mapValue g) := by
  rw [objects, objects, mapValues, List.map_flatten]

end CoreconfHashMapT

end MapValues

/-- The object with its pointer as its value. -/
def CoreconfObjectT.pointer (object : CoreconfObjectT V) : CoreconfObjectT (Option V) :=
  ⟨object.key, some object.value⟩

/-- The same hash map with the pointers as its values, none of which is missing. -/
def CoreconfHashMapT.pointers (map : CoreconfHashMapT V) : CoreconfHashMapT (Option V) where
  table := map.table.map fun chain => chain.map CoreconfObjectT.pointer
  size := map.size

namespace CoreconfHashMapT

@[simp] theorem pointers_create :
    (createCoreconfHashmap : CoreconfHashMapT V).pointers = createCoreconfHashmap := by
  simp [pointers, createCoreconfHashmap]

theorem chain_pointers (map : CoreconfHashMapT V) (key : UInt64) :
    map.pointers.chain key = (map.chain key).map CoreconfObjectT.pointer := chain_mapValues some map key

theorem insert_pointers (map : CoreconfHashMapT V) (key : UInt64) (value : Option V) :
    insertCoreconfHashMap map.pointers key (some value) =
      ((insertCoreconfHashMap map key value).1, (insertCoreconfHashMap map key value).2.pointers) :=
  insert_mapValues some map key value

theorem delete_pointers (map : CoreconfHashMapT V) (key : UInt64) :
    deleteFromCoreconfHashMap map.pointers key =
      ((deleteFromCoreconfHashMap map key).1, (deleteFromCoreconfHashMap map key).2.pointers) :=
  delete_mapValues some map key

theorem get_pointers (map : CoreconfHashMapT V) (key : UInt64) :
    getCoreconfHashMap map key = (getCoreconfHashMap map.pointers key).join := by
  rw [getCoreconfHashMap, getCoreconfHashMap, chain_pointers, List.find?_map]
  have same : ((fun object : CoreconfObjectT (Option V) => decide (object.key = key)) ∘
      CoreconfObjectT.pointer : CoreconfObjectT V → Bool) = fun object => decide (object.key = key) := rfl
  rw [same]
  cases (map.chain key).find? fun object => decide (object.key = key) <;> rfl

theorem visits_eq (map : CoreconfHashMapT V) :
    map.visits = map.objects.map fun object => (object.key, object.value) := by
  rw [visits, iterateCoreconfHashMap_eq]
  have collected : ∀ (objects : List (CoreconfObjectT V)) (seen : List (UInt64 × Option V)),
      objects.foldl (fun seen object => seen ++ [(object.key, object.value)]) seen =
        seen ++ objects.map fun object => (object.key, object.value) := by
    intro objects
    induction objects with
    | nil => intro seen; simp
    | cons object rest ih => intro seen; simp [ih]
  rw [collected, List.nil_append]

theorem objects_pointers (map : CoreconfHashMapT V) :
    map.pointers.objects = map.objects.map CoreconfObjectT.pointer := objects_mapValues some map

namespace RepInv

theorem get_insert {map : CoreconfHashMapT V} (inv : map.RepInv) {key : UInt64} {value : V}
    (inserted : (insertCoreconfHashMap map key (some value)).1 = 0) :
    getCoreconfHashMap (insertCoreconfHashMap map key (some value)).2 =
      update (getCoreconfHashMap map) key (some value) := by
  funext k
  apply Option.ext
  intro v
  rw [(inv.insert key value).get_eq_some, inv.mem_insert inserted]
  by_cases here : k = key
  · subst here
    simp [eq_comm]
  · rw [Function.update_of_ne here, inv.get_eq_some]
    simp [here]

theorem get_delete {map : CoreconfHashMapT V} (inv : map.RepInv) (key : UInt64) :
    getCoreconfHashMap (deleteFromCoreconfHashMap map key).2 =
      update (getCoreconfHashMap map) key none := by
  funext k
  apply Option.ext
  intro v
  rw [(inv.delete key).get_eq_some, inv.mem_delete]
  by_cases here : k = key
  · subst here
    simp
  · rw [Function.update_of_ne here, inv.get_eq_some]
    simp [here]

/-- A deletion succeeds exactly where the key is bound. -/
theorem delete_code {map : CoreconfHashMapT V} (inv : map.RepInv) (key : UInt64) :
    (deleteFromCoreconfHashMap map key).1 = if (getCoreconfHashMap map key).isSome then 0 else -1 := by
  rw [deleteFromCoreconfHashMap]
  cases unlinked : unlink key (map.chain key) with
  | none =>
      have absent := unlink_none.mp unlinked
      have unbound : getCoreconfHashMap map key = none := by
        rw [getCoreconfHashMap, List.find?_eq_none.mpr (by simpa using absent)]
      rw [unbound]
      rfl
  | some chain =>
      obtain ⟨before, ⟨curKey, curValue⟩, after, same, found, -⟩ := unlink_some unlinked
      dsimp only at found
      subst found
      have member : (⟨curKey, curValue⟩ : CoreconfObjectT V) ∈ map.objects :=
        mem_objects_of_chain (show _ ∈ map.chain curKey by rw [same]; simp)
      obtain ⟨value, rfl⟩ := Option.ne_none_iff_exists'.mp (inv.noNull _ member)
      rw [inv.get_eq_some.mpr member]
      rfl

end RepInv

/-- The finite map that the pointers are. -/
def bindings (map : CoreconfHashMapT V) : SidMap V := getCoreconfHashMap map.pointers

/-- A hash map whose pointers are in order represents the finite map of its bindings. -/
theorem represents_bindings {map : CoreconfHashMapT V} (inv : map.pointers.RepInv) :
    Represents map map.bindings := by
  have keys : map.visits.map Prod.fst = map.pointers.objects.map (·.key) := by
    rw [visits_eq, objects_pointers, List.map_map, List.map_map]
    rfl
  have visited : ∀ key value, (key, value) ∈ map.visits ↔ map.bindings key = some value := by
    intro key value
    rw [bindings, inv.get_eq_some, visits_eq, objects_pointers]
    simp [CoreconfObjectT.pointer]
  refine ⟨keys ▸ inv.distinct, visited, ?_⟩
  have bound : {key | map.bindings key ≠ none} = ↑(map.visits.map Prod.fst).toFinset := by
    ext key
    simp only [Set.mem_ofPred_eq, List.coe_toFinset, List.mem_map, Prod.exists, exists_and_right,
      exists_eq_right, visited, Option.ne_none_iff_exists']
  rw [bound, Set.ncard_coe_finset, List.toFinset_card_of_nodup (keys ▸ inv.distinct), keys,
    List.length_map, ← inv.size_eq]
  rfl

end CoreconfHashMapT

open CoreconfHashMapT

/-- An insertion succeeds, or is refused and changes nothing. -/
theorem insertCoreconfHashMap_code (map : CoreconfHashMapT V) (key : UInt64) (value : Option V) :
    (insertCoreconfHashMap map key value).1 = 0 ∨ insertCoreconfHashMap map key value = (-1, map) := by
  rcases insertCoreconfHashMap_cases map key value with ⟨_, _, _, _, _, done⟩ | ⟨_, _, done⟩ | ⟨_, refused⟩
  · exact Or.inl (congrArg Prod.fst done)
  · exact Or.inl (congrArg Prod.fst done)
  · exact Or.inr refused

theorem bindings_insert {map : CoreconfHashMapT V} (inv : map.pointers.RepInv) {key : UInt64}
    {value : Option V} (inserted : (insertCoreconfHashMap map key value).1 = 0) :
    (insertCoreconfHashMap map key value).2.bindings = update map.bindings key (some value) := by
  have pointers := insert_pointers map key value
  have code : (insertCoreconfHashMap map.pointers key (some value)).1 = 0 := by
    rw [pointers]
    exact inserted
  have bound := inv.get_insert code
  rw [pointers] at bound
  exact bound

theorem bindings_delete {map : CoreconfHashMapT V} (inv : map.pointers.RepInv) (key : UInt64) :
    (deleteFromCoreconfHashMap map key).2.bindings = update map.bindings key none := by
  have bound := inv.get_delete key
  rw [delete_pointers] at bound
  exact bound

/-- One call answers as the finite map does, and leaves the pointers in order. -/
theorem call_meets {map : CoreconfHashMapT V} (inv : map.pointers.RepInv) (call : HashMapCall V) :
    Meets map.bindings call (call.run map).1 (call.run map).2.bindings ∧
      (call.run map).2.pointers.RepInv := by
  cases call with
  | insert key value =>
      have kept := inv.insert key value
      rw [insert_pointers] at kept
      refine ⟨?_, kept⟩
      dsimp only [HashMapCall.run]
      rcases insertCoreconfHashMap_code map key value with inserted | refused
      · rw [bindings_insert inv inserted, inserted]
        exact .inserted
      · rw [refused]
        exact .refused
  | delete key =>
      have kept := inv.delete key
      have code := inv.delete_code key
      rw [delete_pointers] at kept code
      refine ⟨?_, kept⟩
      dsimp only [HashMapCall.run] at code ⊢
      rw [bindings_delete inv, code]
      by_cases present : (getCoreconfHashMap map.pointers key).isSome
      · rw [if_pos present]
        exact .deleted (Option.isSome_iff_ne_none.mp present)
      · have unbound : map.bindings key = none := Option.not_isSome_iff_eq_none.mp present
        rw [if_neg present, ← unbound, Function.update_eq_self]
        exact .missing unbound
  | get key =>
      refine ⟨?_, inv⟩
      rw [HashMapCall.run, get_pointers]
      exact .read

theorem runCalls_meet {map : CoreconfHashMapT V} (inv : map.pointers.RepInv)
    (calls : List (HashMapCall V)) :
    MeetsAll map.bindings calls (runCalls map calls).1 (runCalls map calls).2.bindings ∧
      (runCalls map calls).2.pointers.RepInv := by
  induction calls generalizing map with
  | nil => exact ⟨.nil _, inv⟩
  | cons call rest ih =>
      obtain ⟨first, kept⟩ := call_meets inv call
      obtain ⟨later, kept'⟩ := ih kept
      exact ⟨.cons first later, kept'⟩

theorem pointers_runCalls (calls : List (HashMapCall V)) :
    (runCalls createCoreconfHashmap calls).2.pointers.RepInv := by
  refine (runCalls_meet ?_ calls).2
  rw [pointers_create]
  exact repInv_create

/-- From the empty map on, every sequence of calls is one on a finite map, which the
table and its count represent after it. -/
theorem hashMap_refines (calls : List (HashMapCall V)) :
    ∃ m, MeetsAll (fun _ => none) calls (runCalls createCoreconfHashmap calls).1 m ∧
      Represents (runCalls createCoreconfHashmap calls).2 m := by
  have inv : (createCoreconfHashmap : CoreconfHashMapT V).pointers.RepInv := by
    rw [pointers_create]
    exact repInv_create
  have empty : (createCoreconfHashmap : CoreconfHashMapT V).bindings = fun _ => none := by
    funext key
    have absent : ∀ value, getCoreconfHashMap (createCoreconfHashmap : CoreconfHashMapT V).pointers key ≠
        some value := by
      intro value found
      have member := inv.get_eq_some.mp found
      simp at member
    exact Option.eq_none_iff_forall_ne_some.mpr absent
  obtain ⟨met, kept⟩ := runCalls_meet inv calls
  exact ⟨_, empty ▸ met, represents_bindings kept⟩

theorem present_of_bound {map : CoreconfHashMapT V} {key : UInt64} {value : V}
    (bound : getCoreconfHashMap map key = some value) : ∃ object ∈ map.chain key, object.key = key := by
  rw [getCoreconfHashMap] at bound
  cases found : (map.chain key).find? (·.key = key) with
  | none => simp [found] at bound
  | some object => exact ⟨object, List.mem_of_find?_eq_some found, by simpa using List.find?_some found⟩

/-- A bound key takes a new value exactly where an insertion comes to its object: the walk
of a get has no cap. -/
theorem existing_updated_iff (calls : List (HashMapCall V)) (key : UInt64) (old : V) (value : Option V)
    (bound : getCoreconfHashMap (runCalls createCoreconfHashmap calls).2 key = some old) :
    (insertCoreconfHashMap (runCalls createCoreconfHashmap calls).2 key value).1 = 0 ∧
        getCoreconfHashMap (insertCoreconfHashMap (runCalls createCoreconfHashmap calls).2 key value).2
          key = value ↔
      (runCalls createCoreconfHashmap calls).2.Found key := by
  rw [← insertCoreconfHashMap_present (present_of_bound bound) value, and_iff_left_iff_imp]
  intro inserted
  have updated := bindings_insert (pointers_runCalls calls) inserted
  rw [get_pointers, ← bindings, updated, Function.update_self, Option.join_some]

theorem existing_updated_one :
    (insertCoreconfHashMap (runCalls createCoreconfHashmap [.insert 5 (some false)]).2 5 (some true)).1 = 0 ∧
      getCoreconfHashMap
        (insertCoreconfHashMap (runCalls createCoreconfHashmap [.insert 5 (some false)]).2 5 (some true)).2
        5 = some true :=
  (existing_updated_iff [.insert 5 (some false)] 5 false (some true) (by decide)).mpr (by decide)

/-- Keys that have their low half in common. -/
def sameLowHalf (count : Nat) : List (HashMapCall Bool) :=
  (List.range count).map fun i => .insert (UInt64.ofNat (i * 2 ^ 32)) (some false)

/-- Behind 51 objects of its chain a bound key keeps its value. -/
theorem existing_not_updated :
    getCoreconfHashMap (runCalls createCoreconfHashmap (sameLowHalf 52)).2 0 = some false ∧
      (insertCoreconfHashMap (runCalls createCoreconfHashmap (sameLowHalf 52)).2 0 (some true)).1 = -1 ∧
      getCoreconfHashMap
        (insertCoreconfHashMap (runCalls createCoreconfHashmap (sameLowHalf 52)).2 0 (some true)).2
        0 = some false := by
  decide +kernel

end Coreconf
