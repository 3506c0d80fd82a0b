import Coreconf.ChainTable
import Coreconf.Types
import Mathlib.Tactic.Tauto

set_option autoImplicit false

namespace Coreconf

open ChainTable

variable {V : Type}

/-- Each key in one object, in the chain its hash selects; no NULL value; chains no
longer than the insertion's search; `size` the number of objects. -/
structure CoreconfHashMapT.RepInv (map : CoreconfHashMapT V) : Prop where
  tableLength : map.table.length = HASHMAP_TABLE_SIZE
  placed : InBucket CoreconfObjectT.key (fun key => hashKey key.toUInt32) map.table
  distinct : (map.objects.map (·.key)).Nodup
  noNull : ∀ object ∈ map.objects, object.value ≠ none
  chainLength : ∀ i, (map.table.getD i []).length ≤ CORECONF_MAX_LOOP + 2
  size_eq : map.size = map.objects.length

namespace CoreconfHashMapT.RepInv

theorem chain_distinct {map : CoreconfHashMapT V} (inv : map.RepInv) (key : UInt64) :
    ((map.chain key).map (·.key)).Nodup :=
  inv.placed.nodup_flatten.mp inv.distinct _

theorem chain_length {map : CoreconfHashMapT V} (inv : map.RepInv) (key : UInt64) :
    (map.chain key).length ≤ CORECONF_MAX_LOOP + 2 :=
  inv.chainLength _

theorem chain_length_le {map : CoreconfHashMapT V} (inv : map.RepInv) (key : UInt64) :
    (map.chain key).length ≤ map.size := by
  rw [inv.size_eq, CoreconfHashMapT.chain, List.getD_eq_getElem _ _ (inv.tableLength ▸ hashKey_lt _)]
  exact (List.sublist_flatten_of_mem (List.getElem_mem _)).length_le

theorem mem_objects_of_chain {map : CoreconfHashMapT V} {key : UInt64} {object : CoreconfObjectT V}
    (member : object ∈ map.chain key) : object ∈ map.objects :=
  mem_flatten.mpr ⟨_, member⟩

theorem mem_objects_iff {map : CoreconfHashMapT V} (inv : map.RepInv) (object : CoreconfObjectT V) :
    object ∈ map.objects ↔ object ∈ map.chain object.key :=
  inv.placed.mem_flatten_iff

theorem hashKey_eq {map : CoreconfHashMapT V} (inv : map.RepInv) {key : UInt64}
    {object : CoreconfObjectT V} (member : object ∈ map.chain key) :
    hashKey object.key.toUInt32 = hashKey key.toUInt32 :=
  inv.placed _ _ member

theorem index_lt {map : CoreconfHashMapT V} (inv : map.RepInv) (key : UInt64) :
    hashKey key.toUInt32 < map.table.length :=
  inv.tableLength ▸ hashKey_lt _

end CoreconfHashMapT.RepInv

@[simp] theorem objects_create : (createCoreconfHashmap : CoreconfHashMapT V).objects = [] := by
  simp [CoreconfHashMapT.objects, createCoreconfHashmap]

theorem repInv_create : (createCoreconfHashmap : CoreconfHashMapT V).RepInv := by
  have empty := objects_create (V := V)
  refine ⟨by simp [createCoreconfHashmap], inBucket_empty _, ?_, ?_, ?_, ?_⟩
  · simp [empty]
  · simp [empty]
  · intro i
    simp [createCoreconfHashmap, List.getD_eq_getElem?_getD, List.getElem?_replicate]
    split <;> simp
  · rw [empty]
    rfl

/-- The search stops at the object of the key and changes its value only. -/
theorem walkChain_updated {key : UInt64} {value : Option V} {loopCount : Nat}
    {chain chain' : List (CoreconfObjectT V)}
    (walked : walkChain key value loopCount chain = .updated chain') :
    ∃ before current after, chain = before ++ current :: after ∧ current.key = key ∧
      chain' = before ++ ⟨key, value⟩ :: after := by
  induction chain generalizing loopCount chain' with
  | nil => cases walked
  | cons current next ih =>
      unfold walkChain at walked
      split at walked
      · cases walked
      · split at walked
        · rename_i found
          cases walked
          exact ⟨[], current, next, rfl, found, by simp [found]⟩
        · split at walked
          · rename_i rest later
            cases walked
            obtain ⟨before, object, after, same, found, updated⟩ := ih later
            exact ⟨current :: before, object, after, by rw [same]; rfl, found, by rw [updated]; rfl⟩
          · cases walked
          · cases walked

/-- Only a chain of at most 51 objects is searched to its end. -/
theorem walkChain_absent {key : UInt64} {value : Option V} {loopCount : Nat}
    {chain : List (CoreconfObjectT V)} (walked : walkChain key value loopCount chain = .absent) :
    (∀ object ∈ chain, object.key ≠ key) ∧
      (chain = [] ∨ loopCount + chain.length ≤ CORECONF_MAX_LOOP + 1) := by
  induction chain generalizing loopCount with
  | nil => exact ⟨by simp, Or.inl rfl⟩
  | cons current next ih =>
      unfold walkChain at walked
      split at walked
      · cases walked
      · rename_i within
        split at walked
        · cases walked
        · rename_i other
          split at walked
          · cases walked
          · rename_i later
            obtain ⟨absent, short⟩ := ih later
            refine ⟨?_, Or.inr ?_⟩
            · intro object member
              rcases List.mem_cons.mp member with rfl | member
              · exact other
              · exact absent object member
            · rcases short with rfl | short
              · simp only [List.length_cons, List.length_nil]
                omega
              · simp only [List.length_cons]
                omega
          · cases walked

/-- A chain of at most 51 objects is never too long to search. -/
theorem walkChain_short {key : UInt64} {value : Option V} {loopCount : Nat}
    {chain : List (CoreconfObjectT V)} (short : loopCount + chain.length ≤ CORECONF_MAX_LOOP + 1) :
    walkChain key value loopCount chain ≠ .loopCountExceeded := by
  induction chain generalizing loopCount with
  | nil => simp [walkChain]
  | cons current next ih =>
      have within : ¬ loopCount > CORECONF_MAX_LOOP := by
        simp only [List.length_cons] at short
        omega
      have later : walkChain key value (loopCount + 1) next ≠ .loopCountExceeded :=
        ih (by simp only [List.length_cons] at short; omega)
      unfold walkChain
      simp only [within, ↓reduceIte]
      split
      · simp
      · cases found : walkChain key value (loopCount + 1) next with
        | updated chain => simp
        | absent => simp
        | loopCountExceeded => exact absurd found later

/-- The object of the key is one of the first 51 of its chain, as far as an insertion
looks for it. -/
def CoreconfHashMapT.Found (map : CoreconfHashMapT V) (key : UInt64) : Prop :=
  (map.chain key).findIdx (·.key = key) ≤ CORECONF_MAX_LOOP

instance (map : CoreconfHashMapT V) (key : UInt64) : Decidable (map.Found key) :=
  inferInstanceAs (Decidable (_ ≤ _))

theorem walkChain_present {key : UInt64} {value : Option V} {loopCount : Nat}
    {chain : List (CoreconfObjectT V)} (present : ∃ object ∈ chain, object.key = key) :
    walkChain key value loopCount chain = .loopCountExceeded ↔
      CORECONF_MAX_LOOP < loopCount + chain.findIdx (·.key = key) := by
  induction chain generalizing loopCount with
  | nil => simp at present
  | cons current next ih =>
      rw [walkChain, List.findIdx_cons]
      split
      · simp only [true_iff]
        omega
      · split
        · rename_i found
          simp only [found, decide_true, cond_true, reduceCtorEq, false_iff]
          omega
        · rename_i other
          have later : ∃ object ∈ next, object.key = key := by
            obtain ⟨object, member, found⟩ := present
            rcases List.mem_cons.mp member with rfl | member
            · exact absurd found other
            · exact ⟨object, member, found⟩
          have step := @ih (loopCount + 1) later
          simp only [other, decide_false, cond_false]
          rw [show loopCount + (next.findIdx (·.key = key) + 1) =
            loopCount + 1 + next.findIdx (·.key = key) by omega, ← step]
          cases walkChain key value (loopCount + 1) next <;> simp

/-- A key that is there gets its new value exactly where the search comes to it. -/
theorem insertCoreconfHashMap_present {map : CoreconfHashMapT V} {key : UInt64}
    (present : ∃ object ∈ map.chain key, object.key = key) (value : Option V) :
    (insertCoreconfHashMap map key value).1 = 0 ↔ map.Found key := by
  have walked := @walkChain_present V key value 0 _ present
  rw [Nat.zero_add] at walked
  rw [CoreconfHashMapT.Found, ← Nat.not_lt, ← walked, insertCoreconfHashMap]
  cases walkChain key value 0 (map.chain key) <;> simp

/-- What an insertion does: replace the value of the key's object, put a new object
at the head of a chain that has none, or refuse. -/
theorem insertCoreconfHashMap_cases (map : CoreconfHashMapT V) (key : UInt64) (value : Option V) :
    (∃ before current after, map.chain key = before ++ current :: after ∧ current.key = key ∧
      insertCoreconfHashMap map key value =
        (0, ⟨map.setChain key (before ++ ⟨key, value⟩ :: after), map.size⟩)) ∨
    ((∀ object ∈ map.chain key, object.key ≠ key) ∧
      (map.chain key).length ≤ CORECONF_MAX_LOOP + 1 ∧
      insertCoreconfHashMap map key value =
        (0, ⟨map.setChain key (⟨key, value⟩ :: map.chain key), map.size + 1⟩)) ∨
    (CORECONF_MAX_LOOP + 1 < (map.chain key).length ∧
      insertCoreconfHashMap map key value = (-1, map)) := by
  unfold insertCoreconfHashMap
  cases walked : walkChain key value 0 (map.chain key) with
  | updated chain =>
      obtain ⟨before, current, after, same, found, updated⟩ := walkChain_updated walked
      exact Or.inl ⟨before, current, after, same, found, by simp only [updated]⟩
  | absent =>
      obtain ⟨absent, short⟩ := walkChain_absent walked
      refine Or.inr (Or.inl ⟨absent, ?_, rfl⟩)
      rcases short with empty | short
      · simp [empty]
      · simpa using short
  | loopCountExceeded =>
      refine Or.inr (Or.inr ⟨?_, rfl⟩)
      by_contra short
      exact walkChain_short (by simpa using short) walked

/-- A refused insertion changes nothing. -/
theorem insertCoreconfHashMap_refused {map : CoreconfHashMapT V} {key : UInt64} {value : Option V}
    (refused : (insertCoreconfHashMap map key value).1 ≠ 0) :
    (insertCoreconfHashMap map key value).2 = map := by
  rcases insertCoreconfHashMap_cases map key value with
    ⟨before, current, after, -, -, result⟩ | ⟨-, -, result⟩ | ⟨-, result⟩
  · rw [result] at refused
    exact absurd rfl refused
  · rw [result] at refused
    exact absurd rfl refused
  · rw [result]

theorem insertCoreconfHashMap_short {map : CoreconfHashMapT V} {key : UInt64} {value : Option V}
    (short : (map.chain key).length ≤ CORECONF_MAX_LOOP + 1) :
    (insertCoreconfHashMap map key value).1 = 0 := by
  rcases insertCoreconfHashMap_cases map key value with
    ⟨before, current, after, -, -, result⟩ | ⟨-, -, result⟩ | ⟨long, -⟩
  · rw [result]
  · rw [result]
  · omega

theorem insertCoreconfHashMap_size_le (map : CoreconfHashMapT V) (key : UInt64) (value : Option V) :
    (insertCoreconfHashMap map key value).2.size ≤ map.size + 1 := by
  unfold insertCoreconfHashMap
  split
  · exact Nat.le_succ _
  · exact Nat.le_succ _
  · exact le_refl _

theorem unlink_none {key : UInt64} {chain : List (CoreconfObjectT V)} :
    unlink key chain = none ↔ ∀ object ∈ chain, object.key ≠ key := by
  induction chain with
  | nil => simp [unlink]
  | cons cur next ih =>
      unfold unlink
      split
      · rename_i found
        simp [found]
      · rename_i other
        simp [other, ih]

theorem unlink_some {key : UInt64} {chain chain' : List (CoreconfObjectT V)}
    (unlinked : unlink key chain = some chain') :
    ∃ before cur after, chain = before ++ cur :: after ∧ cur.key = key ∧ chain' = before ++ after := by
  induction chain generalizing chain' with
  | nil => cases unlinked
  | cons cur next ih =>
      unfold unlink at unlinked
      split at unlinked
      · rename_i found
        cases unlinked
        exact ⟨[], cur, next, rfl, found, rfl⟩
      · obtain ⟨rest, later, rfl⟩ := Option.map_eq_some_iff.mp unlinked
        obtain ⟨before, object, after, same, found, removed⟩ := ih later
        exact ⟨cur :: before, object, after, by rw [same]; rfl, found, by rw [removed]; rfl⟩

theorem overwrite_eq {key : UInt64} {value : V} {chain : List (CoreconfObjectT V)}
    {object : CoreconfObjectT V} (member : object ∈ chain) (found : object.key = key) :
    ∃ before current after, chain = before ++ current :: after ∧ current.key = key ∧
      overwrite key value chain = before ++ ⟨key, some value⟩ :: after := by
  induction chain with
  | nil => cases member
  | cons current next ih =>
      unfold overwrite
      by_cases here : current.key = key
      · exact ⟨[], current, next, rfl, here, by simp [here]⟩
      · have later : object ∈ next := by
          rcases List.mem_cons.mp member with rfl | later
          · exact absurd found here
          · exact later
        obtain ⟨before, other, after, same, ofKey, updated⟩ := ih later
        exact ⟨current :: before, other, after, by rw [same]; rfl, ofKey, by simp [here, updated]⟩

namespace CoreconfHashMapT.RepInv

/-- A map whose changed chain is in order again satisfies the invariant. -/
private theorem setChain {map : CoreconfHashMapT V} (inv : map.RepInv) {key : UInt64} {size : Nat}
    {chain : List (CoreconfObjectT V)}
    (here : ∀ object ∈ chain, hashKey object.key.toUInt32 = hashKey key.toUInt32)
    (distinct : (chain.map (·.key)).Nodup) (noNull : ∀ object ∈ chain, object.value ≠ none)
    (short : chain.length ≤ CORECONF_MAX_LOOP + 2)
    (counted : size + (map.chain key).length = map.size + chain.length) :
    CoreconfHashMapT.RepInv ⟨map.setChain key chain, size⟩ := by
  have bound := inv.index_lt key
  have placed := inv.placed.set bound here
  refine ⟨by simpa [CoreconfHashMapT.setChain] using inv.tableLength, placed, ?_, ?_, ?_, ?_⟩
  · refine placed.nodup_flatten.mpr fun i => ?_
    rw [getD_set bound]
    split
    · exact distinct
    · exact inv.placed.nodup_flatten.mp inv.distinct i
  · intro object member
    rcases (inv.placed.mem_flatten_set bound).mp member with member | ⟨member, -⟩
    · exact noNull object member
    · exact inv.noNull object member
  · intro i
    show ((map.table.set _ chain).getD i []).length ≤ _
    rw [getD_set bound]
    split
    · exact short
    · exact inv.chainLength i
  · have total := length_flatten_set bound chain
    have size := inv.size_eq
    simp only [objects, CoreconfHashMapT.setChain, CoreconfHashMapT.chain] at *
    omega

/-- The objects of a chain may come in another order. -/
theorem reorder {map : CoreconfHashMapT V} (inv : map.RepInv) {key : UInt64}
    {chain : List (CoreconfObjectT V)} (perm : chain.Perm (map.chain key)) :
    CoreconfHashMapT.RepInv ⟨map.setChain key chain, map.size⟩ ∧
      (⟨map.setChain key chain, map.size⟩ : CoreconfHashMapT V).chain key = chain ∧
      ∀ object, object ∈ (⟨map.setChain key chain, map.size⟩ : CoreconfHashMapT V).objects ↔
        object ∈ map.objects := by
  have bound := inv.index_lt key
  refine ⟨inv.setChain (fun object member => inv.hashKey_eq (perm.mem_iff.mp member))
    ((perm.map _).nodup_iff.mpr (inv.chain_distinct key))
    (fun object member => inv.noNull object (mem_objects_of_chain (perm.mem_iff.mp member)))
    (perm.length_eq ▸ inv.chain_length key) (by rw [perm.length_eq]), ?_, fun object => ?_⟩
  · exact (getD_set bound chain _).trans (if_pos rfl)
  · have here : object ∈ map.chain key ↔ object ∈ map.objects ∧ hashKey object.key.toUInt32 = hashKey key.toUInt32 := by
      refine ⟨fun member => ⟨mem_objects_of_chain member, inv.hashKey_eq member⟩, fun ⟨member, same⟩ => ?_⟩
      have inChain := (inv.mem_objects_iff object).mp member
      rwa [CoreconfHashMapT.chain, same] at inChain
    refine (inv.placed.mem_flatten_set bound).trans ?_
    rw [perm.mem_iff, here]
    by_cases same : hashKey object.key.toUInt32 = hashKey key.toUInt32
    · exact ⟨fun member => member.elim And.left And.left, fun member => Or.inl ⟨member, same⟩⟩
    · exact ⟨fun member => member.elim And.left And.left, fun member => Or.inr ⟨member, same⟩⟩

/-- A new value for the object of a key keeps the invariant. -/
private theorem replaceValue {map : CoreconfHashMapT V} (inv : map.RepInv) {key : UInt64} {value : V}
    {before after : List (CoreconfObjectT V)} {current : CoreconfObjectT V}
    (same : map.chain key = before ++ current :: after) (found : current.key = key) :
    CoreconfHashMapT.RepInv ⟨map.setChain key (before ++ ⟨key, some value⟩ :: after), map.size⟩ := by
  have here : ∀ object ∈ map.chain key, hashKey object.key.toUInt32 = hashKey key.toUInt32 :=
    fun object member => inv.hashKey_eq member
  have noNull : ∀ object ∈ map.chain key, object.value ≠ none :=
    fun object member => inv.noNull object (mem_objects_of_chain member)
  have distinct := inv.chain_distinct key
  have short := inv.chain_length key
  rw [same] at here noNull distinct short
  simp only [List.mem_append, List.mem_cons] at here noNull
  refine inv.setChain ?_ ?_ ?_ ?_ ?_
  · intro object member
    simp only [List.mem_append, List.mem_cons] at member
    rcases member with member | rfl | member
    · exact here object (Or.inl member)
    · rfl
    · exact here object (Or.inr (Or.inr member))
  · simpa [found] using distinct
  · intro object member
    simp only [List.mem_append, List.mem_cons] at member
    rcases member with member | rfl | member
    · exact noNull object (Or.inl member)
    · simp
    · exact noNull object (Or.inr (Or.inr member))
  · simpa using short
  · rw [same]
    simp

theorem insert {map : CoreconfHashMapT V} (inv : map.RepInv) (key : UInt64) (value : V) :
    (insertCoreconfHashMap map key (some value)).2.RepInv := by
  rcases insertCoreconfHashMap_cases map key (some value) with
    ⟨before, current, after, same, found, result⟩ | ⟨absent, room, result⟩ | ⟨-, result⟩
  · rw [result]
    exact inv.replaceValue same found
  · rw [result]
    refine inv.setChain ?_ ?_ ?_ ?_ ?_
    · intro object member
      rcases List.mem_cons.mp member with rfl | member
      · rfl
      · exact inv.hashKey_eq member
    · rw [List.map_cons, List.nodup_cons]
      refine ⟨?_, inv.chain_distinct key⟩
      intro member
      obtain ⟨object, member, same⟩ := List.mem_map.mp member
      exact absent object member same
    · intro object member
      rcases List.mem_cons.mp member with rfl | member
      · simp
      · exact inv.noNull object (mem_objects_of_chain member)
    · simp only [List.length_cons]
      omega
    · simp only [List.length_cons]
      omega
  · rw [result]
    exact inv

/-- A store through the value pointer of a key keeps the invariant. -/
theorem storeThroughGet {map : CoreconfHashMapT V} (inv : map.RepInv) {key : UInt64} {old : Option V}
    (present : ⟨key, old⟩ ∈ map.objects) (value : V) :
    (Coreconf.storeThroughGet map key value).RepInv := by
  obtain ⟨before, current, after, same, found, updated⟩ :=
    overwrite_eq ((inv.mem_objects_iff ⟨key, old⟩).mp present) rfl
  rw [Coreconf.storeThroughGet, updated]
  exact inv.replaceValue same found

/-- The objects after a chain is replaced by one that differs at one key only. -/
private theorem mem_setChain {map : CoreconfHashMapT V} (inv : map.RepInv) {key : UInt64} {size : Nat}
    {chain : List (CoreconfObjectT V)} (Changed : CoreconfObjectT V → Prop)
    (same : ∀ object, object ∈ chain ↔ Changed object ∨ (object ∈ map.chain key ∧ object.key ≠ key))
    {object : CoreconfObjectT V} :
    object ∈ (⟨map.setChain key chain, size⟩ : CoreconfHashMapT V).objects ↔
      Changed object ∨ (object ∈ map.objects ∧ object.key ≠ key) := by
  show object ∈ (map.table.set _ chain).flatten ↔ _
  rw [inv.placed.mem_flatten_set (inv.index_lt key), same]
  constructor
  · rintro ((changed | ⟨member, other⟩) | ⟨member, elsewhere⟩)
    · exact Or.inl changed
    · exact Or.inr ⟨mem_objects_of_chain member, other⟩
    · exact Or.inr ⟨member, fun equal => elsewhere (equal ▸ rfl)⟩
  · rintro (changed | ⟨member, other⟩)
    · exact Or.inl (Or.inl changed)
    · by_cases bucket : hashKey object.key.toUInt32 = hashKey key.toUInt32
      · refine Or.inl (Or.inr ⟨?_, other⟩)
        rw [inv.mem_objects_iff, CoreconfHashMapT.chain, bucket] at member
        exact member
      · exact Or.inr ⟨member, bucket⟩

/-- In a chain the object of a key is the only one of that key. -/
private theorem chain_unique {map : CoreconfHashMapT V} (inv : map.RepInv) {key : UInt64}
    {before after : List (CoreconfObjectT V)} {current : CoreconfObjectT V}
    (same : map.chain key = before ++ current :: after) (found : current.key = key)
    {object : CoreconfObjectT V} :
    object ∈ before ∨ object ∈ after ↔ object ∈ map.chain key ∧ object.key ≠ key := by
  have distinct := inv.chain_distinct key
  rw [same, List.map_append, List.map_cons, List.nodup_append, List.nodup_cons] at distinct
  obtain ⟨-, ⟨notAfter, -⟩, apart⟩ := distinct
  rw [same, List.mem_append, List.mem_cons]
  constructor
  · rintro (member | member)
    · refine ⟨Or.inl member, fun equal => ?_⟩
      exact apart _ (List.mem_map_of_mem member) _ List.mem_cons_self (equal.trans found.symm)
    · refine ⟨Or.inr (Or.inr member), fun equal => notAfter ?_⟩
      exact List.mem_map.mpr ⟨object, member, equal.trans found.symm⟩
  · rintro ⟨member | rfl | member, other⟩
    · exact Or.inl member
    · exact absurd found other
    · exact Or.inr member

private theorem mem_replaceValue {map : CoreconfHashMapT V} (inv : map.RepInv) {key : UInt64}
    {value : Option V} {before after : List (CoreconfObjectT V)} {current : CoreconfObjectT V}
    (same : map.chain key = before ++ current :: after) (found : current.key = key)
    {object : CoreconfObjectT V} :
    object ∈ (⟨map.setChain key (before ++ ⟨key, value⟩ :: after), map.size⟩ :
        CoreconfHashMapT V).objects ↔
      object = ⟨key, value⟩ ∨ (object ∈ map.objects ∧ object.key ≠ key) := by
  refine inv.mem_setChain (· = ⟨key, value⟩) fun object => ?_
  rw [← inv.chain_unique same found, List.mem_append, List.mem_cons]
  tauto

theorem mem_storeThroughGet {map : CoreconfHashMapT V} (inv : map.RepInv) {key : UInt64}
    {old : Option V} (present : ⟨key, old⟩ ∈ map.objects) {value : V} {object : CoreconfObjectT V} :
    object ∈ (Coreconf.storeThroughGet map key value).objects ↔
      object = ⟨key, some value⟩ ∨ (object ∈ map.objects ∧ object.key ≠ key) := by
  obtain ⟨before, current, after, same, found, updated⟩ :=
    overwrite_eq ((inv.mem_objects_iff ⟨key, old⟩).mp present) rfl
  rw [Coreconf.storeThroughGet, updated]
  exact inv.mem_replaceValue same found

/-- After a successful insertion the key has the new value, other keys theirs. -/
theorem mem_insert {map : CoreconfHashMapT V} (inv : map.RepInv) {key : UInt64} {value : Option V}
    (inserted : (insertCoreconfHashMap map key value).1 = 0) {object : CoreconfObjectT V} :
    object ∈ (insertCoreconfHashMap map key value).2.objects ↔
      object = ⟨key, value⟩ ∨ (object ∈ map.objects ∧ object.key ≠ key) := by
  rcases insertCoreconfHashMap_cases map key value with
    ⟨before, current, after, same, found, result⟩ | ⟨absent, -, result⟩ | ⟨-, result⟩
  · rw [result]
    exact inv.mem_replaceValue same found
  · rw [result]
    refine inv.mem_setChain (· = ⟨key, value⟩) fun object => ?_
    rw [List.mem_cons]
    exact or_congr_right ⟨fun member => ⟨member, absent object member⟩, And.left⟩
  · rw [result] at inserted
    exact absurd inserted (by simp)

theorem delete {map : CoreconfHashMapT V} (inv : map.RepInv) (key : UInt64) :
    (deleteFromCoreconfHashMap map key).2.RepInv := by
  unfold deleteFromCoreconfHashMap
  cases unlinked : unlink key (map.chain key) with
  | none => exact inv
  | some chain =>
      obtain ⟨before, cur, after, same, found, rfl⟩ := unlink_some unlinked
      have within : ∀ object ∈ before ++ after, object ∈ map.chain key := by
        intro object member
        rw [same]
        rw [List.mem_append] at member ⊢
        exact member.imp_right (List.mem_cons_of_mem _)
      have shorter : (map.chain key).length = (before ++ after).length + 1 := by
        rw [same]
        simp only [List.length_append, List.length_cons]
        omega
      have nonempty : 0 < map.size := by
        rw [inv.size_eq]
        have member : cur ∈ map.chain key := by simp [same]
        exact List.length_pos_of_mem (mem_objects_of_chain member)
      have short := inv.chain_length key
      refine inv.setChain ?_ ?_ ?_ ?_ ?_
      · exact fun object member => inv.hashKey_eq (within object member)
      · have distinct := inv.chain_distinct key
        rw [same] at distinct
        refine List.Nodup.sublist (List.Sublist.map _ ?_) distinct
        exact List.Sublist.append_left (List.sublist_cons_self _ _) _
      · exact fun object member => inv.noNull object (mem_objects_of_chain (within object member))
      · omega
      · omega

/-- A deletion takes the object of the key away and no other. -/
theorem mem_delete {map : CoreconfHashMapT V} (inv : map.RepInv) {key : UInt64}
    {object : CoreconfObjectT V} :
    object ∈ (deleteFromCoreconfHashMap map key).2.objects ↔
      object ∈ map.objects ∧ object.key ≠ key := by
  unfold deleteFromCoreconfHashMap
  cases unlinked : unlink key (map.chain key) with
  | none =>
      have absent := unlink_none.mp unlinked
      refine ⟨fun member => ⟨member, fun equal => ?_⟩, And.left⟩
      exact absent object (equal ▸ (inv.mem_objects_iff object).mp member) equal
  | some chain =>
      obtain ⟨before, cur, after, same, found, rfl⟩ := unlink_some unlinked
      have changed : object ∈ (⟨map.setChain key (before ++ after), map.size - 1⟩ :
          CoreconfHashMapT V).objects ↔ False ∨ (object ∈ map.objects ∧ object.key ≠ key) :=
        inv.mem_setChain (fun _ => False) fun object => by
          rw [← inv.chain_unique same found, List.mem_append, false_or]
      rwa [false_or] at changed

theorem get_eq_some {map : CoreconfHashMapT V} (inv : map.RepInv) {key : UInt64} {value : V} :
    getCoreconfHashMap map key = some value ↔ ⟨key, some value⟩ ∈ map.objects := by
  unfold getCoreconfHashMap
  cases found : (map.chain key).find? (·.key = key) with
  | none =>
      have absent := List.find?_eq_none.mp found
      simp only [reduceCtorEq, false_iff]
      intro member
      simpa using absent _ ((inv.mem_objects_iff ⟨key, some value⟩).mp member)
  | some current =>
      have ofKey : current.key = key := by simpa using List.find?_some found
      have member := List.mem_of_find?_eq_some found
      constructor
      · intro same
        have whole : current = ⟨key, some value⟩ := by
          cases current
          simp_all
        exact whole ▸ mem_objects_of_chain member
      · intro object
        have other := (inv.mem_objects_iff ⟨key, some value⟩).mp object
        have whole := List.inj_on_of_nodup_map (inv.chain_distinct key) member other ofKey
        rw [whole]

/-- The objects that have a value are bindings of distinct keys, whatever these are called. -/
theorem bindings_distinct {map : CoreconfHashMapT V} (inv : map.RepInv) {K W : Type} {name : UInt64 → K}
    (injective : Function.Injective name) (f : V → W) :
    ((map.objects.filterMap fun object => object.value.map fun value =>
      (name object.key, f value)).map Prod.fst).Nodup := by
  have keys : ∀ objects : List (CoreconfObjectT V),
      ((objects.filterMap fun object => object.value.map fun value =>
        (name object.key, f value)).map Prod.fst).Sublist (objects.map fun object => name object.key) := by
    intro objects
    induction objects with
    | nil => exact List.Sublist.refl _
    | cons object rest ih =>
        rw [List.filterMap_cons, List.map_cons]
        cases object.value with
        | none => exact ih.cons _
        | some value => exact ih.cons_cons _
  have distinct := inv.distinct.map injective
  rw [List.map_map] at distinct
  exact distinct.sublist (keys map.objects)

end CoreconfHashMapT.RepInv

/-- A map made with a single insertion. -/
theorem insert_create_objects (key : UInt64) (value : V) :
    (insertCoreconfHashMap createCoreconfHashmap key (some value)).2.objects = [⟨key, some value⟩] := by
  have inv := repInv_create.insert key value
  have inserted : (insertCoreconfHashMap (createCoreconfHashmap : CoreconfHashMapT V) key (some value)).1 = 0 :=
    insertCoreconfHashMap_short ((repInv_create.chain_length_le key).trans (Nat.zero_le _))
  refine List.perm_singleton.mp ((List.perm_ext_iff_of_nodup (List.Nodup.of_map _ inv.distinct)
    (List.nodup_singleton _)).mpr fun object => ?_)
  rw [repInv_create.mem_insert inserted, objects_create]
  simp

end Coreconf
