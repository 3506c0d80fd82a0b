import Coreconf.ChainOrder
import Coreconf.MapRefinement

set_option autoImplicit false

/- Entries that bind keys of a hash map in turn or drop them, whatever its values are: what
the keys are bound to afterwards, and when full chains refuse none of them. -/
namespace Coreconf

open ChainOrder (Taken Room)

variable {V : Type} (drops : V → Bool)

def bindOrDrop (target : CoreconfHashMapT V) (entry : UInt64 × V) : CoreconfHashMapT V :=
  if drops entry.2 then (deleteFromCoreconfHashMap target entry.1).2
  else (insertCoreconfHashMap target entry.1 (some entry.2)).2

def RefusesBinding (target : CoreconfHashMapT V) (entry : UInt64 × V) : Prop :=
  drops entry.2 = false ∧ (insertCoreconfHashMap target entry.1 (some entry.2)).1 ≠ 0

instance (target : CoreconfHashMapT V) (entry : UInt64 × V) : Decidable (RefusesBinding drops target entry) :=
  inferInstanceAs (Decidable (_ ∧ _))

/-- The keys whose insertion is refused when the entries are applied in turn. -/
def refusals (target : CoreconfHashMapT V) : List (UInt64 × V) → List UInt64
  | [] => []
  | entry :: rest =>
      let later := refusals (bindOrDrop drops target entry) rest
      if RefusesBinding drops target entry then entry.1 :: later else later

variable {drops} {target : CoreconfHashMapT V} {entries : List (UInt64 × V)}

theorem bindOrDrop_repInv (inv : target.RepInv) (entry : UInt64 × V) : (bindOrDrop drops target entry).RepInv := by
  unfold bindOrDrop
  split
  · exact inv.delete _
  · exact inv.insert _ _

theorem bindOrDrop_refused {entry : UInt64 × V} (refused : RefusesBinding drops target entry) :
    bindOrDrop drops target entry = target := by
  rw [bindOrDrop, refused.1, if_neg Bool.false_ne_true, insertCoreconfHashMap_refused refused.2]

theorem bindOrDrop_other (inv : target.RepInv) {entry : UInt64 × V} {key : UInt64} (other : key ≠ entry.1) :
    getCoreconfHashMap (bindOrDrop drops target entry) key = getCoreconfHashMap target key := by
  by_cases refused : RefusesBinding drops target entry
  · rw [bindOrDrop_refused refused]
  · unfold bindOrDrop
    split
    · rw [inv.get_delete, Function.update_of_ne other]
    · rename_i bound
      have inserted : (insertCoreconfHashMap target entry.1 (some entry.2)).1 = 0 := by
        by_contra failed
        exact refused ⟨by simpa using bound, failed⟩
      rw [inv.get_insert inserted, Function.update_of_ne other]

/-- An entry drops or binds its key, or is refused. -/
theorem bindOrDrop_self (inv : target.RepInv) (entry : UInt64 × V) :
    getCoreconfHashMap (bindOrDrop drops target entry) entry.1 =
      if drops entry.2 then none
      else if RefusesBinding drops target entry then getCoreconfHashMap target entry.1 else some entry.2 := by
  by_cases refused : RefusesBinding drops target entry
  · rw [bindOrDrop_refused refused, refused.1, if_neg Bool.false_ne_true, if_pos refused]
  · rw [if_neg refused]
    unfold bindOrDrop
    split
    · rw [inv.get_delete, Function.update_self]
    · rename_i bound
      have inserted : (insertCoreconfHashMap target entry.1 (some entry.2)).1 = 0 := by
        by_contra failed
        exact refused ⟨by simpa using bound, failed⟩
      rw [inv.get_insert inserted, Function.update_self]

theorem overrideAll_repInv (inv : target.RepInv) : (entries.foldl (bindOrDrop drops) target).RepInv := by
  induction entries generalizing target with
  | nil => exact inv
  | cons entry rest ih => exact ih (bindOrDrop_repInv inv entry)

theorem overrideAll_other (inv : target.RepInv) {key : UInt64} (others : ∀ entry ∈ entries, key ≠ entry.1) :
    getCoreconfHashMap (entries.foldl (bindOrDrop drops) target) key = getCoreconfHashMap target key := by
  induction entries generalizing target with
  | nil => rfl
  | cons entry rest ih =>
      obtain ⟨first, later⟩ := List.forall_mem_cons.mp others
      rw [List.foldl_cons, ih (bindOrDrop_repInv inv entry) later, bindOrDrop_other inv first]

theorem refusals_subset {key : UInt64} (refused : key ∈ refusals drops target entries) :
    ∃ entry ∈ entries, entry.1 = key := by
  induction entries generalizing target with
  | nil => cases refused
  | cons entry rest ih =>
      rw [refusals] at refused
      split at refused
      · rcases List.mem_cons.mp refused with rfl | later
        · exact ⟨entry, List.mem_cons_self, rfl⟩
        · obtain ⟨entry, member, same⟩ := ih later
          exact ⟨entry, List.mem_cons_of_mem _ member, same⟩
      · obtain ⟨entry, member, same⟩ := ih refused
        exact ⟨entry, List.mem_cons_of_mem _ member, same⟩

/-- With distinct keys each entry decides about its own, wherever it comes. -/
theorem overrideAll_entry (inv : target.RepInv) (distinct : (entries.map Prod.fst).Nodup) {key : UInt64}
    {value : V} (member : (key, value) ∈ entries) :
    getCoreconfHashMap (entries.foldl (bindOrDrop drops) target) key =
      if drops value then none
      else if key ∈ refusals drops target entries then getCoreconfHashMap target key else some value := by
  induction entries generalizing target with
  | nil => cases member
  | cons entry rest ih =>
      rw [List.map_cons, List.nodup_cons] at distinct
      have others : ∀ later ∈ rest, later.1 ≠ entry.1 := fun later inside same =>
        distinct.1 (same ▸ List.mem_map_of_mem inside)
      rw [List.foldl_cons]
      rcases List.mem_cons.mp member with rfl | later
      · have notLater : key ∉ refusals drops (bindOrDrop drops target (key, value)) rest := fun refused => by
          obtain ⟨later, inside, same⟩ := refusals_subset refused
          exact others later inside same
        rw [overrideAll_other (bindOrDrop_repInv inv _) fun later inside => (others later inside).symm,
          bindOrDrop_self inv, refusals]
        by_cases refused : RefusesBinding drops target (key, value)
        · simp [refused]
        · simp [refused, notLater]
      · have other : key ≠ entry.1 := others _ later
        have same : key ∈ refusals drops target (entry :: rest) ↔
            key ∈ refusals drops (bindOrDrop drops target entry) rest := by
          rw [refusals]
          split
          · rw [List.mem_cons, or_iff_right other]
          · rfl
        rw [ih (bindOrDrop_repInv inv entry) distinct.2 later, bindOrDrop_other inv other]
        simp only [same]

/-- The keys of the chain that a key belongs to. -/
def CoreconfHashMapT.chainKeys (map : CoreconfHashMapT V) (key : UInt64) : List UInt64 :=
  (map.chain key).map (·.key)

/-- The entries whose keys belong to the same chain. -/
def chainEntries (drops : V → Bool) (key : UInt64) (entries : List (UInt64 × V)) : List (ChainOrder.Entry UInt64) :=
  (entries.filter fun entry => hashKey entry.1.toUInt32 = hashKey key.toUInt32).map
    fun entry => (entry.1, drops entry.2)

theorem chainEntries_here {key : UInt64} {entry : UInt64 × V}
    (same : hashKey entry.1.toUInt32 = hashKey key.toUInt32) (rest : List (UInt64 × V)) :
    chainEntries drops key (entry :: rest) = (entry.1, drops entry.2) :: chainEntries drops key rest := by
  rw [chainEntries, List.filter_cons_of_pos (by simpa using same), List.map_cons]
  rfl

theorem chainEntries_elsewhere {key : UInt64} {entry : UInt64 × V}
    (other : hashKey entry.1.toUInt32 ≠ hashKey key.toUInt32) (rest : List (UInt64 × V)) :
    chainEntries drops key (entry :: rest) = chainEntries drops key rest := by
  rw [chainEntries, List.filter_cons_of_neg (by simpa using other)]
  rfl

theorem chainEntries_distinct (key : UInt64) (distinct : (entries.map Prod.fst).Nodup) :
    ((chainEntries drops key entries).map Prod.fst).Nodup := by
  rw [chainEntries, List.map_map]
  exact distinct.sublist (List.filter_sublist.map Prod.fst)

theorem mem_chainKeys (map : CoreconfHashMapT V) (key : UInt64) :
    key ∈ map.chainKeys key ↔ ∃ object ∈ map.chain key, object.key = key := List.mem_map

theorem idxOf_chainKeys (map : CoreconfHashMapT V) (key : UInt64) :
    (map.chainKeys key).idxOf key = (map.chain key).findIdx (·.key = key) := by
  rw [CoreconfHashMapT.chainKeys, List.idxOf, List.findIdx_map]
  rfl

/-- An insertion is refused where its walk does not come to an end. -/
theorem insert_refused_iff (map : CoreconfHashMapT V) (key : UInt64) (value : Option V) :
    (insertCoreconfHashMap map key value).1 ≠ 0 ↔
      ChainOrder.Refused (CORECONF_MAX_LOOP + 1) (map.chainKeys key) key := by
  rw [ChainOrder.Refused]
  split
  · rename_i present
    rw [Ne, insertCoreconfHashMap_present ((mem_chainKeys map key).mp present), CoreconfHashMapT.Found,
      idxOf_chainKeys]
    omega
  · rename_i absent
    rw [CoreconfHashMapT.chainKeys, List.length_map]
    rcases insertCoreconfHashMap_cases map key value with
      ⟨before, current, after, same, found, -⟩ | ⟨-, short, inserted⟩ | ⟨long, refused⟩
    · refine absurd ((mem_chainKeys map key).mpr ⟨current, ?_, found⟩) absent
      rw [same]
      exact List.mem_append_right _ List.mem_cons_self
    · rw [inserted]
      simpa using short
    · rw [refused]
      simpa using long

/-- A deletion takes the key out of its chain. -/
theorem chainKeys_unlink {key : UInt64} (chain : List (CoreconfObjectT V)) :
    ((unlink key chain).getD chain).map (·.key) = (chain.map (·.key)).erase key := by
  induction chain with
  | nil => rfl
  | cons cur next ih =>
      rw [unlink, List.map_cons, List.erase_cons]
      by_cases here : cur.key = key
      · simp [here]
      · rw [if_neg here, if_neg (by simpa using here), ← ih]
        cases unlink key next <;> rfl

/-- The chains after that of one key is set. -/
theorem chain_setChain (inv : target.RepInv) (key : UInt64) (chain : List (CoreconfObjectT V)) (size : Nat)
    (other : UInt64) :
    (⟨target.setChain key chain, size⟩ : CoreconfHashMapT V).chain other =
      if hashKey key.toUInt32 = hashKey other.toUInt32 then chain else target.chain other := by
  rw [CoreconfHashMapT.chain, CoreconfHashMapT.setChain, ChainTable.getD_set (inv.index_lt key)]
  simp only [eq_comm]
  rfl

/-- Only the chain of the key changes. -/
theorem chainKeys_setChain (inv : target.RepInv) (key : UInt64) (chain : List (CoreconfObjectT V)) (size : Nat)
    (other : UInt64) :
    (⟨target.setChain key chain, size⟩ : CoreconfHashMapT V).chainKeys other =
      if hashKey key.toUInt32 = hashKey other.toUInt32 then chain.map (·.key) else target.chainKeys other := by
  rw [CoreconfHashMapT.chainKeys, chain_setChain inv]
  split <;> rfl

theorem chainKeys_congr (map : CoreconfHashMapT V) {key other : UInt64}
    (same : hashKey key.toUInt32 = hashKey other.toUInt32) : map.chainKeys other = map.chainKeys key := by
  rw [CoreconfHashMapT.chainKeys, CoreconfHashMapT.chain, ← same]
  rfl

theorem chainKeys_delete (inv : target.RepInv) (key other : UInt64) :
    (deleteFromCoreconfHashMap target key).2.chainKeys other =
      if hashKey key.toUInt32 = hashKey other.toUInt32 then (target.chainKeys other).erase key
      else target.chainKeys other := by
  have unlinked := @chainKeys_unlink _ key (target.chain key)
  unfold deleteFromCoreconfHashMap
  split
  · rename_i missing
    rw [missing] at unlinked
    split
    · rename_i same
      rw [chainKeys_congr target same]
      exact unlinked
    · rfl
  · rename_i chain found
    rw [found] at unlinked
    rw [chainKeys_setChain inv]
    split
    · rename_i same
      rw [chainKeys_congr target same]
      exact unlinked
    · rfl

theorem chainKeys_insert (inv : target.RepInv) {key : UInt64} {value : Option V}
    (inserted : (insertCoreconfHashMap target key value).1 = 0) (other : UInt64) :
    (insertCoreconfHashMap target key value).2.chainKeys other =
      if hashKey key.toUInt32 = hashKey other.toUInt32 then
        if key ∈ target.chainKeys other then target.chainKeys other else key :: target.chainKeys other
      else target.chainKeys other := by
  rcases insertCoreconfHashMap_cases target key value with
    ⟨before, current, after, chain, found, updated⟩ | ⟨absent, -, updated⟩ | ⟨-, refused⟩
  · rw [updated, chainKeys_setChain inv]
    split
    · rename_i same
      have keys : target.chainKeys other = before.map (·.key) ++ key :: after.map (·.key) := by
        rw [chainKeys_congr target same, CoreconfHashMapT.chainKeys, chain, List.map_append, List.map_cons, found]
      rw [keys, if_pos (List.mem_append_right _ List.mem_cons_self), List.map_append]
      rfl
    · rfl
  · rw [updated, chainKeys_setChain inv]
    split
    · rename_i same
      have missing : key ∉ target.chainKeys other := by
        rw [chainKeys_congr target same, mem_chainKeys]
        rintro ⟨object, member, equal⟩
        exact absent object member equal
      rw [if_neg missing, chainKeys_congr target same]
      rfl
    · rfl
  · rw [refused] at inserted
    cases inserted

/-- The keys of a chain after an entry that is not refused. -/
theorem chainKeys_bindOrDrop (inv : target.RepInv) {entry : UInt64 × V}
    (taken : ¬ RefusesBinding drops target entry) (key : UInt64) :
    (bindOrDrop drops target entry).chainKeys key =
      if hashKey entry.1.toUInt32 = hashKey key.toUInt32 then
        ChainOrder.step (target.chainKeys key) (entry.1, drops entry.2)
      else target.chainKeys key := by
  unfold bindOrDrop ChainOrder.step
  split
  · exact chainKeys_delete inv entry.1 key
  · rename_i bound
    have inserted : (insertCoreconfHashMap target entry.1 (some entry.2)).1 = 0 := by
      by_contra failed
      exact taken ⟨by simpa using bound, failed⟩
    exact chainKeys_insert inv inserted key

/-- An entry is refused where the chain of its key refuses it. -/
theorem refusesBinding_iff (target : CoreconfHashMapT V) (entry : UInt64 × V) :
    RefusesBinding drops target entry ↔
      drops entry.2 = false ∧ ChainOrder.Refused (CORECONF_MAX_LOOP + 1) (target.chainKeys entry.1) entry.1 :=
  and_congr_right fun _ => insert_refused_iff target entry.1 (some entry.2)

/-- Where no entry is refused, each chain has taken its own. -/
theorem chainKeys_overrideAll (inv : target.RepInv) (taken : refusals drops target entries = []) (key : UInt64) :
    (entries.foldl (bindOrDrop drops) target).chainKeys key =
      ChainOrder.run (target.chainKeys key) (chainEntries drops key entries) := by
  induction entries generalizing target with
  | nil => rfl
  | cons entry rest ih =>
      rw [refusals] at taken
      split at taken
      · cases taken
      · rename_i here
        rw [List.foldl_cons, ih (bindOrDrop_repInv inv entry) taken, chainKeys_bindOrDrop inv here]
        by_cases same : hashKey entry.1.toUInt32 = hashKey key.toUInt32
        · rw [if_pos same, chainEntries_here same]
          rfl
        · rw [if_neg same, chainEntries_elsewhere same]

/-- No entry is refused exactly where every chain takes its own, by induction over the entries. -/
theorem refusals_eq_nil_iff (inv : target.RepInv) :
    refusals drops target entries = [] ↔
      ∀ key, Taken (CORECONF_MAX_LOOP + 1) (target.chainKeys key) (chainEntries drops key entries) := by
  induction entries generalizing target with
  | nil => exact iff_of_true rfl fun _ => trivial
  | cons entry rest ih =>
      rw [refusals]
      split
      · rename_i refused
        refine iff_of_false (List.cons_ne_nil _ _) fun every => ?_
        have here := every entry.1
        rw [chainEntries_here rfl] at here
        exact here.1 refused.1 ((refusesBinding_iff target entry).mp refused).2
      · rename_i taken
        rw [ih (bindOrDrop_repInv inv entry)]
        refine forall_congr' fun key => ?_
        rw [chainKeys_bindOrDrop inv taken]
        by_cases same : hashKey entry.1.toUInt32 = hashKey key.toUInt32
        · rw [if_pos same, chainEntries_here same, Taken]
          refine (and_iff_right fun bound refused => taken ?_).symm
          rw [chainKeys_congr target same] at refused
          exact (refusesBinding_iff target entry).mpr ⟨bound, refused⟩
        · rw [if_neg same, chainEntries_elsewhere same]

/-- The objects of a map as entries, in the order of its table. -/
def CoreconfHashMapT.assignments (map : CoreconfHashMapT V) : List (UInt64 × V) :=
  map.objects.filterMap fun object => object.value.map fun value => (object.key, value)

theorem mem_assignments {map : CoreconfHashMapT V} {entry : UInt64 × V} :
    entry ∈ map.assignments ↔ ⟨entry.1, some entry.2⟩ ∈ map.objects := by
  rw [CoreconfHashMapT.assignments, List.mem_filterMap]
  constructor
  · rintro ⟨⟨key, value⟩, member, paired⟩
    obtain ⟨inner, rfl, rfl⟩ := Option.map_eq_some_iff.mp paired
    exact member
  · exact fun member => ⟨_, member, rfl⟩

theorem assignments_distinct {map : CoreconfHashMapT V} (inv : map.RepInv) :
    (map.assignments.map Prod.fst).Nodup := inv.bindings_distinct Function.injective_id id

/-- The assignments of one chain are its objects. -/
theorem chainEntries_assignments {map : CoreconfHashMapT V} (inv : map.RepInv) (key : UInt64) :
    chainEntries drops key map.assignments =
      (map.chain key).filterMap fun object => object.value.map fun value => (object.key, drops value) := by
  have chain : (map.objects.filter fun object => hashKey object.key.toUInt32 = hashKey key.toUInt32) =
      map.chain key := ChainTable.filter_flatten (fun i object member => inv.placed i object member) _
  rw [← chain, chainEntries, CoreconfHashMapT.assignments]
  clear chain
  induction map.objects with
  | nil => rfl
  | cons object rest ih =>
      obtain ⟨k, value⟩ := object
      cases value with
      | none => by_cases here : hashKey k.toUInt32 = hashKey key.toUInt32 <;> simp [here, ih]
      | some value => by_cases here : hashKey k.toUInt32 = hashKey key.toUInt32 <;> simp [here, ih]

/-- Every key that is to be dropped is missing, and every other one is there. -/
def SettledEntries (drops : V → Bool) (target : CoreconfHashMapT V) (entries : List (UInt64 × V)) : Prop :=
  ∀ entry ∈ entries, entry.1 ∈ target.chainKeys entry.1 ↔ drops entry.2 = false

/-- An entry that is settled moves no object. -/
theorem chainKeys_settled (inv : target.RepInv) {entry : UInt64 × V}
    (settled : entry.1 ∈ target.chainKeys entry.1 ↔ drops entry.2 = false) (key : UInt64) :
    (bindOrDrop drops target entry).chainKeys key = target.chainKeys key := by
  by_cases refused : RefusesBinding drops target entry
  · rw [bindOrDrop_refused refused]
  · rw [chainKeys_bindOrDrop inv refused]
    split
    · rename_i same
      rw [← chainKeys_congr target same] at settled
      rw [ChainOrder.step]
      split
      · rename_i dropped
        exact List.erase_of_not_mem fun present => by simp [settled.mp present] at dropped
      · rename_i bound
        rw [if_pos (settled.mpr (by simpa using bound))]
    · rfl

/-- Settled entries are refused where an insertion does not come to their objects. -/
theorem mem_refusals_settled (inv : target.RepInv) (settled : SettledEntries drops target entries) {key : UInt64} :
    key ∈ refusals drops target entries ↔
      (∃ entry ∈ entries, entry.1 = key ∧ drops entry.2 = false) ∧ ¬ target.Found key := by
  induction entries generalizing target with
  | nil => simp [refusals]
  | cons entry rest ih =>
      obtain ⟨here, later⟩ := List.forall_mem_cons.mp settled
      have keys := chainKeys_settled inv here
      have settledRest : SettledEntries drops (bindOrDrop drops target entry) rest := by
        intro entry' member
        rw [keys]
        exact later entry' member
      have found : (bindOrDrop drops target entry).Found key ↔ target.Found key := by
        rw [CoreconfHashMapT.Found, CoreconfHashMapT.Found, ← idxOf_chainKeys, ← idxOf_chainKeys, keys]
      have refuses : RefusesBinding drops target entry ↔ drops entry.2 = false ∧ ¬ target.Found entry.1 := by
        refine (refusesBinding_iff target entry).trans (and_congr_right fun bound => ?_)
        rw [ChainOrder.Refused, if_pos (here.mpr bound), idxOf_chainKeys, CoreconfHashMapT.Found]
        omega
      have rest_iff := ih (bindOrDrop_repInv inv entry) settledRest
      rw [found] at rest_iff
      rw [refusals]
      split
      · rename_i refused
        rw [List.mem_cons, rest_iff]
        constructor
        · rintro (rfl | ⟨⟨entry', member, same⟩, lost⟩)
          · exact ⟨⟨entry, List.mem_cons_self, rfl, (refuses.mp refused).1⟩, (refuses.mp refused).2⟩
          · exact ⟨⟨entry', List.mem_cons_of_mem _ member, same⟩, lost⟩
        · rintro ⟨⟨entry', member, same⟩, lost⟩
          rcases List.mem_cons.mp member with rfl | member
          · exact .inl same.1.symm
          · exact .inr ⟨⟨entry', member, same⟩, lost⟩
      · rename_i taken
        rw [rest_iff]
        refine and_congr_left fun lost => ?_
        constructor
        · rintro ⟨entry', member, same⟩
          exact ⟨entry', List.mem_cons_of_mem _ member, same⟩
        · rintro ⟨entry', member, same⟩
          rcases List.mem_cons.mp member with rfl | member
          · exact absurd (refuses.mpr ⟨same.2, same.1 ▸ lost⟩) taken
          · exact ⟨entry', member, same⟩

theorem get_eq_some_iff {map : CoreconfHashMapT V} (inv : map.RepInv) {key : UInt64} {value : V} :
    getCoreconfHashMap map key = some value ↔ (key, value) ∈ map.assignments :=
  inv.get_eq_some.trans (@mem_assignments V map (key, value)).symm

theorem mem_chainKeys_iff {map : CoreconfHashMapT V} (inv : map.RepInv) (key : UInt64) :
    key ∈ map.chainKeys key ↔ (getCoreconfHashMap map key).isSome := by
  rw [mem_chainKeys, Option.isSome_iff_exists]
  constructor
  · rintro ⟨⟨_, value⟩, member, rfl⟩
    have inside := (inv.mem_objects_iff _).mpr member
    cases value with
    | none => exact absurd rfl (inv.noNull _ inside)
    | some value => exact ⟨value, inv.get_eq_some.mpr inside⟩
  · rintro ⟨value, bound⟩
    exact ⟨⟨key, some value⟩, (inv.mem_objects_iff ⟨key, some value⟩).mp (inv.get_eq_some.mp bound), rfl⟩

/-- Maps with the same objects have the same assignments, maybe in another order. -/
theorem assignments_perm {map map' : CoreconfHashMapT V} (inv : map.RepInv) (inv' : map'.RepInv)
    (same : ∀ object, object ∈ map'.objects ↔ object ∈ map.objects) : map'.assignments.Perm map.assignments := by
  have nodup := List.Nodup.of_map Prod.fst (assignments_distinct inv)
  have nodup' := List.Nodup.of_map Prod.fst (assignments_distinct inv')
  refine (List.perm_ext_iff_of_nodup nodup' nodup).mpr fun entry => ?_
  rw [mem_assignments, mem_assignments, same]

theorem chainEntries_perm {entries' : List (UInt64 × V)} (perm : entries'.Perm entries) (key : UInt64) :
    (chainEntries drops key entries').Perm (chainEntries drops key entries) := (perm.filter _).map _

end Coreconf
