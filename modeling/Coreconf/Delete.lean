import Coreconf.MapRefinement
import Mathlib.Data.Finset.Card

set_option autoImplicit false

/- delete.c: the SIDs of a DELETE taken out of the datastore. -/

namespace Coreconf

open Function (update)

variable {V : Type}

/-- One round of the loop, on the count and the map it has so far. -/
def deleteSid (s : Int × CoreconfHashMapT V) (sid : UInt64) : Int × CoreconfHashMapT V :=
  if (deleteFromCoreconfHashMap s.2 sid).1 = 0 then
    (s.1 + 1, (deleteFromCoreconfHashMap s.2 sid).2)
  else
    (s.1, (deleteFromCoreconfHashMap s.2 sid).2)

/-- `n_sids` is the length of the list. -/
def applyDelete (map : CoreconfHashMapT V) (sids : List UInt64) : Int × CoreconfHashMapT V :=
  sids.foldl deleteSid (0, map)

theorem deleteSid_count (s : Int × CoreconfHashMapT V) (sid : UInt64) (n : Int) :
    deleteSid (n + s.1, s.2) sid = (n + (deleteSid s sid).1, (deleteSid s sid).2) := by
  unfold deleteSid
  dsimp only
  split
  · rw [Int.add_assoc]
  · rfl

/-- The count does not steer the loop. -/
theorem deleteSids_count (sids : List UInt64) (s : Int × CoreconfHashMapT V) (n : Int) :
    sids.foldl deleteSid (n + s.1, s.2) =
      (n + (sids.foldl deleteSid s).1, (sids.foldl deleteSid s).2) := by
  induction sids generalizing s with
  | nil => rfl
  | cons sid rest ih =>
      rw [List.foldl_cons, List.foldl_cons, deleteSid_count]
      exact ih (deleteSid s sid)

@[simp] theorem applyDelete_nil (map : CoreconfHashMapT V) : applyDelete map [] = (0, map) := rfl

theorem applyDelete_cons (map : CoreconfHashMapT V) (sid : UInt64) (rest : List UInt64) :
    applyDelete map (sid :: rest) =
      ((deleteSid (0, map) sid).1 + (applyDelete (deleteFromCoreconfHashMap map sid).2 rest).1,
        (applyDelete (deleteFromCoreconfHashMap map sid).2 rest).2) := by
  have next : (deleteSid (0, map) sid).2 = (deleteFromCoreconfHashMap map sid).2 := by
    unfold deleteSid
    split <;> rfl
  have counted := deleteSids_count rest (0, (deleteFromCoreconfHashMap map sid).2)
    (deleteSid (0, map) sid).1
  rw [Int.add_zero, ← next] at counted
  rw [applyDelete, List.foldl_cons, ← next]
  exact counted

/-- Taking a key out of a chain that has it once leaves the objects of the other keys. -/
theorem unlink_filter (key : UInt64) {chain : List (CoreconfObjectT V)}
    (distinct : (chain.map (·.key)).Nodup) :
    (unlink key chain).getD chain = chain.filter (·.key ≠ key) := by
  cases unlinked : unlink key chain with
  | none =>
      have absent := unlink_none.mp unlinked
      rw [Option.getD_none, List.filter_eq_self.mpr]
      simpa using absent
  | some rest =>
      obtain ⟨before, cur, after, rfl, here, rfl⟩ := unlink_some unlinked
      rw [List.map_append, List.map_cons, List.nodup_middle, List.nodup_cons, here] at distinct
      have others : ∀ object ∈ before ++ after, object.key ≠ key := by
        intro object member same
        exact distinct.1 (same ▸ List.map_append ▸ List.mem_map_of_mem member)
      rw [Option.getD_some, List.filter_append, List.filter_cons_of_neg (by simp [here]),
        ← List.filter_append, List.filter_eq_self.mpr]
      simpa using others

namespace CoreconfHashMapT.RepInv

/-- A deletion leaves in every chain the objects of the other keys, in their order. -/
theorem delete_table {map : CoreconfHashMapT V} (inv : map.RepInv) (key : UInt64) :
    (deleteFromCoreconfHashMap map key).2.table =
      map.table.map fun chain => chain.filter (·.key ≠ key) := by
  have changed : (deleteFromCoreconfHashMap map key).2.table =
      map.setChain key ((map.chain key).filter (·.key ≠ key)) := by
    have filtered := unlink_filter key (inv.chain_distinct key)
    rw [deleteFromCoreconfHashMap]
    cases unlinked : unlink key (map.chain key) with
    | none =>
        rw [unlinked, Option.getD_none] at filtered
        rw [← filtered, CoreconfHashMapT.setChain, CoreconfHashMapT.chain, List.getD_eq_getElem _ _ (inv.index_lt key),
          List.set_getElem_self]
    | some chain =>
        rw [unlinked, Option.getD_some] at filtered
        rw [filtered]
  rw [changed]
  apply List.ext_getElem
  · rw [CoreconfHashMapT.setChain, List.length_set, List.length_map]
  intro i bound bound'
  rw [CoreconfHashMapT.setChain, List.length_set] at bound
  rw [List.getElem_map]
  simp only [CoreconfHashMapT.setChain]
  rw [List.getElem_set]
  split
  next same => subst same; rw [chain, List.getD_eq_getElem _ _ (inv.index_lt key)]
  next other =>
      -- the key is in no other chain
      refine (List.filter_eq_self.mpr fun object member => ?_).symm
      rw [← List.getD_eq_getElem _ [] bound] at member
      have here := inv.placed i object member
      simpa using fun same : object.key = key => other (same ▸ here)

theorem delete_size {map : CoreconfHashMapT V} (inv : map.RepInv) (key : UInt64) :
    (deleteFromCoreconfHashMap map key).2.size +
      (if (getCoreconfHashMap map key).isSome then 1 else 0) = map.size := by
  have code := inv.delete_code key
  rw [deleteFromCoreconfHashMap] at code ⊢
  cases unlinked : unlink key (map.chain key) with
  | none =>
      simp only [unlinked] at code ⊢
      by_cases present : (getCoreconfHashMap map key).isSome
      · rw [if_pos present] at code
        omega
      · rw [if_neg present]
        rfl
  | some chain =>
      simp only [unlinked] at code ⊢
      obtain ⟨before, cur, after, same, -, -⟩ := unlink_some unlinked
      have positive : (map.chain key).length ≤ map.size := inv.chain_length_le key
      rw [same, List.length_append, List.length_cons] at positive
      by_cases present : (getCoreconfHashMap map key).isSome
      · rw [if_pos present]
        omega
      · rw [if_neg present] at code
        omega

theorem deleteSid_code {map : CoreconfHashMapT V} (inv : map.RepInv) (key : UInt64) :
    (deleteSid (0, map) key).1 = if (getCoreconfHashMap map key).isSome then 1 else 0 := by
  rw [deleteSid, inv.delete_code key]
  split
  · rfl
  · rfl

end CoreconfHashMapT.RepInv

/-- The SIDs of a list that a map binds, each once. -/
def boundSids (bound : UInt64 → Option V) (sids : List UInt64) : Finset UInt64 :=
  sids.toFinset.filter fun sid => (bound sid).isSome

theorem boundSids_cons (bound : UInt64 → Option V) (sid : UInt64) (rest : List UInt64) :
    (boundSids bound (sid :: rest)).card =
      (if (bound sid).isSome then 1 else 0) + (boundSids (update bound sid none) rest).card := by
  have others : boundSids (update bound sid none) rest = (boundSids bound rest).erase sid := by
    ext k
    by_cases same : k = sid
    · subst same
      simp [boundSids]
    · simp [boundSids, same]
  rw [others, boundSids, List.toFinset_cons, Finset.filter_insert, ← boundSids]
  split
  · have once := Finset.card_erase_add_one (Finset.mem_insert_self sid (boundSids bound rest))
    rw [Finset.erase_insert_eq_erase] at once
    rw [← once, Nat.add_comm]
  next unbound =>
      rw [Finset.erase_eq_of_notMem (by simp [boundSids, unbound]), Nat.zero_add]

/-- What a DELETE of some SIDs does to a map: the chains without their objects, counted. -/
structure Removed (map : CoreconfHashMapT V) (sids : List UInt64)
    (result : Int × CoreconfHashMapT V) : Prop where
  repInv : result.2.RepInv
  table : result.2.table = map.table.map fun chain => chain.filter (·.key ∉ sids)
  others : getCoreconfHashMap result.2 =
    fun sid => if sid ∈ sids then none else getCoreconfHashMap map sid
  count : result.1 = (boundSids (getCoreconfHashMap map) sids).card
  size : result.2.size + result.1 = map.size

theorem applyDelete_removed {map : CoreconfHashMapT V} (inv : map.RepInv) (sids : List UInt64) :
    Removed map sids (applyDelete map sids) := by
  induction sids generalizing map with
  | nil =>
      refine ⟨inv, ?_, ?_, rfl, Int.add_zero _⟩
      · simp
      · simp
  | cons sid rest ih =>
      have removed := ih (inv.delete sid)
      have size := inv.delete_size sid
      have code := inv.deleteSid_code sid
      rw [applyDelete_cons]
      refine ⟨removed.repInv, ?_, ?_, ?_, ?_⟩
      · rw [removed.table, inv.delete_table, List.map_map]
        congr 1
        funext chain
        simp [List.filter_filter, Bool.and_comm]
      · rw [removed.others, inv.get_delete]
        funext k
        by_cases same : k = sid
        · subst same
          simp
        · simp [same]
      · rw [removed.count, inv.get_delete, code, boundSids_cons]
        split <;> simp
      · have later := removed.size
        rw [code]
        dsimp only at later ⊢
        split at size
        next bound =>
            rw [if_pos bound]
            omega
        next unbound =>
            rw [if_neg unbound]
            omega

namespace CoreconfHashMapT

theorem pointers_injective {map map' : CoreconfHashMapT V} (same : map.pointers = map'.pointers) :
    map = map' := by
  have pointer : Function.Injective (CoreconfObjectT.pointer (V := V)) := by
    intro a b equal
    cases a
    cases b
    simpa [CoreconfObjectT.pointer] using equal
  have tables := congrArg CoreconfHashMapT.table same
  have sizes := congrArg CoreconfHashMapT.size same
  cases map
  cases map'
  cases (List.map_injective_iff.mpr (List.map_injective_iff.mpr pointer)) tables
  cases sizes
  rfl

theorem applyDelete_pointers (map : CoreconfHashMapT V) (sids : List UInt64) :
    applyDelete map.pointers sids = ((applyDelete map sids).1, (applyDelete map sids).2.pointers) := by
  induction sids generalizing map with
  | nil => rfl
  | cons sid rest ih =>
      have code : (deleteSid (0, map.pointers) sid).1 = (deleteSid (0, map) sid).1 := by
        simp only [deleteSid, delete_pointers]
        split <;> rfl
      rw [applyDelete_cons, applyDelete_cons, delete_pointers, ih, code]

end CoreconfHashMapT

open CoreconfHashMapT

theorem Removed.perm {map : CoreconfHashMapT V} {sids sids' : List UInt64}
    {result result' : Int × CoreconfHashMapT V} (removed : Removed map sids result)
    (removed' : Removed map sids' result') (same : ∀ sid, sid ∈ sids ↔ sid ∈ sids') :
    result = result' := by
  have tables : result.2.table = result'.2.table := by
    rw [removed.table, removed'.table]
    simp only [same]
  have counts : result.1 = result'.1 := by
    rw [removed.count, removed'.count, boundSids, boundSids]
    congr 2
    ext sid
    simp [same]
  have sizes : (result.2.size : Int) = result'.2.size := by
    have size := removed.size
    have size' := removed'.size
    omega
  obtain ⟨count, table, size⟩ := result
  obtain ⟨count', table', size'⟩ := result'
  simp only [Nat.cast_inj] at tables counts sizes
  subst tables counts sizes
  rfl

/-- A DELETE takes the listed SIDs away and no other, whatever their order: it answers
with how many there were, and the map is as well formed as before. -/
theorem listed_sids_deleted {map : CoreconfHashMapT V} (inv : map.pointers.RepInv)
    (sids : List UInt64) :
    (∀ sid, sid ∉ sids → (applyDelete map sids).2.bindings sid = map.bindings sid) ∧
    (∀ sid ∈ sids, (applyDelete map sids).2.bindings sid = none) ∧
    (applyDelete map sids).1 = (boundSids map.bindings sids).card ∧
    (applyDelete map sids).2.size + (applyDelete map sids).1 = map.size ∧
    (applyDelete map sids).2.pointers.RepInv ∧
    (map.RepInv → (applyDelete map sids).2.RepInv) ∧
    ∀ sids', sids.Perm sids' → applyDelete map sids' = applyDelete map sids := by
  have removed := applyDelete_removed inv sids
  rw [applyDelete_pointers] at removed
  refine ⟨fun sid other => ?_, fun sid listed => ?_, removed.count, removed.size, removed.repInv,
    fun valued => (applyDelete_removed valued sids).repInv, fun sids' same => ?_⟩
  · exact (congrFun removed.others sid).trans (if_neg other)
  · exact (congrFun removed.others sid).trans (if_pos listed)
  · have removed' := applyDelete_removed inv sids'
    rw [applyDelete_pointers] at removed'
    have equal := removed'.perm removed fun sid => same.symm.mem_iff
    simp only [Prod.mk.injEq] at equal
    exact Prod.ext equal.1 (pointers_injective equal.2)

/-- SIDs 1 and 4294967297 are in one chain, 7 is not bound. -/
theorem colliding_sids_deleted :
    (applyDelete (runCalls createCoreconfHashmap
        [.insert 1 (some true), .insert 4294967297 none, .insert 2 (some false)]).2
      [1, 7, 4294967297, 1]).1 = 2 ∧
    (applyDelete (runCalls createCoreconfHashmap
        [.insert 1 (some true), .insert 4294967297 none, .insert 2 (some false)]).2
      [1, 7, 4294967297, 1]).2.bindings 2 = some (some false) := by
  obtain ⟨others, -, count, -⟩ := listed_sids_deleted
    (pointers_runCalls [.insert 1 (some true), .insert 4294967297 none, .insert 2 (some false)])
    [1, 7, 4294967297, 1]
  refine ⟨count.trans ?_, (others 2 (by decide)).trans ?_⟩
  · decide +kernel
  · decide +kernel

end Coreconf
