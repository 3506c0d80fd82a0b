import Coreconf.Types
import Mathlib.Data.List.GetD

set_option autoImplicit false

/- Which chain an operation changes, and whether an insertion is refused, depends on
the keys of a hash map and not on its values. -/
namespace Coreconf

variable {V : Type}

/-- The keys of a hash map in their chains. -/
def CoreconfHashMapT.keys (map : CoreconfHashMapT V) : List (List UInt64) :=
  map.table.map fun chain => chain.map (·.key)

variable {map map' : CoreconfHashMapT V}

theorem chain_keys (same : map.keys = map'.keys) (key : UInt64) :
    (map.chain key).map (·.key) = (map'.chain key).map (·.key) := by
  have chains : ∀ map : CoreconfHashMapT V,
      (map.chain key).map (·.key) = map.keys.getD (hashKey key.toUInt32) [] := by
    intro map
    rw [CoreconfHashMapT.chain, CoreconfHashMapT.keys, List.getD_eq_getElem?_getD,
      List.getD_eq_getElem?_getD, List.getElem?_map]
    cases map.table[hashKey key.toUInt32]? <;> rfl
  rw [chains, chains, same]

theorem setChain_keys (same : map.keys = map'.keys) {key : UInt64} {size size' : Nat}
    {chain chain' : List (CoreconfObjectT V)}
    (chains : chain.map (·.key) = chain'.map (·.key)) :
    (⟨map.setChain key chain, size⟩ : CoreconfHashMapT V).keys =
      (⟨map'.setChain key chain', size'⟩ : CoreconfHashMapT V).keys := by
  simp only [CoreconfHashMapT.keys, CoreconfHashMapT.setChain, List.map_set, chains] at same ⊢
  rw [same]

/-- How a search along a chain ends depends on the keys only. -/
theorem walkChain_keys (key : UInt64) (value value' : Option V) (loopCount : Nat)
    {chain chain' : List (CoreconfObjectT V)}
    (same : chain.map (·.key) = chain'.map (·.key)) :
    (∃ new new', walkChain key value loopCount chain = .updated new ∧
      walkChain key value' loopCount chain' = .updated new' ∧
      new.map (·.key) = chain.map (·.key) ∧ new'.map (·.key) = chain'.map (·.key)) ∨
    (walkChain key value loopCount chain = .absent ∧ walkChain key value' loopCount chain' = .absent) ∨
    (walkChain key value loopCount chain = .loopCountExceeded ∧
      walkChain key value' loopCount chain' = .loopCountExceeded) := by
  induction chain generalizing loopCount chain' with
  | nil =>
      rw [List.map_nil, eq_comm, List.map_eq_nil_iff] at same
      subst same
      exact Or.inr (Or.inl ⟨rfl, rfl⟩)
  | cons current next ih =>
      cases chain' with
      | nil => simp at same
      | cons current' next' =>
          rw [List.map_cons, List.map_cons, List.cons.injEq] at same
          obtain ⟨key_eq, rest⟩ := same
          simp only [walkChain, ← key_eq]
          split
          · exact Or.inr (Or.inr ⟨rfl, rfl⟩)
          · split
            · exact Or.inl ⟨_, _, rfl, rfl, rfl, by simp [key_eq]⟩
            · rcases ih (loopCount + 1) rest with
                ⟨new, new', updated, updated', keys, keys'⟩ | ⟨absent, absent'⟩ | ⟨exceeded, exceeded'⟩
              · rw [updated, updated']
                exact Or.inl ⟨_, _, rfl, rfl, by simp [keys], by simp [keys']⟩
              · rw [absent, absent']
                exact Or.inr (Or.inl ⟨rfl, rfl⟩)
              · rw [exceeded, exceeded']
                exact Or.inr (Or.inr ⟨rfl, rfl⟩)

theorem insert_keys (same : map.keys = map'.keys) (key : UInt64) (value value' : Option V) :
    (insertCoreconfHashMap map key value).1 = (insertCoreconfHashMap map' key value').1 ∧
      (insertCoreconfHashMap map key value).2.keys = (insertCoreconfHashMap map' key value').2.keys := by
  have chains := chain_keys same key
  unfold insertCoreconfHashMap
  rcases walkChain_keys key value value' 0 chains with
    ⟨new, new', updated, updated', keys, keys'⟩ | ⟨absent, absent'⟩ | ⟨exceeded, exceeded'⟩
  · rw [updated, updated']
    exact ⟨rfl, setChain_keys same (by rw [keys, keys', chains])⟩
  · rw [absent, absent']
    exact ⟨rfl, setChain_keys same (by simp [chains])⟩
  · rw [exceeded, exceeded']
    exact ⟨rfl, same⟩

theorem unlink_keys (key : UInt64) {chain chain' : List (CoreconfObjectT V)}
    (same : chain.map (·.key) = chain'.map (·.key)) :
    (unlink key chain).map (List.map (·.key)) = (unlink key chain').map (List.map (·.key)) := by
  induction chain generalizing chain' with
  | nil =>
      rw [List.map_nil, eq_comm, List.map_eq_nil_iff] at same
      rw [same]
  | cons cur next ih =>
      cases chain' with
      | nil => simp at same
      | cons cur' next' =>
          rw [List.map_cons, List.map_cons, List.cons.injEq] at same
          obtain ⟨key_eq, rest⟩ := same
          simp only [unlink, ← key_eq]
          split
          · simp [rest]
          · have later := ih rest
            revert later
            cases unlink key next <;> cases unlink key next' <;> simp [key_eq]

theorem delete_keys (same : map.keys = map'.keys) (key : UInt64) :
    (deleteFromCoreconfHashMap map key).2.keys = (deleteFromCoreconfHashMap map' key).2.keys := by
  have chains := unlink_keys key (chain_keys same key)
  unfold deleteFromCoreconfHashMap
  revert chains
  cases unlink key (map.chain key) <;> cases unlink key (map'.chain key) <;> simp only [Option.map_some,
    Option.map_none, reduceCtorEq, false_implies, forall_const, Option.some.injEq]
  · exact same
  · exact setChain_keys same

theorem overwrite_keys (key : UInt64) (value : V) (chain : List (CoreconfObjectT V)) :
    (overwrite key value chain).map (·.key) = chain.map (·.key) := by
  induction chain with
  | nil => rfl
  | cons current next ih =>
      rw [overwrite]
      split
      · rfl
      · rw [List.map_cons, List.map_cons, ih]

theorem storeThroughGet_keys (map : CoreconfHashMapT V) (key : UInt64) (value : V) :
    (storeThroughGet map key value).keys = map.keys := by
  have stored : (storeThroughGet map key value).keys =
      (⟨map.setChain key (map.chain key), map.size⟩ : CoreconfHashMapT V).keys :=
    setChain_keys rfl (overwrite_keys key value _)
  rw [stored, CoreconfHashMapT.keys, CoreconfHashMapT.keys]
  congr 1
  show map.table.set _ (map.table.getD _ []) = map.table
  by_cases bound : hashKey key.toUInt32 < map.table.length
  · rw [List.getD_eq_getElem _ _ bound, List.set_getElem_self]
  · exact List.set_eq_of_length_le (Nat.not_lt.mp bound)

end Coreconf
