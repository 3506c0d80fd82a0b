import Mathlib.Data.List.Basic
import Mathlib.Data.List.Nodup
import Mathlib.Data.List.GetD

set_option autoImplicit false

/- Tables of chains in which the key of an entry tells the chain it is in, as in
a hash table with separate chaining. -/
namespace ChainTable

variable {α K : Type} {key : α → K} {index : K → Nat}

/-- Every entry is in the chain its key selects. -/
def InBucket (key : α → K) (index : K → Nat) (table : List (List α)) : Prop :=
  ∀ i, ∀ a ∈ table.getD i [], index (key a) = i

theorem mem_flatten {table : List (List α)} {a : α} :
    a ∈ table.flatten ↔ ∃ i, a ∈ table.getD i [] := by
  rw [List.mem_flatten]
  constructor
  · rintro ⟨chain, member, inside⟩
    obtain ⟨i, bound, same⟩ := List.mem_iff_getElem.mp member
    exact ⟨i, by rwa [List.getD_eq_getElem _ _ bound, same]⟩
  · rintro ⟨i, inside⟩
    by_cases bound : i < table.length
    · rw [List.getD_eq_getElem _ _ bound] at inside
      exact ⟨_, List.getElem_mem bound, inside⟩
    · rw [List.getD_eq_default _ _ (Nat.le_of_not_lt bound)] at inside
      cases inside

theorem InBucket.mem_flatten_iff {table : List (List α)} (placed : InBucket key index table) {a : α} :
    a ∈ table.flatten ↔ a ∈ table.getD (index (key a)) [] := by
  rw [mem_flatten]
  constructor
  · rintro ⟨i, inside⟩
    rwa [placed i a inside]
  · exact fun inside => ⟨_, inside⟩

theorem getD_set {table : List (List α)} {i : Nat} (bound : i < table.length) (chain : List α)
    (j : Nat) : (table.set i chain).getD j [] = if j = i then chain else table.getD j [] := by
  rw [List.getD_eq_getElem?_getD, List.getElem?_set]
  by_cases same : i = j
  · subst same
    simp [bound]
  · simp [same, Ne.symm same]

theorem InBucket.set {table : List (List α)} (placed : InBucket key index table) {i : Nat}
    (bound : i < table.length) {chain : List α} (here : ∀ a ∈ chain, index (key a) = i) :
    InBucket key index (table.set i chain) := by
  intro j a member
  rw [getD_set bound] at member
  split at member
  · rename_i same
    exact same ▸ here a member
  · exact placed j a member

theorem inBucket_empty (n : Nat) : InBucket key index (List.replicate n ([] : List α)) := by
  intro i a member
  rw [List.getD_eq_getElem?_getD, List.getElem?_replicate] at member
  split at member <;> cases member

/-- After a chain is replaced the other entries are those of the other chains. -/
theorem InBucket.mem_flatten_set {table : List (List α)} (placed : InBucket key index table) {i : Nat}
    (bound : i < table.length) {chain : List α} {a : α} :
    a ∈ (table.set i chain).flatten ↔ a ∈ chain ∨ (a ∈ table.flatten ∧ index (key a) ≠ i) := by
  rw [mem_flatten]
  constructor
  · rintro ⟨j, member⟩
    rw [getD_set bound] at member
    split at member
    · exact Or.inl member
    · rename_i other
      exact Or.inr ⟨mem_flatten.mpr ⟨j, member⟩, by rwa [placed j a member]⟩
  · rintro (member | ⟨member, other⟩)
    · exact ⟨i, by rwa [getD_set bound, if_pos rfl]⟩
    · rw [placed.mem_flatten_iff] at member
      exact ⟨_, by rwa [getD_set bound, if_neg other]⟩

/-- Keys can only repeat inside a chain. -/
theorem InBucket.nodup_flatten {table : List (List α)} (placed : InBucket key index table) :
    (table.flatten.map key).Nodup ↔ ∀ i, ((table.getD i []).map key).Nodup := by
  rw [List.map_flatten, List.nodup_flatten]
  constructor
  · rintro ⟨within, -⟩ i
    by_cases bound : i < table.length
    · rw [List.getD_eq_getElem _ _ bound]
      exact within _ (List.mem_map.mpr ⟨_, List.getElem_mem bound, rfl⟩)
    · rw [List.getD_eq_default _ _ (Nat.le_of_not_lt bound)]
      exact List.nodup_nil
  · intro within
    refine ⟨?_, ?_⟩
    · intro keys member
      obtain ⟨chain, inside, rfl⟩ := List.mem_map.mp member
      obtain ⟨i, bound, rfl⟩ := List.mem_iff_getElem.mp inside
      have distinct := within i
      rwa [List.getD_eq_getElem _ _ bound] at distinct
    · rw [List.pairwise_map, List.pairwise_iff_getElem]
      intro i j bi bj less
      -- a common key would select both chains
      rw [List.disjoint_left]
      intro k left right
      obtain ⟨a, inLeft, rfl⟩ := List.mem_map.mp left
      obtain ⟨b, inRight, same⟩ := List.mem_map.mp right
      have ofA := placed i a (by rwa [List.getD_eq_getElem _ _ bi])
      have ofB := placed j b (by rwa [List.getD_eq_getElem _ _ bj])
      rw [same, ofA] at ofB
      omega

theorem length_flatten_set {table : List (List α)} {i : Nat} (bound : i < table.length)
    (chain : List α) : (table.set i chain).flatten.length + (table.getD i []).length =
      table.flatten.length + chain.length := by
  induction table generalizing i with
  | nil => cases bound
  | cons head rest ih =>
      cases i with
      | zero =>
          simp only [List.set_cons_zero, List.flatten_cons, List.length_append, List.getD_cons_zero]
          omega
      | succ i =>
          have shorter := ih (Nat.lt_of_succ_lt_succ bound)
          simp only [List.set_cons_succ, List.flatten_cons, List.length_append, List.getD_cons_succ]
          omega

/-- Of the entries in a row those of one index are its chain, by induction over the chains. -/
theorem filter_flatten {f : α → Nat} {table : List (List α)} (placed : ∀ i, ∀ a ∈ table.getD i [], f a = i)
    (i : Nat) : table.flatten.filter (fun a => f a = i) = table.getD i [] := by
  induction table generalizing f i with
  | nil => rfl
  | cons chain rest ih =>
      have first : ∀ a ∈ chain, f a = 0 := placed 0
      have later : ∀ a ∈ rest.flatten, 0 < f a := by
        intro a member
        obtain ⟨j, found⟩ := mem_flatten.mp member
        exact Nat.lt_of_lt_of_eq (Nat.succ_pos j) (placed (j + 1) a found).symm
      rw [List.flatten_cons, List.filter_append]
      cases i with
      | zero =>
          have whole : chain.filter (fun a => f a = 0) = chain :=
            List.filter_eq_self.mpr fun a member => decide_eq_true (first a member)
          have none : rest.flatten.filter (fun a => f a = 0) = [] :=
            List.filter_eq_nil_iff.mpr fun a member => by
              simpa only [decide_eq_true_eq] using Nat.ne_of_gt (later a member)
          rw [whole, none, List.append_nil]
          rfl
      | succ i =>
          have none : chain.filter (fun a => f a = i + 1) = [] :=
            List.filter_eq_nil_iff.mpr fun a member => by simp [first a member]
          have shifted : rest.flatten.filter (fun a => f a = i + 1) =
              rest.flatten.filter (fun a => f a - 1 = i) :=
            List.filter_congr fun a member => by
              have positive := later a member
              exact decide_eq_decide.mpr (by omega)
          have lower : ∀ j, ∀ a ∈ rest.getD j [], f a - 1 = j := by
            intro j a member
            have here : f a = j + 1 := placed (j + 1) a member
            omega
          rw [none, List.nil_append, shifted, ih lower i]
          rfl

end ChainTable
