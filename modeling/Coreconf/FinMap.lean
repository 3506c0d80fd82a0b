import Mathlib.Order.Lattice
import Mathlib.Data.List.Basic
import Mathlib.Data.List.Induction
import Mathlib.Data.List.Perm.Basic

set_option autoImplicit false

/- Finite maps as key-sorted association lists. Two sorted lists with the same
lookups are equal, so equality of lists is equality of finite maps. -/
namespace FinMap

variable {K V W : Type} [LinearOrder K]

def lookup (k : K) : List (K × V) → Option V
  | [] => none
  | (k', v) :: rest => if k = k' then some v else lookup k rest

def insert (k : K) (v : V) : List (K × V) → List (K × V)
  | [] => [(k, v)]
  | (k', v') :: rest =>
      if k < k' then (k, v) :: (k', v') :: rest
      else if k = k' then (k, v) :: rest
      else (k', v') :: insert k v rest

def erase (k : K) : List (K × V) → List (K × V)
  | [] => []
  | (k', v') :: rest => if k = k' then rest else (k', v') :: erase k rest

/-- The map of a list of entries in which a later one overrides an earlier one. -/
def ofList (entries : List (K × V)) : List (K × V) :=
  entries.foldl (fun m entry => insert entry.1 entry.2 m) []

def Sorted (m : List (K × V)) : Prop := m.Pairwise fun a b => a.1 < b.1

@[simp] theorem lookup_nil (k : K) : lookup k ([] : List (K × V)) = none := rfl

@[simp] theorem lookup_cons (k k' : K) (v : V) (rest : List (K × V)) :
    lookup k ((k', v) :: rest) = if k = k' then some v else lookup k rest := rfl

@[simp] theorem sorted_nil : Sorted ([] : List (K × V)) := List.Pairwise.nil

theorem lookup_mem {k : K} {v : V} {m : List (K × V)} (found : lookup k m = some v) :
    (k, v) ∈ m := by
  induction m with
  | nil => cases found
  | cons entry rest ih =>
    obtain ⟨k', v'⟩ := entry
    by_cases same : k = k'
    · simp only [lookup_cons, same, ↓reduceIte, Option.some.injEq] at found
      simp [same, found]
    · simp only [lookup_cons, same, ↓reduceIte] at found
      exact List.mem_cons_of_mem _ (ih found)

theorem lookup_eq_none {k : K} {m : List (K × V)} : lookup k m = none ↔ ∀ entry ∈ m, entry.1 ≠ k := by
  induction m with
  | nil => simp
  | cons entry rest ih =>
    obtain ⟨k', v'⟩ := entry
    by_cases same : k = k'
    · simp [same]
    · simp [same, ih, Ne.symm same]

/-- With distinct keys every entry is found. -/
theorem lookup_of_mem {k : K} {v : V} {m : List (K × V)} (distinct : (m.map Prod.fst).Nodup)
    (member : (k, v) ∈ m) : lookup k m = some v := by
  induction m with
  | nil => cases member
  | cons entry rest ih =>
    obtain ⟨k', v'⟩ := entry
    rw [List.map_cons, List.nodup_cons] at distinct
    rcases List.mem_cons.mp member with same | later
    · cases same
      simp
    · have other : k ≠ k' := by
        rintro rfl
        exact distinct.1 (List.mem_map.mpr ⟨(k, v), later, rfl⟩)
      simp only [lookup_cons, other, ↓reduceIte]
      exact ih distinct.2 later

theorem lookup_eq_some {k : K} {v : V} {m : List (K × V)} (distinct : (m.map Prod.fst).Nodup) :
    lookup k m = some v ↔ (k, v) ∈ m :=
  ⟨lookup_mem, lookup_of_mem distinct⟩

theorem lookup_insert (k k' : K) (v : V) (m : List (K × V)) :
    lookup k' (insert k v m) = if k' = k then some v else lookup k' m := by
  induction m with
  | nil => rfl
  | cons entry rest ih =>
    obtain ⟨k'', v''⟩ := entry
    unfold insert
    split
    · rfl
    · split
      · rename_i same
        subst same
        by_cases found : k' = k <;> simp [found]
      · rename_i other
        by_cases found : k' = k''
        · have different : k' ≠ k := by rintro rfl; exact other found
          simp only [found, lookup_cons, ↓reduceIte]
          simp [found ▸ different]
        · simp [found, ih]

theorem mem_insert {k : K} {v : V} {entry : K × V} {m : List (K × V)}
    (member : entry ∈ insert k v m) : entry = (k, v) ∨ entry ∈ m := by
  induction m with
  | nil => exact Or.inl (List.mem_singleton.mp member)
  | cons head rest ih =>
    obtain ⟨k', v'⟩ := head
    unfold insert at member
    split at member
    · exact List.mem_cons.mp member
    · split at member
      · rcases List.mem_cons.mp member with same | later
        · exact Or.inl same
        · exact Or.inr (List.mem_cons_of_mem _ later)
      · rcases List.mem_cons.mp member with same | later
        · exact Or.inr (same ▸ List.mem_cons_self)
        · exact (ih later).imp id (List.mem_cons_of_mem _)

theorem length_insert_le (k : K) (v : V) (m : List (K × V)) : (insert k v m).length ≤ m.length + 1 := by
  induction m with
  | nil => exact le_refl _
  | cons entry rest ih =>
      obtain ⟨k', v'⟩ := entry
      rw [insert]
      split
      · exact le_refl _
      · split
        · simp
        · simpa using ih

theorem sorted_insert (k : K) (v : V) {m : List (K × V)} (sorted : Sorted m) :
    Sorted (insert k v m) := by
  induction m with
  | nil => exact List.pairwise_singleton _ _
  | cons entry rest ih =>
    obtain ⟨k', v'⟩ := entry
    obtain ⟨above, later⟩ := List.pairwise_cons.mp sorted
    unfold insert
    split
    · rename_i less
      refine List.pairwise_cons.mpr ⟨?_, sorted⟩
      intro other member
      rcases List.mem_cons.mp member with rfl | member
      · exact less
      · exact less.trans (above other member)
    · rename_i notLess
      split
      · rename_i same
        subst same
        exact List.pairwise_cons.mpr ⟨above, later⟩
      · rename_i different
        refine List.pairwise_cons.mpr ⟨?_, ih later⟩
        intro other member
        rcases mem_insert member with rfl | member
        · exact lt_of_le_of_ne (not_lt.mp notLess) (Ne.symm different)
        · exact above other member

theorem lookup_erase {m : List (K × V)} (sorted : Sorted m) (k k' : K) :
    lookup k' (erase k m) = if k' = k then none else lookup k' m := by
  induction m with
  | nil => simp [erase]
  | cons entry rest ih =>
    obtain ⟨k'', v''⟩ := entry
    obtain ⟨above, later⟩ := List.pairwise_cons.mp sorted
    unfold erase
    split
    · rename_i same
      subst same
      by_cases found : k' = k
      · subst found
        simp only [↓reduceIte]
        exact lookup_eq_none.mpr fun other member => ne_of_gt (above other member)
      · simp [found]
    · rename_i different
      by_cases found : k' = k''
      · have other : k' ≠ k := by rintro rfl; exact different found
        simp only [found, lookup_cons, ↓reduceIte]
        simp [found ▸ other]
      · simp [found, ih later]

theorem sorted_erase (k : K) {m : List (K × V)} (sorted : Sorted m) : Sorted (erase k m) := by
  refine List.Pairwise.sublist ?_ sorted
  induction m with
  | nil => exact List.Sublist.refl _
  | cons entry rest ih =>
    unfold erase
    split
    · exact List.sublist_cons_self _ _
    · exact (ih (List.pairwise_cons.mp sorted).2).cons_cons _

theorem Sorted.distinct {m : List (K × V)} (sorted : Sorted m) : (m.map Prod.fst).Nodup := by
  rw [List.Nodup, List.pairwise_map]
  exact sorted.imp fun less => ne_of_lt less

/-- Sorted association lists are determined by their lookups. -/
theorem ext {m m' : List (K × V)} (sorted : Sorted m) (sorted' : Sorted m')
    (same : ∀ k, lookup k m = lookup k m') : m = m' := by
  induction m generalizing m' with
  | nil =>
    cases m' with
    | nil => rfl
    | cons entry rest =>
      obtain ⟨k, v⟩ := entry
      simpa using same k
  | cons entry rest ih =>
    obtain ⟨k, v⟩ := entry
    cases m' with
    | nil => simpa using same k
    | cons entry' rest' =>
      obtain ⟨k', v'⟩ := entry'
      obtain ⟨above, later⟩ := List.pairwise_cons.mp sorted
      obtain ⟨above', later'⟩ := List.pairwise_cons.mp sorted'
      -- the two least keys agree: each is bound in the other list
      have keys : k = k' := by
        have here := same k
        have there := same k'
        simp only [lookup_cons, ↓reduceIte] at here there
        by_contra different
        simp only [different, ↓reduceIte] at here
        have above' := above' _ (lookup_mem here.symm)
        simp only [Ne.symm different, ↓reduceIte] at there
        exact lt_asymm above' (above _ (lookup_mem there))
      subst keys
      have value : v = v' := by simpa using same k
      subst value
      congr 1
      refine ih later later' fun j => ?_
      by_cases found : j = k
      · subst found
        rw [lookup_eq_none.mpr fun other member => ne_of_gt (above other member),
          lookup_eq_none.mpr fun other member => ne_of_gt (above' other member)]
      · simpa [found] using same j

theorem sorted_foldl_insert (entries : List (K × V)) {m : List (K × V)} (sorted : Sorted m) :
    Sorted (entries.foldl (fun m entry => insert entry.1 entry.2 m) m) := by
  induction entries generalizing m with
  | nil => exact sorted
  | cons entry rest ih => exact ih (sorted_insert _ _ sorted)

@[simp] theorem sorted_ofList (entries : List (K × V)) : Sorted (ofList entries) :=
  sorted_foldl_insert entries sorted_nil

theorem ofList_append_singleton (entries : List (K × V)) (k : K) (v : V) :
    ofList (entries ++ [(k, v)]) = insert k v (ofList entries) := by
  simp only [ofList, List.foldl_append, List.foldl_cons, List.foldl_nil]

/-- The last entry of a key is the one that is found. -/
theorem lookup_ofList_reverse (entries : List (K × V)) (k : K) :
    lookup k (ofList entries) = lookup k entries.reverse := by
  induction entries using List.reverseRecOn with
  | nil => rfl
  | append_singleton entries entry ih =>
      rw [ofList_append_singleton, lookup_insert, ih, List.reverse_append, List.reverse_singleton,
        List.singleton_append, lookup_cons]

theorem lookup_foldl_insert {k : K} {entries : List (K × V)} (m : List (K × V))
    (distinct : (entries.map Prod.fst).Nodup) :
    lookup k (entries.foldl (fun m entry => insert entry.1 entry.2 m) m) =
      (lookup k entries).or (lookup k m) := by
  induction entries generalizing m with
  | nil => simp
  | cons entry rest ih =>
    obtain ⟨k', v⟩ := entry
    rw [List.map_cons, List.nodup_cons] at distinct
    rw [List.foldl_cons, ih _ distinct.2, lookup_insert, lookup_cons]
    by_cases same : k = k'
    · subst same
      have absent : lookup k rest = none :=
        lookup_eq_none.mpr fun other member equal =>
          distinct.1 (List.mem_map.mpr ⟨other, member, equal⟩)
      simp [absent]
    · simp [same]

/-- Distinct keys leave nothing to override. -/
theorem lookup_ofList {entries : List (K × V)} (distinct : (entries.map Prod.fst).Nodup) (k : K) :
    lookup k (ofList entries) = lookup k entries := by
  rw [ofList, lookup_foldl_insert [] distinct]
  simp

theorem mem_ofList {entries : List (K × V)} {entry : K × V} (member : entry ∈ ofList entries) :
    entry ∈ entries := by
  induction entries using List.reverseRecOn with
  | nil => exact member
  | append_singleton before last ih =>
      rw [ofList_append_singleton] at member
      rcases mem_insert member with rfl | earlier
      · exact List.mem_append_right _ (List.mem_singleton.mpr rfl)
      · exact List.mem_append_left _ (ih earlier)

/-- The map of a list is as long as the list exactly where no key comes twice. -/
theorem length_ofList_iff {entries : List (K × V)} :
    (ofList entries).length = entries.length ↔ (entries.map Prod.fst).Nodup := by
  have sorted := (sorted_ofList entries).distinct
  have within : (ofList entries).map Prod.fst ⊆ entries.map Prod.fst :=
    List.map_subset _ fun _ => mem_ofList
  constructor
  · intro same
    have sameKeys := (List.subperm_of_subset sorted within).perm_of_length_le
      (by rw [List.length_map, List.length_map, same])
    exact sameKeys.nodup_iff.mp sorted
  · intro distinct
    have covered : entries.map Prod.fst ⊆ (ofList entries).map Prod.fst := by
      intro k key
      obtain ⟨⟨k, v⟩, member, rfl⟩ := List.mem_map.mp key
      have found := lookup_ofList distinct k
      rw [lookup_of_mem distinct member] at found
      exact List.mem_map.mpr ⟨_, lookup_mem found, rfl⟩
    have shorter := (List.subperm_of_subset sorted within).length_le
    have longer := (List.subperm_of_subset distinct covered).length_le
    rw [List.length_map, List.length_map] at shorter longer
    exact le_antisymm shorter longer

/-- Lists of the same distinct keys make the same map only if they are the same. -/
theorem ofList_inj {entries entries' : List (K × V)}
    (keys : entries.map Prod.fst = entries'.map Prod.fst) (distinct : (entries.map Prod.fst).Nodup)
    (same : ofList entries = ofList entries') : entries = entries' := by
  have lookups : ∀ k, lookup k entries = lookup k entries' := by
    intro k
    rw [← lookup_ofList distinct, same, lookup_ofList (keys ▸ distinct)]
  clear same
  induction entries generalizing entries' with
  | nil => exact (List.map_eq_nil_iff.mp keys.symm).symm
  | cons entry rest ih =>
      obtain ⟨k, v⟩ := entry
      cases entries' with
      | nil => cases keys
      | cons entry' rest' =>
          obtain ⟨k', v'⟩ := entry'
          simp only [List.map_cons, List.cons.injEq] at keys
          obtain ⟨rfl, keys⟩ := keys
          obtain ⟨absent, distinct⟩ := List.nodup_cons.mp distinct
          have here := lookups k
          rw [lookup_cons, lookup_cons, if_pos rfl, if_pos rfl] at here
          have later : ∀ j, lookup j rest = lookup j rest' := by
            intro j
            have there := lookups j
            rw [lookup_cons, lookup_cons] at there
            by_cases first : j = k
            · subst first
              have unbound : ∀ l : List (K × V), j ∉ l.map Prod.fst → lookup j l = none := by
                intro l missing
                exact lookup_eq_none.mpr fun entry member same =>
                  missing (same ▸ List.mem_map_of_mem member)
              rw [unbound rest absent, unbound rest' (keys ▸ absent)]
            · rwa [if_neg first, if_neg first] at there
          rw [Option.some.inj here, ih keys distinct later]

end FinMap
