import Mathlib.Data.List.Sort

set_option autoImplicit false

/- Stable sorts that are driven by a comparator whose result is an integer. Where the signs of
the results are no order of the elements, nothing is said but that the elements are permuted. -/
namespace ComparisonSort

variable {T : Type}

/-- The signs of the results order these elements. -/
structure Consistent (compare : T → T → Int) (elements : List T) : Prop where
  opposite : ∀ a ∈ elements, ∀ b ∈ elements, compare a b < 0 ↔ 0 < compare b a
  trans : ∀ a ∈ elements, ∀ b ∈ elements, ∀ c ∈ elements, compare a b ≤ 0 → compare b c ≤ 0 → compare a c ≤ 0

def ties (compare : T → T → Int) (a : T) (elements : List T) : List T :=
  elements.filter fun b => compare a b = 0

structure StableSort (compare : T → T → Int) (sort : List T → List T) : Prop where
  perm : ∀ elements, (sort elements).Perm elements
  sorted : ∀ elements, Consistent compare elements → (sort elements).Pairwise fun a b => compare a b ≤ 0
  stable : ∀ elements, Consistent compare elements → ∀ a ∈ elements,
    ties compare a (sort elements) = ties compare a elements

namespace Consistent

variable {compare : T → T → Int} {elements : List T} (consistent : Consistent compare elements)
include consistent

theorem subset {part : List T} (inside : part ⊆ elements) : Consistent compare part where
  opposite := fun a ha b hb => consistent.opposite a (inside ha) b (inside hb)
  trans := fun a ha b hb c hc => consistent.trans a (inside ha) b (inside hb) c (inside hc)

theorem tie_self {a : T} (ha : a ∈ elements) : compare a a = 0 := by
  have opposite := consistent.opposite a ha a ha
  omega

theorem tie {a b : T} (ha : a ∈ elements) (hb : b ∈ elements) (le : compare a b ≤ 0) (ge : compare b a ≤ 0) :
    compare a b = 0 := by
  have opposite := consistent.opposite a ha b hb
  omega

theorem swap_le {a b : T} (ha : a ∈ elements) (hb : b ∈ elements) (gt : ¬ compare a b ≤ 0) : compare b a ≤ 0 := by
  have opposite := consistent.opposite b hb a ha
  omega

/-- A tie is one with the same elements. -/
theorem tie_trans {a b c : T} (ha : a ∈ elements) (hb : b ∈ elements) (hc : c ∈ elements)
    (first : compare a b = 0) (second : compare a c = 0) : compare b c ≤ 0 := by
  have back := consistent.opposite b hb a ha
  have turned : compare b a ≤ 0 := by
    have opposite := consistent.opposite a ha b hb
    omega
  exact consistent.trans b hb a ha c hc turned (by omega)

end Consistent

/-- Lists in order are the same if each element's ties are the same in both. -/
theorem sorted_eq {compare : T → T → Int} {left right : List T} (consistent : Consistent compare left)
    (perm : left.Perm right) (sortedLeft : left.Pairwise fun a b => compare a b ≤ 0)
    (sortedRight : right.Pairwise fun a b => compare a b ≤ 0)
    (same : ∀ a ∈ left, ties compare a left = ties compare a right) : left = right := by
  induction left generalizing right with
  | nil => exact perm.nil_eq
  | cons a left ih =>
      cases right with
      | nil => exact absurd perm.symm.nil_eq (by simp)
      | cons b right =>
          rw [List.pairwise_cons] at sortedLeft sortedRight
          have ha : a ∈ a :: left := List.mem_cons_self
          have hb : b ∈ a :: left := perm.mem_iff.mpr List.mem_cons_self
          have self := consistent.tie_self ha
          have le : compare a b ≤ 0 := by
            rcases List.mem_cons.mp hb with rfl | later
            · omega
            · exact sortedLeft.1 b later
          have ge : compare b a ≤ 0 := by
            rcases List.mem_cons.mp (perm.mem_iff.mp ha) with rfl | later
            · omega
            · exact sortedRight.1 a later
          have tie := consistent.tie ha hb le ge
          have heads := same a ha
          simp only [ties, List.filter_cons, self, tie, decide_true, if_true, List.cons.injEq] at heads
          obtain ⟨rfl, -⟩ := heads
          rw [List.perm_cons] at perm
          have rest : left = right := by
            apply ih (consistent.subset (List.subset_cons_self a left)) perm sortedLeft.2 sortedRight.2
            intro c hc
            have whole := same c (List.mem_cons_of_mem a hc)
            by_cases tied : compare c a = 0
            · simpa [ties, tied] using whole
            · simpa [ties, tied] using whole
          rw [rest]

namespace StableSort

variable {compare : T → T → Int} {sort : List T → List T} (stable : StableSort compare sort)
include stable

/-- Permutations are sorted alike exactly if they have the same ties in the same order. -/
theorem eq_iff {left right : List T} (perm : left.Perm right) (consistent : Consistent compare left) :
    sort left = sort right ↔ ∀ a ∈ left, ties compare a left = ties compare a right := by
  have consistent' : Consistent compare right := consistent.subset perm.symm.subset
  constructor
  · intro same a ha
    rw [← stable.stable left consistent a ha, ← stable.stable right consistent' a (perm.mem_iff.mp ha), same]
  · intro same
    apply sorted_eq (consistent.subset (stable.perm left).subset)
    · exact (stable.perm left).trans (perm.trans (stable.perm right).symm)
    · exact stable.sorted left consistent
    · exact stable.sorted right consistent'
    · intro a ha
      have inside := (stable.perm left).mem_iff.mp ha
      rw [stable.stable left consistent a inside, stable.stable right consistent' a (perm.mem_iff.mp inside)]
      exact same a inside

theorem perm_of_eq {left right : List T} (same : sort left = sort right) : left.Perm right :=
  (stable.perm left).symm.trans (same ▸ stable.perm right)

end StableSort

section InsertionSort

variable {compare : T → T → Int}

def insertInOrder (compare : T → T → Int) (a : T) (elements : List T) : List T :=
  elements.orderedInsert (fun a b => compare a b ≤ 0) a

private theorem pairwise_insertInOrder {a : T} {elements : List T} (consistent : Consistent compare (a :: elements))
    (sorted : elements.Pairwise fun a b => compare a b ≤ 0) :
    (insertInOrder compare a elements).Pairwise fun a b => compare a b ≤ 0 := by
  induction elements with
  | nil => simp [insertInOrder]
  | cons b elements ih =>
      have ha : a ∈ a :: b :: elements := List.mem_cons_self
      have hb : b ∈ a :: b :: elements := List.mem_cons_of_mem a List.mem_cons_self
      rw [List.pairwise_cons] at sorted
      rw [insertInOrder, List.orderedInsert_cons]
      split
      · rename_i le
        rw [List.pairwise_cons, List.pairwise_cons]
        refine ⟨?_, sorted⟩
        intro c hc
        rcases List.mem_cons.mp hc with rfl | later
        · exact le
        · exact consistent.trans a ha b hb c (List.mem_cons_of_mem a hc) le (sorted.1 c later)
      · rename_i gt
        have fewer : a :: elements ⊆ a :: b :: elements := List.cons_subset_cons a (List.subset_cons_self b elements)
        rw [List.pairwise_cons]
        refine ⟨?_, ih (consistent.subset fewer) sorted.2⟩
        intro c hc
        rcases (List.mem_orderedInsert _).mp hc with rfl | later
        · exact consistent.swap_le ha hb gt
        · exact sorted.1 c later

/-- An element is inserted in front of those it ties with. -/
private theorem ties_insertInOrder {a x : T} {elements : List T}
    (consistent : Consistent compare (x :: a :: elements)) :
    ties compare x (insertInOrder compare a elements) = ties compare x (a :: elements) := by
  induction elements with
  | nil => rfl
  | cons b elements ih =>
      rw [insertInOrder, List.orderedInsert_cons]
      split
      · rfl
      · rename_i gt
        have fewer : x :: a :: elements ⊆ x :: a :: b :: elements :=
          List.cons_subset_cons x (List.cons_subset_cons a (List.subset_cons_self b elements))
        have apart : compare x a = 0 → compare x b ≠ 0 := by
          intro first second
          exact gt (consistent.tie_trans (by simp) (by simp) (by simp) first second)
        have rest := ih (consistent.subset fewer)
        rw [insertInOrder, ties, ties] at rest
        rw [ties, ties, List.filter_cons, rest]
        by_cases first : compare x a = 0
        · simp [first, apart first]
        · simp [first, List.filter_cons]

theorem insertionSort_stableSort (compare : T → T → Int) :
    StableSort compare (List.insertionSort fun a b => compare a b ≤ 0) where
  perm := List.perm_insertionSort _
  sorted := by
    intro elements consistent
    induction elements with
    | nil => simp
    | cons a elements ih =>
        rw [List.insertionSort_cons]
        apply pairwise_insertInOrder
        · apply consistent.subset
          exact List.cons_subset_cons a (List.perm_insertionSort _ elements).subset
        · exact ih (consistent.subset (List.subset_cons_self a elements))
  stable := by
    intro elements consistent x hx
    have kept : ∀ part, part ⊆ elements →
        ties compare x (part.insertionSort fun a b => compare a b ≤ 0) = ties compare x part := by
      intro part inside
      induction part with
      | nil => rfl
      | cons a part ih =>
          rw [List.cons_subset] at inside
          have sorted : Consistent compare (x :: a :: part.insertionSort fun a b => compare a b ≤ 0) := by
            apply consistent.subset
            rw [List.cons_subset, List.cons_subset]
            exact ⟨hx, inside.1, List.Subset.trans (List.perm_insertionSort _ part).subset inside.2⟩
          have rest := ih inside.2
          have inserted := ties_insertInOrder sorted
          rw [insertInOrder] at inserted
          rw [List.insertionSort_cons, inserted]
          rw [ties, ties] at rest ⊢
          rw [List.filter_cons, List.filter_cons, rest]
    exact kept elements (List.Subset.refl elements)

end InsertionSort

/-- A sort that leaves in place what it can not order. -/
theorem exists_stableSort_keeping (compare : T → T → Int) :
    ∃ sort, StableSort compare sort ∧ ∀ elements, ¬ Consistent compare elements → sort elements = elements := by
  classical
  have stable := insertionSort_stableSort compare
  refine ⟨fun elements => if Consistent compare elements then elements.insertionSort fun a b => compare a b ≤ 0
    else elements, ⟨?_, ?_, ?_⟩, ?_⟩
  · intro elements
    split
    · exact stable.perm elements
    · exact .refl elements
  · intro elements consistent
    rw [if_pos consistent]
    exact stable.sorted elements consistent
  · intro elements consistent
    rw [if_pos consistent]
    exact stable.stable elements consistent
  · intro elements inconsistent
    exact if_neg inconsistent

/-- Whatever sort it is that the comparator drives, two lists are sorted alike exactly if they are
permutations: the condition on the lists. -/
theorem sorted_alike_iff (compare : T → T → Int) (left right : List T) :
    (∀ sort, StableSort compare sort → (sort left = sort right ↔ left.Perm right)) ↔
      ¬ left.Perm right ∨ left = right ∨
        Consistent compare left ∧ ∀ a ∈ left, ties compare a left = ties compare a right := by
  constructor
  · intro alike
    by_cases perm : left.Perm right
    · right
      by_cases consistent : Consistent compare left
      · have same := (alike _ (insertionSort_stableSort compare)).mpr perm
        exact Or.inr ⟨consistent, ((insertionSort_stableSort compare).eq_iff perm consistent).mp same⟩
      · obtain ⟨sort, stable, keeps⟩ := exists_stableSort_keeping compare
        have same := (alike sort stable).mpr perm
        have consistent' : ¬ Consistent compare right := fun other => consistent (other.subset perm.subset)
        rw [keeps left consistent, keeps right consistent'] at same
        exact Or.inl same
    · exact Or.inl perm
  · intro condition sort stable
    constructor
    · exact stable.perm_of_eq
    · intro perm
      rcases condition with differ | rfl | ⟨consistent, same⟩
      · exact absurd perm differ
      · rfl
      · exact (stable.eq_iff perm consistent).mpr same

end ComparisonSort
