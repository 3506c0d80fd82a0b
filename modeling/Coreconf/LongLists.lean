import Coreconf.ComparisonSort
import Coreconf.Manipulation

set_option autoImplicit false

/- The comparison of lists of longs, whatever stable sort qsort is. -/
namespace Coreconf

open ComparisonSort

/-- compareDynamicLongList over the sort that it calls. -/
def compareDynamicLongListBy (qsort : List Int64 → List Int64)
    (dynamicLongList1 dynamicLongList2 : DynamicLongListT) : Bool :=
  if dynamicLongList1.length = 0 ∨ dynamicLongList2.length = 0 then false
  else if dynamicLongList1.length ≠ dynamicLongList2.length then false
  else qsort dynamicLongList1 == qsort dynamicLongList2

theorem compareDynamicLongList_eq (dynamicLongList1 dynamicLongList2 : DynamicLongListT) :
    compareDynamicLongList dynamicLongList1 dynamicLongList2 =
      compareDynamicLongListBy sortDynamicLongList dynamicLongList1 dynamicLongList2 := rfl

/-- The int that the comparator returns. -/
def compareLongInt (a b : Int64) : Int := (compareLong a b).toInt

theorem sortDynamicLongList_stableSort : StableSort compareLongInt sortDynamicLongList := by
  have same : sortDynamicLongList = List.insertionSort fun a b => compareLongInt a b ≤ 0 := by
    funext dynamicLongList
    simp only [sortDynamicLongList, Int32.le_iff_toInt_le, compareLongInt]
    rfl
  rw [same]
  exact insertionSort_stableSort compareLongInt

/-- The difference of the low halves, as far as it fits an int. -/
theorem compareLongInt_bmod (a b : Int64) :
    compareLongInt a b = (a.toInt32.toInt - b.toInt32.toInt).bmod 4294967296 := Int32.toInt_sub _ _

theorem compareLongInt_eq_zero {a b : Int64} : compareLongInt a b = 0 ↔ b.toInt32 = a.toInt32 := by
  have lowA := a.toInt32.le_toInt
  have highA := a.toInt32.toInt_lt
  have lowB := b.toInt32.le_toInt
  have highB := b.toInt32.toInt_lt
  rw [compareLongInt_bmod, ← Int32.toInt_inj, Int.bmod_def]
  split <;> omega

/-- What the comparator orders: longs whose low halves are less than 2^31 apart. -/
theorem lowHalves_consistent {dynamicLongList : DynamicLongListT}
    (near : ∀ a ∈ dynamicLongList, ∀ b ∈ dynamicLongList, a.toInt32.toInt - b.toInt32.toInt < 2147483648) :
    Consistent compareLongInt dynamicLongList := by
  have difference : ∀ a ∈ dynamicLongList, ∀ b ∈ dynamicLongList,
      compareLongInt a b = a.toInt32.toInt - b.toInt32.toInt := by
    intro a ha b hb
    have above := near a ha b hb
    have below := near b hb a ha
    rw [compareLongInt_bmod]
    apply Int.bmod_eq_of_le_mul_two <;> omega
  constructor
  · intro a ha b hb
    rw [difference a ha b hb, difference b hb a ha]
    omega
  · intro a ha b hb c hc first second
    rw [difference a ha b hb] at first
    rw [difference b hb c hc] at second
    rw [difference a ha c hc]
    omega

theorem compareDynamicLongListBy_eq {qsort : List Int64 → List Int64} (stable : StableSort compareLongInt qsort)
    {dynamicLongList1 dynamicLongList2 : DynamicLongListT} (nonempty1 : dynamicLongList1 ≠ [])
    (nonempty2 : dynamicLongList2 ≠ []) :
    compareDynamicLongListBy qsort dynamicLongList1 dynamicLongList2 = true ↔
      qsort dynamicLongList1 = qsort dynamicLongList2 := by
  have size1 : dynamicLongList1.length ≠ 0 := by simpa using nonempty1
  have size2 : dynamicLongList2.length ≠ 0 := by simpa using nonempty2
  rw [compareDynamicLongListBy, if_neg (by omega)]
  split
  · rename_i differ
    constructor
    · intro impossible
      cases impossible
    · intro same
      exact absurd (stable.perm_of_eq same).length_eq differ
  · exact beq_iff_eq

/-- For every sort that qsort may be, the comparison is right exactly if the lists are no
permutations of each other, or the same list, or lists of longs that the differences of the low
halves order, with the longs of one low half in the same order in both. -/
theorem compareDynamicLongList_ignores_order_iff {dynamicLongList1 dynamicLongList2 : DynamicLongListT}
    (nonempty1 : dynamicLongList1 ≠ []) (nonempty2 : dynamicLongList2 ≠ []) :
    (∀ qsort, StableSort compareLongInt qsort →
      (compareDynamicLongListBy qsort dynamicLongList1 dynamicLongList2 = true ↔
        dynamicLongList1.Perm dynamicLongList2)) ↔
      ¬ dynamicLongList1.Perm dynamicLongList2 ∨ dynamicLongList1 = dynamicLongList2 ∨
        Consistent compareLongInt dynamicLongList1 ∧ ∀ a ∈ dynamicLongList1,
          dynamicLongList1.filter (·.toInt32 = a.toInt32) = dynamicLongList2.filter (·.toInt32 = a.toInt32) := by
  have sorts : (∀ qsort, StableSort compareLongInt qsort →
      (compareDynamicLongListBy qsort dynamicLongList1 dynamicLongList2 = true ↔
        dynamicLongList1.Perm dynamicLongList2)) ↔
      ∀ qsort, StableSort compareLongInt qsort →
        (qsort dynamicLongList1 = qsort dynamicLongList2 ↔ dynamicLongList1.Perm dynamicLongList2) := by
    apply forall₂_congr
    intro qsort stable
    rw [compareDynamicLongListBy_eq stable nonempty1 nonempty2]
  rw [sorts, sorted_alike_iff]
  simp only [ties, compareLongInt_eq_zero]

/-- The longs 3 and 1 are ordered by their low halves. -/
theorem low_halves_ordered :
    [3, 1].Perm [1, (3 : Int64)] ∧ ∀ qsort, StableSort compareLongInt qsort →
      (compareDynamicLongListBy qsort [3, 1] [1, 3] = true ↔ [3, 1].Perm [1, (3 : Int64)]) := by
  refine ⟨.swap _ _ _, ?_⟩
  apply (compareDynamicLongList_ignores_order_iff (by simp) (by simp)).mpr
  have near : ∀ a ∈ [3, (1 : Int64)], ∀ b ∈ [3, (1 : Int64)], a.toInt32.toInt - b.toInt32.toInt < 2147483648 := by
    simp only [List.forall_mem_cons, List.not_mem_nil, false_imp_iff, implies_true, and_true]
    decide
  exact Or.inr (Or.inr ⟨lowHalves_consistent near, by simp⟩)

/-- Permutations of two longs with the low half 0 are told apart, whatever stable sort qsort is. -/
theorem upper_halves_ignored :
    [0, 4294967296].Perm [4294967296, (0 : Int64)] ∧ ∀ qsort, StableSort compareLongInt qsort →
      ¬ (compareDynamicLongListBy qsort [0, 4294967296] [4294967296, 0] = true ↔
        [0, 4294967296].Perm [4294967296, (0 : Int64)]) := by
  have perm : [0, 4294967296].Perm [4294967296, (0 : Int64)] := .swap _ _ _
  refine ⟨perm, ?_⟩
  intro qsort stable right
  have consistent : Consistent compareLongInt [0, 4294967296] := by
    apply lowHalves_consistent
    simp only [List.forall_mem_cons, List.not_mem_nil, false_imp_iff, implies_true, and_true]
    decide
  have same := (compareDynamicLongListBy_eq stable (by simp) (by simp)).mp (right.mpr perm)
  have ties := (stable.eq_iff perm consistent).mp same 0 List.mem_cons_self
  revert ties
  decide

theorem toInt_low {a : Int64} (small : 0 ≤ a.toInt ∧ a.toInt < 2147483648) : a.toInt32.toInt = a.toInt := by
  rw [Int64.toInt_toInt32]
  apply Int.bmod_eq_of_le_mul_two <;> omega

theorem small_longs_compared {dynamicLongList1 dynamicLongList2 : DynamicLongListT}
    (nonempty1 : dynamicLongList1 ≠ []) (nonempty2 : dynamicLongList2 ≠ [])
    (small : ∀ a ∈ dynamicLongList1, 0 ≤ a.toInt ∧ a.toInt < 2147483648) {qsort : List Int64 → List Int64}
    (stable : StableSort compareLongInt qsort) :
    compareDynamicLongListBy qsort dynamicLongList1 dynamicLongList2 = true ↔
      dynamicLongList1.Perm dynamicLongList2 := by
  rw [compareDynamicLongListBy_eq stable nonempty1 nonempty2]
  constructor
  · exact stable.perm_of_eq
  · intro perm
    have consistent : Consistent compareLongInt dynamicLongList1 := by
      apply lowHalves_consistent
      intro a ha b hb
      have smallA := small a ha
      have smallB := small b hb
      rw [toInt_low smallA, toInt_low smallB]
      omega
    have single : ∀ a ∈ dynamicLongList1, ∀ part ⊆ dynamicLongList1,
        ties compareLongInt a part = part.filter (· = a) := by
      intro a ha part inside
      apply List.filter_congr
      intro b hb
      have same : b.toInt32 = a.toInt32 ↔ b = a := by
        rw [← Int32.toInt_inj, toInt_low (small a ha), toInt_low (small b (inside hb)), Int64.toInt_inj]
      exact decide_eq_decide.mpr (compareLongInt_eq_zero.trans same)
    apply (stable.eq_iff perm consistent).mpr
    intro a ha
    rw [single a ha _ (List.Subset.refl _), single a ha _ perm.symm.subset, List.filter_eq, List.filter_eq,
      perm.count_eq]

end Coreconf
