import Coreconf.Fuel
import Mathlib.Data.List.GetD
import Mathlib.Data.List.Nodup
import Mathlib.Data.List.Perm.Subperm
import Mathlib.Data.Nat.ModEq

set_option autoImplicit false

/- Open addressing on a ring of slots, each entry with the length of its probe: one where
it is at home, one more for each slot further on, and zero for a slot that is free. -/
namespace RobinHood

/-- From a slot to the next the probes get longer by one at most. -/
def Ordered (n : Nat) (dib : Nat → Nat) : Prop := ∀ i < n, dib ((i + 1) % n) ≤ dib i + 1

/-- An entry of the slot, whose home and probe length lead to it. -/
def Leads (n home dib i : Nat) : Prop := home + dib ≡ i + 1 [MOD n]

theorem exists_steps {n i j : Nat} (hi : i < n) (hj : j < n) : ∃ k < n, (i + k) % n = j := by
  by_cases le : i ≤ j
  · exact ⟨j - i, by omega, by rw [Nat.add_sub_cancel' le, Nat.mod_eq_of_lt hj]⟩
  · refine ⟨j + n - i, by omega, ?_⟩
    rw [show i + (j + n - i) = j + n by omega, Nat.add_mod_right, Nat.mod_eq_of_lt hj]

theorem succ_inj {n i j : Nat} (hi : i < n) (hj : j < n) (same : (i + 1) % n = (j + 1) % n) : i = j := by
  have cancelled : i ≡ j [MOD n] := Nat.ModEq.add_right_cancel' 1 same
  exact Nat.ModEq.eq_of_lt_of_lt cancelled hi hj

theorem succ_ne {n i : Nat} (large : 1 < n) (hi : i < n) : (i + 1) % n ≠ i := by
  intro same
  by_cases last : i + 1 = n
  · rw [last, Nat.mod_self] at same
    omega
  · rw [Nat.mod_eq_of_lt (by omega)] at same
    omega

/-- How many slots ahead a slot is. -/
def ahead (n g i : Nat) : Nat := (g + n - i) % n

theorem ahead_lt {n g : Nat} (hg : g < n) (i : Nat) : ahead n g i < n := Nat.mod_lt _ (Nat.zero_lt_of_lt hg)

theorem ahead_succ {n g i : Nat} (hg : g < n) (hi : i < n) (other : i ≠ g) :
    ahead n g ((i + 1) % n) < ahead n g i := by
  unfold ahead
  by_cases less : i < g
  · rw [Nat.mod_eq_of_lt (show i + 1 < n by omega), show g + n - i = g - i + n by omega,
      show g + n - (i + 1) = g - (i + 1) + n by omega, Nat.add_mod_right, Nat.add_mod_right,
      Nat.mod_eq_of_lt (by omega), Nat.mod_eq_of_lt (by omega)]
    omega
  · rw [Nat.mod_eq_of_lt (show g + n - i < n by omega)]
    by_cases last : i + 1 = n
    · rw [last, Nat.mod_self, Nat.sub_zero, Nat.add_mod_right, Nat.mod_eq_of_lt hg]
      omega
    · rw [Nat.mod_eq_of_lt (show i + 1 < n by omega), Nat.mod_eq_of_lt (show g + n - (i + 1) < n by omega)]
      omega

theorem Leads.next {n home dib i : Nat} (leads : Leads n home dib i) : Leads n home (dib + 1) ((i + 1) % n) := by
  have moved : home + dib + 1 ≡ i + 1 + 1 [MOD n] := Nat.ModEq.add_right 1 leads
  exact moved.trans ((Nat.mod_modEq _ _).symm.add_right 1)

theorem Leads.home (n home : Nat) : Leads n home 1 (home % n) := (Nat.mod_modEq _ _).symm.add_right 1

/-- One slot nearer to home. -/
theorem Leads.back {n home dib i : Nat} (leads : Leads n home (dib + 1) ((i + 1) % n)) : Leads n home dib i := by
  have whole : home + dib + 1 ≡ i + 1 + 1 [MOD n] := leads.trans ((Nat.mod_modEq _ _).add_right 1)
  exact Nat.ModEq.add_right_cancel' 1 whole

/-- The slot that a probe of this length has come to. -/
theorem Leads.slot {n home t i : Nat} (hi : i < n) (leads : Leads n home (t + 1) i) : (home + t) % n = i := by
  have cancelled : home + t ≡ i [MOD n] := Nat.ModEq.add_right_cancel' 1 leads
  rw [cancelled, Nat.mod_eq_of_lt hi]

namespace Ordered

variable {n : Nat} {dib : Nat → Nat}

/-- By induction on the number of slots passed. -/
theorem advance (ordered : Ordered n dib) (positive : 0 < n) (i k : Nat) :
    dib ((i + k) % n) ≤ dib (i % n) + k := by
  induction k with
  | zero => exact le_refl _
  | succ k ih =>
      have next := ordered ((i + k) % n) (Nat.mod_lt _ positive)
      rw [Nat.mod_add_mod] at next
      exact next.trans (by omega)

/-- A free slot bounds every probe, since the probes start anew behind it. -/
theorem lt_size (ordered : Ordered n dib) {g : Nat} (hg : g < n) (free : dib g = 0) {i : Nat} (hi : i < n) :
    dib i < n := by
  obtain ⟨k, less, reached⟩ := exists_steps hg hi
  have bound := ordered.advance (Nat.zero_lt_of_lt hg) g k
  rw [reached, Nat.mod_eq_of_lt hg, free] at bound
  omega

/-- The slots from an entry's home up to the entry have probes at least as long as a probe
that comes by there. -/
theorem passed (ordered : Ordered n dib) {home i t : Nat} (hi : i < n) (leads : Leads n home (dib i) i)
    (before : t < dib i) : t < dib ((home + t) % n) := by
  have positive : 0 < n := Nat.zero_lt_of_lt hi
  obtain ⟨k, split⟩ : ∃ k, dib i = t + k + 1 := ⟨dib i - t - 1, by omega⟩
  have reached : (home + t + k) % n = i := by
    rw [Nat.add_assoc]
    exact Leads.slot hi (split ▸ leads)
  have bound := ordered.advance positive (home + t) k
  rw [reached] at bound
  omega

/-- The slots that a probe has come by are occupied, so that there are as many. -/
theorem le_occupied (ordered : Ordered n dib) {g : Nat} (hg : g < n) (free : dib g = 0) {i : Nat} (hi : i < n) :
    dib i ≤ ((List.range n).filter fun j => dib j ≠ 0).length := by
  have small := ordered.lt_size hg free hi
  have leads : Leads n (i + 1 + (n - dib i)) (dib i) i := by
    rw [Leads, show i + 1 + (n - dib i) + dib i = i + 1 + n by omega]
    exact Nat.add_modEq_right
  have distinct : ((List.range (dib i)).map fun t => (i + 1 + (n - dib i) + t) % n).Nodup := by
    refine List.Nodup.map_on ?_ List.nodup_range
    intro s hs t ht same
    have cancelled : s ≡ t [MOD n] := Nat.ModEq.add_left_cancel' _ same
    exact Nat.ModEq.eq_of_lt_of_lt cancelled (by have := List.mem_range.mp hs; omega)
      (by have := List.mem_range.mp ht; omega)
  have inside : ((List.range (dib i)).map fun t => (i + 1 + (n - dib i) + t) % n) ⊆
      (List.range n).filter fun j => dib j ≠ 0 := by
    intro j member
    obtain ⟨t, ht, rfl⟩ := List.mem_map.mp member
    have occupied := ordered.passed hi leads (List.mem_range.mp ht)
    rw [List.mem_filter, List.mem_range, decide_eq_true_eq]
    exact ⟨Nat.mod_lt _ (Nat.zero_lt_of_lt hg), by omega⟩
  have le := (List.subperm_of_subset distinct inside).length_le
  rwa [List.length_map, List.length_range] at le

end Ordered

/- What a list of slots holds, whatever the order. -/
section Contents

variable {α β : Type}

theorem filterMap_cons_toList (f : α → Option β) (a : α) (l : List α) :
    (a :: l).filterMap f = (f a).toList ++ l.filterMap f := by
  rw [List.filterMap_cons]
  cases f a <;> rfl

/-- A write to a slot exchanges what the slot held for what it holds now. -/
theorem filterMap_set_perm (f : α → Option β) {l : List α} {i : Nat} (bound : i < l.length) (x d : α) :
    ((f (l.getD i d)).toList ++ (l.set i x).filterMap f).Perm ((f x).toList ++ l.filterMap f) := by
  induction l generalizing i with
  | nil => cases bound
  | cons a rest ih =>
      cases i with
      | zero =>
          rw [List.set_cons_zero, List.getD_cons_zero, filterMap_cons_toList, filterMap_cons_toList]
          exact List.perm_append_comm_assoc _ _ _
      | succ i =>
          rw [List.set_cons_succ, List.getD_cons_succ, filterMap_cons_toList, filterMap_cons_toList]
          refine (List.perm_append_comm_assoc _ _ _).trans ?_
          refine ((ih (Nat.lt_of_succ_lt_succ bound)).append_left _).trans ?_
          exact List.perm_append_comm_assoc _ _ _

theorem length_filter_range (p : α → Bool) (d : α) (l : List α) :
    ((List.range l.length).filter fun i => p (l.getD i d)).length = (l.filter p).length := by
  induction l with
  | nil => rfl
  | cons a rest ih =>
      rw [List.length_cons, List.range_succ_eq_map, List.filter_cons, List.filter_cons, List.filter_map,
        List.getD_cons_zero]
      have later : ((List.range rest.length).filter ((fun i => p ((a :: rest).getD i d)) ∘ Nat.succ)).length =
          (rest.filter p).length := ih
      split <;> simp only [List.length_cons, List.length_map, later]

theorem getD_set {l : List α} {i : Nat} (bound : i < l.length) (x d : α) (j : Nat) :
    (l.set i x).getD j d = if j = i then x else l.getD j d := by
  rw [List.getD_eq_getElem?_getD, List.getElem?_set, List.getD_eq_getElem?_getD]
  by_cases same : i = j
  · subst same
    simp [bound]
  · simp [same, Ne.symm same]

end Contents

end RobinHood
