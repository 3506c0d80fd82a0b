import Coreconf.HashmapProbes

set_option autoImplicit false

/- What holds of a map of hashmap.c between two calls, and each of its calls on the items
that the map holds. -/
namespace Coreconf.Hashmap

variable {T K : Type}

/-- The items that are taken for each other are those of one key. -/
def KeyedBy (calls : ItemCalls T) (key : T → K) : Prop :=
  ∀ a b, calls.getHash a = calls.getHash b ∧ calls.equal a b ↔ key a = key b

theorem keyedBy_of_compare {calls : ItemCalls T} {key : T → K} (compare : T → T → Int)
    (compares : calls.compare = some compare)
    (hashes : ∀ a b, key a = key b → calls.hash a calls.seed0 calls.seed1 = calls.hash b calls.seed0 calls.seed1)
    (same : ∀ a b, compare a b = 0 ↔ key a = key b) : KeyedBy calls key := by
  intro a b
  rw [ItemCalls.equal, compares, ← same, beq_iff_eq, and_iff_right_iff_imp]
  intro equal
  rw [ItemCalls.getHash, ItemCalls.getHash, hashes a b ((same a b).mp equal)]

def items (map : Hashmap T) : List T := (contents map.buckets).map Prod.snd

/-- The map binds each key to its item. -/
def Represents (key : T → K) (map : Hashmap T) (f : K → Option T) : Prop :=
  ∀ k a, f k = some a ↔ a ∈ map.items ∧ key a = k

section Represents

variable {key : T → K} {map : Hashmap T} {f : K → Option T}

theorem Represents.of_perm (represents : Represents key map f) {map' : Hashmap T} (perm : map'.items.Perm map.items) :
    Represents key map' f := by
  intro k a
  rw [represents, perm.mem_iff]

theorem Represents.eq_some (represents : Represents key map f) {k : K} {a : T} (member : a ∈ map.items)
    (same : key a = k) : f k = some a := (represents k a).mpr ⟨member, same⟩

theorem Represents.eq_none (represents : Represents key map f) {k : K} :
    f k = none ↔ ∀ a ∈ map.items, key a ≠ k := by
  constructor
  · intro none a member same
    have found := (represents k a).mpr ⟨member, same⟩
    rw [none] at found
    cases found
  · intro absent
    cases found : f k with
    | none => rfl
    | some a =>
        have := (represents k a).mp found
        exact absurd this.2 (absent a this.1)

end Represents

variable [Inhabited T]

structure WellFormed (key : T → K) (map : Hashmap T) : Prop where
  placed : Placed map.nbuckets map.buckets
  power : ∃ k, map.nbuckets = 2 ^ k
  cap : (∃ k, map.cap = 2 ^ k) ∧ 16 ≤ map.cap ∧ map.cap ≤ map.nbuckets
  mask : map.mask = map.nbuckets - 1
  hashes : ∀ x ∈ contents map.buckets, x.1 = map.getHash x.2
  distinct : (map.items.map key).Nodup
  count : map.count = map.items.length
  load : map.count ≤ map.growat
  growat : map.growat * 4 ≤ map.nbuckets * 3
  shrinkat : map.shrinkat * 10 ≤ map.nbuckets
  growpower : 1 ≤ map.growpower

section Capacities

theorem roundCap_pow (n j cap : Nat) : ∃ k, roundCap n (2 ^ j) cap = 2 ^ k ∧ j ≤ k := by
  induction n generalizing j with
  | zero => exact ⟨j, rfl, le_refl j⟩
  | succ n ih =>
      rw [roundCap]
      split
      · obtain ⟨k, rounded, le⟩ := ih (j + 1)
        exact ⟨k, rounded, by omega⟩
      · exact ⟨j, rfl, le_refl j⟩

/-- A power of two is not rounded. -/
theorem roundCap_eq {n j k : Nat} (le : j ≤ k) (enough : 2 ^ k ≤ n + 2 ^ j) : roundCap n (2 ^ j) (2 ^ k) = 2 ^ k := by
  induction n generalizing j with
  | zero =>
      have bound : k ≤ j := (Nat.pow_le_pow_iff_right Nat.one_lt_two).mp (by omega)
      rw [roundCap, Nat.le_antisymm le bound]
  | succ n ih =>
      rw [roundCap]
      split
      next less =>
          have further : j < k := (Nat.pow_lt_pow_iff_right Nat.one_lt_two).mp less
          have positive : 0 < 2 ^ j := Nat.two_pow_pos j
          rw [← Nat.pow_succ]
          exact ih further (by rw [Nat.pow_succ]; omega)
      next notLess =>
          have bound : k ≤ j := (Nat.pow_le_pow_iff_right Nat.one_lt_two).mp (by omega)
          rw [Nat.le_antisymm le bound]

theorem new_nbuckets (calls : ItemCalls T) (cap : Capacity) :
    ∃ k, (new calls cap).nbuckets = 2 ^ k ∧ 16 ≤ (new calls cap).nbuckets := by
  obtain ⟨k, rounded, le⟩ := roundCap_pow cap 4 cap
  have large : 2 ^ 4 ≤ 2 ^ k := Nat.pow_le_pow_right Nat.two_pos le
  exact ⟨k, rounded, large.trans_eq rounded.symm⟩

theorem newWithAllocator_nbuckets (calls : ItemCalls T) {k : Nat} (large : 16 ≤ 2 ^ k) :
    (newWithAllocator calls (2 ^ k)).nbuckets = 2 ^ k :=
  roundCap_eq (j := 4) ((Nat.pow_le_pow_iff_right Nat.one_lt_two).mp large) (by omega)

end Capacities

theorem contents_empty (n : Nat) : contents (List.replicate n (emptyBucket : Bucket T)) = [] := by
  rw [contents, List.filterMap_eq_nil_iff]
  intro bucket member
  rw [List.eq_of_mem_replicate member]
  rfl

theorem bucketAt_replicate (n i : Nat) : bucketAt (List.replicate n (emptyBucket : Bucket T)) i = emptyBucket := by
  rw [bucketAt, List.getD_eq_getElem?_getD, List.getElem?_replicate]
  split <;> rfl

theorem placed_empty (n : Nat) : Placed n (List.replicate n (emptyBucket : Bucket T)) := by
  have free : ∀ i, dibs (List.replicate n (emptyBucket : Bucket T)) i = 0 := fun i => by
    rw [dibs, bucketAt_replicate]
    rfl
  exact ⟨List.length_replicate, fun i _ taken => absurd (free i) taken, fun i _ => by rw [free]; exact Nat.zero_le _⟩

section Invariant

variable {key : T → K} {map : Hashmap T} {f : K → Option T}

theorem new_wellFormed (calls : ItemCalls T) (cap : Capacity) : WellFormed key (new calls cap) := by
  obtain ⟨k, power, large⟩ := new_nbuckets calls cap
  have none : (new calls cap).items = [] := by rw [items, new, newWithAllocator, contents_empty, List.map_nil]
  refine ⟨placed_empty _, ⟨k, power⟩, ⟨⟨k, power⟩, large, le_refl _⟩, rfl, fun x member => ?_, ?_, ?_, Nat.zero_le _,
    ?_, ?_, le_refl 1⟩
  · rw [new, newWithAllocator, contents_empty] at member
    cases member
  · rw [none]
    exact List.nodup_nil
  · rw [none]
    rfl
  · change (new calls cap).nbuckets * 60 / 100 * 4 ≤ (new calls cap).nbuckets * 3
    omega
  · change (new calls cap).nbuckets * 10 / 100 * 10 ≤ (new calls cap).nbuckets
    omega

theorem new_represents (calls : ItemCalls T) (cap : Capacity) : Represents key (new calls cap) fun _ => none := by
  intro k a
  rw [items, new, newWithAllocator, contents_empty]
  simp

namespace WellFormed

theorem wraps (wf : WellFormed key map) (i : Nat) : i &&& map.mask = i % map.nbuckets := by
  obtain ⟨k, power⟩ := wf.power
  rw [wf.mask, power, Nat.and_two_pow_sub_one_eq_mod]

theorem length_contents (wf : WellFormed key map) : (contents map.buckets).length = map.count := by
  rw [wf.count, items, List.length_map]

theorem room (wf : WellFormed key map) : (contents map.buckets).length < map.nbuckets := by
  rw [wf.length_contents]
  have := wf.load
  have := wf.growat
  have := wf.cap
  omega

theorem large (wf : WellFormed key map) : 1 < map.nbuckets := by
  have := wf.cap
  omega

/-- Whether the map reports that it had no memory is no part of what it holds. -/
theorem withOom (wf : WellFormed key map) (oom : Bool) : WellFormed key { map with oom := oom } := { wf with }

/-- The entries of the buckets, given the same entries in any order. -/
theorem of_contents (wf : WellFormed key map) {m : Hashmap T}
    (perm : (contents m.buckets).Perm (contents map.buckets)) (calls : m.toItemCalls = map.toItemCalls) :
    (∀ x ∈ contents m.buckets, x.1 = m.getHash x.2) ∧ (m.items.map key).Nodup ∧
      m.items.Perm map.items := by
  have same : m.items.Perm map.items := perm.map _
  refine ⟨fun x member => ?_, (same.map key).nodup_iff.mpr wf.distinct, same⟩
  rw [calls]
  exact wf.hashes x (perm.subset member)

end WellFormed

end Invariant

end Coreconf.Hashmap
