import Coreconf.HashmapRuns

set_option autoImplicit false

/- How many buckets a map of hashmap.c has for its items, over whole runs: it grows before it
is too full, and shrinks before it is too empty. -/
namespace Coreconf.Hashmap

variable {T K : Type}

/-- The table is the smallest that is allowed, or not so empty that a delete would have halved
it. -/
structure Proportionate (map : Hashmap T) : Prop where
  used : map.nbuckets = map.cap ∨ map.shrinkat < map.count
  shrinkat : map.shrinkat = map.nbuckets * 10 / 100
  growat : map.nbuckets * 60 / 100 ≤ map.growat
  growpower : map.growpower ≤ 2

/-- A call that gets the memory it asks for, and lets the table grow at most fourfold. -/
def Call.gentle : Call T → Bool
  | set alloc _ => alloc
  | delete alloc _ => alloc
  | setGrowByPower power => decide (power ≤ 2)
  | _ => true

section Sizes

variable {map map' : Hashmap T}

/-- What is kept of a map by a change of its buckets and its count alone. -/
structure SameSizes (map map' : Hashmap T) : Prop where
  nbuckets : map'.nbuckets = map.nbuckets
  cap : map'.cap = map.cap
  shrinkat : map'.shrinkat = map.shrinkat
  growat : map'.growat = map.growat
  growpower : map'.growpower = map.growpower

theorem SameSizes.proportionate (same : SameSizes map map') (proportionate : Proportionate map)
    (count : map.count ≤ map'.count) : Proportionate map' := by
  obtain ⟨used, shrinkat, growat, growpower⟩ := proportionate
  refine ⟨?_, by rw [same.shrinkat, same.nbuckets, shrinkat], by rwa [same.nbuckets, same.growat],
    by rwa [same.growpower]⟩
  rw [same.nbuckets, same.cap, same.shrinkat]
  exact used.imp_right fun less => less.trans_le count

variable [Inhabited T]

theorem new_proportionate (calls : ItemCalls T) (cap : Capacity) : Proportionate (new calls cap) :=
  ⟨Or.inl rfl, rfl, le_refl _, Nat.le_succ 1⟩

theorem resize_sizes {k : Nat} (large : 16 ≤ 2 ^ k) {resized : Bool}
    (ran : resize true map (2 ^ k) = some (resized, map')) :
    resized = true ∧ map'.nbuckets = 2 ^ k ∧ map'.shrinkat = 2 ^ k * 10 / 100 ∧ map'.growat = 2 ^ k * 60 / 100 ∧
      map'.cap = map.cap ∧ map'.count = map.count ∧ map'.growpower = map.growpower := by
  have size := newWithAllocator_nbuckets map.toItemCalls large
  rw [resize, if_neg (by simp)] at ran
  obtain ⟨buckets, -, same⟩ := Option.map_eq_some_iff.mp ran
  cases same
  exact ⟨rfl, size, congrArg (· * 10 / 100) size, congrArg (· * 60 / 100) size, rfl, rfl, rfl⟩

theorem store_sizes {item : T} {hash : UInt64} {old : Option T} (ran : map.store item hash = some (old, map')) :
    SameSizes map map' ∧ map.count ≤ map'.count := by
  rw [store] at ran
  obtain ⟨exit, -, same⟩ := Option.map_eq_some_iff.mp ran
  cases exit <;> cases same
  · exact ⟨⟨rfl, rfl, rfl, rfl, rfl⟩, Nat.le_succ _⟩
  · exact ⟨⟨rfl, rfl, rfl, rfl, rfl⟩, le_refl _⟩

end Sizes

section Runs

variable [Inhabited T] {key : T → K} {map map' : Hashmap T}

/-- A map grows at 60 items in 100 buckets or more, so that fourfold it has more than ten in a
hundred. -/
theorem set_proportionate (wf : WellFormed key map) (proportionate : Proportionate map) {item : T}
    {old : Option T} (ran : map.set true item = some (old, map')) : Proportionate map' := by
  rw [set, setWithHash] at ran
  dsimp only at ran
  split at ran
  next full =>
    obtain ⟨⟨resized, larger⟩, grown, rest⟩ := Option.bind_eq_some_iff.mp ran
    obtain ⟨k, power⟩ := wf.power
    have sixteen := wf.cap.2
    rw [show map.nbuckets * 2 ^ map.growpower = 2 ^ (k + map.growpower) by rw [power, Nat.pow_add]] at grown
    have large : 16 ≤ 2 ^ (k + map.growpower) :=
      ((sixteen.1.trans sixteen.2).trans_eq power).trans (Nat.pow_le_pow_right Nat.two_pos (Nat.le_add_right _ _))
    obtain ⟨rfl, nbuckets, shrinkat, growat, cap, count, growpower⟩ := resize_sizes large grown
    obtain ⟨same, more⟩ := store_sizes rest
    have fourfold : 2 ^ (k + map.growpower) ≤ map.nbuckets * 4 := by
      rw [power, show 4 = 2 ^ 2 from rfl, ← Nat.pow_add]
      exact Nat.pow_le_pow_right Nat.two_pos (Nat.add_le_add_left proportionate.growpower k)
    have dense := proportionate.growat
    refine same.proportionate ⟨Or.inr ?_, by rw [shrinkat, nbuckets], by rw [growat, nbuckets],
      growpower.trans_le proportionate.growpower⟩ more
    dsimp only at count shrinkat ⊢
    omega
  next =>
    obtain ⟨same, more⟩ := store_sizes ran
    obtain ⟨used, shrinkat, growat, growpower⟩ := proportionate
    exact same.proportionate ⟨used, shrinkat, growat, growpower⟩ more

/-- A delete that leaves ten items in a hundred buckets or fewer halves them: they were more
than ten in a hundred before. -/
theorem delete_proportionate (wf : WellFormed key map) (proportionate : Proportionate map) {item : T}
    {old : Option T} (ran : map.delete true item = some (old, map')) : Proportionate map' := by
  obtain ⟨used, shrinkat, growat, growpower⟩ := proportionate
  rw [delete, deleteWithHash] at ran
  obtain ⟨found, -, rest⟩ := Option.bind_eq_some_iff.mp ran
  cases found with
  | none =>
      cases rest
      exact ⟨used, shrinkat, growat, growpower⟩
  | some i =>
      obtain ⟨buckets, -, rest⟩ := Option.bind_eq_some_iff.mp rest
      dsimp only at rest
      split at rest
      next shrinks =>
        obtain ⟨⟨resized, smaller⟩, halved, same⟩ := Option.map_eq_some_iff.mp rest
        cases same
        obtain ⟨k, power⟩ := wf.power
        obtain ⟨⟨c, cap⟩, sixteen, -⟩ := wf.cap
        have larger : c < k := by
          rw [cap, power] at shrinks
          exact (Nat.pow_lt_pow_iff_right Nat.one_lt_two).mp shrinks.1
        obtain ⟨j, rfl⟩ : ∃ j, k = j + 1 := ⟨k - 1, by omega⟩
        rw [Nat.pow_succ] at power
        have large : 16 ≤ 2 ^ j :=
          (sixteen.trans_eq cap).trans (Nat.pow_le_pow_right Nat.two_pos (by omega))
        rw [show map.nbuckets / 2 = 2 ^ j by omega] at halved
        obtain ⟨-, nbuckets, shrinkat', growat', cap', count, growpower'⟩ := resize_sizes large halved
        refine ⟨?_, by rw [shrinkat', nbuckets], by rw [growat', nbuckets], growpower'.trans_le growpower⟩
        dsimp only at shrinks count cap' shrinkat' ⊢
        omega
      next stays =>
        cases rest
        refine ⟨?_, shrinkat, growat, growpower⟩
        have capacity := wf.cap
        dsimp only at stays ⊢
        omega

theorem call_proportionate (wf : WellFormed key map) (proportionate : Proportionate map) {call : Call T}
    (gentle : call.gentle) {result : Result T} (ran : call.run map = some (result, map')) :
    Proportionate map' := by
  cases call with
  | set alloc item =>
      obtain rfl : alloc = true := gentle
      obtain ⟨⟨old, stored⟩, stores, same⟩ := Option.map_eq_some_iff.mp ran
      cases same
      exact set_proportionate wf proportionate stores
  | delete alloc item =>
      obtain rfl : alloc = true := gentle
      obtain ⟨⟨old, left⟩, deletes, same⟩ := Option.map_eq_some_iff.mp ran
      cases same
      exact delete_proportionate wf proportionate deletes
  | clear updateCap =>
      cases ran
      refine ⟨Or.inl ?_, ?_, ?_, ?_⟩
      · cases updateCap <;> rfl
      · cases updateCap <;> rfl
      · cases updateCap <;> exact Nat.div_le_div_right (Nat.mul_le_mul_left _ (by decide))
      · cases updateCap <;> exact proportionate.growpower
  | setGrowByPower power =>
      cases ran
      obtain ⟨used, shrinkat, growat, -⟩ := proportionate
      refine ⟨used, shrinkat, growat, ?_⟩
      have small : power ≤ 2 := of_decide_eq_true gentle
      rw [setGrowByPower]
      dsimp only
      split
      · decide
      · split <;> omega
  | get item =>
      obtain ⟨found, -, same⟩ := Option.map_eq_some_iff.mp ran
      cases same
      exact proportionate
  | count =>
      cases ran
      exact proportionate
  | iterate =>
      cases ran
      exact proportionate

variable [DecidableEq K] {f : K → Option T}

/-- By induction over the calls. -/
theorem runCalls_proportionate {run : List (Call T)} (wf : WellFormed key map) (keyed : KeyedBy map.toItemCalls key)
    (represents : Represents key map f) (proportionate : Proportionate map) (bounded : map.count ≤ 65535)
    (small : staysSmall map run) (gentle : ∀ call ∈ run, call.gentle) {results : List (Result T)}
    (ran : runCalls map run = some (results, map')) :
    WellFormed key map' ∧ Proportionate map' := by
  induction run generalizing map f results with
  | nil =>
      cases ran
      exact ⟨wf, proportionate⟩
  | cons call rest ih =>
      obtain ⟨first, others⟩ := List.forall_mem_cons.mp gentle
      rw [staysSmall, Bool.and_eq_true] at small
      obtain ⟨result, middle, f', called, meets, wf', same, represents'⟩ :=
        call_meets wf keyed represents bounded call small.1
      rw [called] at small
      have bounded' := meets.count_le wf represents wf' represents' bounded small.1
      obtain ⟨⟨_, _⟩, called', later⟩ := Option.bind_eq_some_iff.mp ran
      obtain ⟨rfl, rfl⟩ := Prod.mk.inj (Option.some.inj (called.symm.trans called'))
      obtain ⟨⟨_, _⟩, later, equal⟩ := Option.map_eq_some_iff.mp later
      cases equal
      exact ih wf' (same ▸ keyed) represents' (call_proportionate wf proportionate first called) bounded' small.2 others
        later

/-- Whatever is stored and deleted where memory is not short, the map has its capacity or
fewer than ten buckets for each item, and a quarter of them is free. -/
theorem table_proportionate {calls : ItemCalls T} (keyed : KeyedBy calls key) (cap : Capacity) {run : List (Call T)}
    (small : staysSmall (new calls cap) run) (gentle : ∀ call ∈ run, call.gentle) {results : List (Result T)}
    {map : Hashmap T} (ran : runCalls (new calls cap) run = some (results, map)) :
    (map.nbuckets = map.cap ∨ map.nbuckets < 10 * map.count) ∧ 4 * map.count ≤ 3 * map.nbuckets := by
  obtain ⟨wf, proportionate⟩ := runCalls_proportionate (new_wellFormed calls cap) keyed (new_represents calls cap)
    (new_proportionate calls cap) (Nat.zero_le _) small gentle ran
  have used := proportionate.used
  have shrinkat := proportionate.shrinkat
  have load := wf.load
  have growat := wf.growat
  omega

end Runs

/-- Ten items, for which the table doubles, and then none. -/
def growingRun : List (Call (Nat × Nat)) :=
  (List.range 10).map (fun i => .set true (i, i)) ++ (List.range 10).map fun i => .delete true (i, 0)

theorem growingRun_proportionate :
    ∃ results map, runCalls (new parityCalls 0) growingRun = some (results, map) ∧
      (map.nbuckets = map.cap ∨ map.nbuckets < 10 * map.count) ∧ 4 * map.count ≤ 3 * map.nbuckets :=
  ⟨_, _, rfl, table_proportionate parityCalls_keyed 0
    (show staysSmall (new parityCalls 0) growingRun by decide) (by decide) rfl⟩

end Coreconf.Hashmap
