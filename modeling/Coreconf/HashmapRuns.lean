import Coreconf.HashmapCalls

set_option autoImplicit false

/- hashmap.c over whole runs: whatever is stored, deleted, cleared and looked up in turn,
and whichever resize gets no memory, the calls answer as a finite map does. -/
namespace Coreconf.Hashmap

open Function (update)

variable {T K : Type}

inductive Call (T : Type) where
  | set (alloc : Bool) (item : T)
  | get (key : T)
  | delete (alloc : Bool) (key : T)
  | clear (updateCap : Bool)
  | setGrowByPower (power : Nat)
  | count
  | iterate

/-- `stored` has what `hashmap_oom` tells behind the set. -/
inductive Result (T : Type) where
  | stored (old : Option T) (oom : Bool)
  | item (found : Option T)
  | number (n : Nat)
  | items (visited : List T)
  | done
deriving DecidableEq

/-- What a call may answer on a finite map, and the map after it. -/
inductive Meets [DecidableEq K] (key : T → K) : (K → Option T) → Call T → Result T → (K → Option T) → Prop
  | stored {f alloc item} :
      Meets key f (.set alloc item) (.stored (f (key item)) false) (update f (key item) (some item))
  | refused {f item} : Meets key f (.set false item) (.stored none true) f
  | found {f item} : Meets key f (.get item) (.item (f (key item))) f
  | deleted {f alloc item} : Meets key f (.delete alloc item) (.item (f (key item))) (update f (key item) none)
  | cleared {f updateCap} : Meets key f (.clear updateCap) .done fun _ => none
  | set {f power} : Meets key f (.setGrowByPower power) .done f
  | counted {f} : Meets key f .count (.number {k | f k ≠ none}.ncard) f
  | visited {f visited} (once : (visited.map key).Nodup) (all : ∀ k a, f k = some a ↔ a ∈ visited ∧ key a = k) :
      Meets key f .iterate (.items visited) f

inductive MeetsAll [DecidableEq K] (key : T → K) :
    (K → Option T) → List (Call T) → List (Result T) → (K → Option T) → Prop
  | nil (f) : MeetsAll key f [] [] f
  | cons {f f' f'' call result calls results} (first : Meets key f call result f')
      (rest : MeetsAll key f' calls results f'') : MeetsAll key f (call :: calls) (result :: results) f''

section Visits

theorem iter_go_none {buckets : List (Bucket T)} {i : Nat} (ended : iter.go buckets i = none) :
    contents buckets = [] := by
  induction buckets generalizing i with
  | nil => rfl
  | cons bucket rest ih =>
      rw [iter.go] at ended
      split at ended
      next free => exact (List.filterMap_cons_none (held_free free)).trans (ih ended)
      next => cases ended

theorem iter_go_some {buckets : List (Bucket T)} {i j : Nat} {item : T}
    (found : iter.go buckets i = some (item, j)) :
    ∃ passed hash, j = i + passed + 1 ∧ passed < buckets.length ∧
      contents buckets = (hash, item) :: contents (buckets.drop (passed + 1)) := by
  induction buckets generalizing i with
  | nil => cases found
  | cons bucket rest ih =>
      rw [iter.go] at found
      split at found
      next free =>
        obtain ⟨passed, hash, same, within, split⟩ := ih found
        refine ⟨passed + 1, hash, by omega, Nat.succ_lt_succ within, ?_⟩
        exact (List.filterMap_cons_none (held_free free)).trans split
      next taken =>
        cases found
        exact ⟨0, bucket.hash, rfl, Nat.zero_lt_succ _, List.filterMap_cons_some (held_taken taken)⟩

/-- The loop visits what the buckets hold, in their order. -/
theorem iterate_eq (map : Hashmap T) (n i : Nat) (enough : map.buckets.length < n + i) :
    map.iterate n i = (contents (map.buckets.drop i)).map Prod.snd := by
  induction n generalizing i with
  | zero => rw [List.drop_eq_nil_of_le (by omega)]; rfl
  | succ n ih =>
      rw [iterate]
      cases next : map.iter i with
      | none => rw [iter_go_none next]; rfl
      | some found =>
          obtain ⟨item, j⟩ := found
          obtain ⟨passed, hash, same, within, split⟩ := iter_go_some next
          rw [split, List.map_cons, List.drop_drop]
          dsimp only
          rw [ih j (by omega), same, Nat.add_assoc]

/-- What a scan does at an item, unless one before was refused. -/
def scanItem {σ : Type} (iter : σ → T → Bool × σ) (seen : Bool × σ) (item : T) : Bool × σ :=
  if seen.1 then iter seen.2 item else seen

theorem scanItem_refused {σ : Type} (iter : σ → T → Bool × σ) (udata : σ) (l : List T) :
    l.foldl (scanItem iter) (false, udata) = (false, udata) := by
  induction l with
  | nil => rfl
  | cons a rest ih => exact ih

/-- hashmap_scan is the same visit, up to the first item that is refused. -/
theorem scan_eq {σ : Type} (map : Hashmap T) (iter : σ → T → Bool × σ) (udata : σ) :
    map.scan iter udata = map.items.foldl (scanItem iter) (true, udata) := by
  rw [scan, items]
  induction map.buckets generalizing udata with
  | nil => rfl
  | cons bucket rest ih =>
      rw [scan.go]
      by_cases free : bucket.dib = 0
      · rw [if_pos free, ih, contents, contents, List.filterMap_cons_none (held_free free)]
      · rw [if_neg free, contents, List.filterMap_cons_some (held_taken free), List.map_cons, List.foldl_cons]
        change _ = (rest.filterMap held |>.map Prod.snd).foldl (scanItem iter) (iter udata bucket.item)
        rcases iter udata bucket.item with ⟨_ | _, left⟩
        · exact (scanItem_refused iter left _).symm
        · exact ih left

end Visits

variable [Inhabited T]

def Call.run (map : Hashmap T) : Call T → Option (Result T × Hashmap T)
  | set alloc item => (map.set alloc item).map fun (old, map) => (.stored old map.oom, map)
  | get key => (map.get key).map fun found => (.item found, map)
  | delete alloc key => (map.delete alloc key).map fun (old, map) => (.item old, map)
  | clear updateCap => some (.done, map.clear updateCap)
  | setGrowByPower power => some (.done, map.setGrowByPower power)
  | count => some (.number map.count, map)
  | iterate => some (.items (map.iterate (map.nbuckets + 1) 0), map)

def runCalls (map : Hashmap T) : List (Call T) → Option (List (Result T) × Hashmap T)
  | [] => some ([], map)
  | call :: rest =>
      (call.run map).bind fun (result, map) =>
        (runCalls map rest).map fun (results, map) => (result :: results, map)

/-- A set finds less than 65535 items: the 16 bits of a probe length are enough then. -/
def Call.small (map : Hashmap T) : Call T → Bool
  | set _ _ => decide (map.count < 65535)
  | _ => true

/-- No item is stored in a map of 65535. -/
def staysSmall (map : Hashmap T) : List (Call T) → Bool
  | [] => true
  | call :: rest =>
      call.small map &&
        match call.run map with
        | none => true
        | some (_, map) => staysSmall map rest

section Runs

variable {key : T → K} {map : Hashmap T} {f : K → Option T}

theorem clear_wellFormed (wf : WellFormed key map) (updateCap : Bool) :
    WellFormed key (map.clear updateCap) ∧ Represents key (map.clear updateCap) fun _ => none := by
  have none : (map.clear updateCap).items = [] := by
    rw [items, clear, contents_empty, List.map_nil]
  have size : (∃ k, (map.clear updateCap).nbuckets = 2 ^ k) ∧ (∃ k, (map.clear updateCap).cap = 2 ^ k) ∧
      16 ≤ (map.clear updateCap).cap ∧ (map.clear updateCap).cap ≤ (map.clear updateCap).nbuckets := by
    obtain ⟨power, sixteen, le⟩ := wf.cap
    cases updateCap with
    | false => exact ⟨power, power, sixteen, le_refl _⟩
    | true => exact ⟨wf.power, wf.power, sixteen.trans le, le_refl _⟩
  constructor
  · refine ⟨?_, size.1, size.2, rfl, fun x member => ?_, ?_, ?_, ?_, ?_, ?_, ?_⟩
    · cases updateCap <;> exact placed_empty _
    · rw [clear, contents_empty] at member
      cases member
    · rw [none]
      exact List.nodup_nil
    · rw [none]
      cases updateCap <;> rfl
    · cases updateCap <;> exact Nat.zero_le _
    · change (map.clear updateCap).nbuckets * 75 / 100 * 4 ≤ (map.clear updateCap).nbuckets * 3
      omega
    · change (map.clear updateCap).nbuckets * 10 / 100 * 10 ≤ (map.clear updateCap).nbuckets
      omega
    · cases updateCap <;> exact wf.growpower
  · intro k a
    rw [none]
    simp

theorem items_once (wf : WellFormed key map) : map.iterate (map.nbuckets + 1) 0 = map.items := by
  rw [iterate_eq map _ 0 (by rw [wf.placed.length]; omega), List.drop_zero, items]

theorem bound_eq [DecidableEq K] (represents : Represents key map f) :
    {k | f k ≠ none} = ((map.items.map key).toFinset : Set K) := by
  ext k
  rw [Set.mem_ofPred_eq, List.coe_toFinset, Set.mem_ofPred_eq, List.mem_map, ne_eq, represents.eq_none]
  push Not
  exact Iff.rfl

theorem count_eq (wf : WellFormed key map) (represents : Represents key map f) :
    map.count = {k | f k ≠ none}.ncard := by
  classical
  rw [bound_eq represents, Set.ncard_coe_finset, List.toFinset_card_of_nodup wf.distinct, List.length_map, wf.count]

variable [DecidableEq K]

/-- One call: it ends, the answer is one of the finite map, and the tables go on together. -/
theorem call_meets (wf : WellFormed key map) (keyed : KeyedBy map.toItemCalls key) (represents : Represents key map f)
    (bounded : map.count ≤ 65535) (call : Call T) (small : call.small map) :
    ∃ result map' f', call.run map = some (result, map') ∧ Meets key f call result f' ∧ WellFormed key map' ∧
      map'.toItemCalls = map.toItemCalls ∧ Represents key map' f' := by
  cases call with
  | set alloc item =>
      obtain ⟨old, map', ran, wf', calls, outcome⟩ := set_spec wf keyed represents (of_decide_eq_true small) alloc item
      rcases outcome with ⟨rfl, oom, rfl, represents'⟩ | ⟨oom, rfl, represents'⟩
      · exact ⟨.stored none true, map', f, by rw [Call.run, ran, ← oom]; rfl, .refused, wf', calls, represents'⟩
      · exact ⟨.stored (f (key item)) false, map', _, by rw [Call.run, ran, ← oom]; rfl, .stored, wf', calls,
          represents'⟩
  | get item =>
      exact ⟨_, map, f, by rw [Call.run, get_spec wf keyed represents item]; rfl, .found, wf, rfl, represents⟩
  | delete alloc item =>
      obtain ⟨map', ran, wf', calls, represents'⟩ := delete_spec wf keyed represents bounded alloc item
      exact ⟨_, map', _, by rw [Call.run, ran]; rfl, .deleted, wf', calls, represents'⟩
  | clear updateCap =>
      obtain ⟨wf', represents'⟩ := clear_wellFormed wf updateCap
      exact ⟨_, _, _, rfl, .cleared, wf', by cases updateCap <;> rfl, represents'⟩
  | setGrowByPower power =>
      refine ⟨_, _, f, rfl, .set, { wf with growpower := ?_ }, rfl, represents⟩
      rw [setGrowByPower]
      dsimp only
      split
      · exact le_refl 1
      · split <;> omega
  | count => exact ⟨_, map, f, by rw [Call.run, count_eq wf represents], .counted, wf, rfl, represents⟩
  | iterate =>
      refine ⟨_, map, f, by rw [Call.run, items_once wf], .visited wf.distinct represents, wf, rfl, represents⟩

/-- Only a set makes the map larger, by one item. -/
theorem Meets.count_le {call : Call T} {result : Result T} {map' : Hashmap T} {f' : K → Option T}
    (meets : Meets key f call result f') (wf : WellFormed key map) (represents : Represents key map f)
    (wf' : WellFormed key map') (represents' : Represents key map' f') (bounded : map.count ≤ 65535)
    (small : call.small map) : map'.count ≤ 65535 := by
  have before := count_eq wf represents
  rw [count_eq wf' represents']
  cases meets with
  | stored =>
      rename_i alloc item
      have room : map.count < 65535 := of_decide_eq_true small
      have inserted : {k | update f (key item) (some item) k ≠ none} = insert (key item) {k | f k ≠ none} := by
        ext k
        by_cases same : k = key item <;> simp [same]
      rw [inserted]
      exact (Set.ncard_insert_le _ _).trans (by omega)
  | deleted =>
      rename_i alloc item
      refine le_trans (Set.ncard_le_ncard (fun k kept => ?_) ?_) (before ▸ bounded)
      · by_cases same : k = key item
        · simp [same] at kept
        · simpa [same] using kept
      · rw [bound_eq represents]
        exact Finset.finite_toSet _
  | cleared => simp
  | refused => exact before ▸ bounded
  | found => exact before ▸ bounded
  | set => exact before ▸ bounded
  | counted => exact before ▸ bounded
  | visited => exact before ▸ bounded

/-- By induction over the calls. -/
theorem runCalls_meets (calls : List (Call T)) (wf : WellFormed key map) (keyed : KeyedBy map.toItemCalls key)
    (represents : Represents key map f) (bounded : map.count ≤ 65535) (small : staysSmall map calls) :
    ∃ results map' f', runCalls map calls = some (results, map') ∧ MeetsAll key f calls results f' ∧
      WellFormed key map' ∧ map'.toItemCalls = map.toItemCalls ∧ Represents key map' f' := by
  induction calls generalizing map f with
  | nil => exact ⟨[], map, f, rfl, .nil f, wf, rfl, represents⟩
  | cons call rest ih =>
      rw [staysSmall, Bool.and_eq_true] at small
      obtain ⟨result, map', f', ran, meets, wf', same, represents'⟩ :=
        call_meets wf keyed represents bounded call small.1
      rw [ran] at small
      have bounded' := meets.count_le wf represents wf' represents' bounded small.1
      obtain ⟨results, map'', f'', rest_ran, all, wf'', same', represents''⟩ :=
        ih wf' (same ▸ keyed) represents' bounded' small.2
      refine ⟨result :: results, map'', f'', ?_, .cons meets all, wf'', same'.trans same, represents''⟩
      rw [runCalls, ran]
      simp only [Option.bind_some, rest_ran, Option.map_some]

/-- Whatever is asked of a new map, every call ends and answers as the finite map of the items
by their keys does, or a set has had no memory and changed nothing. -/
theorem hashmap_calls_refine {calls : ItemCalls T} (keyed : KeyedBy calls key) (cap : Capacity) (run : List (Call T))
    (small : staysSmall (new calls cap) run) :
    ∃ results map f, runCalls (new calls cap) run = some (results, map) ∧
      MeetsAll key (fun _ => none) run results f ∧ Represents key map f := by
  obtain ⟨results, map, f, ran, all, -, -, represents⟩ :=
    runCalls_meets run (new_wellFormed calls cap) keyed (new_represents calls cap) (Nat.zero_le _) small
  exact ⟨results, map, f, ran, all, represents⟩

end Runs

/-- Items of a number by their last bit, so that most of them collide. -/
def parityCalls : ItemCalls (Nat × Nat) where
  seed0 := 0
  seed1 := 0
  hash item _ _ := UInt64.ofNat (item.1 % 2)
  compare := some fun a b => if a.1 = b.1 then 0 else 1

theorem parityCalls_keyed : KeyedBy parityCalls Prod.fst :=
  keyedBy_of_compare (fun a b => if a.1 = b.1 then 0 else 1) rfl (fun a b same => by simp only [parityCalls, same])
    fun a b => by by_cases same : a.1 = b.1 <;> simp [same]

/-- Three items of one bucket, of which the first is deleted and the second set again. -/
def parityRun : List (Call (Nat × Nat)) :=
  [.set true (1, 10), .set true (3, 30), .set true (5, 50), .set true (4, 40), .delete true (1, 0),
    .set true (3, 33), .get (5, 0), .iterate]

theorem parityRun_refines :
    ∃ results map f, runCalls (new parityCalls 0) parityRun = some (results, map) ∧
      MeetsAll Prod.fst (fun _ => none) parityRun results f ∧ Represents Prod.fst map f :=
  hashmap_calls_refine parityCalls_keyed 0 parityRun (by decide)

example : (runCalls (new parityCalls 0) parityRun).map Prod.fst =
    some [.stored none false, .stored none false, .stored none false, .stored none false, .item (some (1, 10)),
      .stored (some (3, 30)) false, .item (some (5, 50)), .items [(4, 40), (3, 33), (5, 50)]] := by decide

end Coreconf.Hashmap
