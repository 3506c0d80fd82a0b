import Coreconf.HashmapInvariant
import Mathlib.Data.Set.Card
import Mathlib.Logic.Function.Basic

set_option autoImplicit false

/- Each call of hashmap.c on a well-formed map ends, keeps the map well-formed and does to
the bindings what the call does to a finite map. -/
namespace Coreconf.Hashmap

open Function (update)

variable {T K : Type}

/-- The elements with the one of a key, `old`, taken out. -/
theorem exists_rest {α : Type} {key : α → K} {l : List α} (distinct : (l.map key).Nodup) {old : α} (member : old ∈ l) :
    ∃ rest, l.Perm (old :: rest) ∧ (rest.map key).Nodup ∧ ∀ a, a ∈ rest ↔ a ∈ l ∧ key a ≠ key old := by
  obtain ⟨before, after, rfl⟩ := List.append_of_mem member
  have perm : (before ++ old :: after).Perm (old :: (before ++ after)) := List.perm_middle
  obtain ⟨own, keys⟩ := List.nodup_cons.mp ((perm.map key).nodup_iff.mp distinct)
  refine ⟨before ++ after, perm, keys, fun a => ⟨fun inside => ⟨perm.mem_iff.mpr (List.mem_cons_of_mem _ inside), ?_⟩,
    fun ⟨inside, other⟩ => ?_⟩⟩
  · exact fun same => own (same ▸ List.mem_map_of_mem inside)
  · rcases List.mem_cons.mp (perm.mem_iff.mp inside) with rfl | inside
    · exact absurd rfl other
    · exact inside

section Bindings

variable [DecidableEq K] {key : T → K} {map map' : Hashmap T} {f : K → Option T}

theorem Represents.bind (represents : Represents key map f) {item : T}
    (stored : ∀ a, a ∈ map'.items ↔ a = item ∨ a ∈ map.items ∧ key a ≠ key item) :
    Represents key map' (update f (key item) (some item)) := by
  intro k a
  rw [stored, Function.update_apply]
  by_cases own : k = key item
  · subst own
    rw [if_pos rfl, Option.some.injEq]
    constructor
    · rintro rfl
      exact ⟨Or.inl rfl, rfl⟩
    · rintro ⟨rfl | ⟨-, other⟩, same⟩
      · rfl
      · exact absurd same other
  · rw [if_neg own, represents]
    constructor
    · rintro ⟨member, rfl⟩
      exact ⟨Or.inr ⟨member, own⟩, rfl⟩
    · rintro ⟨rfl | ⟨member, -⟩, rfl⟩
      · exact absurd rfl own
      · exact ⟨member, rfl⟩

theorem Represents.unbind (represents : Represents key map f) {k : K}
    (left : ∀ a, a ∈ map'.items ↔ a ∈ map.items ∧ key a ≠ k) : Represents key map' (update f k none) := by
  intro k' a
  rw [left, Function.update_apply]
  by_cases own : k' = k
  · subst own
    rw [if_pos rfl]
    constructor
    · rintro ⟨⟩
    · rintro ⟨⟨-, other⟩, same⟩
      exact absurd same other
  · rw [if_neg own, represents]
    constructor
    · rintro ⟨member, rfl⟩
      exact ⟨⟨member, own⟩, rfl⟩
    · rintro ⟨⟨member, -⟩, rfl⟩
      exact ⟨member, rfl⟩

/-- A map with the buckets that storing an item leaves, beside the entries of other keys. -/
theorem Represents.stored (represents : Represents key map f) {m : Hashmap T} {item : T}
    {rest : List (UInt64 × T)} (calls : m.toItemCalls = map.toItemCalls)
    (perm : (contents m.buckets).Perm ((map.getHash item, item) :: rest))
    (others : ∀ a, a ∈ rest.map Prod.snd ↔ a ∈ map.items ∧ key a ≠ key item)
    (hashes : ∀ x ∈ rest, x.1 = map.getHash x.2) (distinct : ((rest.map Prod.snd).map key).Nodup) :
    (∀ x ∈ contents m.buckets, x.1 = m.getHash x.2) ∧ (m.items.map key).Nodup ∧
      Represents key m (update f (key item) (some item)) := by
  have items : m.items.Perm (item :: rest.map Prod.snd) := perm.map Prod.snd
  refine ⟨fun x member => ?_, ?_, represents.bind fun a => ?_⟩
  · rw [calls]
    rcases List.mem_cons.mp (perm.subset member) with rfl | inside
    · rfl
    · exact hashes x inside
  · rw [(items.map key).nodup_iff, List.map_cons, List.nodup_cons]
    refine ⟨fun same => ?_, distinct⟩
    obtain ⟨a, inside, same⟩ := List.mem_map.mp same
    exact ((others a).mp inside).2 same
  · rw [items.mem_iff, List.mem_cons, others]

end Bindings

theorem clipHash_getHash (calls : ItemCalls T) (item : T) : clipHash (calls.getHash item) = calls.getHash item := by
  rw [ItemCalls.getHash, clipHash, clipHash, UInt64.and_assoc, UInt64.and_self]

variable [Inhabited T]

/-- Every entry of the old buckets gets a new one. -/
theorem rehash {n mask : Nat} (wraps : ∀ i, i &&& mask = i % n) (olds : List (Bucket T)) {buckets : List (Bucket T)}
    (placed : Placed n buckets) (room : (contents olds).length + (contents buckets).length ≤ n)
    (small : (contents olds).length + (contents buckets).length ≤ 65535) :
    ∃ buckets', olds.foldlM (place mask n) buckets = some buckets' ∧ Placed n buckets' ∧
      (contents buckets').Perm (contents olds ++ contents buckets) := by
  induction olds generalizing buckets with
  | nil => exact ⟨buckets, rfl, placed, List.Perm.refl _⟩
  | cons entry rest ih =>
      rw [List.foldlM_cons]
      by_cases free : entry.dib = 0
      · have skipped : contents (entry :: rest) = contents rest := List.filterMap_cons_none (held_free free)
        rw [skipped] at room small
        rw [place, if_pos free, skipped]
        exact ih placed room small
      · have first : contents (entry :: rest) = (entry.hash, entry.item) :: contents rest :=
          List.filterMap_cons_some (held_taken free)
        rw [first, List.length_cons] at room small
        obtain ⟨next, ran, stands, perm⟩ := place_spec placed (by omega) (by omega) wraps free
        have count := perm.length_eq
        rw [List.length_cons] at count
        obtain ⟨buckets', rest_ran, stands', perm'⟩ := ih stands (by omega) (by omega)
        refine ⟨buckets', by rw [ran]; exact rest_ran, stands', perm'.trans ?_⟩
        rw [first]
        exact (perm.append_left _).trans List.perm_middle

section Calls

variable {key : T → K} {map : Hashmap T}

theorem resize_spec (wf : WellFormed key map) {k : Nat} (large : map.cap ≤ 2 ^ k)
    (fits : map.count ≤ 2 ^ k * 60 / 100) (small : map.count ≤ 65535) :
    ∃ map', resize true map (2 ^ k) = some (true, map') ∧ WellFormed key map' ∧ map'.items.Perm map.items ∧
      map'.toItemCalls = map.toItemCalls ∧ map'.count = map.count ∧ map'.growat = 2 ^ k * 60 / 100 ∧
      map'.oom = map.oom := by
  have size : (newWithAllocator map.toItemCalls (2 ^ k)).nbuckets = 2 ^ k := newWithAllocator_nbuckets _ (wf.cap.2.1.trans large)
  have mask : (newWithAllocator map.toItemCalls (2 ^ k)).mask = 2 ^ k - 1 := congrArg (· - 1) size
  have growat : (newWithAllocator map.toItemCalls (2 ^ k)).growat = 2 ^ k * 60 / 100 := congrArg (· * 60 / 100) size
  have shrinkat : (newWithAllocator map.toItemCalls (2 ^ k)).shrinkat = 2 ^ k * 10 / 100 := congrArg (· * 10 / 100) size
  have fresh : Placed (newWithAllocator map.toItemCalls (2 ^ k)).nbuckets (newWithAllocator map.toItemCalls (2 ^ k)).buckets := placed_empty _
  rw [size] at fresh
  have none : contents (newWithAllocator map.toItemCalls (2 ^ k)).buckets = [] := contents_empty _
  have count := wf.length_contents
  obtain ⟨buckets, ran, placed, perm⟩ := rehash
    (fun i => Nat.and_two_pow_sub_one_eq_mod i k) map.buckets fresh
    (by rw [none, List.length_nil]; omega) (by rw [none, List.length_nil]; omega)
  rw [none, List.append_nil] at perm
  refine ⟨
    { map with
      buckets := buckets
      nbuckets := 2 ^ k
      mask := 2 ^ k - 1
      growat := 2 ^ k * 60 / 100
      shrinkat := 2 ^ k * 10 / 100 }, ?_, ?_, perm.map _, rfl, rfl, rfl, rfl⟩
  · rw [resize, if_neg (by simp)]
    dsimp only
    rw [size, mask, growat, shrinkat, ran]
    rfl
  · obtain ⟨hashes, distinct, same⟩ := wf.of_contents (m := { map with buckets := buckets }) perm rfl
    refine ⟨placed, ⟨k, rfl⟩, ⟨wf.cap.1, wf.cap.2.1, large⟩, rfl, hashes, distinct, ?_, fits, ?_, ?_, wf.growpower⟩
    · exact wf.count.trans same.length_eq.symm
    · dsimp only
      omega
    · dsimp only
      omega

/-- An entry is taken for an item when it has the item's key. -/
theorem WellFormed.matches_iff (wf : WellFormed key map) (keyed : KeyedBy map.toItemCalls key) (item : T)
    {x : UInt64 × T} (member : x ∈ contents map.buckets) :
    map.getHash item = x.1 ∧ map.equal item x.2 ↔ key item = key x.2 := by
  rw [wf.hashes x member]
  exact keyed item x.2

/-- A bucket holds an item of this key if the map has one. -/
theorem WellFormed.stands_iff (wf : WellFormed key map) (keyed : KeyedBy map.toItemCalls key) (item : T) :
    (∃ i, Stands map.nbuckets map.buckets map.toItemCalls (map.getHash item) item i) ↔
      ∃ a ∈ map.items, key a = key item := by
  rw [exists_stands wf.placed.length]
  constructor
  · rintro ⟨x, member, same⟩
    exact ⟨x.2, List.mem_map_of_mem member, ((wf.matches_iff keyed item member).mp same).symm⟩
  · rintro ⟨a, member, same⟩
    obtain ⟨x, inside, rfl⟩ := List.mem_map.mp member
    exact ⟨x, inside, (wf.matches_iff keyed item inside).mpr same.symm⟩

theorem Stands.mem_items {calls : ItemCalls T} {hash : UInt64} {item : T} {i : Nat}
    (stands : Stands map.nbuckets map.buckets calls hash item i) (wf : WellFormed key map) :
    ((bucketAt map.buckets i).hash, (bucketAt map.buckets i).item) ∈ contents map.buckets :=
  mem_contents_iff.mpr ⟨i, wf.placed.length.symm ▸ stands.slot, stands.taken, rfl, rfl⟩

theorem Stands.key_eq {item : T} {i : Nat} (wf : WellFormed key map) (keyed : KeyedBy map.toItemCalls key)
    (stands : Stands map.nbuckets map.buckets map.toItemCalls (map.getHash item) item i) :
    (bucketAt map.buckets i).item ∈ map.items ∧ key (bucketAt map.buckets i).item = key item := by
  have member := stands.mem_items wf
  exact ⟨List.mem_map_of_mem (f := Prod.snd) member,
    ((wf.matches_iff keyed item member).mp ⟨stands.hash, stands.equal⟩).symm⟩

theorem WellFormed.apart (wf : WellFormed key map) (keyed : KeyedBy map.toItemCalls key) {item : T}
    (absent : ∀ a ∈ map.items, key a ≠ key item) :
    ((map.getHash item, item) :: contents map.buckets).Pairwise (Apart map.toItemCalls) := by
  refine List.pairwise_cons.mpr ⟨fun x member => ?_, ?_⟩
  · have other := absent x.2 (List.mem_map_of_mem (f := Prod.snd) member)
    refine ⟨fun same => other ((wf.matches_iff keyed item member).mp same).symm, fun same => other ?_⟩
    rw [wf.hashes x member] at same
    exact (keyed _ _).mp same
  · have distinct := wf.distinct
    rw [items, List.map_map] at distinct
    refine (List.pairwise_map.mp distinct).imp_of_mem fun {x y} hx hy other => ?_
    rw [Apart, wf.hashes x hx, wf.hashes y hy]
    exact ⟨fun same => other ((keyed _ _).mp same), fun same => other ((keyed _ _).mp same).symm⟩

theorem WellFormed.exists_others (wf : WellFormed key map) {x : UInt64 × T} (member : x ∈ contents map.buckets) :
    ∃ rest, (contents map.buckets).Perm (x :: rest) ∧ (∀ y ∈ rest, y.1 = map.getHash y.2) ∧
      ((rest.map Prod.snd).map key).Nodup ∧ ∀ a, a ∈ rest.map Prod.snd ↔ a ∈ map.items ∧ key a ≠ key x.2 := by
  have distinct := wf.distinct
  rw [items, List.map_map] at distinct
  obtain ⟨rest, perm, keys, others⟩ := exists_rest distinct member
  refine ⟨rest, perm, fun y inside => wf.hashes y ((others y).mp inside).1, by rwa [List.map_map], fun a => ?_⟩
  constructor
  · intro inside
    obtain ⟨y, within, rfl⟩ := List.mem_map.mp inside
    obtain ⟨among, other⟩ := (others y).mp within
    exact ⟨List.mem_map_of_mem among, other⟩
  · rintro ⟨inside, other⟩
    obtain ⟨y, within, rfl⟩ := List.mem_map.mp inside
    exact List.mem_map_of_mem ((others y).mpr ⟨within, other⟩)

variable {f : K → Option T}

/-- The search of both finds the bucket of a key's item, or that there is none. -/
theorem search_item (wf : WellFormed key map) (keyed : KeyedBy map.toItemCalls key) (represents : Represents key map f)
    (item : T) :
    map.search item (map.getHash item) = some none ∧ f (key item) = none ∨
      ∃ i, map.search item (map.getHash item) = some (some i) ∧
        Stands map.nbuckets map.buckets map.toItemCalls (map.getHash item) item i ∧
        f (key item) = some (bucketAt map.buckets i).item := by
  obtain ⟨found, ran, standing, missing⟩ := search_spec wf.placed rfl wf.room wf.wraps item (map.getHash item)
  cases found with
  | none =>
      refine Or.inl ⟨ran, represents.eq_none.mpr fun a member same => ?_⟩
      obtain ⟨x, inside, rfl⟩ := List.mem_map.mp member
      exact missing rfl x inside ((wf.matches_iff keyed item inside).mpr same.symm)
  | some i =>
      have stands := standing i rfl
      obtain ⟨member, same⟩ := stands.key_eq wf keyed
      exact Or.inr ⟨i, ran, stands, represents.eq_some member same⟩

theorem get_spec (wf : WellFormed key map) (keyed : KeyedBy map.toItemCalls key) (represents : Represents key map f)
    (item : T) : map.get item = some (f (key item)) := by
  rw [get, getWithHash, clipHash_getHash]
  rcases search_item wf keyed represents item with ⟨ran, unbound⟩ | ⟨i, ran, -, bound⟩
  · rw [ran, unbound]
    rfl
  · rw [ran, bound]
    rfl

section Bound

variable [DecidableEq K]

theorem overwrite_spec (wf : WellFormed key map) (keyed : KeyedBy map.toItemCalls key)
    (represents : Represents key map f) {item : T} {i : Nat}
    (stands : Stands map.nbuckets map.buckets map.toItemCalls (map.getHash item) item i) :
    WellFormed key { map with buckets := map.buckets.set i { bucketAt map.buckets i with item := item } } ∧
      Represents key { map with buckets := map.buckets.set i { bucketAt map.buckets i with item := item } }
        (update f (key item) (some item)) ∧
      f (key item) = some (bucketAt map.buckets i).item := by
  obtain ⟨placed, exchanged⟩ := stands.overwrite wf.placed
  obtain ⟨member, same⟩ := stands.key_eq wf keyed
  obtain ⟨rest, perm, hashes, distinct, others⟩ := wf.exists_others (stands.mem_items wf)
  rw [← stands.hash] at perm
  have kept := ((exchanged.trans (perm.cons _)).trans (List.Perm.swap _ _ _)).cons_inv
  obtain ⟨hashes, distinct, bound⟩ := represents.stored
    (m := { map with buckets := map.buckets.set i { bucketAt map.buckets i with item := item } }) rfl kept
    (by rwa [← same]) hashes distinct
  refine ⟨{ wf with placed := placed, hashes := hashes, distinct := distinct, count := ?_ }, bound,
    represents.eq_some member same⟩
  have before := perm.length_eq
  have after := kept.length_eq
  rw [List.length_cons] at before after
  rw [items, List.length_map]
  exact wf.length_contents.symm.trans (before.trans after.symm)

/-- The loop of `hashmap_set` where there is room for another item. -/
theorem store_spec (wf : WellFormed key map) (keyed : KeyedBy map.toItemCalls key) (represents : Represents key map f)
    (room : map.count < map.growat) (small : map.count < 65535) (item : T) :
    ∃ map', map.store item (map.getHash item) = some (f (key item), map') ∧ WellFormed key map' ∧
      Represents key map' (update f (key item) (some item)) ∧ map'.toItemCalls = map.toItemCalls ∧
      map'.oom = map.oom := by
  have count := wf.length_contents
  by_cases absent : ∀ a ∈ map.items, key a ≠ key item
  · obtain ⟨buckets, ran, placed, perm⟩ := setLoop_inserts wf.placed wf.room (by omega) wf.wraps (wf.apart keyed absent)
    obtain ⟨hashes, distinct, bound⟩ := represents.stored
      (m := { map with buckets := buckets, count := map.count + 1 }) rfl perm
      (fun a => ⟨fun inside => ⟨inside, absent a inside⟩, And.left⟩) wf.hashes wf.distinct
    refine ⟨_, ?_, ?_, bound, rfl, rfl⟩
    · rw [store, ran, represents.eq_none.mpr absent]
      rfl
    · refine { wf with placed := placed, hashes := hashes, distinct := distinct, count := ?_, load := room }
      have longer := perm.length_eq
      rw [List.length_cons] at longer
      rw [items, List.length_map]
      dsimp only
      omega
  · push Not at absent
    have held := (wf.stands_iff keyed item).mpr absent
    obtain ⟨i, ran, stands⟩ := setLoop_replaces wf.placed wf.room (by omega) wf.wraps held
    obtain ⟨wf', bound, before⟩ := overwrite_spec wf keyed represents stands
    refine ⟨_, ?_, wf', bound, rfl, rfl⟩
    rw [store, ran, before]
    rfl

/-- hashmap_set: the item before, and the new one bound, or no memory and no change. -/
theorem set_spec (wf : WellFormed key map) (keyed : KeyedBy map.toItemCalls key) (represents : Represents key map f)
    (small : map.count < 65535) (alloc : Bool) (item : T) :
    ∃ old map', map.set alloc item = some (old, map') ∧ WellFormed key map' ∧
      map'.toItemCalls = map.toItemCalls ∧
      (alloc = false ∧ map'.oom = true ∧ old = none ∧ Represents key map' f ∨
        map'.oom = false ∧ old = f (key item) ∧ Represents key map' (update f (key item) (some item))) := by
  have fresh := wf.withOom false
  rw [set, setWithHash, clipHash_getHash]
  dsimp only
  by_cases full : map.count = map.growat
  · rw [if_pos full]
    cases alloc with
    | false => exact ⟨none, { map with oom := true }, rfl, wf.withOom true, rfl, Or.inl ⟨rfl, rfl, rfl, represents⟩⟩
    | true =>
        obtain ⟨k, power⟩ := wf.power
        have size : map.nbuckets * 2 ^ map.growpower = 2 ^ (k + map.growpower) := by rw [power, Nat.pow_add]
        have doubled : map.nbuckets * 2 ≤ 2 ^ (k + map.growpower) := by
          rw [← size]
          exact Nat.mul_le_mul_left _ (Nat.pow_le_pow_right Nat.two_pos wf.growpower)
        have load := wf.growat
        have cap := wf.cap.2
        obtain ⟨map', ran, wf', same, calls, count, growat, oom⟩ := resize_spec fresh (k := k + map.growpower)
          (by dsimp only; omega) (by dsimp only; omega) (by dsimp only; omega)
        have represents' := represents.of_perm same
        obtain ⟨map'', stored, wf'', bound, calls', oom'⟩ := store_spec wf' (calls ▸ keyed) represents'
          (by dsimp only at count; omega) (by dsimp only at count; omega) item
        refine ⟨_, map'', ?_, wf'', calls'.trans calls, Or.inr ⟨oom'.trans oom, rfl, bound⟩⟩
        rw [size, ran]
        rw [calls] at stored
        exact stored
  · rw [if_neg full]
    have room : map.count < map.growat := Nat.lt_of_le_of_ne wf.load full
    obtain ⟨map', stored, wf', bound, calls, oom⟩ := store_spec fresh keyed represents room small item
    exact ⟨_, map', stored, wf', calls, Or.inr ⟨oom, rfl, bound⟩⟩

/-- hashmap_delete: the item of the key, which is unbound afterwards; a shrink changes no
binding. -/
theorem delete_spec (wf : WellFormed key map) (keyed : KeyedBy map.toItemCalls key) (represents : Represents key map f)
    (small : map.count ≤ 65535) (alloc : Bool) (item : T) :
    ∃ map', map.delete alloc item = some (f (key item), map') ∧ WellFormed key map' ∧
      map'.toItemCalls = map.toItemCalls ∧ Represents key map' (update f (key item) none) := by
  rw [delete, deleteWithHash, clipHash_getHash]
  dsimp only
  rcases search_item (wf.withOom false) keyed represents item with ⟨ran, unbound⟩ | ⟨i, ran, stands, bound⟩
  · have same : update f (key item) none = f := by rw [← unbound, Function.update_eq_self]
    rw [ran, unbound, same]
    exact ⟨_, rfl, wf.withOom false, rfl, represents⟩
  · obtain ⟨g, hg, free⟩ := exists_free (wf.placed.length.symm ▸ wf.room)
    rw [wf.placed.length] at hg
    obtain ⟨after, hole, removed⟩ := wf.placed.hole stands.slot stands.taken wf.large hg free
    obtain ⟨buckets, shifted, placed, perm⟩ := shift_spec hole wf.large wf.wraps
    obtain ⟨-, same⟩ := Stands.key_eq wf keyed stands
    obtain ⟨rest, others, hashes, distinct, left⟩ := wf.exists_others (Stands.mem_items stands wf)
    have kept : (contents buckets).Perm rest := perm.trans (removed.trans others).cons_inv
    have count := wf.length_contents
    have fewer := others.length_eq
    rw [List.length_cons, ← kept.length_eq] at fewer
    have items : ∀ a, a ∈ (contents buckets).map Prod.snd ↔ a ∈ map.items ∧ key a ≠ key item := fun a => by
      rw [(kept.map Prod.snd).mem_iff, left]
      exact same ▸ Iff.rfl
    have load := wf.load
    have wf' : WellFormed key { map with oom := false, buckets := buckets, count := map.count - 1 } :=
      { wf with
        placed := placed
        hashes := fun x member => hashes x (kept.subset member)
        distinct := (((kept.map Prod.snd).map key).nodup_iff).mpr distinct
        count := by
          rw [Hashmap.items, List.length_map]
          dsimp only
          omega
        load := by
          dsimp only
          omega }
    have represents' : Represents key { map with oom := false, buckets := buckets, count := map.count - 1 }
        (update f (key item) none) := represents.unbind items
    rw [ran, bound]
    dsimp only [Option.bind_some]
    rw [shifted]
    dsimp only [Option.bind_some]
    split
    next shrinks =>
      cases alloc with
      | false => exact ⟨_, rfl, wf', rfl, represents'⟩
      | true =>
          obtain ⟨k, power⟩ := wf.power
          obtain ⟨⟨c, cap⟩, sixteen, -⟩ := wf.cap
          have larger : c < k := by
            rw [cap, power] at shrinks
            exact (Nat.pow_lt_pow_iff_right Nat.one_lt_two).mp shrinks.1
          have half : map.nbuckets / 2 = 2 ^ (k - 1) := by
            rw [power, show k = k - 1 + 1 by omega, Nat.pow_succ, Nat.mul_div_cancel _ Nat.two_pos]
            rfl
          have shrinkat := wf.shrinkat
          have capacity : map.cap ≤ 2 ^ (k - 1) := by
            rw [cap]
            exact Nat.pow_le_pow_right Nat.two_pos (by omega)
          obtain ⟨map', resized, wf'', kept', calls, -⟩ := resize_spec wf' (k := k - 1) capacity
            (by dsimp only at shrinks ⊢; omega) (by dsimp only; omega)
          rw [half, resized]
          exact ⟨_, rfl, wf'', calls, represents'.of_perm kept'⟩
    next => exact ⟨_, rfl, wf', rfl, represents'⟩

end Bound

end Calls

end Coreconf.Hashmap
