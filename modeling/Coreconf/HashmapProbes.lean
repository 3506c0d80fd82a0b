import Coreconf.Hashmap
import Coreconf.RobinHood

set_option autoImplicit false

/- The loops of hashmap.c round the table: how entries stand in the buckets, what a search
finds, and that storing and deleting an entry keep the others and the order of the probes. -/
namespace Coreconf.Hashmap

open Fuel (Step)
open RobinHood (Ordered Leads ahead)

variable {T : Type}

/-- What a bucket that is taken holds. -/
def held (bucket : Bucket T) : Option (UInt64 × T) :=
  if bucket.dib = 0 then none else some (bucket.hash, bucket.item)

def contents (buckets : List (Bucket T)) : List (UInt64 × T) := buckets.filterMap held

theorem held_taken {b : Bucket T} (taken : b.dib ≠ 0) : held b = some (b.hash, b.item) :=
  if_neg taken

theorem held_free {b : Bucket T} (free : b.dib = 0) : held b = none := if_pos free

theorem length_filterMap_held (buckets : List (Bucket T)) :
    (contents buckets).length = (buckets.filter fun bucket => bucket.dib ≠ 0).length := by
  rw [contents]
  induction buckets with
  | nil => rfl
  | cons bucket rest ih =>
      by_cases free : bucket.dib = 0
      · rw [List.filterMap_cons_none (held_free free), List.filter_cons_of_neg (by simp [free]), ih]
      · rw [List.filterMap_cons_some (held_taken free), List.filter_cons_of_pos (by simp [free]),
          List.length_cons, List.length_cons, ih]

/-- Neither of two entries is taken for the other. -/
def Apart (calls : ItemCalls T) (x y : UInt64 × T) : Prop :=
  ¬ (x.1 = y.1 ∧ calls.equal x.2 y.2) ∧ ¬ (y.1 = x.1 ∧ calls.equal y.2 x.2)

theorem Apart.symm {calls : ItemCalls T} {x y : UInt64 × T} (apart : Apart calls x y) : Apart calls y x :=
  And.symm apart

variable [Inhabited T]

def dibs (buckets : List (Bucket T)) (i : Nat) : Nat := (bucketAt buckets i).dib

/-- The probe lengths of a table tell where its entries are at home, and they are ordered. -/
structure Placed (n : Nat) (buckets : List (Bucket T)) : Prop where
  length : buckets.length = n
  leads : ∀ i < n, dibs buckets i ≠ 0 → Leads n (bucketAt buckets i).hash.toNat (dibs buckets i) i
  ordered : Ordered n (dibs buckets)

section Slots

variable {buckets : List (Bucket T)} {i : Nat}

theorem bucketAt_set (bound : i < buckets.length) (bucket : Bucket T) (j : Nat) :
    bucketAt (buckets.set i bucket) j = if j = i then bucket else bucketAt buckets j :=
  RobinHood.getD_set bound bucket emptyBucket j

theorem dibs_set (bound : i < buckets.length) (bucket : Bucket T) (j : Nat) :
    dibs (buckets.set i bucket) j = if j = i then bucket.dib else dibs buckets j := by
  rw [dibs, bucketAt_set bound]
  split <;> rfl

theorem bucketAt_mem (bound : i < buckets.length) : bucketAt buckets i ∈ buckets := by
  rw [bucketAt, List.getD_eq_getElem _ _ bound]
  exact List.getElem_mem bound

theorem mem_contents_iff {x : UInt64 × T} :
    x ∈ contents buckets ↔ ∃ i < buckets.length, dibs buckets i ≠ 0 ∧
      (bucketAt buckets i).hash = x.1 ∧ (bucketAt buckets i).item = x.2 := by
  rw [contents, List.mem_filterMap]
  constructor
  · rintro ⟨bucket, member, holds⟩
    obtain ⟨i, bound, rfl⟩ := List.mem_iff_getElem.mp member
    have here : bucketAt buckets i = buckets[i] := List.getD_eq_getElem _ _ bound
    by_cases free : buckets[i].dib = 0
    · rw [held_free free] at holds
      cases holds
    · rw [held_taken free] at holds
      cases holds
      exact ⟨i, bound, by rwa [dibs, here], by rw [here], by rw [here]⟩
  · rintro ⟨i, bound, taken, hash, item⟩
    exact ⟨_, bucketAt_mem bound, by rw [held_taken taken, hash, item]⟩

theorem length_contents (buckets : List (Bucket T)) :
    (contents buckets).length = ((List.range buckets.length).filter fun i => dibs buckets i ≠ 0).length := by
  rw [length_filterMap_held]
  exact (RobinHood.length_filter_range (fun bucket : Bucket T => decide (bucket.dib ≠ 0)) emptyBucket buckets).symm

/-- As long as not all buckets are taken one is free. -/
theorem exists_free (room : (contents buckets).length < buckets.length) :
    ∃ g < buckets.length, dibs buckets g = 0 := by
  by_contra full
  push Not at full
  have all : ((List.range buckets.length).filter fun i => dibs buckets i ≠ 0) = List.range buckets.length :=
    List.filter_eq_self.mpr fun i member => decide_eq_true (full i (List.mem_range.mp member))
  rw [length_contents, all, List.length_range] at room
  exact lt_irrefl _ room

/-- A write to a bucket exchanges what it held for what it holds now. -/
theorem contents_set (bound : i < buckets.length) (bucket : Bucket T) :
    ((held (bucketAt buckets i)).toList ++ contents (buckets.set i bucket)).Perm
      ((held bucket).toList ++ contents buckets) :=
  RobinHood.filterMap_set_perm held bound bucket emptyBucket

theorem contents_set_free (bound : i < buckets.length) (free : dibs buckets i = 0) {bucket : Bucket T}
    (taken : bucket.dib ≠ 0) :
    (contents (buckets.set i bucket)).Perm ((bucket.hash, bucket.item) :: contents buckets) := by
  have exchanged := contents_set bound bucket
  rwa [held_free free, held_taken taken] at exchanged

theorem contents_set_taken (bound : i < buckets.length) (here : dibs buckets i ≠ 0) {b : Bucket T}
    (taken : b.dib ≠ 0) :
    (((bucketAt buckets i).hash, (bucketAt buckets i).item) :: contents (buckets.set i b)).Perm
      ((b.hash, b.item) :: contents buckets) := by
  have exchanged := contents_set bound b
  rwa [held_taken here, held_taken taken] at exchanged

end Slots

namespace Placed

variable {n : Nat} {buckets : List (Bucket T)}

/-- An entry that comes by a bucket which is free or nearer to its home can stand there. -/
theorem set (placed : Placed n buckets) {i : Nat} (hi : i < n) {entry : Bucket T}
    (leads : Leads n entry.hash.toNat entry.dib i) (further : dibs buckets i ≤ entry.dib)
    (fits : ∀ p < n, (p + 1) % n = i → entry.dib ≤ dibs buckets p + 1) : Placed n (buckets.set i entry) := by
  have bound : i < buckets.length := placed.length ▸ hi
  refine ⟨by rw [List.length_set, placed.length], fun j hj taken => ?_, fun j hj => ?_⟩
  · rw [bucketAt_set bound, dibs_set bound] at *
    split
    next same => exact same ▸ leads
    next other =>
      rw [if_neg other] at taken
      exact placed.leads j hj taken
  · rw [dibs_set bound, dibs_set bound]
    split
    next next =>
      split
      · omega
      · exact fits j hj next
    next =>
      split
      next same =>
        have old := placed.ordered j hj
        rw [same] at old
        exact same ▸ old.trans (Nat.succ_le_succ further)
      next => exact placed.ordered j hj

/-- No probe is longer than the table has entries. -/
theorem dibs_le (placed : Placed n buckets) {g : Nat} (hg : g < n) (free : dibs buckets g = 0) {i : Nat} (hi : i < n) :
    dibs buckets i ≤ (contents buckets).length := by
  rw [length_contents, placed.length]
  exact placed.ordered.le_occupied hg free hi

end Placed

/-- An entry on its way with the entries of a table, where a bucket is free. -/
structure Carries (n g : Nat) (before : List (UInt64 × T)) (probe : Probe T) : Prop where
  placed : Placed n probe.buckets
  slot : probe.i < n
  positive : probe.entry.dib ≠ 0
  leads : Leads n probe.entry.hash.toNat probe.entry.dib probe.i
  fits : ∀ p < n, (p + 1) % n = probe.i → probe.entry.dib ≤ dibs probe.buckets p + 1
  free : dibs probe.buckets g = 0
  same : ((probe.entry.hash, probe.entry.item) :: contents probe.buckets).Perm before

section Advance

variable {mask : Nat} {probe : Probe T}

theorem Probe.advance_nearer (nearer : dibs probe.buckets probe.i < probe.entry.dib) :
    probe.advance mask =
      ⟨probe.buckets.set probe.i probe.entry,
        { bucketAt probe.buckets probe.i with dib := (dibs probe.buckets probe.i + 1) % 0x10000 },
        (probe.i + 1) &&& mask⟩ := by
  rw [dibs] at nearer
  rw [Probe.advance, if_pos nearer]
  rfl

theorem Probe.advance_further (further : probe.entry.dib ≤ dibs probe.buckets probe.i) :
    probe.advance mask =
      ⟨probe.buckets, { probe.entry with dib := (probe.entry.dib + 1) % 0x10000 }, (probe.i + 1) &&& mask⟩ := by
  rw [dibs] at further
  rw [Probe.advance, if_neg (Nat.not_lt.mpr further)]

end Advance

section Storing

variable {n g mask : Nat} {before : List (UInt64 × T)} {probe : Probe T}

/-- At a free bucket the way ends. -/
theorem Carries.arrive (carries : Carries n g before probe) (here : dibs probe.buckets probe.i = 0) :
    Placed n (probe.buckets.set probe.i probe.entry) ∧
      (contents (probe.buckets.set probe.i probe.entry)).Perm before := by
  have bound : probe.i < probe.buckets.length := carries.placed.length ▸ carries.slot
  refine ⟨carries.placed.set carries.slot carries.leads (by omega) carries.fits, ?_⟩
  exact (contents_set_free bound here carries.positive).trans carries.same

/-- A bucket that is taken keeps its entry, or exchanges it for the one on its way; the probes
are too short to wrap. -/
theorem Carries.advance (carries : Carries n g before probe) (hg : g < n) (wraps : ∀ i, i &&& mask = i % n)
    (small : before.length ≤ 65535) (here : dibs probe.buckets probe.i ≠ 0) :
    Carries n g before (probe.advance mask) := by
  obtain ⟨placed, slot, positive, leads, fits, free, same⟩ := carries
  have bound : probe.i < probe.buckets.length := placed.length ▸ slot
  have count : (contents probe.buckets).length + 1 = before.length := same.length_eq
  have short := placed.dibs_le hg free slot
  have later : (probe.i + 1) % n < n := Nat.mod_lt _ (Nat.zero_lt_of_lt slot)
  have taken := placed.leads probe.i slot here
  have behind : ∀ p < n, (p + 1) % n = (probe.i + 1) % n → p = probe.i :=
    fun p hp same => RobinHood.succ_inj hp slot same
  rcases Nat.lt_or_ge (dibs probe.buckets probe.i) probe.entry.dib with nearer | further
  · rw [Probe.advance_nearer nearer, wraps, Nat.mod_eq_of_lt (show dibs probe.buckets probe.i + 1 < 0x10000 by omega)]
    refine ⟨placed.set slot leads nearer.le fits, later, Nat.succ_ne_zero _, taken.next, fun p hp next => ?_, ?_, ?_⟩
    · dsimp only
      rw [behind p hp next, dibs_set bound, if_pos rfl]
      exact Nat.le_succ_of_le nearer
    · rw [dibs_set bound, if_neg (by rintro rfl; exact here free)]
      exact free
    · exact (contents_set_taken bound here positive).trans same
  · rw [Probe.advance_further further, wraps, Nat.mod_eq_of_lt (show probe.entry.dib + 1 < 0x10000 by omega)]
    refine ⟨placed, later, Nat.succ_ne_zero _, leads.next, fun p hp next => ?_, free, same⟩
    rw [behind p hp next]
    exact Nat.succ_le_succ further

/-- An entry sets out from its home. -/
theorem Carries.start {buckets : List (Bucket T)} (placed : Placed n buckets) (hg : g < n) (free : dibs buckets g = 0)
    (hash : UInt64) (item : T) :
    Carries n g ((hash, item) :: contents buckets) ⟨buckets, ⟨hash, 1, item⟩, hash.toNat % n⟩ where
  placed := placed
  slot := Nat.mod_lt _ (Nat.zero_lt_of_lt hg)
  positive := Nat.one_ne_zero
  leads := Leads.home n hash.toNat
  fits _ _ _ := Nat.le_add_left 1 _
  free := free
  same := List.Perm.refl _

/-- The way leads round the table to the free bucket at most. -/
theorem Carries.ahead_lt (carries : Carries n g before probe) (hg : g < n) (wraps : ∀ i, i &&& mask = i % n)
    (here : dibs probe.buckets probe.i ≠ 0) : ahead n g (probe.advance mask).i < ahead n g probe.i := by
  have moved : (probe.advance mask).i = (probe.i + 1) % n := wraps _
  rw [moved]
  exact RobinHood.ahead_succ hg carries.slot (by rintro same; exact here (same ▸ carries.free))

variable {buckets : List (Bucket T)}

/-- An entry of the old table gets a bucket of the new one. -/
theorem place_spec (placed : Placed n buckets) (room : (contents buckets).length < n)
    (small : (contents buckets).length < 65535) (wraps : ∀ i, i &&& mask = i % n) {entry : Bucket T}
    (taken : entry.dib ≠ 0) :
    ∃ buckets', place mask n buckets entry = some buckets' ∧
      Placed n buckets' ∧ (contents buckets').Perm ((entry.hash, entry.item) :: contents buckets) := by
  obtain ⟨g, hg, free⟩ := exists_free (placed.length.symm ▸ room)
  rw [placed.length] at hg
  rw [place, if_neg taken, wraps]
  refine Fuel.loop_total (fun probe : Probe T => ahead n g probe.i) (fun probe carries => ?_)
    (Carries.start placed hg free entry.hash entry.item) (RobinHood.ahead_lt hg _)
  by_cases here : dibs probe.buckets probe.i = 0
  · exact Or.inl ⟨_, if_pos here, carries.arrive here⟩
  · exact Or.inr ⟨_, if_neg here, carries.advance hg wraps small here, carries.ahead_lt hg wraps here⟩

/-- An item that the table does not hold gets a bucket, as in a resize. -/
theorem setLoop_inserts {calls : ItemCalls T} (placed : Placed n buckets) (room : (contents buckets).length < n)
    (small : (contents buckets).length < 65535) (wraps : ∀ i, i &&& mask = i % n) {hash : UInt64} {item : T}
    (apart : ((hash, item) :: contents buckets).Pairwise (Apart calls)) :
    ∃ buckets', Fuel.loop (setBody calls mask) n ⟨buckets, ⟨hash, 1, item⟩, hash.toNat &&& mask⟩ =
        some (.inserted buckets') ∧
      Placed n buckets' ∧ (contents buckets').Perm ((hash, item) :: contents buckets) := by
  obtain ⟨g, hg, free⟩ := exists_free (placed.length.symm ▸ room)
  rw [placed.length] at hg
  have ended := @Fuel.loop_total _ _ (setBody calls mask) _
    (fun exit => ∃ buckets', exit = .inserted buckets' ∧
      Placed n buckets' ∧ (contents buckets').Perm ((hash, item) :: contents buckets))
    (fun probe => ahead n g probe.i) (fun probe carries => ?_) n _
    (Carries.start placed hg free hash item) (RobinHood.ahead_lt hg _)
  · obtain ⟨-, ran, buckets', rfl, stored⟩ := ended
    exact ⟨buckets', by rwa [wraps], stored⟩
  · by_cases here : dibs probe.buckets probe.i = 0
    · exact Or.inl ⟨_, if_pos here, _, rfl, carries.arrive here⟩
    · -- the entry on its way is apart from every entry that stands
      have pairs := (carries.same.pairwise_iff Apart.symm).mpr apart
      have inside : ((bucketAt probe.buckets probe.i).hash, (bucketAt probe.buckets probe.i).item) ∈
          contents probe.buckets :=
        mem_contents_iff.mpr ⟨probe.i, carries.placed.length ▸ carries.slot, here, rfl, rfl⟩
      have differ := ((List.pairwise_cons.mp pairs).1 _ inside).1
      refine Or.inr ⟨probe.advance mask, ?_, carries.advance hg wraps small here, carries.ahead_lt hg wraps here⟩
      exact (if_neg here).trans (if_neg differ)

end Storing

section Finding

variable {n mask : Nat} {buckets : List (Bucket T)} {calls : ItemCalls T} {hash : UInt64} {item : T}

/-- The bucket holds an item of this hash that is equal. -/
structure Stands (n : Nat) (buckets : List (Bucket T)) (calls : ItemCalls T) (hash : UInt64) (item : T) (i : Nat) :
    Prop where
  slot : i < n
  taken : dibs buckets i ≠ 0
  hash : hash = (bucketAt buckets i).hash
  equal : calls.equal item (bucketAt buckets i).item

theorem exists_stands (length : buckets.length = n) :
    (∃ i, Stands n buckets calls hash item i) ↔ ∃ x ∈ contents buckets, hash = x.1 ∧ calls.equal item x.2 := by
  constructor
  · rintro ⟨i, slot, taken, same, equal⟩
    exact ⟨((bucketAt buckets i).hash, (bucketAt buckets i).item),
      mem_contents_iff.mpr ⟨i, length ▸ slot, taken, rfl, rfl⟩, same, equal⟩
  · rintro ⟨⟨itsHash, its⟩, member, same, equal⟩
    obtain ⟨i, slot, taken, atHash, atItem⟩ := mem_contents_iff.mp member
    exact ⟨i, length ▸ slot, taken, same.trans atHash.symm, by rwa [atItem]⟩

/-- The way of a probe for a hash to a bucket with an entry of this hash. -/
structure Approaches (n : Nat) (buckets : List (Bucket T)) (hash : UInt64) (last t i : Nat) : Prop where
  within : t < dibs buckets last
  reached : i = (hash.toNat + t) % n

namespace Approaches

variable {last t i : Nat}

/-- No bucket on the way is free or has an entry nearer to its home. -/
theorem passes (approaches : Approaches n buckets hash last t i) (placed : Placed n buckets)
    (stands : Stands n buckets calls hash item last) : t < dibs buckets i := by
  have leads := placed.leads last stands.slot stands.taken
  rw [← stands.hash] at leads
  rw [approaches.reached]
  exact placed.ordered.passed stands.slot leads approaches.within

theorem next (approaches : Approaches n buckets hash last t i) (placed : Placed n buckets)
    (stands : Stands n buckets calls hash item last) (before : i ≠ last) :
    Approaches n buckets hash last (t + 1) ((i + 1) % n) := by
  obtain ⟨within, reached⟩ := approaches
  refine ⟨Nat.lt_of_le_of_ne within fun ended => before ?_, ?_⟩
  · have leads := placed.leads last stands.slot stands.taken
    rw [← stands.hash, ← ended] at leads
    rw [reached, leads.slot stands.slot]
  · rw [reached, Nat.mod_add_mod, Nat.add_assoc]

theorem start (stands : Stands n buckets calls hash item last) :
    Approaches n buckets hash last 0 (hash.toNat % n) :=
  ⟨Nat.pos_of_ne_zero stands.taken, rfl⟩

theorem slot (approaches : Approaches n buckets hash last t i) (stands : Stands n buckets calls hash item last) :
    i < n :=
  approaches.reached ▸ Nat.mod_lt _ (Nat.zero_lt_of_lt stands.slot)

end Approaches

/-- An item that is equal is overwritten where it stands. -/
theorem setLoop_replaces (placed : Placed n buckets) (room : (contents buckets).length < n)
    (small : (contents buckets).length ≤ 65535) (wraps : ∀ i, i &&& mask = i % n)
    (held : ∃ i, Stands n buckets calls hash item i) :
    ∃ i, Fuel.loop (setBody calls mask) n ⟨buckets, ⟨hash, 1, item⟩, hash.toNat &&& mask⟩ =
        some (.replaced (buckets.set i { bucketAt buckets i with item := item }) (bucketAt buckets i).item) ∧
      Stands n buckets calls hash item i := by
  obtain ⟨last, stands⟩ := held
  obtain ⟨g, hg, free⟩ := exists_free (placed.length.symm ▸ room)
  rw [placed.length] at hg
  have short : dibs buckets last ≤ 65535 := (placed.dibs_le hg free stands.slot).trans small
  have ended := @Fuel.loop_total _ _ (setBody calls mask)
    (fun probe => ∃ t, Approaches n buckets hash last t probe.i ∧
      probe.buckets = buckets ∧ probe.entry = ⟨hash, t + 1, item⟩)
    (fun exit => ∃ i, exit = .replaced (buckets.set i { bucketAt buckets i with item := item })
      (bucketAt buckets i).item ∧ Stands n buckets calls hash item i)
    (fun probe => ahead n last probe.i) (fun probe way => ?_) n
    ⟨buckets, ⟨hash, 1, item⟩, hash.toNat % n⟩ ⟨0, Approaches.start stands, rfl, rfl⟩
    (RobinHood.ahead_lt stands.slot _)
  · obtain ⟨-, ran, i, rfl, found⟩ := ended
    exact ⟨i, by rwa [wraps], found⟩
  · obtain ⟨seen, entry, i⟩ := probe
    obtain ⟨t, approaches, rfl, rfl⟩ := way
    have passed := approaches.passes placed stands
    have taken : dibs seen i ≠ 0 := Nat.ne_zero_of_lt passed
    by_cases same : hash = (bucketAt seen i).hash ∧ calls.equal item (bucketAt seen i).item
    · exact Or.inl ⟨_, (if_neg taken).trans (if_pos same), i, rfl, approaches.slot stands, taken, same.1, same.2⟩
    · have before : i ≠ last := by
        rintro rfl
        exact same ⟨stands.hash, stands.equal⟩
      have later := approaches.next placed stands before
      have within : t + 1 < 65535 := Nat.lt_of_lt_of_le later.within short
      have moved : Probe.advance mask ⟨seen, ⟨hash, t + 1, item⟩, i⟩ =
          ⟨seen, ⟨hash, t + 1 + 1, item⟩, (i + 1) % n⟩ := by
        rw [@Probe.advance_further _ _ _ ⟨seen, ⟨hash, t + 1, item⟩, i⟩ passed, wraps,
          Nat.mod_eq_of_lt (show t + 1 + 1 < 0x10000 by omega)]
      refine Or.inr ⟨_, (if_neg taken).trans ((if_neg same).trans (congrArg (some ∘ Step.next) moved)),
        ⟨t + 1, later, rfl, rfl⟩, ?_⟩
      exact RobinHood.ahead_succ stands.slot (approaches.slot stands) before

/-- An entry keeps its place under another item. -/
theorem Stands.overwrite (placed : Placed n buckets) {i : Nat} (stands : Stands n buckets calls hash item i) :
    Placed n (buckets.set i { bucketAt buckets i with item := item }) ∧
      (((hash, (bucketAt buckets i).item) :: contents (buckets.set i { bucketAt buckets i with item := item })).Perm
        ((hash, item) :: contents buckets)) := by
  constructor
  · refine placed.set stands.slot (placed.leads i stands.slot stands.taken) (le_refl _) fun p hp next => ?_
    exact next ▸ placed.ordered p hp
  · have exchanged := contents_set_taken (b := { bucketAt buckets i with item := item })
      (placed.length ▸ stands.slot) stands.taken stands.taken
    rwa [← stands.hash] at exchanged

/-- The search ends at an item that is equal, if the table holds one. -/
theorem search_spec {map : Hashmap T} (placed : Placed n map.buckets) (length : map.nbuckets = n)
    (room : (contents map.buckets).length < n) (wraps : ∀ i, i &&& map.mask = i % n) (key : T) (hash : UInt64) :
    ∃ found, map.search key hash = some found ∧
      (∀ i, found = some i → Stands n map.buckets map.toItemCalls hash key i) ∧
      (found = none → ∀ x ∈ contents map.buckets, ¬ (hash = x.1 ∧ map.equal key x.2)) := by
  rw [search, wraps, length]
  by_cases held : ∃ i, Stands n map.buckets map.toItemCalls hash key i
  · obtain ⟨last, stands⟩ := held
    refine Fuel.loop_total (I := fun i => ∃ t, Approaches n map.buckets hash last t i)
      (fun i => ahead n last i) (fun i way => ?_) ⟨0, Approaches.start stands⟩ (RobinHood.ahead_lt stands.slot _)
    obtain ⟨t, approaches⟩ := way
    have taken : dibs map.buckets i ≠ 0 := Nat.ne_zero_of_lt (approaches.passes placed stands)
    by_cases same : (bucketAt map.buckets i).hash = hash ∧ map.equal key (bucketAt map.buckets i).item
    · refine Or.inl ⟨_, (if_neg taken).trans (if_pos same), fun j found => ?_, fun none => by cases none⟩
      cases found
      exact ⟨approaches.slot stands, taken, same.1.symm, same.2⟩
    · have before : i ≠ last := by
        rintro rfl
        exact same ⟨stands.hash.symm, stands.equal⟩
      have moved : (i + 1) &&& map.mask = (i + 1) % n := wraps _
      refine Or.inr ⟨(i + 1) % n, ?_, ⟨t + 1, approaches.next placed stands before⟩,
        RobinHood.ahead_succ stands.slot (approaches.slot stands) before⟩
      exact (if_neg taken).trans ((if_neg same).trans (congrArg (some ∘ Step.next) moved))
  · obtain ⟨g, hg, free⟩ := exists_free (placed.length.symm ▸ room)
    rw [placed.length] at hg
    refine Fuel.loop_total (I := fun i => i < n) (fun i => ahead n g i) (fun i slot => ?_)
      (Nat.mod_lt _ (Nat.zero_lt_of_lt hg)) (RobinHood.ahead_lt hg _)
    by_cases here : dibs map.buckets i = 0
    · refine Or.inl ⟨none, if_pos here, (fun j found => by cases found), fun _ x member same => ?_⟩
      exact held ((exists_stands placed.length).mpr ⟨x, member, same⟩)
    · have differ : ¬ ((bucketAt map.buckets i).hash = hash ∧ map.equal key (bucketAt map.buckets i).item) :=
        fun same => held ⟨i, slot, here, same.1.symm, same.2⟩
      have moved : (i + 1) &&& map.mask = (i + 1) % n := wraps _
      refine Or.inr ⟨(i + 1) % n, ?_, Nat.mod_lt _ (Nat.zero_lt_of_lt hg),
        RobinHood.ahead_succ hg slot (by rintro rfl; exact here free)⟩
      exact (if_neg here).trans ((if_neg differ).trans (congrArg (some ∘ Step.next) moved))

end Finding

section Deleting

variable {n g mask : Nat} {after : List (UInt64 × T)} {buckets : List (Bucket T)} {i v : Nat}

/-- A table with a bucket that is given up: the others stand as if it had this probe length. -/
structure Hole (n g : Nat) (after : List (UInt64 × T)) (buckets : List (Bucket T)) (i v : Nat) : Prop where
  length : buckets.length = n
  slot : i < n
  leads : ∀ j < n, j ≠ i → dibs buckets j ≠ 0 → Leads n (bucketAt buckets j).hash.toNat (dibs buckets j) j
  ordered : ∀ j < n, j ≠ i → (j + 1) % n ≠ i → dibs buckets ((j + 1) % n) ≤ dibs buckets j + 1
  behind : ∀ p < n, (p + 1) % n = i → v ≤ dibs buckets p + 1
  next : dibs buckets ((i + 1) % n) ≤ v + 1
  free : g < n ∧ g ≠ i ∧ dibs buckets g = 0
  same : (contents (buckets.set i emptyBucket)).Perm after

/-- Where the next entry is at home, or there is none, the hole is closed. -/
theorem Hole.close (hole : Hole n g after buckets i v)
    (home : dibs buckets ((i + 1) % n) ≤ 1) (rest : Bucket T) :
    Placed n (buckets.set i { rest with dib := 0 }) ∧ (contents (buckets.set i { rest with dib := 0 })).Perm after := by
  obtain ⟨length, slot, leads, ordered, behind, next, free, same⟩ := hole
  have bound : i < buckets.length := length ▸ slot
  refine ⟨⟨by rw [List.length_set, length], fun j hj taken => ?_, fun j hj => ?_⟩, ?_⟩
  · rw [dibs_set bound] at taken
    split at taken
    next => exact absurd rfl taken
    next other =>
      rw [bucketAt_set bound, dibs_set bound, if_neg other, if_neg other]
      exact leads j hj other taken
  · rw [dibs_set bound, dibs_set bound]
    split
    · exact Nat.zero_le _
    next further =>
      split
      next here => exact here ▸ home
      next other => exact ordered j hj other further
  · have cleared := contents_set bound ({ rest with dib := 0 } : Bucket T)
    have emptied := contents_set bound (emptyBucket : Bucket T)
    rw [held_free (b := { rest with dib := 0 }) rfl] at cleared
    rw [held_free (b := emptyBucket) rfl] at emptied
    exact ((List.perm_append_left_iff _).mp (cleared.trans emptied.symm)).trans same

/-- The entry behind the hole moves up, and leaves a hole where it stood. -/
theorem Hole.shift (hole : Hole n g after buckets i v) (large : 1 < n) {j : Nat} (later : (i + 1) % n = j)
    (away : 1 < dibs buckets j) :
    Hole n g after (buckets.set i { bucketAt buckets j with dib := dibs buckets j - 1 }) j (dibs buckets j) := by
  obtain ⟨length, slot, leads, ordered, behind, next, ⟨hg, apart, free⟩, same⟩ := hole
  have bound : i < buckets.length := length ▸ slot
  have other : j ≠ i := later ▸ RobinHood.succ_ne large slot
  have hj : j < n := later ▸ Nat.mod_lt _ (Nat.zero_lt_of_lt slot)
  have taken : dibs buckets j ≠ 0 := Nat.ne_zero_of_lt away
  have limit : dibs buckets j ≤ v + 1 := later ▸ next
  refine ⟨by rw [List.length_set, length], hj, fun k hk _ standing => ?_, fun k hk notHole notBefore => ?_,
    fun p hp before => ?_, ?_, ⟨hg, ?_, ?_⟩, ?_⟩
  · rw [bucketAt_set bound, dibs_set bound] at *
    split
    next here =>
      subst here
      have own : Leads n (bucketAt buckets j).hash.toNat (dibs buckets j - 1 + 1) ((k + 1) % n) := by
        rw [Nat.sub_add_cancel away.le, later]
        exact leads j hj other taken
      exact own.back
    next there =>
      rw [if_neg there] at standing
      exact leads k hk there standing
  · have notMoved : k ≠ i := by
      rintro rfl
      exact notBefore later
    rw [dibs_set bound, dibs_set bound, if_neg notMoved]
    split
    next here =>
      have fits := behind k hk here
      dsimp only
      omega
    next there => exact ordered k hk notMoved there
  · rw [RobinHood.succ_inj hp slot (before.trans later.symm), dibs_set bound, if_pos rfl]
    dsimp only
    omega
  · rw [dibs_set bound]
    split
    · dsimp only
      omega
    next there => exact ordered j hj other there
  · rintro rfl
    exact taken free
  · rw [dibs_set bound, if_neg apart, free]
  · -- what the entry's old and new bucket hold is told apart from what the hole held
    have emptied := contents_set bound (emptyBucket : Bucket T)
    have moved := contents_set bound { bucketAt buckets j with dib := dibs buckets j - 1 }
    have within : j < (buckets.set i { bucketAt buckets j with dib := dibs buckets j - 1 }).length := by
      rw [List.length_set, length]
      exact hj
    have left := contents_set within (emptyBucket : Bucket T)
    rw [bucketAt_set bound, if_neg other] at left
    rw [held_free (b := emptyBucket) rfl] at emptied left
    rw [held_taken taken] at left
    rw [held_taken (b := { bucketAt buckets j with dib := dibs buckets j - 1 })
      (show dibs buckets j - 1 ≠ 0 by omega)] at moved
    have cancelled := (left.append_left _).trans (moved.trans ((emptied.symm.cons _).trans List.perm_middle.symm))
    exact ((List.perm_append_left_iff _).mp cancelled).cons_inv.trans same

/-- The hole moves on to the first entry that is at home, or bucket that is free, and is closed there. -/
theorem shift_spec (hole : Hole n g after buckets i v) (large : 1 < n) (wraps : ∀ i, i &&& mask = i % n) :
    ∃ buckets', Fuel.loop (shiftBody mask) n (buckets, i) = some buckets' ∧
      Placed n buckets' ∧ (contents buckets').Perm after := by
  refine Fuel.loop_total (I := fun hole : List (Bucket T) × Nat => ∃ v, Hole n g after hole.1 hole.2 v)
    (fun hole => ahead n g hole.2) (fun hole standing => ?_) ⟨v, hole⟩ (RobinHood.ahead_lt hole.free.1 _)
  obtain ⟨buckets, i⟩ := hole
  obtain ⟨v, hole⟩ := standing
  rw [shiftBody, wraps]
  by_cases home : dibs buckets ((i + 1) % n) ≤ 1
  · exact Or.inl ⟨_, if_pos home, hole.close home _⟩
  · refine Or.inr ⟨_, if_neg home, ⟨_, hole.shift large rfl (Nat.lt_of_not_le home)⟩, ?_⟩
    exact RobinHood.ahead_succ hole.free.1 hole.slot (Ne.symm hole.free.2.1)

/-- An entry that is deleted leaves a hole. -/
theorem Placed.hole (placed : Placed n buckets) (hi : i < n) (taken : dibs buckets i ≠ 0) (large : 1 < n)
    (hg : g < n) (free : dibs buckets g = 0) :
    ∃ after, Hole n g after (buckets.set i { bucketAt buckets i with dib := 0 }) i (dibs buckets i) ∧
      (((bucketAt buckets i).hash, (bucketAt buckets i).item) :: after).Perm (contents buckets) := by
  have bound : i < buckets.length := placed.length ▸ hi
  have apart : g ≠ i := by
    rintro rfl
    exact taken free
  have emptied := contents_set bound (emptyBucket : Bucket T)
  rw [held_taken taken, held_free (b := emptyBucket) rfl] at emptied
  refine ⟨contents (buckets.set i emptyBucket),
    ⟨by rw [List.length_set, placed.length], hi, fun j hj other standing => ?_,
      fun j hj notHole notBefore => ?_, fun p hp before => ?_, ?_, ⟨hg, apart, ?_⟩, ?_⟩, emptied⟩
  · rw [dibs_set bound, if_neg other] at *
    rw [bucketAt_set bound, if_neg other]
    exact placed.leads j hj standing
  · rw [dibs_set bound, dibs_set bound, if_neg notHole, if_neg notBefore]
    exact placed.ordered j hj
  · have notHole : p ≠ i := by
      rintro rfl
      exact RobinHood.succ_ne large hp before
    rw [dibs_set bound, if_neg notHole, ← before]
    exact placed.ordered p hp
  · rw [dibs_set bound, if_neg (RobinHood.succ_ne large hi)]
    exact placed.ordered i hi
  · rw [dibs_set bound, if_neg apart, free]
  · rw [List.set_set]

end Deleting

end Coreconf.Hashmap
