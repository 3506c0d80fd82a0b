import Coreconf.Ipatch
import Coreconf.Overrides
import Coreconf.Tree

set_option autoImplicit false

/- ipatch.c: apply_ipatch with the blocks that arrays and maps are in, which the datastore
shares with the patch afterwards. -/
namespace Coreconf

open ChainOrder (Room Taken news)

/-- A value, and the block that an array or a map has its contents in. -/
structure Held where
  value : CoreconfValueT
  block : Option Nat

/-- The block that is given back when the value under a key is. -/
def blockAt (map : CoreconfHashMapT Held) (key : UInt64) : List Nat :=
  ((getCoreconfHashMap map key).bind Held.block).toList

/-- A datastore, and the blocks given back so far. -/
structure SharedStore where
  map : CoreconfHashMapT Held
  freed : List Nat

/-- Nothing is read of a value whose block is given back. -/
def Held.read (held : Held) (freed : List Nat) : Option CoreconfValueT :=
  if held.block.any (· ∈ freed) then none else some held.value

/-- `some none` is a SID that is bound to such a value. -/
def SharedStore.lookup (store : SharedStore) (sid : UInt64) : Option (Option CoreconfValueT) :=
  (getCoreconfHashMap store.map sid).map (·.read store.freed)

structure SharedPatchCtx where
  store : SharedStore
  error : Bool

/-- A string is duplicated, but the copy of an array or a map keeps its block. What the SID was bound
to is given back where it is removed or replaced. -/
def applyOneSidShared (ctx : SharedPatchCtx) (obj : CoreconfObjectT Held) : SharedPatchCtx :=
  match obj.value with
  | none => ctx
  | some held =>
      let freed := ctx.store.freed ++ blockAt ctx.store.map obj.key
      if isNull held.value then
        { ctx with store := ⟨(deleteFromCoreconfHashMap ctx.store.map obj.key).2, freed⟩ }
      else
        match insertCoreconfHashMap ctx.store.map obj.key (some held) with
        | (0, map) => { ctx with store := ⟨map, freed⟩ }
        | (_, map) => ⟨⟨map, ctx.store.freed⟩, true⟩

def applyIpatchShared (store : SharedStore) (patch : CoreconfHashMapT Held) : Int × SharedStore :=
  let ctx := iterateCoreconfHashMap patch applyOneSidShared ⟨store, false⟩
  (if ctx.error then -1 else 0, ctx.store)

def CoreconfHashMapT.values (map : CoreconfHashMapT Held) : CoreconfHashMapT CoreconfValueT :=
  map.mapValues (Option.map Held.value)

theorem applyOneSidShared_values (ctx : SharedPatchCtx) (obj : CoreconfObjectT Held) :
    applyOneSid ⟨ctx.store.map.values, ctx.error⟩ (obj.mapValue (Option.map Held.value)) =
      ⟨(applyOneSidShared ctx obj).store.map.values, (applyOneSidShared ctx obj).error⟩ := by
  obtain ⟨key, value⟩ := obj
  cases value with
  | none => rfl
  | some held =>
      have inserted := CoreconfHashMapT.insert_mapValues (Option.map Held.value) ctx.store.map key (some held)
      have deleted := CoreconfHashMapT.delete_mapValues (Option.map Held.value) ctx.store.map key
      simp only [applyOneSid, applyOneSidShared, CoreconfObjectT.mapValue, Option.map_some,
        CoreconfHashMapT.values] at inserted ⊢
      rw [inserted, deleted]
      split
      · rfl
      · rcases insertCoreconfHashMap_code ctx.store.map key (some held) with success | refused
        · rw [show insertCoreconfHashMap ctx.store.map key (some held) =
            (0, (insertCoreconfHashMap ctx.store.map key (some held)).2) from Prod.ext success rfl]
          rfl
        · rw [refused]
          rfl

theorem applyIpatchShared_values (store : SharedStore) (patch : CoreconfHashMapT Held) :
    applyIpatch (.hashmap store.map.values) (some (.hashmap patch.values)) =
      ((applyIpatchShared store patch).1, .hashmap (applyIpatchShared store patch).2.map.values) := by
  have folded : ∀ (objects : List (CoreconfObjectT Held)) (ctx : SharedPatchCtx),
      (objects.map (CoreconfObjectT.mapValue (Option.map Held.value))).foldl applyOneSid
          ⟨ctx.store.map.values, ctx.error⟩ =
        ⟨(objects.foldl applyOneSidShared ctx).store.map.values, (objects.foldl applyOneSidShared ctx).error⟩ := by
    intro objects
    induction objects with
    | nil => intro ctx; rfl
    | cons obj rest ih =>
        intro ctx
        rw [List.map_cons, List.foldl_cons, applyOneSidShared_values, ih, List.foldl_cons]
  simp only [applyIpatch, applyIpatchShared, iterateCoreconfHashMap_eq]
  rw [CoreconfHashMapT.values, CoreconfHashMapT.values, CoreconfHashMapT.objects_mapValues]
  have whole := folded patch.objects ⟨store, false⟩
  rw [CoreconfHashMapT.values] at whole
  rw [whole]

def Held.dropped (held : Held) : Bool := isNull held.value

/-- An entry is refused, or takes the place of what its SID was bound to. -/
theorem applyOneSidShared_entry (ctx : SharedPatchCtx) (entry : UInt64 × Held) :
    applyOneSidShared ctx ⟨entry.1, some entry.2⟩ =
      if RefusesBinding Held.dropped ctx.store.map entry then { ctx with error := true }
      else ⟨⟨bindOrDrop Held.dropped ctx.store.map entry, ctx.store.freed ++ blockAt ctx.store.map entry.1⟩,
        ctx.error⟩ := by
  by_cases refused : RefusesBinding Held.dropped ctx.store.map entry
  · rw [if_pos refused]
    obtain ⟨bound, failed⟩ := refused
    have kept := (insertCoreconfHashMap_code ctx.store.map entry.1 (some entry.2)).resolve_left failed
    rw [Held.dropped] at bound
    simp [applyOneSidShared, bound, kept]
  · rw [if_neg refused, bindOrDrop]
    by_cases null : isNull entry.2.value
    · simp [applyOneSidShared, Held.dropped, null]
    · have success : (insertCoreconfHashMap ctx.store.map entry.1 (some entry.2)).1 = 0 := by
        by_contra failed
        exact refused ⟨by simpa [Held.dropped] using null, failed⟩
      have taken : insertCoreconfHashMap ctx.store.map entry.1 (some entry.2) =
          (0, (insertCoreconfHashMap ctx.store.map entry.1 (some entry.2)).2) := Prod.ext success rfl
      rw [show Held.dropped entry.2 = false by simpa [Held.dropped] using null, if_neg Bool.false_ne_true]
      simp only [applyOneSidShared, if_neg null]
      rw [taken]
      rfl

def applyEntriesShared (ctx : SharedPatchCtx) (entries : List (UInt64 × Held)) : SharedPatchCtx :=
  entries.foldl (fun ctx entry => applyOneSidShared ctx ⟨entry.1, some entry.2⟩) ctx

theorem applyIpatchShared_assignments (store : SharedStore) (patch : CoreconfHashMapT Held) :
    iterateCoreconfHashMap patch applyOneSidShared ⟨store, false⟩ =
      applyEntriesShared ⟨store, false⟩ patch.assignments := by
  rw [iterateCoreconfHashMap_eq, applyEntriesShared, CoreconfHashMapT.assignments]
  generalize (⟨store, false⟩ : SharedPatchCtx) = ctx
  induction patch.objects generalizing ctx with
  | nil => rfl
  | cons object rest ih =>
      obtain ⟨key, value⟩ := object
      rw [List.foldl_cons, ih]
      cases value <;> rfl

section Entries

variable {ctx : SharedPatchCtx} {entries : List (UInt64 × Held)}

theorem applyEntriesShared_cons (ctx : SharedPatchCtx) (entry : UInt64 × Held) (rest : List (UInt64 × Held)) :
    applyEntriesShared ctx (entry :: rest) =
      applyEntriesShared (applyOneSidShared ctx ⟨entry.1, some entry.2⟩) rest := rfl

theorem applyEntriesShared_map (ctx : SharedPatchCtx) (entries : List (UInt64 × Held)) :
    (applyEntriesShared ctx entries).store.map = entries.foldl (bindOrDrop Held.dropped) ctx.store.map := by
  induction entries generalizing ctx with
  | nil => rfl
  | cons entry rest ih =>
      rw [applyEntriesShared_cons, ih, List.foldl_cons, applyOneSidShared_entry]
      congr 1
      split
      · rename_i refused
        exact (bindOrDrop_refused refused).symm
      · rfl

theorem applyEntriesShared_error (ctx : SharedPatchCtx) (entries : List (UInt64 × Held)) :
    (applyEntriesShared ctx entries).error = (ctx.error || !(refusals Held.dropped ctx.store.map entries).isEmpty) := by
  induction entries generalizing ctx with
  | nil => simp [applyEntriesShared, refusals]
  | cons entry rest ih =>
      rw [applyEntriesShared_cons, ih, applyOneSidShared_entry, refusals]
      split
      · simp
      · rfl

/-- The blocks given back are those of the SIDs whose entries are not refused. -/
theorem applyEntriesShared_freed (inv : ctx.store.map.RepInv) (distinct : (entries.map Prod.fst).Nodup) {block : Nat} :
    block ∈ (applyEntriesShared ctx entries).store.freed ↔
      block ∈ ctx.store.freed ∨ ∃ entry ∈ entries,
        entry.1 ∉ refusals Held.dropped ctx.store.map entries ∧ block ∈ blockAt ctx.store.map entry.1 := by
  induction entries generalizing ctx with
  | nil => simp [applyEntriesShared]
  | cons entry rest ih =>
      rw [List.map_cons, List.nodup_cons] at distinct
      have others : ∀ later ∈ rest, later.1 ≠ entry.1 := fun later inside same =>
        distinct.1 (same ▸ List.mem_map_of_mem inside)
      have blocks : ∀ later ∈ rest, blockAt (bindOrDrop Held.dropped ctx.store.map entry) later.1 =
          blockAt ctx.store.map later.1 := by
        intro later inside
        rw [blockAt, bindOrDrop_other inv (others later inside), blockAt]
      rw [applyEntriesShared_cons, applyOneSidShared_entry, refusals]
      by_cases refused : RefusesBinding Held.dropped ctx.store.map entry
      · have step := @ih { ctx with error := true } inv distinct.2
        rw [if_pos refused, if_pos refused, step, bindOrDrop_refused refused]
        refine or_congr_right ⟨?_, ?_⟩
        · rintro ⟨later, inside, taken, given⟩
          refine ⟨later, List.mem_cons_of_mem _ inside, fun member => ?_, given⟩
          exact (List.mem_cons.mp member).elim (others later inside) taken
        · rintro ⟨later, inside, taken, given⟩
          rcases List.mem_cons.mp inside with rfl | inside
          · exact absurd List.mem_cons_self taken
          · exact ⟨later, inside, fun member => taken (List.mem_cons_of_mem _ member), given⟩
      · have step := @ih ⟨⟨bindOrDrop Held.dropped ctx.store.map entry,
          ctx.store.freed ++ blockAt ctx.store.map entry.1⟩, ctx.error⟩ (bindOrDrop_repInv inv entry) distinct.2
        have fresh : entry.1 ∉ refusals Held.dropped (bindOrDrop Held.dropped ctx.store.map entry) rest := by
          intro member
          obtain ⟨later, inside, same⟩ := refusals_subset member
          exact others later inside same
        rw [if_neg refused, if_neg refused, step, List.mem_append, or_assoc]
        refine or_congr_right ⟨?_, ?_⟩
        · rintro (given | ⟨later, inside, taken, given⟩)
          · exact ⟨entry, List.mem_cons_self, fresh, given⟩
          · exact ⟨later, List.mem_cons_of_mem _ inside, taken, blocks later inside ▸ given⟩
        · rintro ⟨later, inside, taken, given⟩
          rcases List.mem_cons.mp inside with rfl | inside
          · exact .inl given
          · exact .inr ⟨later, inside, taken, (blocks later inside).symm ▸ given⟩

end Entries

/-- The blocks of two maps, each that of one array or map. -/
structure SeparatePatch (target patch : CoreconfHashMapT Held) : Prop where
  store : target.RepInv
  update : patch.RepInv
  containers : ∀ entry ∈ target.assignments ++ patch.assignments,
    entry.2.block.isSome = entry.2.value.isContainer
  distinct : ((target.assignments ++ patch.assignments).filterMap (·.2.block)).Nodup

/-- The store has the bindings of the patch, but those to null, and otherwise what it had. -/
def Overridden (before after : SharedStore) (patch : CoreconfHashMapT Held) : Prop :=
  ∀ sid, after.lookup sid = (getCoreconfHashMap patch sid).elim (before.lookup sid)
    fun held => if isNull held.value then none else some (some held.value)

/-- The chains have room for what the patch brings to them. -/
def RoomFor (target patch : CoreconfHashMapT Held) : Prop :=
  ∀ key, Room (CORECONF_MAX_LOOP + 1) (target.chainKeys key) (chainEntries Held.dropped key patch.assignments)

/-- A new SID that at least 51 more new ones of its chain come after. -/
def PushedBack (target patch : CoreconfHashMapT Held) (sid : UInt64) : Prop :=
  sid ∉ target.chainKeys sid ∧
    CORECONF_MAX_LOOP < (news (target.chainKeys sid)
      ((chainEntries Held.dropped sid patch.assignments).dropWhile (·.1 ≠ sid)).tail).length

variable {target patch : CoreconfHashMapT Held}

theorem mem_blockAt {map : CoreconfHashMapT Held} (inv : map.RepInv) {sid : UInt64} {block : Nat} :
    block ∈ blockAt map sid ↔ ∃ held, (sid, held) ∈ map.assignments ∧ held.block = some block := by
  rw [blockAt, Option.mem_toList, Option.bind_eq_some_iff]
  simp only [get_eq_some_iff inv]

theorem Held.read_eq {held : Held} {freed : List Nat} (kept : ∀ block, held.block = some block → block ∉ freed) :
    held.read freed = some held.value := by
  rw [Held.read, if_neg]
  rw [Option.any_eq_true]
  rintro ⟨block, here, given⟩
  exact kept block here (by simpa using given)

namespace SeparatePatch

theorem target_block (separate : SeparatePatch target patch) {entry entry' : UInt64 × Held}
    (member : entry ∈ target.assignments) (member' : entry' ∈ target.assignments) {block : Nat}
    (here : entry.2.block = some block) (here' : entry'.2.block = some block) : entry = entry' := by
  have distinct := separate.distinct
  rw [List.filterMap_append, List.nodup_append, List.Nodup, List.pairwise_filterMap] at distinct
  by_contra different
  have symm : Std.Symm fun a a' : UInt64 × Held =>
      ∀ b, a.2.block = some b → ∀ b', a'.2.block = some b' → b ≠ b' :=
    ⟨fun _ _ apart b here b' here' same => apart b' here' b here same.symm⟩
  exact distinct.1.forall member member' different _ here _ here' rfl

theorem patch_block (separate : SeparatePatch target patch) {entry entry' : UInt64 × Held}
    (member : entry ∈ target.assignments) (member' : entry' ∈ patch.assignments) {block : Nat}
    (here : entry.2.block = some block) : entry'.2.block ≠ some block := by
  have distinct := separate.distinct
  rw [List.filterMap_append, List.nodup_append] at distinct
  intro here'
  exact distinct.2.2 _ (List.mem_filterMap.mpr ⟨_, member, here⟩) _ (List.mem_filterMap.mpr ⟨_, member', here'⟩) rfl

end SeparatePatch

theorem applyIpatchShared_code (store : SharedStore) (patch : CoreconfHashMapT Held) :
    (applyIpatchShared store patch).1 = 0 ↔ refusals Held.dropped store.map patch.assignments = [] := by
  rw [applyIpatchShared, applyIpatchShared_assignments]
  dsimp only
  rw [applyEntriesShared_error]
  cases refusals Held.dropped store.map patch.assignments <;> simp

theorem applyIpatchShared_map (store : SharedStore) (patch : CoreconfHashMapT Held) :
    (applyIpatchShared store patch).2.map =
      patch.assignments.foldl (bindOrDrop Held.dropped) store.map := by
  rw [applyIpatchShared, applyIpatchShared_assignments]
  exact applyEntriesShared_map _ _

theorem applyIpatchShared_freed {store : SharedStore} (inv : store.map.RepInv) (valid : patch.RepInv) {block : Nat} :
    block ∈ (applyIpatchShared store patch).2.freed ↔
      block ∈ store.freed ∨ ∃ entry ∈ patch.assignments,
        entry.1 ∉ refusals Held.dropped store.map patch.assignments ∧ block ∈ blockAt store.map entry.1 := by
  rw [applyIpatchShared, applyIpatchShared_assignments]
  exact applyEntriesShared_freed inv (assignments_distinct valid)

theorem SeparatePatch.overridden (separate : SeparatePatch target patch)
    (taken : refusals Held.dropped target patch.assignments = []) :
    Overridden ⟨target, []⟩ (applyIpatchShared ⟨target, []⟩ patch).2 patch := by
  have freed := fun block => @applyIpatchShared_freed patch ⟨target, []⟩ separate.store separate.update block
  intro sid
  rw [SharedStore.lookup, applyIpatchShared_map]
  cases bound : getCoreconfHashMap patch sid with
  | none =>
      have others : ∀ entry ∈ patch.assignments, sid ≠ entry.1 := by
        rintro ⟨_, held⟩ member rfl
        rw [(get_eq_some_iff separate.update).mpr member] at bound
        cases bound
      rw [overrideAll_other separate.store others, Option.elim_none, SharedStore.lookup]
      refine Option.map_congr fun held here => ?_
      have member := (get_eq_some_iff separate.store).mp here
      rw [Held.read_eq, Held.read_eq fun _ _ => List.not_mem_nil]
      intro block inside given
      rcases (freed block).mp given with gone | ⟨entry, patched, -, atEntry⟩
      · cases gone
      · obtain ⟨held', member', inside'⟩ := (mem_blockAt separate.store).mp atEntry
        exact others entry patched (congrArg Prod.fst (separate.target_block member member' inside inside'))
  | some held =>
      have member := (get_eq_some_iff separate.update).mp bound
      rw [overrideAll_entry separate.store (assignments_distinct separate.update) member, taken, Option.elim_some]
      rw [Held.dropped]
      split
      · rfl
      · rw [if_neg List.not_mem_nil, Option.map_some, Held.read_eq]
        intro block inside given
        rcases (freed block).mp given with gone | ⟨entry, -, -, atEntry⟩
        · cases gone
        · obtain ⟨held', member', inside'⟩ := (mem_blockAt separate.store).mp atEntry
          exact separate.patch_block member' member inside' inside

/-- A store that has the values of a patch, with their blocks. -/
structure Shares (store : SharedStore) (patch : CoreconfHashMapT Held) : Prop where
  inv : store.map.RepInv
  update : patch.RepInv
  containers : ∀ entry ∈ patch.assignments, entry.2.block.isSome = entry.2.value.isContainer
  bound : ∀ entry ∈ patch.assignments,
    getCoreconfHashMap store.map entry.1 = if entry.2.dropped then none else some entry.2
  kept : ∀ entry ∈ patch.assignments, ∀ block, entry.2.block = some block → block ∉ store.freed

theorem SeparatePatch.shares (separate : SeparatePatch target patch)
    (taken : refusals Held.dropped target patch.assignments = []) :
    Shares (applyIpatchShared ⟨target, []⟩ patch).2 patch where
  inv := by
    rw [applyIpatchShared_map]
    exact overrideAll_repInv separate.store
  update := separate.update
  containers entry member := separate.containers entry (List.mem_append_right _ member)
  bound entry member := by
    rw [applyIpatchShared_map, overrideAll_entry separate.store (assignments_distinct separate.update) member, taken,
      if_neg List.not_mem_nil]
  kept entry member block inside given := by
    rcases (applyIpatchShared_freed separate.store separate.update).mp given with gone | ⟨other, -, -, atOther⟩
    · cases gone
    · obtain ⟨held, member', inside'⟩ := (mem_blockAt separate.store).mp atOther
      exact separate.patch_block member' member inside' inside

namespace Shares

variable {store : SharedStore}

theorem settled (shares : Shares store patch) : SettledEntries Held.dropped store.map patch.assignments := by
  intro entry member
  rw [mem_chainKeys_iff shares.inv, shares.bound entry member]
  cases entry.2.dropped <;> simp

theorem again_get (shares : Shares store patch) (sid : UInt64) :
    getCoreconfHashMap (applyIpatchShared store patch).2.map sid = getCoreconfHashMap store.map sid := by
  rw [applyIpatchShared_map]
  by_cases listed : ∃ held, (sid, held) ∈ patch.assignments
  · obtain ⟨held, member⟩ := listed
    rw [overrideAll_entry shares.inv (assignments_distinct shares.update) member, shares.bound _ member]
    cases held.dropped <;> simp
  · exact overrideAll_other shares.inv fun entry member same => listed ⟨entry.2, same ▸ member⟩

/-- But it gives back the blocks of its own arrays and maps, where an insertion comes to them. -/
theorem again_freed (shares : Shares store patch) {block : Nat} :
    block ∈ (applyIpatchShared store patch).2.freed ↔
      block ∈ store.freed ∨ ∃ entry ∈ patch.assignments, store.map.Found entry.1 ∧ entry.2.block = some block := by
  rw [applyIpatchShared_freed shares.inv shares.update]
  refine or_congr_right (exists_congr fun entry => and_congr_right fun member => ?_)
  rw [mem_refusals_settled shares.inv shares.settled, blockAt, shares.bound entry member]
  cases dropped : entry.2.dropped with
  | true =>
      have null : entry.2.value = .null := by
        rw [Held.dropped] at dropped
        unfold isNull at dropped
        split at dropped
        · assumption
        · cases dropped
      have none : entry.2.block = none := by
        rw [← Option.not_isSome_iff_eq_none, shares.containers entry member, null]
        exact Bool.false_ne_true
      simp [none]
  | false =>
      have listed : ∃ entry' ∈ patch.assignments, entry'.1 = entry.1 ∧ entry'.2.dropped = false :=
        ⟨entry, member, rfl, dropped⟩
      simp [listed]

/-- So the same patch again leaves every binding the same exactly where an insertion comes to no SID
that it binds to an array or a map. -/
theorem again_iff (shares : Shares store patch) :
    (∀ sid, (applyIpatchShared store patch).2.lookup sid = store.lookup sid) ↔
      ∀ sid held, getCoreconfHashMap patch sid = some held → held.value.isContainer → ¬ store.map.Found sid := by
  constructor
  · intro same sid held bound container found
    have member := (get_eq_some_iff shares.update).mp bound
    obtain ⟨block, inside⟩ := Option.isSome_iff_exists.mp ((shares.containers _ member).trans container)
    have here : getCoreconfHashMap store.map sid = some held := by
      rw [shares.bound _ member, if_neg]
      intro dropped
      rw [Held.dropped] at dropped
      cases value : held.value <;> simp [value, isNull, CoreconfValueT.isContainer] at dropped container
    have now := same sid
    rw [SharedStore.lookup, SharedStore.lookup, shares.again_get, here, Option.map_some, Option.map_some,
      Held.read_eq (shares.kept _ member), Held.read, if_pos] at now
    · cases now
    · rw [inside]
      simpa using shares.again_freed.mpr (.inr ⟨_, member, found, inside⟩)
  · intro lost sid
    rw [SharedStore.lookup, SharedStore.lookup, shares.again_get]
    refine Option.map_congr fun held here => ?_
    have same : ∀ block, held.block = some block →
        (block ∈ (applyIpatchShared store patch).2.freed ↔ block ∈ store.freed) := by
      intro block inside
      rw [shares.again_freed]
      refine or_iff_left ?_
      rintro ⟨entry, member, found, inside'⟩
      refine lost entry.1 entry.2 ((get_eq_some_iff shares.update).mpr member) ?_ found
      rw [← shares.containers entry member, inside']
      rfl
    unfold Held.read
    cases inside : held.block with
    | none => rfl
    | some block => simp [same block inside]

end Shares

theorem SeparatePatch.perm (separate : SeparatePatch target patch) {patch' : CoreconfHashMapT Held}
    (inv : patch'.RepInv) (same : ∀ object, object ∈ patch'.objects ↔ object ∈ patch.objects) :
    SeparatePatch target patch' := by
  have perm := (assignments_perm separate.update inv same).append_left target.assignments
  exact ⟨separate.store, inv, fun entry member => separate.containers entry (perm.mem_iff.mp member),
    ((perm.filterMap _).nodup_iff).mpr separate.distinct⟩

theorem RoomFor.taken (room : RoomFor target patch) (separate : SeparatePatch target patch) :
    refusals Held.dropped target patch.assignments = [] :=
  (refusals_eq_nil_iff separate.store).mpr fun key =>
    ChainOrder.taken_of_room (chainEntries_distinct key (assignments_distinct separate.update)) (room key)

/-- Where there is room, a patch with the same objects does the same. -/
theorem RoomFor.anyOrder (room : RoomFor target patch) (separate : SeparatePatch target patch)
    {patch' : CoreconfHashMapT Held} (inv : patch'.RepInv)
    (same : ∀ object, object ∈ patch'.objects ↔ object ∈ patch.objects) :
    (applyIpatchShared ⟨target, []⟩ patch').1 = 0 ∧
      ∀ sid, (applyIpatchShared ⟨target, []⟩ patch').2.lookup sid =
        (applyIpatchShared ⟨target, []⟩ patch).2.lookup sid := by
  have separate' := separate.perm inv same
  have room' : RoomFor target patch' := fun key =>
    (room key).perm (chainEntries_perm (assignments_perm separate.update inv same) key)
  have gets : getCoreconfHashMap patch' = getCoreconfHashMap patch := by
    funext sid
    refine Option.ext fun held => ?_
    rw [inv.get_eq_some, separate.update.get_eq_some, same]
  refine ⟨(applyIpatchShared_code _ _).mpr (room'.taken separate'), fun sid => ?_⟩
  rw [separate'.overridden (room'.taken separate') sid, separate.overridden (room.taken separate) sid, gets]

/-- A patch whose chain of one key has the same objects in another order. -/
private theorem reordered (inv : patch.RepInv) {key : UInt64} {entries : List (ChainOrder.Entry UInt64)}
    (perm : entries.Perm (chainEntries Held.dropped key patch.assignments)) :
    ∃ patch' : CoreconfHashMapT Held, patch'.RepInv ∧
      (∀ object, object ∈ patch'.objects ↔ object ∈ patch.objects) ∧
      chainEntries Held.dropped key patch'.assignments = entries := by
  set pair := fun object : CoreconfObjectT Held => (object.key, (object.value.map Held.dropped).getD true)
  have pairs : ∀ chain : List (CoreconfObjectT Held), (∀ object ∈ chain, object.value ≠ none) →
      (chain.filterMap fun object => object.value.map fun held => (object.key, held.dropped)) = chain.map pair := by
    intro chain noNull
    induction chain with
    | nil => rfl
    | cons object rest ih =>
        obtain ⟨first, later⟩ := List.forall_mem_cons.mp noNull
        obtain ⟨value, some⟩ := Option.ne_none_iff_exists'.mp first
        rw [List.filterMap_cons, some, Option.map_some, ih later, List.map_cons]
        simp [pair, some]
  have noNull : ∀ object ∈ patch.chain key, object.value ≠ none := fun object member =>
    inv.noNull object (CoreconfHashMapT.RepInv.mem_objects_of_chain member)
  rw [chainEntries_assignments inv, pairs _ noNull] at perm
  obtain ⟨chain, mapped, order⟩ : ∃ chain : List (CoreconfObjectT Held),
      entries = chain.map pair ∧ chain.Perm (patch.chain key) :=
    (congrFun₂ (List.eq_map_comp_perm pair) entries (patch.chain key)).mpr perm
  obtain ⟨inv', here, same⟩ := inv.reorder order
  refine ⟨_, inv', same, ?_⟩
  rw [chainEntries_assignments inv', here, pairs chain fun object member => noNull object (order.mem_iff.mp member),
    mapped]

/-- Without room some order is refused. -/
theorem SeparatePatch.room (separate : SeparatePatch target patch)
    (every : ∀ patch' : CoreconfHashMapT Held, patch'.RepInv →
      (∀ object, object ∈ patch'.objects ↔ object ∈ patch.objects) →
      (applyIpatchShared ⟨target, []⟩ patch').1 = 0) : RoomFor target patch := by
  intro key
  refine ChainOrder.room_of_taken (chainEntries_distinct key (assignments_distinct separate.update)) ?_
  intro entries perm
  obtain ⟨patch', inv, same, rfl⟩ := reordered separate.update perm
  exact (refusals_eq_nil_iff separate.store).mp ((applyIpatchShared_code _ _).mp (every patch' inv same)) key

/-- Afterwards an insertion comes to every SID that is not pushed back. -/
theorem RoomFor.found_iff (room : RoomFor target patch) (separate : SeparatePatch target patch) {sid : UInt64}
    {held : Held} (member : (sid, held) ∈ patch.assignments) (bound : held.dropped = false) :
    (applyIpatchShared ⟨target, []⟩ patch).2.map.Found sid ↔ ¬ PushedBack target patch sid := by
  have distinct := @chainEntries_distinct _ Held.dropped _ sid (assignments_distinct separate.update)
  have nodup : (target.chainKeys sid).Nodup := separate.store.chain_distinct sid
  have inside : (sid, false) ∈ chainEntries Held.dropped sid patch.assignments :=
    List.mem_map.mpr ⟨(sid, held), List.mem_filter.mpr ⟨member, by simp⟩, by rw [bound]⟩
  rw [CoreconfHashMapT.Found, ← idxOf_chainKeys, applyIpatchShared_map,
    chainKeys_overrideAll separate.store (room.taken separate), PushedBack]
  by_cases present : sid ∈ target.chainKeys sid
  · have kept : sid ∉ ChainOrder.dropped (chainEntries Held.dropped sid patch.assignments) := by
      intro dropped
      obtain ⟨entry, member', same⟩ := List.mem_map.mp dropped
      obtain ⟨member', isDropped⟩ := List.mem_filter.mp member'
      rw [List.inj_on_of_nodup_map distinct member' inside same] at isDropped
      cases isDropped
    have front : (target.chainKeys sid).idxOf sid + _ < _ := (room sid).updates (sid, false) inside rfl present
    have moved := ChainOrder.idxOf_run_le nodup distinct present kept
    simp only [present, not_true_eq_false, false_and, not_false_eq_true, iff_true]
    omega
  · obtain ⟨before, after, split⟩ := List.append_of_mem inside
    rw [split] at distinct ⊢
    have apart : ∀ entry ∈ before, decide (entry.1 ≠ sid) = true := by
      intro entry member'
      rw [List.map_append, List.nodup_append] at distinct
      exact decide_eq_true (distinct.2.2 _ (List.mem_map_of_mem member') _ List.mem_cons_self)
    rw [ChainOrder.idxOf_run_new nodup distinct present, List.dropWhile_append_of_pos apart,
      List.dropWhile_cons_of_neg (by simp), List.tail_cons, and_iff_right present, not_lt]

theorem roomFor_few (separate : SeparatePatch target patch) (few : target.size + patch.size ≤ CORECONF_MAX_LOOP + 1) :
    RoomFor target patch := by
  intro key
  have chain : (target.chainKeys key).length ≤ target.size := by
    rw [CoreconfHashMapT.chainKeys, List.length_map]
    exact separate.store.chain_length_le key
  have entries :
      (news (target.chainKeys key) (chainEntries Held.dropped key patch.assignments)).length ≤ patch.size := by
    rw [separate.update.size_eq, news, List.length_map]
    refine (List.length_filter_le _ _).trans ?_
    rw [chainEntries, List.length_map]
    exact (List.length_filter_le _ _).trans (List.length_filterMap_le _ _)
  constructor
  · intro _
    omega
  · intro entry _ _ present
    have inside := List.idxOf_lt_length_of_mem present
    omega

/-- A patch whose objects come in another order answers and does the same. -/
def OrderFree (store : SharedStore) (patch : CoreconfHashMapT Held) : Prop :=
  ∀ patch' : CoreconfHashMapT Held, patch'.RepInv → (∀ object, object ∈ patch'.objects ↔ object ∈ patch.objects) →
    (applyIpatchShared store patch').1 = (applyIpatchShared store patch).1 ∧
    ∀ sid, (applyIpatchShared store patch').2.lookup sid = (applyIpatchShared store patch).2.lookup sid

/-- A patch that is applied with code 0 overrides the datastore. The order of its objects does not
matter, and it changes nothing when it is applied again, exactly where the chains have room for it
and an insertion does not come again to what it binds to an array or a map. -/
theorem ipatch_override_iff (separate : SeparatePatch target patch)
    (applied : (applyIpatchShared ⟨target, []⟩ patch).1 = 0) :
    (Overridden ⟨target, []⟩ (applyIpatchShared ⟨target, []⟩ patch).2 patch ∧
      OrderFree ⟨target, []⟩ patch ∧
      ∀ sid, (applyIpatchShared (applyIpatchShared ⟨target, []⟩ patch).2 patch).2.lookup sid =
        (applyIpatchShared ⟨target, []⟩ patch).2.lookup sid) ↔
    RoomFor target patch ∧
      ∀ sid held, getCoreconfHashMap patch sid = some held → held.value.isContainer →
        PushedBack target patch sid := by
  have taken := (applyIpatchShared_code _ _).mp applied
  have bound : ∀ held : Held, held.value.isContainer → held.dropped = false := by
    intro held container
    rw [Held.dropped]
    cases value : held.value <;> simp [value, isNull, CoreconfValueT.isContainer] at container ⊢
  have pushed : RoomFor target patch → ∀ sid held, getCoreconfHashMap patch sid = some held →
      held.value.isContainer →
      (¬ (applyIpatchShared ⟨target, []⟩ patch).2.map.Found sid ↔ PushedBack target patch sid) := by
    intro room sid held here container
    rw [room.found_iff separate ((get_eq_some_iff separate.update).mp here) (bound held container), not_not]
  rw [(separate.shares taken).again_iff]
  constructor
  · rintro ⟨-, orderFree, lost⟩
    have room : RoomFor target patch := separate.room fun patch' inv same => by
      rw [(orderFree patch' inv same).1, applied]
    exact ⟨room, fun sid held here container => (pushed room sid held here container).mp (lost sid held here container)⟩
  · rintro ⟨room, back⟩
    refine ⟨separate.overridden taken, fun patch' inv same => ?_, fun sid held here container =>
      (pushed room sid held here container).mpr (back sid held here container)⟩
    rw [applied]
    exact room.anyOrder separate inv same

def heldMap (members : List (UInt64 × Held)) : CoreconfHashMapT Held :=
  members.foldl (bindOrDrop fun _ => false) createCoreconfHashmap

theorem heldMap_repInv (members : List (UInt64 × Held)) : (heldMap members).RepInv := overrideAll_repInv repInv_create

/-- {20: 6, 21: null, 22: "c"} on {10: "t", 20: 5, 21: true}. -/
theorem values_overridden :
    Overridden ⟨heldMap [(10, ⟨.string (.ofBuffer [116]), none⟩), (20, ⟨.uint8 5, none⟩), (21, ⟨.true, none⟩)], []⟩
      (applyIpatchShared
        ⟨heldMap [(10, ⟨.string (.ofBuffer [116]), none⟩), (20, ⟨.uint8 5, none⟩), (21, ⟨.true, none⟩)], []⟩
        (heldMap [(20, ⟨.uint8 6, none⟩), (21, ⟨.null, none⟩), (22, ⟨.string (.ofBuffer [99]), none⟩)])).2
      (heldMap [(20, ⟨.uint8 6, none⟩), (21, ⟨.null, none⟩), (22, ⟨.string (.ofBuffer [99]), none⟩)]) := by
  have separate : SeparatePatch
      (heldMap [(10, ⟨.string (.ofBuffer [116]), none⟩), (20, ⟨.uint8 5, none⟩), (21, ⟨.true, none⟩)])
      (heldMap [(20, ⟨.uint8 6, none⟩), (21, ⟨.null, none⟩), (22, ⟨.string (.ofBuffer [99]), none⟩)]) :=
    ⟨heldMap_repInv _, heldMap_repInv _, by decide +kernel, by decide +kernel⟩
  refine ((ipatch_override_iff separate (by decide +kernel)).mpr ⟨roomFor_few separate (by decide +kernel), ?_⟩).1
  intro sid held here container
  have none : ∀ entry ∈ (heldMap [(20, ⟨.uint8 6, none⟩), (21, ⟨.null, none⟩),
      (22, ⟨.string (.ofBuffer [99]), none⟩)]).assignments, entry.2.value.isContainer = false := by decide +kernel
  rw [none _ ((get_eq_some_iff separate.update).mp here)] at container
  cases container

/-- {5: [7]} applied twice to the empty datastore: SID 5 is bound to an array that is given back. -/
theorem shared_array_given_back :
    SeparatePatch createCoreconfHashmap (heldMap [(5, ⟨.array [.uint8 7], some 0⟩)]) ∧
    (applyIpatchShared ⟨createCoreconfHashmap, []⟩ (heldMap [(5, ⟨.array [.uint8 7], some 0⟩)])).1 = 0 ∧
    (applyIpatchShared ⟨createCoreconfHashmap, []⟩ (heldMap [(5, ⟨.array [.uint8 7], some 0⟩)])).2.lookup 5 =
      some (some (.array [.uint8 7])) ∧
    (applyIpatchShared
      (applyIpatchShared ⟨createCoreconfHashmap, []⟩ (heldMap [(5, ⟨.array [.uint8 7], some 0⟩)])).2
      (heldMap [(5, ⟨.array [.uint8 7], some 0⟩)])).2.lookup 5 = some none :=
  ⟨⟨repInv_create, heldMap_repInv _, by decide +kernel, by decide +kernel⟩, by decide +kernel, rfl, rfl⟩

end Coreconf
