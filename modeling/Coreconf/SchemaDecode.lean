import Coreconf.Codec

set_option autoImplicit false

/- coreconf-value of coreconf.cddl, and which of its items the decoder reads as a whole. -/
namespace Cbor.Item

open Coreconf (Tree KeptLength)

/-- The grammar of coreconf-value. -/
inductive CoreconfValue : Item → Prop
  | uint (w n) : CoreconfValue (.uint w n)
  | nint (w) {n} (range : n < 2 ^ 63) : CoreconfValue (.nint w n)
  | tstr (w) {bytes} (noNul : (0 : UInt8) ∉ bytes) : CoreconfValue (.tstr w bytes)
  | tstrChunks {chunks} (noNul : (0 : UInt8) ∉ chunks.flatMap Prod.snd) : CoreconfValue (.tstrChunks chunks)
  | float16 (n) : CoreconfValue (.primitive .two n)
  | float32 (n) : CoreconfValue (.primitive .four n)
  | float64 (n) : CoreconfValue (.primitive .eight n)
  | bool (b : Bool) : CoreconfValue (.primitive .immediate (if b then 21 else 20))
  | array (framing) {items} (each : ∀ item ∈ items, CoreconfValue item) : CoreconfValue (.list framing items)
  | map (framing) {entries} (keys : ∀ entry ∈ entries, ∃ w n, entry.1 = .uint w n)
      (values : ∀ entry ∈ entries, CoreconfValue entry.2) : CoreconfValue (.map framing entries)

mutual

/-- A tree of the type of the item, with all its elements and entries. A text is the
same if `snprintf` keeps it; a shorter float is any double. -/
def Shows : Item → Tree → Prop
  | uint _ n, .int i => i = n
  | nint _ n, .int i => i = -1 - n
  | tstr _ bytes, .str s => KeptLength bytes.length → s = bytes
  | tstrChunks chunks, .str s => s = chunks.flatMap Prod.snd
  | primitive .immediate n, .bool b => n = if b then 21 else 20
  | primitive .two _, .real _ => True
  | primitive .four _, .real _ => True
  | primitive .eight n, .real bits => bits = UInt64.ofNat n
  | list _ items, .list trees => ShowsItems items trees
  | map _ entries, .map members => members.length = entries.length ∧ ShowsEntries entries members
  | _, _ => False

def ShowsItems : List Item → List Tree → Prop
  | [], [] => True
  | item :: rest, tree :: trees => Shows item tree ∧ ShowsItems rest trees
  | _, _ => False

def ShowsEntries : List (Item × Item) → List (Nat × Tree) → Prop
  | [], _ => True
  | (key, item) :: rest, members =>
      (∃ sid tree, sid? key = some sid ∧ FinMap.lookup sid.toNat members = some tree ∧ Shows item tree) ∧
        ShowsEntries rest members

end

/-- No text is in chunks, no float shorter than eight bytes, no map longer than 51 entries. -/
def Held (item : Item) : Prop :=
  item.Each fun
    | tstrChunks _ => False
    | primitive .two _ => False
    | primitive .four _ => False
    | map _ entries => entries.length ≤ maxEntries
    | _ => True

/-- What the decoder holds of the schema, at this depth of its own. -/
structure Within (indent : Nat) (item : Item) : Prop where
  shallow : indent + item.levels ≤ Coreconf.CORECONF_MAX_DEPTH
  held : item.Held
  distinct : item.DistinctKeys

theorem showsItems_iff {items : List Item} {trees : List Tree} :
    ShowsItems items trees ↔ List.Forall₂ Shows items trees := by
  induction items generalizing trees with
  | nil => cases trees <;> simp [ShowsItems]
  | cons item rest ih => cases trees <;> simp [ShowsItems, ih]

theorem showsEntries_iff {entries : List (Item × Item)} {members : List (Nat × Tree)} :
    ShowsEntries entries members ↔ ∀ entry ∈ entries, ∃ sid tree, sid? entry.1 = some sid ∧
      FinMap.lookup sid.toNat members = some tree ∧ Shows entry.2 tree := by
  induction entries with
  | nil => simp [ShowsEntries]
  | cons entry rest ih => simp [ShowsEntries, ih]

theorem within_list_iff {indent : Nat} {framing : Framing} {items : List Item} :
    (list framing items).Within indent ↔
      indent ≤ Coreconf.CORECONF_MAX_DEPTH ∧ ∀ item ∈ items, item.Within (indent + 1) := by
  constructor
  · rintro ⟨shallow, held, distinct⟩
    rw [levels] at shallow
    refine ⟨by omega, fun item member => ⟨?_, (each_list.mp held).2 item member,
      (each_list.mp distinct).2 item member⟩⟩
    have lower := levelsItems_le member
    omega
  · rintro ⟨here, each⟩
    refine ⟨?_, each_list.mpr ⟨trivial, fun item member => (each item member).held⟩,
      each_list.mpr ⟨trivial, fun item member => (each item member).distinct⟩⟩
    rw [levels]
    induction items with
    | nil => exact here
    | cons item rest ih =>
        obtain ⟨first, others⟩ := List.forall_mem_cons.mp each
        have low := first.shallow
        have lows := ih others
        rw [levelsItems]
        omega

theorem within_map_iff {indent : Nat} {framing : Framing} {entries : List (Item × Item)} :
    (map framing entries).Within indent ↔
      indent ≤ Coreconf.CORECONF_MAX_DEPTH ∧ entries.length ≤ maxEntries ∧
        (entries.map fun entry => entry.1.sid?).Nodup ∧ ∀ entry ∈ entries, entry.2.Within (indent + 1) := by
  constructor
  · rintro ⟨shallow, held, distinct⟩
    rw [levels] at shallow
    refine ⟨by omega, (each_map.mp held).1, (each_map.mp distinct).1, fun entry member =>
      ⟨?_, (each_map.mp held).2 entry member, (each_map.mp distinct).2 entry member⟩⟩
    have lower := levelsEntries_le member
    omega
  · rintro ⟨here, few, keys, each⟩
    refine ⟨?_, each_map.mpr ⟨few, fun entry member => (each entry member).held⟩,
      each_map.mpr ⟨keys, fun entry member => (each entry member).distinct⟩⟩
    rw [levels]
    clear few keys
    induction entries with
    | nil => exact here
    | cons entry rest ih =>
        obtain ⟨first, others⟩ := List.forall_mem_cons.mp each
        have low := first.shallow
        have lows := ih others
        rw [levelsEntries]
        omega

end Cbor.Item

namespace Coreconf

open Cbor (Item Framing)

/-- A state at an item, with backups left for its containers. -/
structure Placed (st : ZcborState) (item : Item) (rest : List UInt8) : Prop where
  payload : st.payload = item.encode ++ rest
  left : st.elemCount ≠ 0
  room : item.depth + st.backupList.length ≤ st.numBackups
  size : st.payload.length ≤ ZCBOR_LARGE_ELEM_COUNT

/-- The decoder returns a value of the item with everything in it, its integers of 64
bits, and has consumed exactly the item. -/
def Complete (st : ZcborState) (indent : Nat) (item : Item) (rest : List UInt8) : Prop :=
  ∃ value, Decodes st indent (some value, st.after rest) ∧ item.Shows value.toTree ∧ value.Widest

/-- How the decoder can leave an item: behind it, at it, or inside one of its
containers, whose backup is then not given up. -/
inductive Left (st : ZcborState) (indent : Nat) (item : Item) (rest : List UInt8) :
    Option CoreconfValueT × ZcborState → Prop
  | behind {value} (shown : item.Shows value.toTree → item.Within indent) :
      Left st indent item rest (some value, st.after rest)
  | refused (notKey : indent ≤ CORECONF_MAX_DEPTH → item.sid? = none) :
      Left st indent item rest (none, st)
  | inside {value st'} (deeper : st.backupList.length < st'.backupList.length) :
      Left st indent item rest (value, st')

def EndsLeft (item : Item) : Prop :=
  ∀ ⦃st indent rest result⦄, Placed st item rest → Decodes st indent result →
    Left st indent item rest result

/-- The elements of an array are all behind, or the loop is inside one of them; where
one is refused it does not end. -/
theorem arrayReturns_left {framing : Framing} {indent : Nat} {items : List Item}
    (wellFormed : ∀ item ∈ items, item.WellFormed) (each : ∀ item ∈ items, EndsLeft item)
    {elements elements' : List CoreconfValueT} {st st' : ZcborState} {rest : List UInt8}
    (payload : st.payload = Item.encodeItems items ++ (framing.closing ++ rest))
    (inside : Inside framing items.length st) {backup : Backup} {backups : List Backup}
    (saved : st.backupList = backup :: backups)
    (room : Item.depthItems items + st.backupList.length ≤ st.numBackups)
    (size : st.payload.length ≤ ZCBOR_LARGE_ELEM_COUNT) {ended : Bool}
    (returned : ArrayReturns indent (elements, st) (ended, elements', st')) :
    (∃ values, elements' = elements ++ values ∧ st' = st.leave backup backups rest ∧
      List.Forall₂ (fun item value => item.Shows value.toTree → item.Within (indent + 1)) items values) ∨
    st.backupList.length ≤ st'.backupList.length := by
  induction items generalizing elements st with
  | nil =>
      have atEnd := arrayReturns_atEnd indent elements (inside.atEnd payload)
      rw [zcborListEndDecode, inside.leave payload saved] at atEnd
      cases Fuel.Returns.unique (Fuel.iterate_monotone (arrayBody_monotone indent)) returned atEnd
      exact Or.inl ⟨[], (List.append_nil _).symm, rfl, .nil⟩
  | cons item later ih =>
      obtain ⟨first, others⟩ := List.forall_mem_cons.mp wellFormed
      obtain ⟨endsFirst, endsOthers⟩ := List.forall_mem_cons.mp each
      rw [Item.encodeItems, List.append_assoc] at payload
      rw [Item.depthItems] at room
      set tail := Item.encodeItems later ++ (framing.closing ++ rest)
      have sizes := congrArg List.length payload
      rw [List.length_append] at sizes
      have before := inside.not_atEnd first payload
      have placed : Placed st item tail := ⟨payload, inside.left, by omega, size⟩
      obtain ⟨value, now, decoded, again⟩ := arrayReturns_inside before returned
      cases endsFirst placed decoded with
      | behind shown =>
          rename_i value
          have rest' := ih others endsOthers rfl (inside.after tail) saved
            (by simp only [ZcborState.after]; omega) (by simp only [ZcborState.after]; omega) again
          rcases rest' with ⟨values, all, left, every⟩ | deeper
          · rw [storeElement, addToCoreconfArray, List.append_assoc] at all
            exact Or.inl ⟨value :: values, all, left, .cons shown every⟩
          · exact Or.inr deeper
      | refused notKey => exact absurd returned (arrayReturns_stuck before decoded _)
      | inside deeper =>
          exact Or.inr (Nat.le_of_lt_succ (deeper.trans_le again.backups_le))

/-- An entry of a map as it is read above the deepest level. -/
def EntryLeft (indent : Nat) (entry : Item × Item) (member : UInt64 × CoreconfValueT) : Prop :=
  entry.1.sid? = some member.1 ∧
    (entry.2.Shows member.2.toTree → entry.2.Within (indent + 1))

/-- The entries of a map are all behind, or the loop is inside one of them or was given
up where one was refused. -/
theorem mapReturns_left {framing : Framing} {indent : Nat} {entries : List (Item × Item)}
    (keys : ∀ entry ∈ entries, entry.1.WellFormed) (values : ∀ entry ∈ entries, entry.2.WellFormed)
    (each : ∀ entry ∈ entries, EndsLeft entry.2) (shallow : indent < CORECONF_MAX_DEPTH)
    (loop : MapLoop) {left : MapLoop} {rest : List UInt8}
    (payload : loop.st.payload = Item.encodeEntries entries ++ (framing.closing ++ rest))
    (inside : Inside framing (2 * entries.length) loop.st) {backup : Backup} {backups : List Backup}
    (saved : loop.st.backupList = backup :: backups) (few : loop.loopCount ≤ Item.maxEntries)
    (room : Item.depthEntries entries + loop.st.backupList.length ≤ loop.st.numBackups)
    (size : loop.st.payload.length ≤ ZCBOR_LARGE_ELEM_COUNT) {ended : Bool}
    (returned : MapReturns indent loop (ended, left)) :
    (∃ members, left.map = insertMembers members loop.map ∧ left.st = loop.st.leave backup backups rest ∧
      loop.loopCount + entries.length ≤ Item.maxEntries ∧
      List.Forall₂ (EntryLeft indent) entries members) ∨
    loop.st.backupList.length ≤ left.st.backupList.length := by
  induction entries generalizing loop with
  | nil =>
      have atEnd := mapReturns_atEnd indent (inside.atEnd payload)
      rw [zcborMapEndDecode, inside.leave payload saved] at atEnd
      cases Fuel.Returns.unique (Fuel.iterate_monotone (mapBody_monotone indent)) returned atEnd
      exact Or.inl ⟨[], rfl, rfl, few, .nil⟩
  | cons entry later ih =>
      obtain ⟨key, item⟩ := entry
      obtain ⟨firstKey, otherKeys⟩ := List.forall_mem_cons.mp keys
      obtain ⟨first, others⟩ := List.forall_mem_cons.mp values
      obtain ⟨endsFirst, endsOthers⟩ := List.forall_mem_cons.mp each
      rw [Item.encodeEntries, List.append_assoc, List.append_assoc] at payload
      rw [Item.depthEntries] at room
      rw [List.length_cons, Nat.mul_succ] at inside
      set tail := Item.encodeEntries later ++ (framing.closing ++ rest)
      have keyRead := zcborUint64Decode_item firstKey payload inside.left
      rcases mapReturns_inside (inside.not_atEnd firstKey payload) returned with
        ⟨same, -⟩ | ⟨sid, afterKey, value, now, within, keyed, decoded, again⟩
      · cases same
        exact Or.inr (le_refl _)
      rw [keyed] at keyRead
      obtain ⟨sid, keySid, same⟩ := Option.map_eq_some_iff.mp keyRead.symm
      cases same
      have afterKey := inside.after (item.encode ++ tail)
      have sizes := congrArg List.length payload
      simp only [List.length_append] at sizes
      have placed : Placed (loop.st.after (item.encode ++ tail)) item tail :=
        ⟨rfl, afterKey.left, by simp only [ZcborState.after]; omega, by
          simp only [ZcborState.after, List.length_append]
          omega⟩
      cases endsFirst placed decoded with
      | behind shown =>
          rename_i value
          have rest' := ih otherKeys others endsOthers
            ⟨storeMember loop.map sid (some value), loop.loopCount + 1,
              (loop.st.after (item.encode ++ tail)).after tail⟩
            rfl (afterKey.after tail) saved (Nat.succ_le_succ within) (by simp only [ZcborState.after]; omega)
            (by simp only [ZcborState.after]; omega) again
          rcases rest' with ⟨members, all, left, count, every⟩ | deeper
          · refine Or.inl ⟨(sid, value) :: members, all, left, ?_, .cons ⟨keySid, shown⟩ every⟩
            simp only [List.length_cons] at count ⊢
            omega
          · exact Or.inr deeper
      | refused notKey =>
          -- the refused value is the next key, and none
          have notSid := zcborUint64Decode_item first rfl afterKey.left
          rw [notKey (Nat.succ_le_of_lt shallow), Option.map_none] at notSid
          rcases mapReturns_inside (afterKey.not_atEnd first rfl) again with
            ⟨same, -⟩ | ⟨key', afterKey', value', now', -, keyed', -⟩
          · cases same
            exact Or.inr (le_refl _)
          · rw [notSid] at keyed'
            cases keyed'
      | inside deeper =>
          have popped : now.backupList.length ≤ left.st.backupList.length + 1 := again.backups_le
          exact Or.inr (Nat.le_of_lt_succ (deeper.trans_le popped))

/-- The values below the deepest level are not read, and are taken for keys in turn. -/
theorem mapReturns_deepest {framing : Framing} {items : List Item}
    (wellFormed : ∀ item ∈ items, item.WellFormed) (loop : MapLoop) {left : MapLoop} {rest : List UInt8}
    (payload : loop.st.payload = Item.encodeItems items ++ (framing.closing ++ rest))
    (inside : Inside framing items.length loop.st) {backup : Backup} {backups : List Backup}
    (saved : loop.st.backupList = backup :: backups) {ended : Bool}
    (returned : MapReturns CORECONF_MAX_DEPTH loop (ended, left)) :
    left.map = loop.map ∧ (left.st = loop.st.leave backup backups rest ∨
      loop.st.backupList.length ≤ left.st.backupList.length) := by
  induction items generalizing loop with
  | nil =>
      have atEnd := mapReturns_atEnd CORECONF_MAX_DEPTH (inside.atEnd payload)
      rw [zcborMapEndDecode, inside.leave payload saved] at atEnd
      cases Fuel.Returns.unique (Fuel.iterate_monotone (mapBody_monotone _)) returned atEnd
      exact ⟨rfl, Or.inl rfl⟩
  | cons item later ih =>
      obtain ⟨first, others⟩ := List.forall_mem_cons.mp wellFormed
      rw [Item.encodeItems, List.append_assoc] at payload
      rcases mapReturns_inside (inside.not_atEnd first payload) returned with
        ⟨same, -⟩ | ⟨sid, afterKey, value, now, -, keyed, decoded, again⟩
      · cases same
        exact ⟨rfl, Or.inr (le_refl _)⟩
      rw [zcborUint64Decode_item first payload inside.left] at keyed
      obtain ⟨sid, -, same⟩ := Option.map_eq_some_iff.mp keyed
      cases same
      rw [decodes_iff, if_pos (Nat.lt_succ_self _)] at decoded
      cases decoded
      exact ih others ⟨loop.map, loop.loopCount + 1, loop.st.after _⟩ rfl (inside.after _) saved again

private theorem encodeEntries_flat (entries : List (Item × Item)) :
    Item.encodeEntries entries = Item.encodeItems (entries.flatMap fun entry => [entry.1, entry.2]) := by
  induction entries with
  | nil => rfl
  | cons entry rest ih => simp [Item.encodeEntries, Item.encodeItems, ih]

private theorem within_items {indent : Nat} {items : List Item} {values : List CoreconfValueT}
    (every : List.Forall₂ (fun item value => item.Shows value.toTree → item.Within indent) items values)
    (shown : List.Forall₂ (fun item value => item.Shows value.toTree) items values) :
    ∀ item ∈ items, item.Within indent := by
  induction every with
  | nil => simp
  | cons first others ih =>
      cases shown with
      | cons shownFirst shownOthers =>
          exact List.forall_mem_cons.mpr ⟨first shownFirst, ih shownOthers⟩

private theorem entryLeft_mem {indent : Nat} {entries : List (Item × Item)}
    {members : List (UInt64 × CoreconfValueT)} (every : List.Forall₂ (EntryLeft indent) entries members) :
    (entries.map fun entry => entry.1.sid?) = members.map (fun member => some member.1) ∧
      ∀ entry ∈ entries, ∃ member ∈ members, EntryLeft indent entry member := by
  induction every with
  | nil => simp
  | cons first others ih =>
      obtain ⟨keys, each⟩ := ih
      rw [List.map_cons, List.map_cons, keys, first.1]
      refine ⟨rfl, List.forall_mem_cons.mpr ⟨⟨_, List.mem_cons_self, first⟩, fun entry member => ?_⟩⟩
      obtain ⟨read, within, left⟩ := each entry member
      exact ⟨read, List.mem_cons_of_mem _ within, left⟩

/-- A map that shows all the entries that were read has no key twice, and each of its
members shows its entry. -/
private theorem within_entries {indent : Nat} {framing : Framing} {entries : List (Item × Item)}
    {members : List (UInt64 × CoreconfValueT)} (every : List.Forall₂ (EntryLeft indent) entries members)
    (here : indent ≤ CORECONF_MAX_DEPTH) (few : entries.length ≤ Item.maxEntries)
    (shown : (Item.map framing entries).Shows
      (CoreconfValueT.hashmap (insertMembers members createCoreconfHashmap)).toTree) :
    (Item.map framing entries).Within indent := by
  have count := every.length_eq
  rw [CoreconfHashMapT.toTree_hashmap, Item.Shows, Item.showsEntries_iff,
    insertMembers_create (count ▸ few)] at shown
  set bindings := members.map fun member => (member.1.toNat, member.2.toTree) with listed
  have counted : bindings.length = entries.length := by rw [count, listed, List.length_map]
  rw [← counted, FinMap.length_ofList_iff] at shown
  obtain ⟨distinct, shown⟩ := shown
  obtain ⟨keys, each⟩ := entryLeft_mem every
  refine Item.within_map_iff.mpr ⟨here, few, ?_, fun entry member => ?_⟩
  · have numbers : bindings.map Prod.fst = (members.map fun member => member.1).map UInt64.toNat := by
      rw [listed, List.map_map, List.map_map]
      rfl
    rw [numbers] at distinct
    have wrapped : (members.map fun member => some member.1) = (members.map fun member => member.1).map some := by
      rw [List.map_map]
      rfl
    rw [keys, wrapped]
    exact (List.Nodup.of_map _ distinct).map (Option.some_injective _)
  · obtain ⟨read, within, keySid, shows⟩ := each entry member
    obtain ⟨sid, tree, found, bound, shown⟩ := shown entry member
    cases keySid.symm.trans found
    have here : (read.1.toNat, read.2.toTree) ∈ bindings := List.mem_map_of_mem within
    rw [FinMap.lookup_ofList distinct, FinMap.lookup_of_mem distinct here] at bound
    cases bound
    exact shows shown

private theorem endsLeft_scalar {item : Item} (wellFormed : item.WellFormed)
    (scalar : item.isContainer = false) : EndsLeft item := by
  intro st indent rest result placed decoded
  by_cases deep : CORECONF_MAX_DEPTH < indent
  · rw [decodes_iff, if_pos deep] at decoded
    subst decoded
    exact .refused fun shallow => absurd deep (Nat.not_lt.mpr shallow)
  have shallow := Nat.not_lt.mp deep
  have read := decodes_scalar wellFormed scalar indent placed.payload placed.left shallow
  cases found : item.value? with
  | none =>
      rw [found] at read
      cases decoded.unique read
      refine .refused fun _ => ?_
      cases item with
      | uint w n => cases found
      | _ => rfl
  | some value =>
      rw [found] at read
      cases decoded.unique read
      refine .behind fun _ => ?_
      cases item with
      | list framing items => cases scalar
      | map framing entries => cases scalar
      | primitive w n =>
          refine ⟨shallow, ?_, trivial⟩
          cases w with
          | two => cases found
          | four => cases found
          | _ => trivial
      | tstrChunks chunks => cases found
      | _ => exact ⟨shallow, trivial, trivial⟩

private theorem endsLeft_list {framing : Framing} {items : List Item}
    (wellFormed : Item.WellFormed (.list framing items)) (each : ∀ item ∈ items, EndsLeft item) :
    EndsLeft (.list framing items) := by
  intro st indent rest result placed decoded
  by_cases deep : CORECONF_MAX_DEPTH < indent
  · rw [decodes_iff, if_pos deep] at decoded
    subst decoded
    exact .refused fun _ => rfl
  obtain ⟨payload, left, room, size⟩ := placed
  rw [Item.depth] at room
  obtain ⟨ended, elements, st', returned, rfl⟩ :=
    (decodes_list_iff wellFormed payload left (by omega) (Nat.not_lt.mp deep)).mp decoded
  obtain ⟨inside, pushed, backups, shorter⟩ := atItems_entered wellFormed payload size
  cases wellFormed with
  | list fits members =>
      have ends := arrayReturns_left members each rfl inside rfl (by omega) (by omega) returned
      rcases ends with ⟨values, rfl, rfl, every⟩ | deeper
      · refine .behind fun shown => ?_
        rw [CoreconfHashMapT.toTree_array, Item.Shows, Item.showsItems_iff,
          List.forall₂_map_right_iff] at shown
        exact Item.within_list_iff.mpr ⟨Nat.not_lt.mp deep, within_items every shown⟩
      · exact .inside deeper

private theorem endsLeft_map {framing : Framing} {entries : List (Item × Item)}
    (wellFormed : Item.WellFormed (.map framing entries)) (each : ∀ entry ∈ entries, EndsLeft entry.2) :
    EndsLeft (.map framing entries) := by
  intro st indent rest result placed decoded
  by_cases deep : CORECONF_MAX_DEPTH < indent
  · rw [decodes_iff, if_pos deep] at decoded
    subst decoded
    exact .refused fun _ => rfl
  have here := Nat.not_lt.mp deep
  obtain ⟨payload, left, room, size⟩ := placed
  rw [Item.depth] at room
  obtain ⟨ended, loop, returned, rfl⟩ := (decodes_map_iff wellFormed payload left (by omega) here size).mp decoded
  obtain ⟨inside, pushed, backups, shorter⟩ := atEntries_entered wellFormed payload size
  cases wellFormed with
  | map fits keys values =>
      rcases here.lt_or_eq with shallow | rfl
      · have ends := mapReturns_left keys values each shallow _ rfl inside rfl (Nat.zero_le _)
          (show Item.depthEntries entries + (st.atEntries framing entries rest).backupList.length ≤
            (st.atEntries framing entries rest).numBackups by omega) (shorter.trans size) returned
        rcases ends with ⟨members, same, behind, few, every⟩ | deeper
        · rw [same, behind]
          exact .behind (within_entries every here (by omega))
        · exact .inside deeper
      · -- nothing is inserted at the deepest level
        have flat : (entries.flatMap fun entry => [entry.1, entry.2]).length = 2 * entries.length := by
          simp [Nat.mul_comm]
        rw [ZcborState.atEntries, encodeEntries_flat] at returned
        have ends := mapReturns_deepest (fun item member => by
            obtain ⟨entry, within, member⟩ := List.mem_flatMap.mp member
            rcases List.mem_pair.mp member with rfl | rfl
            · exact keys entry within
            · exact values entry within)
          _ rfl (by rw [flat]; exact inside) rfl returned
        obtain ⟨same, behind | deeper⟩ := ends
        · rw [same, behind]
          refine .behind fun shown => ?_
          rw [CoreconfHashMapT.toTree_hashmap, CoreconfHashMapT.content_create, Item.Shows] at shown
          have none : entries = [] := List.length_eq_zero_iff.mp shown.1.symm
          subst none
          exact Item.within_map_iff.mpr ⟨here, Nat.zero_le _, List.nodup_nil, by simp⟩
        · exact .inside deeper

/-- Every well-formed item is left in one of the three ways, by induction over the item. -/
theorem endsLeft {item : Item} (wellFormed : item.WellFormed) : EndsLeft item := by
  induction item with
  | list framing items ih =>
      refine endsLeft_list wellFormed fun item member => ih item member ?_
      cases wellFormed with
      | list fits members => exact members item member
  | map framing entries ih =>
      refine endsLeft_map wellFormed fun entry member => (ih entry member).2 ?_
      cases wellFormed with
      | map fits keys values => exact values entry member
  | _ => exact endsLeft_scalar wellFormed rfl

/-- An item that has a value which shows it. -/
def HasValue (item : Item) : Prop := ∃ value, item.value? = some value ∧ item.Shows value.toTree

private theorem hasValue_list {framing : Framing} {items : List Item}
    (each : ∀ item ∈ items, HasValue item) : HasValue (.list framing items) := by
  have read : ∃ values, Item.values? items = some values ∧
      List.Forall₂ (fun item value => item.Shows value.toTree) items values := by
    induction items with
    | nil => exact ⟨[], rfl, .nil⟩
    | cons item rest ih =>
        obtain ⟨⟨value, found, shown⟩, others⟩ := List.forall_mem_cons.mp each
        obtain ⟨values, foundOthers, shownOthers⟩ := ih others
        exact ⟨value :: values, by simp [Item.values?, found, foundOthers], .cons shown shownOthers⟩
  obtain ⟨values, found, shown⟩ := read
  refine ⟨.array values, by rw [Item.value?, found]; rfl, ?_⟩
  rw [CoreconfHashMapT.toTree_array, Item.Shows, Item.showsItems_iff, List.forall₂_map_right_iff]
  exact shown

private theorem hasValue_map {framing : Framing} {entries : List (Item × Item)}
    (few : entries.length ≤ Item.maxEntries)
    (distinct : (entries.map fun entry => entry.1.sid?).Nodup)
    (keys : ∀ entry ∈ entries, entry.1.sid?.isSome) (each : ∀ entry ∈ entries, HasValue entry.2) :
    HasValue (.map framing entries) := by
  have read : ∃ members, Item.members? entries = some members ∧ ∀ entry ∈ entries,
      ∃ member ∈ members, entry.1.sid? = some member.1 ∧ entry.2.Shows member.2.toTree := by
    clear few distinct
    induction entries with
    | nil => exact ⟨[], rfl, by simp⟩
    | cons entry rest ih =>
        obtain ⟨⟨value, found, shown⟩, others⟩ := List.forall_mem_cons.mp each
        obtain ⟨keyed, otherKeys⟩ := List.forall_mem_cons.mp keys
        obtain ⟨sid, keyed⟩ := Option.isSome_iff_exists.mp keyed
        obtain ⟨members, foundOthers, shownOthers⟩ := ih otherKeys others
        refine ⟨(sid, value) :: members, by simp [Item.members?, keyed, found, foundOthers],
          List.forall_mem_cons.mpr ⟨⟨_, List.mem_cons_self, keyed, shown⟩, fun entry member => ?_⟩⟩
        obtain ⟨read, within, both⟩ := shownOthers entry member
        exact ⟨read, List.mem_cons_of_mem _ within, both⟩
  obtain ⟨members, found, shown⟩ := read
  have count := Item.members?_length found
  have sids := Item.members?_distinct found distinct
  refine ⟨.hashmap (insertMembers members createCoreconfHashmap), ?_, ?_⟩
  · rw [Item.value?, if_neg (Nat.not_lt.mpr few), found]
    rfl
  rw [CoreconfHashMapT.toTree_hashmap, Item.Shows, Item.showsEntries_iff,
    insertMembers_create (count ▸ few)]
  set bindings := members.map fun member => (member.1.toNat, member.2.toTree) with listed
  have numbers : (bindings.map Prod.fst).Nodup := by
    have toNats : bindings.map Prod.fst = (members.map Prod.fst).map UInt64.toNat := by
      rw [listed, List.map_map, List.map_map]
      rfl
    rw [toNats]
    exact sids.map fun _ _ => UInt64.toNat_inj.mp
  refine ⟨by rw [FinMap.length_ofList_iff.mpr numbers, listed, List.length_map, count], ?_⟩
  intro entry member
  obtain ⟨read, within, keyed, shows⟩ := shown entry member
  have here : (read.1.toNat, read.2.toTree) ∈ bindings := List.mem_map_of_mem within
  refine ⟨read.1, read.2.toTree, keyed, ?_, shows⟩
  rw [FinMap.lookup_ofList numbers, FinMap.lookup_of_mem numbers here]

/-- What is held of the schema has a value, by induction over the grammar. -/
theorem hasValue {item : Item} (schema : item.CoreconfValue) (wellFormed : item.WellFormed)
    (held : item.Held) (distinct : item.DistinctKeys) : HasValue item := by
  induction schema with
  | uint w n =>
      cases wellFormed with
      | uint fits =>
          have small := fits.trans_le w.bound_le
          refine ⟨_, rfl, ?_⟩
          simp only [CoreconfValueT.toTree, Item.Shows, UInt64.toNat_ofNat']
          omega
  | nint w range =>
      refine ⟨_, by rw [Item.value?, if_pos range], ?_⟩
      simp only [CoreconfValueT.toTree, Item.Shows]
      exact flipped_toInt range
  | tstr w noNul =>
      refine ⟨_, rfl, fun kept => ?_⟩
      exact (formatTextString_kept noNul).mpr kept
  | tstrChunks noNul => cases held
  | float16 n => cases held
  | float32 n => cases held
  | float64 n => exact ⟨_, rfl, rfl⟩
  | bool b => cases b <;> exact ⟨_, rfl, rfl⟩
  | array framing each ih =>
      cases wellFormed with
      | list fits members =>
          exact hasValue_list fun item member => ih item member (members item member)
            ((Item.each_list.mp held).2 item member) ((Item.each_list.mp distinct).2 item member)
  | map framing keys values ih =>
      cases wellFormed with
      | map fits formedKeys formedValues =>
          refine hasValue_map (Item.each_map.mp held).1 (Item.each_map.mp distinct).1
            (fun entry member => ?_) fun entry member => ih entry member (formedValues entry member)
              ((Item.each_map.mp held).2 entry member) ((Item.each_map.mp distinct).2 entry member)
          obtain ⟨w, n, uint⟩ := keys entry member
          rw [uint]
          rfl

private theorem within_of_complete {item : Item} (wellFormed : item.WellFormed) {st : ZcborState}
    {indent : Nat} {rest : List UInt8} (placed : Placed st item rest)
    (complete : Complete st indent item rest) : item.Within indent := by
  obtain ⟨value, decoded, shown, -⟩ := complete
  generalize same : (some value, st.after rest) = result at decoded
  cases endsLeft wellFormed placed decoded with
  | behind within =>
      cases same
      exact within shown
  | refused _ => cases same
  | inside deeper =>
      cases same
      exact absurd deeper (Nat.lt_irrefl _)

/-- The decoder is complete for the schema exactly on the items that it holds. -/
theorem decoder_complete_iff {item : Item} (schema : item.CoreconfValue)
    (wellFormed : item.WellFormed) {st : ZcborState} (indent : Nat) {rest : List UInt8}
    (placed : Placed st item rest) : Complete st indent item rest ↔ item.Within indent := by
  constructor
  · exact within_of_complete wellFormed placed
  · intro within
    obtain ⟨value, found, shown⟩ := hasValue schema wellFormed within.held within.distinct
    have decoded := readsBack wellFormed found
      ⟨placed.payload, placed.left, placed.room, within.shallow, placed.size⟩
    exact ⟨value, decoded, shown, decoded.widest⟩

/-- {1: [2]} and a byte after it. -/
theorem decoder_complete_nested :
    Complete (zcborNewDecodeState 8 [0xA1, 0x01, 0x81, 0x02, 0x00] 1) 0
      (.map (.definite .immediate) [(.uint .immediate 1, .list (.definite .immediate) [.uint .immediate 2])])
      [0x00] := by
  refine (decoder_complete_iff ?_ ?_ 0 ⟨rfl, by decide, by decide, by decide⟩).mpr ?_
  · refine .map _ (fun entry member => ?_) fun entry member => ?_
    · cases List.mem_singleton.mp member
      exact ⟨_, _, rfl⟩
    · cases List.mem_singleton.mp member
      exact .array _ fun item member => by cases List.mem_singleton.mp member; exact .uint _ _
  · refine .map (by decide) (fun entry member => ?_) fun entry member => ?_
    · cases List.mem_singleton.mp member
      exact .uint (by decide)
    · cases List.mem_singleton.mp member
      exact .list (by decide) fun item member => by
        cases List.mem_singleton.mp member
        exact .uint (by decide)
  · exact ⟨by decide, ⟨by decide, ⟨trivial, trivial, trivial⟩, trivial⟩,
      ⟨by simp [Item.sid?], ⟨trivial, trivial, trivial⟩, trivial⟩⟩

/-- The half float 1.5 is not read and its map is given up inside. -/
theorem half_float_not_complete :
    ∃ item : Item, item.CoreconfValue ∧ item.WellFormed ∧
      Placed (zcborNewDecodeState 8 [0xA1, 0x01, 0xF9, 0x3E, 0x00] 1) item [] ∧
      ¬ Complete (zcborNewDecodeState 8 [0xA1, 0x01, 0xF9, 0x3E, 0x00] 1) 0 item [] := by
  have wellFormed : Item.WellFormed (.map (.definite .immediate)
      [(.uint .immediate 1, .primitive .two 0x3E00)]) := by
    refine .map (by decide) (fun entry member => ?_) fun entry member => ?_
    · cases List.mem_singleton.mp member
      exact .uint (by decide)
    · cases List.mem_singleton.mp member
      exact .primitive (by decide) (by decide)
  have placed : Placed (zcborNewDecodeState 8 [0xA1, 0x01, 0xF9, 0x3E, 0x00] 1)
      (.map (.definite .immediate) [(.uint .immediate 1, .primitive .two 0x3E00)]) [] :=
    ⟨rfl, by decide, by decide, by decide⟩
  refine ⟨_, .map _ (fun entry member => ?_) fun entry member => ?_, wellFormed, placed, ?_⟩
  · cases List.mem_singleton.mp member
    exact ⟨_, _, rfl⟩
  · cases List.mem_singleton.mp member
    exact .float16 _
  · intro complete
    have held := (within_of_complete wellFormed placed complete).held
    exact (Item.each_map.mp held).2 _ List.mem_cons_self

end Coreconf
