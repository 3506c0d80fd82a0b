import Coreconf.Codec
import Coreconf.ItemContents

set_option autoImplicit false

/- What the decoder makes of a value with more levels of containers than it has backups
for. -/
namespace Cbor.Item

/-- One level too deep, but only at its very end: an empty container as the last value of
a map that is the last value of the map around it, and so on. -/
inductive Brims : Nat → Item → Prop
  | list (framing) : Brims 0 (.list framing [])
  | map (framing) : Brims 0 (.map framing [])
  | last {nesting framing before key item} (within : depthEntries before ≤ nesting)
      (brims : Brims nesting item) : Brims (nesting + 1) (.map framing (before ++ [(key, item)]))

theorem Brims.lt_depth {nesting : Nat} {item : Item} (brims : item.Brims nesting) : nesting < item.depth := by
  induction brims with
  | list framing => exact Nat.zero_lt_one
  | map framing => exact Nat.zero_lt_one
  | last within brims ih =>
      rw [depth, depthEntries_append, depthEntries]
      omega

end Cbor.Item

namespace Coreconf

open Cbor (Item Framing)
open Fuel (Returns)

/-- No map has more bindings than the map loop goes round for. -/
inductive Tree.Few : Tree → Prop
  | list {elements} (each : ∀ element ∈ elements, Few element) : Few (.list elements)
  | map {members} (few : members.length ≤ Item.maxEntries) (each : ∀ member ∈ members, Few member.2) :
      Few (.map members)
  | leaf {tree} (notList : ∀ elements, tree ≠ .list elements) (notMap : ∀ members, tree ≠ .map members) :
      Few tree

private theorem leaf_few {value : CoreconfValueT} (leaf : value.isContainer = false) : value.toTree.Few := by
  cases value with
  | array elements => cases leaf
  | hashmap map => cases leaf
  | _ => exact .leaf (fun _ same => by cases same) fun _ same => by cases same

theorem decoderInvariant_few : CountedInvariant (fun _ _ => True) (fun value => value.toTree.Few)
    fun n map => map.RepInv ∧ map.content.length ≤ n ∧ n ≤ Item.maxEntries ∧
      ∀ member ∈ map.content, member.2.Few where
  refl _ := trivial
  trans _ _ _ _ _ := trivial
  scalar _ _ _ _ major read := ⟨trivial, leaf_few (scalar_widest major read).1⟩
  key _ _ _ _ := trivial
  listStart _ _ _ := trivial
  mapStart _ _ _ _ := trivial
  containerEnd _ := trivial
  array elements each := by
    rw [CoreconfHashMapT.toTree_array]
    refine .list fun tree member => ?_
    obtain ⟨element, inside, rfl⟩ := List.mem_map.mp member
    exact each element inside
  create := ⟨repInv_create, by simp, Nat.zero_le _, by simp⟩
  skip n map within holds := ⟨holds.1, holds.2.1.trans (Nat.le_succ n), Nat.succ_le_succ within, holds.2.2.2⟩
  insert n map key value within holds new := by
    obtain ⟨inv, few, -, each⟩ := holds
    refine ⟨inv.insert key value, ?_, Nat.succ_le_succ within, ?_⟩
    all_goals by_cases inserted : (insertCoreconfHashMap map key (some value)).1 = 0
    · rw [inv.content_insert inserted]
      exact (FinMap.length_insert_le _ _ _).trans (Nat.succ_le_succ few)
    · rw [insertCoreconfHashMap_refused inserted]
      exact few.trans (Nat.le_succ n)
    · rw [inv.content_insert inserted]
      intro member inside
      rcases FinMap.mem_insert inside with rfl | inside
      · exact new
      · exact each member inside
    · rw [insertCoreconfHashMap_refused inserted]
      exact each
  hashmap n map holds := by
    rw [CoreconfHashMapT.toTree_hashmap]
    exact .map (holds.2.1.trans holds.2.2.1) holds.2.2.2

theorem Decodes.few {st st' : ZcborState} {indent : Nat} {value : CoreconfValueT}
    (decoded : Decodes st indent (some value, st')) : value.toTree.Few :=
  (decoderInvariant_few.decodes decoded).2 value rfl

/-- What shows the value of an item with distinct keys, and has so few entries in its maps,
is of an item the decoder can hold, without NUL; by induction over the item. -/
theorem holds_of_tree {item : Item} (distinct : item.DistinctKeys) {value : CoreconfValueT}
    (valid : value.Valid) (few : value.toTree.Few) (shown : item.tree? = some value.toTree) :
    item.value?.isSome ∧ item.NulFree := by
  induction item generalizing value with
  | uint w n => exact ⟨rfl, trivial⟩
  | nint w n =>
      rw [Item.tree?] at shown
      split at shown
      · rename_i small
        exact ⟨by rw [Item.value?, if_pos small]; rfl, trivial⟩
      · cases shown
  | bstr w bytes =>
      rw [Item.tree?, Option.some.injEq] at shown
      cases value with
      | string s =>
          cases Tree.str.inj shown
          exact ⟨rfl, s.noNul⟩
      | _ => cases shown
  | tstr w bytes =>
      rw [Item.tree?, Option.some.injEq] at shown
      cases value with
      | string s =>
          cases Tree.str.inj shown
          exact ⟨rfl, s.noNul⟩
      | _ => cases shown
  | bstrChunks chunks => cases shown
  | tstrChunks chunks => cases shown
  | tag w n item ih => cases shown
  | primitive w n => exact ⟨Item.simpleValue?_of_tree shown, trivial⟩
  | list framing items ih =>
      obtain ⟨trees, found, same⟩ := Option.map_eq_some_iff.mp shown
      cases value with
      | array elements =>
          rw [CoreconfHashMapT.toTree_array] at same few
          cases same
          have inside : ∀ item ∈ items, item.value?.isSome ∧ item.NulFree := by
            intro item member
            obtain ⟨tree, here, found⟩ := Item.mem_trees? found member
            obtain ⟨element, within, rfl⟩ := List.mem_map.mp here
            have fewElement : element.toTree.Few := by
              cases few with
              | list each => exact each _ here
              | leaf notList notMap => exact absurd rfl (notList _)
            exact ih item member ((Item.each_list.mp distinct).2 item member) (valid.element element within)
              fewElement found
          have read := Item.values?_isSome fun item member => (inside item member).1
          exact ⟨by rwa [Item.value?, Option.isSome_map], Item.nulFree_list.mpr fun item member => (inside item member).2⟩
      | hashmap map =>
          rw [CoreconfHashMapT.toTree_hashmap] at same
          cases same
      | _ => cases same
  | map framing entries ih =>
      obtain ⟨bindings, found, same⟩ := Option.map_eq_some_iff.mp shown
      cases value with
      | hashmap map =>
          rw [CoreconfHashMapT.toTree_hashmap] at same few
          have content := Tree.map.inj same
          obtain ⟨count, each⟩ : map.content.length ≤ Item.maxEntries ∧ ∀ member ∈ map.content, member.2.Few := by
            cases few with
            | map count each => exact ⟨count, each⟩
            | leaf notList notMap => exact absurd rfl (notMap _)
          have once := Item.bindings?_distinct found distinct.entries
          have inside : ∀ entry ∈ entries, entry.1.sid?.isSome ∧ entry.2.value?.isSome ∧ entry.2.NulFree := by
            intro entry member
            obtain ⟨sid, tree, keyed, shownEntry, bound⟩ := Item.mem_bindings? found member
            have looked : FinMap.lookup sid.toNat map.content = some tree := by
              rw [← content, FinMap.lookup_ofList once, FinMap.lookup_of_mem once bound]
            obtain ⟨key, value, object, -, rfl⟩ := valid.repInv.lookup_content.mp looked
            have here := (ih entry member).2 ((Item.each_map.mp distinct).2 entry member)
              (valid.value _ object value rfl) (each _ (FinMap.lookup_mem looked)) shownEntry
            exact ⟨by rw [keyed]; rfl, here⟩
          have length : entries.length ≤ Item.maxEntries := by
            have lengths := congrArg List.length (Item.bindings?_keys found)
            rw [List.length_map, List.length_map] at lengths
            rw [lengths, ← FinMap.length_ofList_iff.mpr once, content]
            exact count
          have read := Item.members?_isSome (fun entry member => (inside entry member).1)
            fun entry member => (inside entry member).2.1
          refine ⟨by rwa [Item.value?, if_neg (Nat.not_lt.mpr length), Option.isSome_map], ?_⟩
          exact Item.nulFree_map.mpr fun entry member => (inside entry member).2.2
      | array elements =>
          rw [CoreconfHashMapT.toTree_array] at same
          cases same
      | _ => cases same

/-- A valid value with so few entries in its maps is within the limits but for its depth. -/
theorem CoreconfValueT.Valid.nests {value : CoreconfValueT} (valid : value.Valid) (few : value.toTree.Few)
    (object : value.toItem.encode.length < 2 ^ 63) : value.Nests value.toItem.depth := by
  induction value with
  | array elements ih =>
      rw [CoreconfHashMapT.toTree_array] at few
      rw [toItem, elementItems_eq] at object ⊢
      rw [Item.encode, List.length_append, List.length_append] at object
      rw [Item.depth]
      refine .array fun element member => ?_
      have inside := List.mem_map_of_mem (f := toItem) member
      have shorter := Item.length_encode_items inside
      have fewElement : element.toTree.Few := by
        cases few with
        | list each => exact each _ (List.mem_map_of_mem member)
        | leaf notList notMap => exact absurd rfl (notList _)
      exact (ih element member (valid.element element member) fewElement (by omega)).mono
        (Item.depth_le_depthItems inside)
  | hashmap map ih =>
      rw [CoreconfHashMapT.toTree_hashmap] at few
      rw [toItem, mapItems_eq] at object ⊢
      rw [Item.encode, List.length_append, List.length_append] at object
      rw [Item.depth]
      have inv := valid.repInv
      obtain ⟨count, each⟩ : map.content.length ≤ Item.maxEntries ∧
          ∀ member ∈ map.content, member.2.Few := by
        cases few with
        | map count each => exact ⟨count, each⟩
        | leaf notList notMap => exact absurd rfl (notMap _)
      refine .hashmap inv.distinct (inv.content_length ▸ count) inv.noNull fun object member value found => ?_
      obtain ⟨key, bound⟩ := object
      cases found
      have inside : (keyItem key, value.toItem) ∈ map.objects.flatMap objectItems :=
        List.mem_flatMap.mpr ⟨_, member, List.mem_singleton.mpr rfl⟩
      have shorter : value.toItem.encode.length ≤ _ := Item.length_encode_entries inside
      have binding := FinMap.lookup_mem (inv.lookup_content.mpr ⟨key, value, member, rfl, rfl⟩)
      exact (ih _ member value rfl (valid.value _ member value rfl) (each _ binding) (by omega)).mono
        (Item.depth_le_depthEntries inside)
  | leaf value leaf =>
      refine .leaf leaf fun s same => ?_
      subst same
      rw [toItem, Item.encode, Cbor.string, List.length_append] at object
      omega

/-- At the head of a container, with no backup left to enter it with. -/
structure Full (st : ZcborState) : Prop where
  inside : ¬ zcborArrayAtEnd st
  container : majorTypeAt st.payload = some .list ∨ majorTypeAt st.payload = some .map
  backups : st.numBackups ≤ st.backupList.length

namespace Full

variable {st : ZcborState}

private theorem refused (full : Full st) (t : ZcborMajorType) : listMapStartDecode st t = none := by
  have noBackup : ∀ {st' : ZcborState} {resultLen : Nat} {indefinite : Bool} {v : ExtractedValue},
      valueExtract st resultLen indefinite = some (v, st') → ∀ count, zcborNewBackup st' count = none := by
    intro st' resultLen indefinite v extracted count
    rw [valueExtract_frame extracted]
    exact if_pos full.backups
  unfold listMapStartDecode
  split
  · split
    · rfl
    · rename_i st' extracted
      rw [noBackup extracted]
      rfl
    · rename_i count st' extracted
      rw [noBackup extracted]
      rfl
  · rfl

theorem decodes (full : Full st) {indent : Nat} (shallow : indent ≤ CORECONF_MAX_DEPTH)
    {result : Option CoreconfValueT × ZcborState} : Decodes st indent result ↔
      result = (some (if majorTypeAt st.payload = some .list then .array []
        else .hashmap createCoreconfHashmap), st) := by
  rw [decodes_iff, if_neg (Nat.not_lt.mpr shallow)]
  rcases full.container with list | map
  · rw [list]
    simp only [zcborListStartDecode, full.refused, if_true]
  · rw [map]
    simp only [zcborMapStartDecode, full.refused]
    simp

theorem not_arrayReturns (full : Full st) (indent : Nat) (elements : List CoreconfValueT)
    (result : Bool × ArrayLoop) : ¬ ArrayReturns indent (elements, st) result :=
  Stalled.never_returns ⟨full.inside, .noBackup full.container full.backups⟩ elements result

/-- The loop of a map takes it for the next key and is given up. -/
theorem mapReturns (full : Full st) (indent : Nat) (map : CoreconfHashMapT CoreconfValueT)
    (loopCount : Nat) : MapReturns indent ⟨map, loopCount, st⟩ (false, ⟨map, loopCount, st⟩) := by
  refine mapReturns_givenUp indent full.inside (Or.inr ?_)
  rcases full.container with list | map
  · simp [zcborUint64Decode, typeCheck, list]
  · simp [zcborUint64Decode, typeCheck, map]

end Full

/-- The state at an item of more levels than backups are left. -/
structure Deep (st : ZcborState) (indent : Nat) (item : Item) (rest : List UInt8) : Prop where
  payload : st.payload = item.encode ++ rest
  left : st.elemCount ≠ 0
  inside : ¬ zcborArrayAtEnd st
  backups : st.backupList.length ≤ st.numBackups
  deep : st.numBackups < item.depth + st.backupList.length
  shallow : indent + (st.numBackups - st.backupList.length) ≤ CORECONF_MAX_DEPTH
  size : st.payload.length ≤ ZCBOR_LARGE_ELEM_COUNT

theorem Deep.full {st : ZcborState} {indent : Nat} {item : Item} {rest : List UInt8}
    (deep : Deep st indent item rest) (wellFormed : item.WellFormed) (read : item.value?.isSome)
    (none : st.numBackups ≤ st.backupList.length) : Full st := by
  refine ⟨deep.inside, ?_, none⟩
  have more := deep.deep
  have enough := deep.backups
  rw [deep.payload, majorTypeAt_item wellFormed]
  cases item with
  | list framing items => exact Or.inl rfl
  | map framing entries => exact Or.inr rfl
  | tag w n item => cases read
  | _ =>
      simp only [Item.depth] at more
      omega

/-- The loop of a map comes to its first deep value, and goes on as that is left. -/
theorem mapReturns_deep {framing : Framing} {indent : Nat} {before : List (Item × Item)}
    {members : List (UInt64 × CoreconfValueT)} (read : Item.members? before = some members)
    (keys : ∀ entry ∈ before, entry.1.WellFormed) (values : ∀ entry ∈ before, entry.2.WellFormed)
    {key item : Item} (keyFormed : key.WellFormed) (formed : item.WellFormed) {sid : UInt64}
    (keyed : key.sid? = some sid) (loop : MapLoop) {rest : List UInt8}
    (payload : loop.st.payload = Item.encodeEntries before ++ (key.encode ++ (item.encode ++ rest)))
    {more : Nat} (inside : Inside framing (2 * before.length + (more + 1 + 1)) loop.st)
    (few : loop.loopCount + before.length < Item.maxEntries)
    (room : Item.depthEntries before + loop.st.backupList.length ≤ loop.st.numBackups)
    (deep : loop.st.numBackups < item.depth + loop.st.backupList.length)
    (shallow : indent + 1 + (loop.st.numBackups - loop.st.backupList.length) ≤ CORECONF_MAX_DEPTH)
    (size : loop.st.payload.length ≤ ZCBOR_LARGE_ELEM_COUNT) :
    ∃ st, Deep st (indent + 1) item rest ∧ st.backupList = loop.st.backupList ∧
      st.numBackups = loop.st.numBackups ∧
      (∀ result, MapReturns indent loop result → ∃ result', Decodes st (indent + 1) result') ∧
      ∀ shown st', Decodes st (indent + 1) (some shown, st') → Full st' → MapReturns indent loop
        (false, ⟨insertMembers (members ++ [(sid, shown)]) loop.map,
          loop.loopCount + before.length + 1, st'⟩) := by
  have levels := Item.levels_le_depth (.map framing before)
  rw [Item.levels, Item.depth] at levels
  have above : indent + Item.levelsEntries before ≤ CORECONF_MAX_DEPTH := by omega
  obtain ⟨now, next, insideKey, saved, backups, goesOn⟩ := mapReturns_read read keys values
    (fun entry member => readsBack (values entry member)) loop payload inside few.le room above size
  have sizes := congrArg List.length payload
  simp only [List.length_append] at sizes
  have keyRead := zcborUint64Decode_item keyFormed next insideKey.left
  rw [keyed, Option.map_some] at keyRead
  have insideValue := insideKey.after (item.encode ++ rest)
  have notEnd := insideKey.not_atEnd keyFormed next
  have within : loop.loopCount + before.length ≤ CORECONF_MAX_LOOP := by
    simp only [Item.maxEntries] at few
    omega
  refine ⟨now.after (item.encode ++ rest), ⟨rfl, insideValue.left, insideValue.not_atEnd formed rfl,
    ?_, ?_, ?_, ?_⟩, saved, backups, fun result returned => ?_, fun shown st' decoded full => ?_⟩
  · simp only [ZcborState.after, saved, backups]
    omega
  · simp only [ZcborState.after, saved, backups]
    omega
  · simp only [ZcborState.after, saved, backups]
    omega
  · simp only [ZcborState.after, List.length_append]
    omega
  · rcases mapReturns_inside notEnd ((goesOn result).mp returned) with
      ⟨-, many | unkeyed⟩ | ⟨sid', afterKey, value, left, -, again, decoded, -⟩
    · exact absurd many (Nat.not_lt.mpr within)
    · rw [keyRead] at unkeyed
      cases unkeyed
    · rw [keyRead] at again
      cases again
      exact ⟨_, decoded⟩
  · rw [goesOn, mapReturns_next_iff notEnd within keyRead decoded, insertMembers_concat]
    exact full.mapReturns indent _ _

theorem Deep.member {framing : Framing} {before later : List (Item × Item)} {key item : Item}
    {sid : UInt64} {st : ZcborState} {indent : Nat} {rest : List UInt8}
    (deep : Deep st indent (.map framing (before ++ (key, item) :: later)) rest)
    (wellFormed : Item.WellFormed (.map framing (before ++ (key, item) :: later)))
    (few : before.length < Item.maxEntries)
    {members : List (UInt64 × CoreconfValueT)} (read : Item.members? before = some members)
    (keyed : key.sid? = some sid) {nesting : Nat}
    (backups : st.numBackups = nesting + 1 + st.backupList.length)
    (within : Item.depthEntries before ≤ nesting) (deeper : nesting < item.depth) :
    ∃ tail st', Deep st' (indent + 1) item tail ∧ st'.numBackups = nesting + st'.backupList.length ∧
      (∀ result, Decodes st indent result → ∃ result', Decodes st' (indent + 1) result') ∧
      ∀ shown left, Decodes st' (indent + 1) (some shown, left) → Full left → Decodes st indent
        (some (.hashmap (insertMembers (members ++ [(sid, shown)]) createCoreconfHashmap)), left) := by
  obtain ⟨payload, left, -, -, -, shallow, size⟩ := deep
  obtain ⟨inside, pushed, same, shorter⟩ := atEntries_entered wellFormed payload size
  obtain ⟨next, count⟩ := st.atEntries_split framing before later key item rest
  rw [count] at inside
  set start := st.atEntries framing (before ++ (key, item) :: later) rest
  have entered : ∀ {result}, Decodes st indent result ↔ ∃ ended left,
      MapReturns indent ⟨createCoreconfHashmap, 0, start⟩ (ended, left) ∧
        result = (some (.hashmap left.map), left.st) :=
    decodes_map_iff wellFormed payload left (by omega) (by omega) size
  cases wellFormed with
  | map fits keys values =>
      obtain ⟨st', deep', saved, sameBackups, returns, goesOn⟩ := mapReturns_deep read
        (fun entry member => keys entry (by simp [member]))
        (fun entry member => values entry (by simp [member]))
        (show key.WellFormed from keys (key, item) (by simp))
        (show item.WellFormed from values (key, item) (by simp)) keyed ⟨createCoreconfHashmap, 0, start⟩
        next inside (by simpa using few)
        (show Item.depthEntries before + start.backupList.length ≤ start.numBackups by omega)
        (show start.numBackups < item.depth + start.backupList.length by omega)
        (show indent + 1 + (start.numBackups - start.backupList.length) ≤ CORECONF_MAX_DEPTH by omega)
        (shorter.trans size)
      refine ⟨_, st', deep', ?_, fun result decoded => ?_, fun shown left' decoded full => ?_⟩
      · rw [saved, sameBackups]
        show start.numBackups = nesting + start.backupList.length
        omega
      · obtain ⟨ended, left', returned, -⟩ := entered.mp decoded
        exact returns _ returned
      · exact entered.mpr ⟨false, _, goesOn shown left' decoded full, rfl⟩

/-- What brims is read as it is, and the decoder is left at the container it ends in. -/
theorem decodes_brims {nesting : Nat} {item : Item} (brims : item.Brims nesting)
    (wellFormed : item.WellFormed) {value : CoreconfValueT} (read : item.value? = some value)
    {st : ZcborState} {indent : Nat} {rest : List UInt8} (deep : Deep st indent item rest)
    (backups : st.numBackups = nesting + st.backupList.length) :
    ∃ st', Decodes st indent (some value, st') ∧ Full st' := by
  induction brims generalizing value st indent rest with
  | list framing =>
      have full := deep.full wellFormed (by rw [read]; rfl) (by omega)
      have shallow := deep.shallow
      have major : majorTypeAt st.payload = some .list := by
        rw [deep.payload, majorTypeAt_item wellFormed]
        rfl
      refine ⟨st, (full.decodes (by omega)).mpr ?_, full⟩
      rw [if_pos major]
      cases read
      rfl
  | map framing =>
      have full := deep.full wellFormed (by rw [read]; rfl) (by omega)
      have shallow := deep.shallow
      have major : majorTypeAt st.payload = some .map := by
        rw [deep.payload, majorTypeAt_item wellFormed]
        rfl
      refine ⟨st, (full.decodes (by omega)).mpr ?_, full⟩
      rw [major, if_neg (by simp)]
      cases read
      rfl
  | @last nesting framing before key item within brims ih =>
      rw [Item.value?] at read
      split at read
      · cases read
      rename_i few
      obtain ⟨members, every, rfl⟩ := Option.map_eq_some_iff.mp read
      obtain ⟨first, one, readFirst, readOne, rfl⟩ := Item.members?_append every
      rw [Item.members?] at readOne
      split at readOne
      · rename_i sid value others keyed found foundOthers
        cases foundOthers
        cases readOne
        have formed : item.WellFormed := by
          cases wellFormed with
          | map fits keys values => exact values (key, item) (by simp)
        have bound : before.length < Item.maxEntries := by
          rw [List.length_append, List.length_singleton] at few
          omega
        obtain ⟨tail, st', deep', backups', -, goesOn⟩ := deep.member wellFormed bound readFirst keyed
          backups within brims.lt_depth
        obtain ⟨left, decoded, full⟩ := ih formed found deep' backups'
        exact ⟨left, goesOn value left decoded full, full⟩
      · cases readOne

/-- A deep item is left at a container that is not entered, and what is read has its
content only if it brims. -/
def Spills (item : Item) : Prop :=
  ∀ ⦃value st indent rest nesting result⦄, item.value? = some value → Deep st indent item rest →
    st.numBackups = nesting + st.backupList.length → Decodes st indent result →
      ∃ shown, result.1 = some shown ∧ Full result.2 ∧
        (shown.toTree = value.toTree → item.Brims nesting)

private theorem not_decodes_list {framing : Framing} {items : List Item}
    (wellFormed : Item.WellFormed (.list framing items)) (each : ∀ item ∈ items, Spills item)
    {values : List CoreconfValueT} (read : Item.values? items = some values) {st : ZcborState}
    {indent : Nat} {rest : List UInt8} (deep : Deep st indent (.list framing items) rest)
    (room : st.backupList.length < st.numBackups) (result : Option CoreconfValueT × ZcborState) :
    ¬ Decodes st indent result := by
  obtain ⟨payload, left, -, -, more, shallow, size⟩ := deep
  rw [Item.depth] at more
  obtain ⟨before, item, later, rfl, within, deeper⟩ :=
    Item.depthItems_split (show st.numBackups - (st.backupList.length + 1) < Item.depthItems items by omega)
  obtain ⟨first, others, readFirst, readOthers, -⟩ := Item.values?_append read
  rw [Item.values?] at readOthers
  split at readOthers
  case h_2 => cases readOthers
  rename_i value last found foundLast
  rw [decodes_list_iff wellFormed payload left room (by omega)]
  rintro ⟨ended, elements, st', returned, -⟩
  have levels := Item.levels_le_depth (.list framing before)
  rw [Item.levels, Item.depth] at levels
  have above : indent + Item.levelsItems before ≤ CORECONF_MAX_DEPTH := by omega
  obtain ⟨inside, pushed, same, shorter⟩ := atItems_entered wellFormed payload size
  have next : (st.atItems framing (before ++ item :: later) rest).payload = Item.encodeItems before ++
      (item.encode ++ (Item.encodeItems later ++ (framing.closing ++ rest))) := by
    simp only [ZcborState.atItems, ZcborState.entered, Item.encodeItems_append, Item.encodeItems,
      List.append_assoc]
  rw [List.length_append, List.length_cons] at inside
  set start := st.atItems framing (before ++ item :: later) rest
  cases wellFormed with
  | list fits members =>
      have formed : item.WellFormed := members item (by simp)
      obtain ⟨now, here, insideItem, saved, backups, goesOn⟩ := arrayReturns_read readFirst
        (fun item member => members item (by simp [member]))
        (fun item member => readsBack (members item (by simp [member]))) [] start next inside
        (by omega) above (by omega)
      have notEnd := insideItem.not_atEnd formed here
      obtain ⟨value', after, decoded, again⟩ := arrayReturns_inside notEnd ((goesOn _).mp returned)
      have nexts := congrArg List.length next
      rw [← here, List.length_append] at nexts
      have deepItem : Deep now (indent + 1) item (Item.encodeItems later ++ (framing.closing ++ rest)) := by
        refine ⟨here, insideItem.left, notEnd, ?_, ?_, ?_, by omega⟩
        all_goals
          rw [saved, backups]
          omega
      have backupsLeft : now.numBackups =
          (now.numBackups - now.backupList.length) + now.backupList.length := by
        rw [saved, backups]
        omega
      obtain ⟨shown, -, full, -⟩ := each item (by simp) found deepItem backupsLeft decoded
      exact full.not_arrayReturns _ _ _ again

private theorem members_keys {members : List (UInt64 × CoreconfValueT)}
    (distinct : (members.map Prod.fst).Nodup) :
    ((members.map fun member => (member.1.toNat, member.2.toTree)).map Prod.fst).Nodup := by
  have numbers := distinct.map (f := UInt64.toNat) fun _ _ => UInt64.toNat_inj.mp
  rw [List.map_map] at numbers ⊢
  exact numbers

/-- Up to 51 distinct keys and one more value: the maps are the same only if they have the
same keys, and the values are the same. -/
private theorem insertMembers_toTree_inj {first later : List (UInt64 × CoreconfValueT)} {sid : UInt64}
    {value shown : CoreconfValueT} (few : (first ++ (sid, value) :: later).length ≤ Item.maxEntries)
    (distinct : ((first ++ (sid, value) :: later).map Prod.fst).Nodup)
    (same : (CoreconfValueT.hashmap (insertMembers (first ++ [(sid, shown)]) createCoreconfHashmap)).toTree =
      (CoreconfValueT.hashmap (insertMembers (first ++ (sid, value) :: later) createCoreconfHashmap)).toTree) :
    later = [] ∧ shown.toTree = value.toTree := by
  have fewer : (first ++ [(sid, shown)]).length ≤ Item.maxEntries := by
    simp only [List.length_append, List.length_cons, List.length_nil] at few ⊢
    omega
  rw [CoreconfHashMapT.toTree_hashmap, CoreconfHashMapT.toTree_hashmap, Tree.map.injEq,
    insertMembers_create few, insertMembers_create fewer] at same
  have whole := members_keys distinct
  have part : ((first ++ [(sid, shown)]).map Prod.fst).Nodup := by
    refine distinct.sublist ?_
    rw [List.map_append, List.map_append, List.map_cons, List.map_cons]
    exact (List.nil_sublist _).cons_cons sid |>.append_left _
  have part := members_keys part
  have lengths := congrArg List.length same
  rw [FinMap.length_ofList_iff.mpr whole, FinMap.length_ofList_iff.mpr part, List.length_map,
    List.length_map] at lengths
  simp only [List.length_append, List.length_cons, List.length_nil] at lengths
  have nothing : later = [] := List.eq_nil_of_length_eq_zero (by omega)
  subst nothing
  have lists := FinMap.ofList_inj (by simp) part same
  rw [List.map_append, List.map_append] at lists
  have last := List.append_cancel_left lists
  simp only [List.map_cons, List.map_nil, List.cons.injEq, Prod.mk.injEq, true_and, and_true] at last
  exact ⟨rfl, last⟩

private theorem spills_map {framing : Framing} {entries : List (Item × Item)}
    (wellFormed : Item.WellFormed (.map framing entries))
    (distinct : Item.DistinctKeys (.map framing entries)) (each : ∀ entry ∈ entries, Spills entry.2) :
    Spills (.map framing entries) := by
  intro value st indent rest nesting result read deep backups decoded
  rw [Item.value?] at read
  split at read
  · cases read
  rename_i few
  obtain ⟨members, every, rfl⟩ := Option.map_eq_some_iff.mp read
  have keys := Item.members?_distinct every distinct.entries
  have length := Item.members?_length every
  have more := deep.deep
  rw [Item.depth] at more
  cases nesting with
  | zero =>
      have full := deep.full wellFormed (by rw [Item.value?, if_neg few, every]; rfl) (by omega)
      have shallow := deep.shallow
      have major : majorTypeAt st.payload = some .map := by
        rw [deep.payload, majorTypeAt_item wellFormed]
        rfl
      have left := (full.decodes (by omega)).mp decoded
      rw [major, if_neg (by simp)] at left
      cases left
      refine ⟨_, rfl, full, fun equal => ?_⟩
      rw [CoreconfHashMapT.toTree_hashmap, CoreconfHashMapT.toTree_hashmap, Tree.map.injEq,
        CoreconfHashMapT.content_create, insertMembers_create (by omega)] at equal
      have whole := FinMap.length_ofList_iff.mpr (members_keys keys)
      rw [← equal, List.length_map, length] at whole
      cases List.eq_nil_of_length_eq_zero whole.symm
      exact .map framing
  | succ nesting =>
      obtain ⟨before, key, item, later, rfl, within, deeper⟩ :=
        Item.depthEntries_split (show nesting < Item.depthEntries entries by omega)
      obtain ⟨first, others, readFirst, readOthers, rfl⟩ := Item.members?_append every
      rw [Item.members?] at readOthers
      split at readOthers
      case h_2 => cases readOthers
      rename_i sid value last keyed found foundLast
      cases readOthers
      have flat : key.depth = 0 := by
        cases key with
        | uint w n => rfl
        | _ => cases keyed
      have bound : before.length < Item.maxEntries := by
        rw [List.length_append, List.length_cons] at few
        omega
      obtain ⟨tail, st', deep', backups', returns, goesOn⟩ := deep.member wellFormed bound readFirst keyed
        backups within (by omega)
      obtain ⟨⟨shown?, left⟩, decoded'⟩ := returns _ decoded
      obtain ⟨shown, rfl, full, same⟩ := each (key, item) (by simp) found deep' backups' decoded'
      cases (goesOn shown left decoded' full).unique decoded
      refine ⟨_, rfl, full, fun equal => ?_⟩
      obtain ⟨nothing, sameValue⟩ := insertMembers_toTree_inj (by omega) keys equal
      have none := Item.members?_length foundLast
      rw [nothing] at none
      cases List.eq_nil_of_length_eq_zero none.symm
      exact .last within (same sameValue)

/-- Too few backups for an item show in what is read of it, unless it brims, by induction
over the item. -/
theorem spills {item : Item} (wellFormed : item.WellFormed) (distinct : item.DistinctKeys) :
    Spills item := by
  induction item with
  | list framing items ih =>
      intro value st indent rest nesting result read deep backups decoded
      obtain ⟨values, every, rfl⟩ := Option.map_eq_some_iff.mp read
      cases nesting with
      | zero =>
          have full := deep.full wellFormed (by rw [read]; rfl) (by omega)
          have shallow := deep.shallow
          have major : majorTypeAt st.payload = some .list := by
            rw [deep.payload, majorTypeAt_item wellFormed]
            rfl
          have left := (full.decodes (by omega)).mp decoded
          rw [if_pos major] at left
          cases left
          refine ⟨_, rfl, full, fun equal => ?_⟩
          rw [CoreconfHashMapT.toTree_array, CoreconfHashMapT.toTree_array, Tree.list.injEq,
            List.map_nil, eq_comm, List.map_eq_nil_iff] at equal
          subst equal
          cases items with
          | nil => exact .list framing
          | cons item later =>
              rw [Item.values?] at every
              split at every <;> cases every
      | succ nesting =>
          refine absurd decoded (not_decodes_list wellFormed (fun item member => ?_) every deep (by omega) _)
          refine ih item member ?_ ((Item.each_list.mp distinct).2 item member)
          cases wellFormed with
          | list fits members => exact members item member
  | map framing entries ih =>
      refine spills_map wellFormed distinct fun entry member => (ih entry member).2 ?_ ?_
      · cases wellFormed with
        | map fits keys values => exact values entry member
      · exact (Item.each_map.mp distinct).2 entry member
  | tag w n item ih =>
      intro value st indent rest nesting result read
      cases read
  | _ =>
      intro value st indent rest nesting result read deep backups decoded
      have more := deep.deep
      have enough := deep.backups
      simp only [Item.depth] at more
      omega

theorem Deep.list_never {framing : Framing} {items : List Item}
    (wellFormed : Item.WellFormed (.list framing items)) (distinct : Item.DistinctKeys (.list framing items))
    (read : (Item.list framing items).value?.isSome) {st : ZcborState} {indent : Nat} {rest : List UInt8}
    (deep : Deep st indent (.list framing items) rest) (room : st.backupList.length < st.numBackups)
    (result : Option CoreconfValueT × ZcborState) : ¬ Decodes st indent result := by
  obtain ⟨value, found⟩ := Option.isSome_iff_exists.mp read
  obtain ⟨values, every, -⟩ := Option.map_eq_some_iff.mp found
  refine not_decodes_list wellFormed (fun item member => ?_) every deep room result
  refine spills ?_ ((Item.each_list.mp distinct).2 item member)
  cases wellFormed with
  | list fits members => exact members item member

end Coreconf
