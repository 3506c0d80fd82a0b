import Coreconf.DecoderLimits
import Coreconf.FetchRequests
import Coreconf.ServerInvariant

set_option autoImplicit false

/- FETCH from the identifiers of a request to the map that the client reads. -/
namespace Coreconf

open Cbor (Item Framing Width)
open CoreconfValueT (Valid NoNull Nests)
open Fuel (Returns)

namespace FetchIid

/-- The value that an identifier names in the datastore. -/
def resolve (root : CoreconfHashMapT CoreconfValueT) : FetchIid → Option CoreconfValueT
  | scalar sid => (getCoreconfHashMap root sid).or (findDeltaLeaf root sid)
  | list sid key =>
      match getCoreconfHashMap root sid with
      | some (.array elements) => (fetchFindListEntry elements key).bind (elements[·]?)
      | _ => none

/-- What is bound to the SID in the response: the value, or an array around the list entry. -/
def answer (iid : FetchIid) (value : CoreconfValueT) : CoreconfValueT :=
  match iid with
  | scalar _ => value
  | list _ _ => .array [value]

end FetchIid

/-- The entries of the response, in the order of the request. -/
def fetchPairs (root : CoreconfHashMapT CoreconfValueT) (iids : List FetchIid) :
    List (UInt64 × CoreconfValueT) :=
  iids.filterMap fun iid => (iid.resolve root).map fun value => (iid.sid, iid.answer value)

def pairItems (pairs : List (UInt64 × CoreconfValueT)) : List (Item × Item) :=
  pairs.map fun pair => (keyItem pair.1, pair.2.toItem)

/-- The response as the handler means it. -/
def fetchResponse (root : CoreconfHashMapT CoreconfValueT) (iids : List FetchIid) : Item :=
  .map .indefinite (pairItems (fetchPairs root iids))

variable {root : CoreconfHashMapT CoreconfValueT}

theorem findDeltaLeaf_valid (valid : Valid (.hashmap root)) {sid : UInt64} {leaf : CoreconfValueT}
    (found : findDeltaLeaf root sid = some leaf) : leaf.Valid := by
  obtain ⟨object, member, inside⟩ := List.exists_of_findSome?_eq_some found
  split at inside
  · rename_i map bound
    split at inside
    · exact (valid.value object member _ bound).get inside
    · cases inside
  · cases inside

theorem FetchIid.resolve_valid (valid : Valid (.hashmap root)) {iid : FetchIid} {value : CoreconfValueT}
    (found : iid.resolve root = some value) : value.Valid := by
  cases iid with
  | scalar sid =>
      rcases Option.or_eq_some_iff.mp found with bound | ⟨-, leaf⟩
      · exact valid.get bound
      · exact findDeltaLeaf_valid valid leaf
  | list sid key =>
      rw [resolve] at found
      split at found
      · rename_i elements bound
        obtain ⟨idx, -, selected⟩ := Option.bind_eq_some_iff.mp found
        exact (valid.get bound).element _ (List.mem_of_getElem? selected)
      · cases found

theorem encodeUnchecked_writes {value : CoreconfValueT} (noNull : value.NoNull) (sid : UInt64)
    {st : EncodeState} (room : (keyItem sid).encode.length + value.toItem.encode.length ≤ st.room) :
    encodeUnchecked st sid value = st.write ((keyItem sid).encode ++ value.toItem.encode) := by
  rw [encodeUnchecked, zcborUint64Put_eq, putResult_room (by omega),
    noNull.writes (by rw [EncodeState.write_room]; omega), EncodeState.write_write]

/-- The puts of a list entry, whose results are not looked at either. -/
private theorem encodeListEntry_writes {entry : CoreconfValueT} (noNull : entry.NoNull) (sid : UInt64)
    {st : EncodeState}
    (room : (keyItem sid).encode.length + (CoreconfValueT.array [entry]).toItem.encode.length ≤ st.room) :
    (let st := (putResult st (zcborUint64Put st sid)).2
     let st := (putResult st (zcborListStartEncode st)).2
     let st := (coreconfToCBOR entry st).2
     (putResult st (zcborListEndEncode st)).2) =
      st.write ((keyItem sid).encode ++ (CoreconfValueT.array [entry]).toItem.encode) := by
  have list : (CoreconfValueT.array [entry]).toItem.encode =
      [Cbor.indefiniteHead 4] ++ (entry.toItem.encode ++ [Cbor.indefiniteHead 7]) := by
    simp only [CoreconfValueT.toItem, CoreconfValueT.elementItems, Item.encode, Item.encodeItems,
      Framing.opening, Framing.closing, List.append_nil, List.append_assoc]
    rfl
  rw [list] at room ⊢
  simp only [List.length_append, List.length_singleton] at room
  have keyed : putResult st (zcborUint64Put st sid) = (true, st.write (keyItem sid).encode) := by
    rw [zcborUint64Put_eq, putResult_room (by omega)]
  set st₁ := st.write (keyItem sid).encode
  have opened : putResult st₁ (zcborListStartEncode st₁) = (true, st₁.write [Cbor.indefiniteHead 4]) := by
    rw [zcborListStartEncode_eq, putResult_room]
    simp only [st₁, EncodeState.write_room, List.length_singleton]
    omega
  set st₂ := st₁.write [Cbor.indefiniteHead 4]
  have written : coreconfToCBOR entry st₂ = (true, st₂.write entry.toItem.encode) := by
    refine noNull.writes ?_
    simp only [st₂, st₁, EncodeState.write_room, List.length_singleton]
    omega
  set st₃ := st₂.write entry.toItem.encode
  have closed : putResult st₃ (zcborListEndEncode st₃) = (true, st₃.write [Cbor.indefiniteHead 7]) := by
    rw [zcborListEndEncode_eq, putResult_room]
    simp only [st₃, st₂, st₁, EncodeState.write_room, List.length_singleton]
    omega
  simp only [keyed, opened, written, closed]
  simp only [st₃, st₂, st₁, EncodeState.write_write, List.append_assoc]

/-- The handler writes the answer to one identifier, or nothing. -/
theorem encodeFetchIid_writes (valid : Valid (.hashmap root)) (iid : FetchIid) {st : EncodeState}
    (room : (Item.encodeEntries (pairItems (fetchPairs root [iid]))).length ≤ st.room) :
    encodeFetchIid root st iid = st.write (Item.encodeEntries (pairItems (fetchPairs root [iid]))) := by
  cases found : iid.resolve root with
  | none =>
      have nothing : fetchPairs root [iid] = [] := by simp [fetchPairs, found]
      rw [nothing, pairItems, List.map_nil, Item.encodeEntries, EncodeState.write_nil]
      cases iid with
      | scalar sid =>
          obtain ⟨unbound, noLeaf⟩ := Option.or_eq_none_iff.mp found
          simp only [encodeFetchIid, unbound, noLeaf]
      | list sid key =>
          rw [encodeFetchIid]
          rw [FetchIid.resolve] at found
          cases bound : getCoreconfHashMap root sid with
          | none => rfl
          | some stored =>
              rw [bound] at found
              cases stored with
              | array elements =>
                  dsimp only at found ⊢
                  rw [found]
              | _ => rfl
  | some value =>
      have one : pairItems (fetchPairs root [iid]) = [(keyItem iid.sid, (iid.answer value).toItem)] := by
        simp [pairItems, fetchPairs, found]
      have noNull := (iid.resolve_valid valid found).noNull
      rw [one] at room ⊢
      simp only [Item.encodeEntries, List.append_nil, List.length_append] at room ⊢
      cases iid with
      | scalar sid =>
          rw [encodeFetchIid]
          rcases Option.or_eq_some_iff.mp found with bound | ⟨unbound, leaf⟩
          · simp only [bound]
            exact encodeUnchecked_writes noNull sid room
          · simp only [unbound, leaf]
            exact encodeUnchecked_writes noNull sid room
      | list sid key =>
          rw [encodeFetchIid]
          rw [FetchIid.resolve] at found
          cases bound : getCoreconfHashMap root sid with
          | none =>
              rw [bound] at found
              cases found
          | some stored =>
              rw [bound] at found
              cases stored with
              | array elements =>
                  dsimp only at found ⊢
                  rw [found]
                  exact encodeListEntry_writes noNull sid room
              | _ => cases found

theorem fetchPairs_cons (iid : FetchIid) (rest : List FetchIid) :
    fetchPairs root (iid :: rest) = fetchPairs root [iid] ++ fetchPairs root rest :=
  List.filterMap_append (l := [iid])

theorem encodeFetchIids_write (valid : Valid (.hashmap root)) {iids : List FetchIid} {st : EncodeState}
    (room : (Item.encodeEntries (pairItems (fetchPairs root iids))).length ≤ st.room) :
    iids.foldl (encodeFetchIid root) st =
      st.write (Item.encodeEntries (pairItems (fetchPairs root iids))) := by
  induction iids generalizing st with
  | nil => simp [fetchPairs, pairItems, Item.encodeEntries]
  | cons iid rest ih =>
      have parts : Item.encodeEntries (pairItems (fetchPairs root (iid :: rest))) =
          Item.encodeEntries (pairItems (fetchPairs root [iid])) ++
            Item.encodeEntries (pairItems (fetchPairs root rest)) := by
        rw [fetchPairs_cons, pairItems, List.map_append, Item.encodeEntries_append]
        rfl
      rw [parts, List.length_append] at room
      rw [List.foldl_cons, encodeFetchIid_writes valid iid (by omega), ih (by
        rw [EncodeState.write_room]
        omega), EncodeState.write_write, parts]

/-- The identifiers that the handler reads are answered with their response, if that fits
the buffer. -/
theorem handleFetch_parsed (valid : Valid (.hashmap root)) {s : ServerState}
    (current : s.current = some (.hashmap root)) {req : Request}
    (format : getContentFormat req = CF_YANG_IDENTIFIERS) {iids : List FetchIid}
    (parsed : parseFetchIids 64 req.payload = iids) (nonempty : iids ≠ [])
    (room : (fetchResponse root iids).encode.length ≤ BUFFER_SIZE) :
    (handleFetch s req).response = ⟨.content, some CF_YANG_INSTANCES, (fetchResponse root iids).encode⟩ := by
  have present : req.payload ≠ [] := by
    rintro empty
    rw [empty] at parsed
    exact nonempty parsed.symm
  set entries := Item.encodeEntries (pairItems (fetchPairs root iids)) with entries_eq
  have response : (fetchResponse root iids).encode =
      [Cbor.indefiniteHead 5] ++ (entries ++ [Cbor.indefiniteHead 7]) := by
    rw [fetchResponse, Item.encode, Framing.opening, Framing.closing, List.append_assoc]
    rfl
  rw [response] at room ⊢
  simp only [List.length_append, List.length_singleton] at room
  have start : (zcborNewEncodeState BUFFER_SIZE).room = BUFFER_SIZE := rfl
  set st₀ := zcborNewEncodeState BUFFER_SIZE with st₀_eq
  have opened : putResult st₀ (zcborMapStartEncode st₀) = (true, st₀.write [Cbor.indefiniteHead 5]) := by
    rw [zcborMapStartEncode_eq, putResult_room]
    rw [start, List.length_singleton]
    omega
  set st₁ := st₀.write [Cbor.indefiniteHead 5]
  have written : iids.foldl (encodeFetchIid root) st₁ = st₁.write entries := by
    refine encodeFetchIids_write valid ?_
    simp only [← entries_eq, st₁, EncodeState.write_room, start, List.length_singleton]
    omega
  set st₂ := st₁.write entries
  have closed : putResult st₂ (zcborMapEndEncode st₂) = (true, st₂.write [Cbor.indefiniteHead 7]) := by
    rw [zcborMapEndEncode_eq, putResult_room]
    simp only [st₂, st₁, EncodeState.write_room, start, List.length_singleton]
    omega
  rw [handleFetch, if_neg (not_not_intro format), if_neg present, current]
  cases iids with
  | nil => exact absurd rfl nonempty
  | cons iid rest =>
      simp only [parsed]
      rw [← st₀_eq, opened]
      dsimp only
      rw [written, closed]
      simp only [st₂, st₁, EncodeState.write_write, List.append_assoc]
      rfl

theorem CoreconfValueT.Nests.readBack {nesting : Nat} {value : CoreconfValueT} (nests : value.Nests nesting)
    (short : value.toItem.encode.length < 2 ^ 31) :
    ∃ read, value.toItem.value? = some read ∧ read.toTree = value.toTree := by
  obtain ⟨read, found⟩ := nests.value_tree.1
  exact ⟨read, found, (nests.readable_iff found).mpr (Item.keepsTexts_of_length short)⟩

/-- The client reads entries of the content that the handler wrote. -/
theorem pairItems_read {pairs : List (UInt64 × CoreconfValueT)}
    (nests : ∀ pair ∈ pairs, ∃ nesting, Nests nesting pair.2)
    (short : (Item.encodeEntries (pairItems pairs)).length < 2 ^ 31) :
    ∃ members, Item.members? (pairItems pairs) = some members ∧
      members.map (fun member => (member.1, member.2.toTree)) =
        pairs.map fun pair => (pair.1, pair.2.toTree) := by
  induction pairs with
  | nil => exact ⟨[], rfl, rfl⟩
  | cons pair rest ih =>
      obtain ⟨⟨nesting, first⟩, others⟩ := List.forall_mem_cons.mp nests
      simp only [pairItems, List.map_cons, Item.encodeEntries, List.length_append] at short
      obtain ⟨members, read, same⟩ := ih others (by rw [pairItems]; omega)
      obtain ⟨value, found, content⟩ := first.readBack (by omega)
      refine ⟨(pair.1, value) :: members, ?_, ?_⟩
      · rw [pairItems, List.map_cons, Item.members?, found, ← pairItems, read]
        simp [keyItem, Item.sid?]
      · rw [List.map_cons, List.map_cons, same, content]

/-- The answers that reach the client whole: the first 51 if they nest at most five
levels, or those up to one that is deeper, and of that only one that brims. -/
inductive ReachClient (pairs : List (UInt64 × CoreconfValueT)) : List (UInt64 × CoreconfValueT) → Prop
  | within (nests : ∀ pair ∈ pairs.take Item.maxEntries, Nests 5 pair.2) :
      ReachClient pairs (pairs.take Item.maxEntries)
  | brims {before last later} (same : pairs.take Item.maxEntries = before ++ last :: later)
      (nests : ∀ pair ∈ before, Nests 5 pair.2) (few : ∃ nesting, Nests nesting last.2)
      (brims : last.2.toItem.Brims 5) : ReachClient pairs (before ++ [last])

/-- The last of these answers with the SID. -/
def lastAnswer (pairs : List (UInt64 × CoreconfValueT)) (sid : UInt64) : Option CoreconfValueT :=
  pairs.reverse.lookup sid

private theorem lookup_trees (sid : UInt64) (pairs : List (UInt64 × CoreconfValueT)) :
    FinMap.lookup sid.toNat (pairs.map fun pair => (pair.1.toNat, pair.2.toTree)) =
      (pairs.lookup sid).map CoreconfValueT.toTree := by
  induction pairs with
  | nil => rfl
  | cons pair rest ih =>
      rw [List.map_cons, FinMap.lookup_cons, ih, List.lookup_cons]
      by_cases same : sid = pair.1
      · simp [same]
      · have other : ¬ sid.toNat = pair.1.toNat := fun equal => same (UInt64.toNat_inj.mp equal)
        rw [if_neg other, beq_false_of_ne same]

/-- The map of so many entries binds the SIDs to the last of them. -/
theorem insertMembers_get {members pairs : List (UInt64 × CoreconfValueT)}
    (few : members.length ≤ Item.maxEntries)
    (same : members.map (fun member => (member.1, member.2.toTree)) =
      pairs.map fun pair => (pair.1, pair.2.toTree)) (sid : UInt64) :
    (getCoreconfHashMap (insertMembers members createCoreconfHashmap) sid).map CoreconfValueT.toTree =
      (lastAnswer pairs sid).map CoreconfValueT.toTree := by
  have numbered := congrArg (List.map fun pair : UInt64 × Tree => (pair.1.toNat, pair.2)) same
  simp only [List.map_map, Function.comp_def] at numbered
  rw [← (insertMembers_repInv repInv_create _).lookup_content_get sid, insertMembers_create few, numbered,
    FinMap.lookup_ofList_reverse, ← List.map_reverse, lookup_trees]
  rfl

section Response

variable {pairs : List (UInt64 × CoreconfValueT)}

private theorem pair_length {pair : UInt64 × CoreconfValueT} (member : pair ∈ pairs)
    (room : (Item.map .indefinite (pairItems pairs)).encode.length ≤ BUFFER_SIZE) :
    pair.2.toItem.encode.length < 2 ^ 31 := by
  have size : BUFFER_SIZE < 2 ^ 31 := by decide
  have shorter : pair.2.toItem.encode.length ≤ _ :=
    Item.length_encode_entries (List.mem_map_of_mem (f := fun pair => (keyItem pair.1, pair.2.toItem)) member)
  rw [Item.encode, List.length_append, List.length_append] at room
  rw [← pairItems] at shorter
  omega

theorem response_wellFormed
    (room : (Item.map .indefinite (pairItems pairs)).encode.length ≤ BUFFER_SIZE) :
    (Item.map .indefinite (pairItems pairs)).WellFormed := by
  refine .map trivial (fun entry member => ?_) fun entry member => ?_
  · obtain ⟨pair, -, rfl⟩ := List.mem_map.mp member
    exact keyItem_wellFormed pair.1
  · obtain ⟨pair, inside, rfl⟩ := List.mem_map.mp member
    have short := pair_length inside room
    exact CoreconfValueT.toItem_wellFormed (by omega)

/-- The client comes to the first answer that is too deep for it. -/
private theorem response_deep (room : (Item.map .indefinite (pairItems pairs)).encode.length ≤ BUFFER_SIZE)
    {before later : List (UInt64 × CoreconfValueT)} {last : UInt64 × CoreconfValueT}
    (same : pairs.take Item.maxEntries = before ++ last :: later) (nests : ∀ pair ∈ before, Nests 5 pair.2)
    (deep : 5 < last.2.toItem.depth) :
    ∃ tail st members, Deep st 1 last.2.toItem tail ∧ st.numBackups = 5 + st.backupList.length ∧
      members.length < Item.maxEntries ∧
      members.map (fun member => (member.1, member.2.toTree)) =
        before.map (fun pair => (pair.1, pair.2.toTree)) ∧
      (∀ value, Returns parseGetResponse (Item.map .indefinite (pairItems pairs)).encode value →
        ∃ result, Decodes st 1 result) ∧
      ∀ shown left, Decodes st 1 (some shown, left) → Full left →
        Returns parseGetResponse (Item.map .indefinite (pairItems pairs)).encode
          (some (.hashmap (insertMembers (members ++ [(last.1, shown)]) createCoreconfHashmap))) := by
  have size : BUFFER_SIZE < 2 ^ 31 := by decide
  have wellFormed := response_wellFormed room
  have split : pairItems pairs = pairItems before ++
      (keyItem last.1, last.2.toItem) :: pairItems (later ++ pairs.drop Item.maxEntries) := by
    conv_lhs => rw [← List.take_append_drop Item.maxEntries pairs, same]
    simp [pairItems]
  rw [split] at room wellFormed ⊢
  have short : (Item.encodeEntries (pairItems before)).length < 2 ^ 31 := by
    have whole := room
    simp only [Item.encode, Item.encodeEntries_append, List.length_append] at whole
    omega
  obtain ⟨members, read, content⟩ :=
    pairItems_read (fun pair member => ⟨5, nests pair member⟩) short
  have count := congrArg List.length same
  rw [List.length_take, List.length_append, List.length_cons] at count
  have lengths : (pairItems before).length = before.length := List.length_map _
  have sameLength := Item.members?_length read
  have within : Item.depthEntries (pairItems before) ≤ 5 := by
    refine Item.depthEntries_le (fun entry member => ?_) fun entry member => ?_
    all_goals obtain ⟨pair, inside, rfl⟩ := List.mem_map.mp member
    · exact Nat.zero_le _
    · exact (nests pair inside).depth_le
  set response := Item.map .indefinite (pairItems before ++
    (keyItem last.1, last.2.toItem) :: pairItems (later ++ pairs.drop Item.maxEntries)) with response_eq
  have deeper : 6 < response.depth := by
    rw [response_eq, Item.depth, Item.depthEntries_append, Item.depthEntries]
    omega
  have start : Deep (zcborNewDecodeState 8 response.encode 1) 0 response [] :=
    ⟨(List.append_nil _).symm, Nat.one_ne_zero, by simp [zcborArrayAtEnd, zcborNewDecodeState], Nat.zero_le _,
      deeper, (show 0 + (6 - 0) ≤ CORECONF_MAX_DEPTH by decide), Payload.size ⟨response.encode, by omega⟩⟩
  have keyed : (keyItem last.1).sid? = some last.1 := by simp [keyItem, Item.sid?]
  obtain ⟨tail, st, deepLast, backups, returns, goesOn⟩ := start.member wellFormed (by omega) read keyed
    (show 6 = 5 + 1 + 0 from rfl) within deep
  have present := Item.encode_ne_nil wellFormed
  refine ⟨tail, st, members, deepLast, backups, by omega, content, fun value returned => ?_,
    fun shown left decoded full => ?_⟩
  · obtain ⟨left, decoded⟩ := (parseRequest_returns_iff present).mp returned
    exact returns _ decoded
  · exact (parseRequest_returns_iff present).mpr ⟨left, goesOn shown left decoded full⟩

/-- The client's map binds the SIDs to the last of the answers that reach it. -/
theorem ReachClient.read {read : List (UInt64 × CoreconfValueT)} (reach : ReachClient pairs read)
    (room : (Item.map .indefinite (pairItems pairs)).encode.length ≤ BUFFER_SIZE) :
    ∃ client, Returns parseGetResponse (Item.map .indefinite (pairItems pairs)).encode
        (some (.hashmap client)) ∧
      ∀ sid, (getCoreconfHashMap client sid).map CoreconfValueT.toTree =
        (lastAnswer read sid).map CoreconfValueT.toTree := by
  have size : BUFFER_SIZE < 2 ^ 31 := by decide
  cases reach with
  | within nests =>
      have wellFormed := response_wellFormed room
      have object : (Item.map .indefinite (pairItems pairs)).encode.length < 2 ^ 63 := by omega
      have taken : (pairItems pairs).take Item.maxEntries = pairItems (pairs.take Item.maxEntries) :=
        List.map_take.symm
      have short : (Item.encodeEntries (pairItems (pairs.take Item.maxEntries))).length < 2 ^ 31 := by
        have whole := Item.encodeEntries_append ((pairItems pairs).take Item.maxEntries)
          ((pairItems pairs).drop Item.maxEntries)
        rw [List.take_append_drop, taken] at whole
        rw [Item.encode, List.length_append, List.length_append, whole, List.length_append] at room
        omega
      obtain ⟨members, read, same⟩ := pairItems_read (fun pair member => ⟨5, nests pair member⟩) short
      have within : Item.depthEntries ((pairItems pairs).take Item.maxEntries) ≤ 5 := by
        rw [taken]
        refine Item.depthEntries_le (fun entry member => ?_) fun entry member => ?_
        all_goals obtain ⟨pair, inside, rfl⟩ := List.mem_map.mp member
        · exact Nat.zero_le _
        · exact (nests pair inside).depth_le
      have few : members.length ≤ Item.maxEntries := by
        rw [Item.members?_length read, pairItems, List.length_map]
        exact List.length_take_le _ _
      exact ⟨_, parseRequest_map ⟨_, object⟩ wellFormed rfl (taken ▸ read) within, insertMembers_get few same⟩
  | @brims before last later same nests few brims =>
      obtain ⟨tail, st, members, deep, backups, fewer, content, -, goesOn⟩ :=
        response_deep room same nests brims.lt_depth
      obtain ⟨nesting, few⟩ := few
      have member : last ∈ pairs := List.mem_of_mem_take (i := Item.maxEntries) (by rw [same]; simp)
      obtain ⟨value, found, sameLast⟩ := few.readBack (pair_length member room)
      obtain ⟨left, decoded, full⟩ := decodes_brims brims few.wellFormed found deep backups
      refine ⟨_, goesOn value left decoded full, insertMembers_get ?_ ?_⟩
      · rw [List.length_append, List.length_singleton]
        exact fewer
      · rw [List.map_append, List.map_append, content, List.map_singleton, List.map_singleton, sameLast]

/-- Other answers within 51 entries to a map do not reach the client: what it reads at one
of them is something else. -/
theorem reachClient_or_differs (nests : ∀ pair ∈ pairs, Nests pair.2.toItem.depth pair.2)
    (room : (Item.map .indefinite (pairItems pairs)).encode.length ≤ BUFFER_SIZE)
    {client : CoreconfHashMapT CoreconfValueT}
    (returned : Returns parseGetResponse (Item.map .indefinite (pairItems pairs)).encode
      (some (.hashmap client))) :
    (∃ read, ReachClient pairs read) ∨
      ∃ pair ∈ pairs, (∀ elements, pair.2 ≠ .array elements) ∧
        (getCoreconfHashMap client pair.1).map CoreconfValueT.toTree ≠ some pair.2.toTree := by
  by_cases shallow : ∀ pair ∈ pairs.take Item.maxEntries, pair.2.toItem.depth ≤ 5
  · exact Or.inl ⟨_, .within fun pair member =>
      (nests pair (List.mem_of_mem_take member)).mono (shallow pair member)⟩
  · obtain ⟨pair, member, deep⟩ : ∃ pair ∈ pairs.take Item.maxEntries, 5 < pair.2.toItem.depth := by
      simpa using shallow
    have inside : (keyItem pair.1, pair.2.toItem) ∈ pairItems (pairs.take Item.maxEntries) :=
      List.mem_map_of_mem (f := fun pair => (keyItem pair.1, pair.2.toItem)) member
    obtain ⟨first, key, item, others, same, within, deeper⟩ :=
      Item.depthEntries_split (deep.trans_le (Item.depth_le_depthEntries inside))
    obtain ⟨before, behind, split, rfl, parts⟩ := List.map_eq_append_iff.mp same
    obtain ⟨last, later, rfl, entry, -⟩ := List.map_eq_cons_iff.mp parts
    cases entry
    have member : last ∈ pairs := List.mem_of_mem_take (i := Item.maxEntries) (by rw [split]; simp)
    have beforeNests : ∀ pair ∈ before, Nests 5 pair.2 := fun pair inside => by
      have shallow := (Item.depth_le_depthEntries
        (List.mem_map_of_mem (f := fun pair => (keyItem pair.1, pair.2.toItem)) inside)).trans within
      exact (nests pair (List.mem_of_mem_take (i := Item.maxEntries) (by rw [split]; simp [inside]))).mono shallow
    have few := nests last member
    have deepLast : 5 < last.2.toItem.depth := by
      rcases lt_max_iff.mp deeper with keyDeep | deep
      · cases keyDeep
      · exact deep
    obtain ⟨tail, st, members, deepAt, backups, fewer, content, returns, goesOn⟩ :=
      response_deep room split beforeNests deepLast
    obtain ⟨value, found, sameLast⟩ := few.readBack (pair_length member room)
    obtain ⟨⟨shown?, left⟩, decoded⟩ := returns _ returned
    obtain ⟨shown, rfl, full, brims⟩ := spills few.wellFormed few.distinctKeys found deepAt backups decoded
    by_cases kept : shown.toTree = value.toTree
    · exact Or.inl ⟨_, .brims split beforeNests ⟨_, few⟩ (brims kept)⟩
    · refine Or.inr ⟨last, member, fun elements array => ?_, ?_⟩
      · have list : last.2.toItem = .list .indefinite (CoreconfValueT.elementItems elements) := by
          rw [array]
          rfl
        rw [list] at deepAt
        exact deepAt.list_never (list ▸ few.wellFormed) (list ▸ few.distinctKeys)
          (by rw [← list, found]; rfl) (by omega) _ decoded
      · have same := Returns.unique parseRequest_monotone returned (goesOn shown left decoded full)
        cases same
        have bound : (members ++ [(last.1, shown)]).length ≤ Item.maxEntries := by
          rw [List.length_append, List.length_singleton]
          exact fewer
        have trees : (members ++ [(last.1, shown)]).map (fun member => (member.1, member.2.toTree)) =
            (before ++ [(last.1, shown)]).map fun pair => (pair.1, pair.2.toTree) := by
          rw [List.map_append, List.map_append, content]
        rw [insertMembers_get bound trees last.1, lastAnswer, List.reverse_append, List.reverse_singleton,
          List.singleton_append, List.lookup_cons_self, Option.map_some, ← sameLast]
        exact fun equal => kept (Option.some.inj equal)

end Response

/-- What is bound to a SID shows a value that was asked for: it is the value, or an array
with the list entry in it. -/
def FetchIid.Shows : FetchIid → Tree → Tree → Prop
  | scalar _, value, shown => shown = value
  | list _ _, value, shown => ∃ elements, shown = .list elements ∧ value ∈ elements

/-- Every identifier that resolves is shown in the map that the client reads. -/
def FetchLossless (root : CoreconfHashMapT CoreconfValueT) (iids : List FetchIid)
    (payload : List UInt8) : Prop :=
  ∃ client, Returns parseGetResponse payload (some (.hashmap client)) ∧
    ∀ iid ∈ iids, ∀ value, iid.resolve root = some value →
      ∃ shown, getCoreconfHashMap client iid.sid = some shown ∧ iid.Shows value.toTree shown.toTree

namespace FetchIid

theorem answer_valid {value : CoreconfValueT} (valid : value.Valid) (iid : FetchIid) :
    (iid.answer value).Valid := by
  cases iid with
  | scalar sid => exact valid
  | list sid key => exact .array (by simpa using valid)

/-- What is shown in a map of few entries has few itself, and so has its answer. -/
theorem Shows.few {iid : FetchIid} {value : CoreconfValueT} {shown : Tree}
    (shows : iid.Shows value.toTree shown) (few : shown.Few) : (iid.answer value).toTree.Few := by
  cases iid with
  | scalar sid => exact (show shown = value.toTree from shows) ▸ few
  | list sid key =>
      obtain ⟨elements, rfl, member⟩ := shows
      rw [answer, CoreconfHashMapT.toTree_array]
      refine .list fun element inside => ?_
      rw [List.map_singleton, List.mem_singleton] at inside
      subst inside
      cases few with
      | list each => exact each _ member
      | leaf notList notMap => exact absurd rfl (notList _)

end FetchIid

theorem mem_fetchPairs {iids : List FetchIid} {pair : UInt64 × CoreconfValueT}
    (member : pair ∈ fetchPairs root iids) :
    ∃ iid ∈ iids, ∃ value, iid.resolve root = some value ∧ pair = (iid.sid, iid.answer value) := by
  obtain ⟨iid, inside, found⟩ := List.mem_filterMap.mp member
  obtain ⟨value, resolved, rfl⟩ := Option.map_eq_some_iff.mp found
  exact ⟨iid, inside, value, resolved, rfl⟩

/-- Without loss the answers are of few entries, as all values that are decoded are. -/
private theorem lossless_nests (valid : Valid (.hashmap root)) {iids : List FetchIid}
    (room : (fetchResponse root iids).encode.length ≤ BUFFER_SIZE)
    {client : CoreconfHashMapT CoreconfValueT}
    (returned : Returns parseGetResponse (fetchResponse root iids).encode (some (.hashmap client)))
    (every : ∀ iid ∈ iids, ∀ value, iid.resolve root = some value →
      ∃ shown, getCoreconfHashMap client iid.sid = some shown ∧ iid.Shows value.toTree shown.toTree) :
    ∀ pair ∈ fetchPairs root iids, Nests pair.2.toItem.depth pair.2 := by
  intro pair member
  have short := pair_length member room
  obtain ⟨iid, inside, value, resolved, rfl⟩ := mem_fetchPairs member
  obtain ⟨shown, found, shows⟩ := every iid inside value resolved
  obtain ⟨st', decoded⟩ := (parseRequest_returns_iff (Item.encode_ne_nil (response_wellFormed room))).mp returned
  have inv := decoded.valid.repInv
  have few : shown.toTree.Few := by
    have clientFew := decoded.few
    rw [CoreconfHashMapT.toTree_hashmap] at clientFew
    have binding := inv.lookup_content_get iid.sid
    rw [found] at binding
    cases clientFew with
    | map count each => exact each _ (FinMap.lookup_mem binding)
    | leaf notList notMap => exact absurd rfl (notMap _)
  exact (iid.answer_valid (iid.resolve_valid valid resolved)).nests (shows.few few)
    (short.trans (by decide))

/-- The client is shown every value exactly where the last answer that reaches it with
the SID shows it. -/
theorem fetchResponse_lossless_iff (valid : Valid (.hashmap root)) {iids : List FetchIid}
    (room : (fetchResponse root iids).encode.length ≤ BUFFER_SIZE) :
    FetchLossless root iids (fetchResponse root iids).encode ↔
      ∃ read, ReachClient (fetchPairs root iids) read ∧
        ∀ iid ∈ iids, ∀ value, iid.resolve root = some value →
          ∃ shown, lastAnswer read iid.sid = some shown ∧ iid.Shows value.toTree shown.toTree := by
  have shownBy : ∀ {client : CoreconfHashMapT CoreconfValueT} {read : List (UInt64 × CoreconfValueT)},
      (∀ sid, (getCoreconfHashMap client sid).map CoreconfValueT.toTree =
        (lastAnswer read sid).map CoreconfValueT.toTree) →
      ∀ (iid : FetchIid) (value : CoreconfValueT),
        (∃ shown, getCoreconfHashMap client iid.sid = some shown ∧ iid.Shows value.toTree shown.toTree) ↔
          ∃ shown, lastAnswer read iid.sid = some shown ∧ iid.Shows value.toTree shown.toTree := by
    intro client read bound iid value
    have same := bound iid.sid
    constructor
    · rintro ⟨shown, found, shows⟩
      rw [found] at same
      obtain ⟨answer, last, equal⟩ := Option.map_eq_some_iff.mp same.symm
      exact ⟨answer, last, equal ▸ shows⟩
    · rintro ⟨answer, last, shows⟩
      rw [last] at same
      obtain ⟨shown, found, equal⟩ := Option.map_eq_some_iff.mp same
      exact ⟨shown, found, equal ▸ shows⟩
  constructor
  · rintro ⟨client, returned, every⟩
    have nests := lossless_nests valid room returned every
    rcases reachClient_or_differs nests room returned with ⟨read, reach⟩ | ⟨pair, member, notArray, differs⟩
    · obtain ⟨client', returned', bound⟩ := reach.read room
      cases Returns.unique parseRequest_monotone returned' returned
      exact ⟨read, reach, fun iid member value resolved =>
        (shownBy bound iid value).mp (every iid member value resolved)⟩
    · obtain ⟨iid, inside, value, resolved, rfl⟩ := mem_fetchPairs member
      obtain ⟨shown, found, shows⟩ := every iid inside value resolved
      cases iid with
      | scalar sid =>
          have same : shown.toTree = value.toTree := shows
          refine absurd ?_ differs
          rw [found, Option.map_some, same]
          rfl
      | list sid key => exact absurd rfl (notArray [value])
  · rintro ⟨read, reach, every⟩
    obtain ⟨client, returned, bound⟩ := reach.read room
    exact ⟨client, returned, fun iid member value resolved =>
      (shownBy bound iid value).mpr (every iid member value resolved)⟩

/-- A FETCH loses nothing exactly where each identifier that resolves is shown by the last
answer with its SID among those that reach the client. The identifiers are those that the handler
reads, which are the ones of the request where there are at most 64 (`IsFetchRequest.parsed`). -/
theorem fetch_lossless_iff (valid : Valid (.hashmap root)) {s : ServerState}
    (current : s.current = some (.hashmap root)) {req : Request}
    (format : getContentFormat req = CF_YANG_IDENTIFIERS) {iids : List FetchIid}
    (parsed : parseFetchIids 64 req.payload = iids) (nonempty : iids ≠ [])
    (room : (fetchResponse root iids).encode.length ≤ BUFFER_SIZE) :
    FetchLossless root iids (handleFetch s req).response.payload ↔
      ∃ read, ReachClient (fetchPairs root iids) read ∧
        ∀ iid ∈ iids, ∀ value, iid.resolve root = some value →
          ∃ shown, lastAnswer read iid.sid = some shown ∧ iid.Shows value.toTree shown.toTree := by
  rw [handleFetch_parsed valid current format parsed nonempty room]
  exact fetchResponse_lossless_iff valid room

private def named (name : CString) : CoreconfHashMapT CoreconfValueT := mapOf [(1, .string name)]

private def servers : CoreconfHashMapT CoreconfValueT :=
  mapOf [(5, .array [.hashmap (named (CString.ofBuffer [0x61])), .hashmap (named (CString.ofBuffer [0x62]))]),
    (6, .true)]

private theorem named_objects (name : CString) : (named name).objects = [⟨1, some (.string name)⟩] :=
  insert_create_objects 1 _

private theorem named_nests {name : CString} (object : name.bytes.length < 2 ^ 63) :
    Nests 5 (.array [.hashmap (named name)]) := by
  refine .array fun entry member => ?_
  cases List.mem_singleton.mp member
  refine .hashmap ?_ ?_ ?_ ?_
  all_goals rw [named_objects]
  · simp
  · exact (by decide : 1 ≤ Item.maxEntries)
  · simp
  · intro object' member value same
    cases List.mem_singleton.mp member
    cases same
    exact .leaf rfl fun s same => by
      cases same
      exact object

private theorem servers_valid : Valid (.hashmap servers) := by
  have valid : ∀ name, Valid (.hashmap (named name)) := fun name => mapOf_valid (by simpa using .leaf rfl)
  refine mapOf_valid fun member inside => ?_
  rcases List.mem_cons.mp inside with rfl | inside
  · exact .array (by simpa using ⟨valid _, valid _⟩)
  · cases List.mem_singleton.mp inside
    exact .leaf rfl

/-- The leaf and one of the servers. -/
theorem fetch_lossless_server :
    FetchLossless servers [.scalar 6, .list 5 (CString.ofBuffer [0x61])]
      (handleFetch ⟨some (.hashmap servers), true⟩
        ⟨some CF_YANG_IDENTIFIERS, [0x06, 0x9F, 0x05, 0x61, 0x61, 0xFF]⟩).response.payload := by
  have pairs : fetchPairs servers [.scalar 6, .list 5 (CString.ofBuffer [0x61])] =
      [(6, .true), (5, .array [.hashmap (named (CString.ofBuffer [0x61]))])] := rfl
  have request : IsFetchRequest [.scalar 6, .list 5 (CString.ofBuffer [0x61])]
      [0x06, 0x9F, 0x05, 0x61, 0x61, 0xFF] := by
    refine .cons (.scalar .immediate 6) (.uint (by decide)) trivial
      (.cons (.list .indefinite .immediate .immediate 5 (CString.ofBuffer [0x61])) (.list trivial ?_)
        (show 1 ≤ 127 by decide) .nil)
    simp only [List.forall_mem_cons]
    exact ⟨.uint (by decide), .tstr (by decide), by simp⟩
  refine (fetch_lossless_iff servers_valid rfl rfl (request.parsed (by decide)) (by simp) (by decide +kernel)).mpr
    ⟨_, .within ?_, ?_⟩
  · rw [pairs]
    simp only [Item.maxEntries, CORECONF_MAX_LOOP, List.take_succ_cons, List.take_nil, List.forall_mem_cons]
    exact ⟨.leaf rfl (by simp), named_nests (by decide), by simp⟩
  · rw [pairs]
    simp only [List.forall_mem_cons]
    refine ⟨fun value resolved => ?_, fun value resolved => ?_, by simp⟩
    · cases resolved
      exact ⟨.true, rfl, rfl⟩
    · have entry : value = .hashmap (named (CString.ofBuffer [0x61])) := Option.some.inj resolved.symm
      subst entry
      refine ⟨.array [.hashmap (named (CString.ofBuffer [0x61]))], rfl, _, CoreconfHashMapT.toTree_array _, ?_⟩
      exact List.mem_singleton.mpr rfl

/-- Of two servers in one request the client reads the second. -/
theorem first_server_lost :
    ∃ root iids data, Valid (.hashmap root) ∧ IsFetchRequest iids data ∧ iids ≠ [] ∧ iids.length ≤ 64 ∧
      (fetchResponse root iids).encode.length ≤ BUFFER_SIZE ∧
      ¬ FetchLossless root iids
        (handleFetch ⟨some (.hashmap root), true⟩ ⟨some CF_YANG_IDENTIFIERS, data⟩).response.payload := by
  have request : IsFetchRequest [.list 5 (CString.ofBuffer [0x61]), .list 5 (CString.ofBuffer [0x62])]
      [0x9F, 0x05, 0x61, 0x61, 0xFF, 0x9F, 0x05, 0x61, 0x62, 0xFF] := by
    refine .cons (.list .indefinite .immediate .immediate 5 (CString.ofBuffer [0x61])) (.list trivial ?_)
      (show 1 ≤ 127 by decide) (.cons (.list .indefinite .immediate .immediate 5 (CString.ofBuffer [0x62]))
        (.list trivial ?_) (show 1 ≤ 127 by decide) .nil)
    all_goals
      simp only [List.forall_mem_cons]
      exact ⟨.uint (by decide), .tstr (by decide), by simp⟩
  have room : (fetchResponse servers [.list 5 (CString.ofBuffer [0x61]),
      .list 5 (CString.ofBuffer [0x62])]).encode.length ≤ BUFFER_SIZE := by decide +kernel
  have pairs : fetchPairs servers [.list 5 (CString.ofBuffer [0x61]), .list 5 (CString.ofBuffer [0x62])] =
      [(5, .array [.hashmap (named (CString.ofBuffer [0x61]))]),
        (5, .array [.hashmap (named (CString.ofBuffer [0x62]))])] := rfl
  refine ⟨_, _, _, servers_valid, request, by simp, by decide, room, fun lossless => ?_⟩
  rw [handleFetch_parsed servers_valid rfl rfl (request.parsed (by decide)) (by simp) room,
    fetchResponse_lossless_iff servers_valid room, pairs] at lossless
  obtain ⟨read, reach, every⟩ := lossless
  have whole : read = [(5, .array [.hashmap (named (CString.ofBuffer [0x61]))]),
      (5, .array [.hashmap (named (CString.ofBuffer [0x62]))])] := by
    cases reach with
    | within nests => rfl
    | @brims before last later same nests few brims =>
        have member : last ∈ before ++ last :: later := by simp
        rw [← same] at member
        rcases List.mem_pair.mp (List.mem_of_mem_take member) with rfl | rfl
        all_goals cases brims
  subst whole
  obtain ⟨shown, last, elements, list, first⟩ := every _ List.mem_cons_self
    (.hashmap (named (CString.ofBuffer [0x61]))) rfl
  have second : shown = .array [.hashmap (named (CString.ofBuffer [0x62]))] := Option.some.inj last.symm
  have tree : ∀ name, (CoreconfValueT.hashmap (named name)).toTree = .map [(1, .str name.bytes)] := by
    intro name
    rw [CoreconfHashMapT.toTree_hashmap, CoreconfHashMapT.content, CoreconfHashMapT.members, named_objects]
    rfl
  rw [second, CoreconfHashMapT.toTree_array] at list
  cases list
  rw [List.map_singleton, List.mem_singleton, tree, tree] at first
  cases first

end Coreconf
