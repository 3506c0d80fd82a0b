import Coreconf.PostRequests
import Coreconf.Process
import Coreconf.Timestamps

set_option autoImplicit false

/- What the client prints of the answer to a POST, and that it is what the server has answered. -/
namespace Coreconf

open Cbor (Item Framing Width)
open Fuel (Returns Monotone Extends Step)

/-- `%-8` of printf. -/
def leftJustify (width : Nat) (bytes : List UInt8) : List UInt8 :=
  bytes ++ List.replicate (width - bytes.length) 0x20

/-- The key of a node and a colon. An instance key is printed from a buffer of 128 bytes. -/
def printPostKey (st : ZcborState) : Option (List UInt8 × ZcborState) :=
  match majorTypeAt st.payload with
  | some .pint =>
      (zcborUint64Decode st).map fun (sid, st) =>
        (text "    " ++ leftJustify 8 (decimal sid.toNat) ++ text " : ", st)
  | some .list => do
      let st ← zcborListStartDecode st
      let (sid, st) ← zcborUint64Decode st
      let (zs, st) ← zcborTstrDecode st
      match zcborListEndDecode st with
      | (false, _) => none
      | (true, st) =>
          some (text "    [" ++ decimal sid.toNat ++ text ",\"" ++ (keyBuffer zs).bytes ++ text "\"] : ", st)
  | _ => none

structure MemberLoop where
  st : ZcborState
  first : Bool
  printed : List UInt8

/-- A member of a map; without a state in the result the loop has ended in a decode error. -/
def printMemberBody (loop : MemberLoop) : Step MemberLoop (List UInt8 × Option ZcborState) :=
  if zcborArrayAtEnd loop.st then .done (loop.printed, some loop.st)
  else
    match zcborUint64Decode loop.st with
    | none => .done (loop.printed ++ text "(decode error)", none)
    | some (innerSid, st) =>
        match zcborTstrDecode st with
        | none => .done (loop.printed ++ text "(decode error)", none)
        | some (innerStr, st) =>
            let separator := if loop.first then [] else text ", "
            .next ⟨st, false, loop.printed ++ separator ++ decimal innerSid.toNat ++ text ":\"" ++
              (formatTextString innerStr).bytes ++ text "\""⟩

def printMembers (fuel : Nat) (loop : MemberLoop) : Option (List UInt8 × Option ZcborState) :=
  Fuel.loop (fun loop => some (printMemberBody loop)) fuel loop

/-- The value of a node. One that is neither null nor a map is not passed over. -/
def printPostValue (fuel : Nat) (st : ZcborState) : Option (List UInt8 × Option ZcborState) :=
  match zcborNilExpect st with
  | some st => some (text "null", some st)
  | none =>
      match zcborMapStartDecode st with
      | (false, st) => some (text "(unsupported value)", some st)
      | (true, st) =>
          (printMembers fuel ⟨st, true, text "\x7b"⟩).map fun
            | (printed, none) => (printed, none)
            | (printed, some st) =>
                match zcborMapEndDecode st with
                | (false, _) => (printed ++ text "(decode error)", none)
                | (true, st) => (printed ++ text "\x7d", some st)

structure AnswerLoop where
  ptr : List UInt8
  shown : Nat
  printed : List UInt8

/-- One node of the answer. -/
def printNodeBody (fuel : Nat) (loop : AnswerLoop) : Option (Step AnswerLoop (List UInt8)) :=
  if loop.ptr = [] then
    some (.done (loop.printed ++ text "    -- " ++ decimal loop.shown ++ text " root node(s) --\n"))
  else
    match zcborMapStartDecode (zcborNewDecodeState 12 loop.ptr 1) with
    | (false, _) => some (.done (loop.printed ++ text "    (decode error)\n"))
    | (true, st) =>
        if zcborArrayAtEnd st then some (.done (loop.printed ++ text "    (decode error)\n"))
        else
          match printPostKey st with
          | none => some (.done (loop.printed ++ text "    (decode error)\n"))
          | some (key, st) =>
              (printPostValue fuel st).map fun
                | (value, none) => .done (loop.printed ++ key ++ value)
                | (value, some st) =>
                    if !zcborArrayAtEnd st then .done (loop.printed ++ key ++ value ++ text "\n    (decode error)\n")
                    else
                      match zcborMapEndDecode st with
                      | (false, _) => .done (loop.printed ++ key ++ value ++ text "\n    (decode error)\n")
                      | (true, st) => .next ⟨st.payload, loop.shown + 1, loop.printed ++ key ++ value ++ text "\n"⟩

/-- What is printed of an answer. -/
def printPostResponse (fuel : Nat) (data : List UInt8) : Option (List UInt8) :=
  Fuel.iterate printNodeBody fuel ⟨data, 0, text "\n"⟩

/-- How a key is to be shown. -/
def PostIid.shown (sid : UInt64) : PostIid → List UInt8
  | .sid => text "    " ++ leftJustify 8 (decimal sid.toNat) ++ text " : "
  | .sidStrKey strKey => text "    [" ++ decimal sid.toNat ++ text ",\"" ++ strKey.bytes.take 127 ++ text "\"] : "

/-- How the members of a map of texts are to be shown. -/
def shownMembers : Bool → List (UInt64 × CString) → List UInt8
  | _, [] => []
  | first, (sid, s) :: rest =>
      (if first then [] else text ", ") ++ decimal sid.toNat ++ text ":\"" ++ s.bytes ++ text "\"" ++
        shownMembers false rest

/-- The members of a map of texts. -/
def textMembers (map : CoreconfHashMapT CoreconfValueT) : List (UInt64 × CString) :=
  map.objects.filterMap fun object =>
    match object.value with
    | some (.string s) => some (object.key, s)
    | _ => none

def shownValue : CoreconfValueT → List UInt8
  | .hashmap map => text "\x7b" ++ shownMembers true (textMembers map) ++ text "\x7d"
  | _ => text "null"

/-- A value that the client can show: null, or a map of texts. -/
inductive Showable : CoreconfValueT → Prop
  | null : Showable .null
  | map {map : CoreconfHashMapT CoreconfValueT} (texts : ∀ object ∈ map.objects, ∃ s, object.value = some (.string s)) :
      Showable (.hashmap map)

theorem Showable.noNull {value : CoreconfValueT} (showable : Showable value) : value.NoNull := by
  cases showable with
  | null => exact .leaf rfl
  | map texts =>
      refine .hashmap (fun object member same => ?_) (fun object member value same => ?_)
      · obtain ⟨s, found⟩ := texts object member
        rw [same] at found
        cases found
      · obtain ⟨s, found⟩ := texts object member
        obtain rfl := Option.some.inj (same.symm.trans found)
        exact .leaf rfl

def PostItem.shown (item : PostItem) : List UInt8 :=
  item.iid.shown item.sid ++ shownValue (item.value.getD .null) ++ text "\n"

section Read

theorem takeWhile_take {α : Type} (p : α → Bool) (n : Nat) (l : List α) :
    (l.take n).takeWhile p = (l.takeWhile p).take n := by
  induction l generalizing n with
  | nil => simp
  | cons first rest ih =>
      cases n with
      | zero => rfl
      | succ n =>
          rw [List.take_succ_cons, List.takeWhile_cons, List.takeWhile_cons]
          split
          · rw [ih, List.take_succ_cons]
          · rfl

/-- The client reads a key as the server does, and shows at most 127 bytes of it. -/
theorem printPostKey_eq (st : ZcborState) :
    printPostKey st = (decodePostKey st).map fun (key, st) => (key.1.shown key.2, st) := by
  rw [printPostKey, decodePostKey]
  cases majorTypeAt st.payload with
  | none => rfl
  | some major =>
      cases major with
      | pint =>
          simp only [Option.map_map]
          rfl
      | list =>
          cases zcborListStartDecode st with
          | none => rfl
          | some st =>
              simp only [Option.bind_eq_bind, Option.bind_some]
              cases zcborUint64Decode st with
              | none => rfl
              | some read =>
                  obtain ⟨sid, st⟩ := read
                  simp only [Option.bind_some]
                  cases zcborTstrDecode st with
                  | none => rfl
                  | some key =>
                      obtain ⟨zs, st⟩ := key
                      simp only [Option.bind_some]
                      cases zcborListEndDecode st with
                      | mk ended st =>
                          cases ended with
                          | false => rfl
                          | true =>
                              simp only [Option.map_some, PostIid.shown, keyBuffer, CString.ofBuffer,
                                takeWhile_take]
      | _ => rfl

def memberItems (members : List (UInt64 × CString)) : List (Item × Item) :=
  members.map fun (sid, s) => (keyItem sid, (CoreconfValueT.string s).toItem)

/-- One member of a map of texts. -/
theorem printMember_next {st : ZcborState} {sid : UInt64} {s : CString} {rest : List UInt8} {count : Nat}
    (inside : Inside .indefinite (count + 2) st)
    (payload : st.payload = (keyItem sid).encode ++ ((CoreconfValueT.string s).toItem.encode ++ rest))
    (short : s.bytes.length < 2 ^ 31) (first : Bool) (printed : List UInt8) :
    printMemberBody ⟨st, first, printed⟩ =
      .next ⟨(st.after ((CoreconfValueT.string s).toItem.encode ++ rest)).after rest, false,
        printed ++ (if first then [] else text ", ") ++ decimal sid.toNat ++ text ":\"" ++ s.bytes ++ text "\""⟩ := by
  have behind := inside.after ((CoreconfValueT.string s).toItem.encode ++ rest)
  have sidRead : zcborUint64Decode st = some (sid, st.after ((CoreconfValueT.string s).toItem.encode ++ rest)) := by
    rw [zcborUint64Decode_item (keyItem_wellFormed sid) payload inside.left]
    simp [keyItem, Item.sid?]
  have formed : (CoreconfValueT.string s).toItem.WellFormed := .tstr (Width.least_fits (by omega))
  have textRead : zcborTstrDecode (st.after ((CoreconfValueT.string s).toItem.encode ++ rest)) =
      some (s.bytes, (st.after ((CoreconfValueT.string s).toItem.encode ++ rest)).after rest) :=
    zcborTstrDecode_item formed rfl behind.left
  have whole : (formatTextString s.bytes).bytes = s.bytes := (formatTextString_kept s.noNul).mpr (Or.inl short)
  rw [printMemberBody, if_neg (inside.not_atEnd (keyItem_wellFormed sid) payload), sidRead]
  dsimp only
  rw [textRead]
  dsimp only
  rw [whole]

/-- The loop over the members, by induction over them. -/
theorem printMembers_texts {members : List (UInt64 × CString)}
    (short : ∀ member ∈ members, member.2.bytes.length < 2 ^ 31)
    {st : ZcborState} {rest : List UInt8} (inside : Inside .indefinite (2 * members.length) st)
    (payload : st.payload = Item.encodeEntries (memberItems members) ++ (Framing.indefinite.closing ++ rest))
    (first : Bool) (printed : List UInt8) {fuel : Nat} (enough : members.length < fuel) :
    ∃ left, printMembers fuel ⟨st, first, printed⟩ = some (printed ++ shownMembers first members, some left) ∧
      Inside .indefinite 0 left ∧ left.payload = Framing.indefinite.closing ++ rest ∧
      left.backupList = st.backupList ∧ left.numBackups = st.numBackups := by
  induction members generalizing st first printed fuel with
  | nil =>
      obtain ⟨fuel, rfl⟩ : ∃ k, fuel = k + 1 := ⟨fuel - 1, by simp at enough; omega⟩
      have atEnd : zcborArrayAtEnd st := inside.atEnd payload
      refine ⟨st, Fuel.loop_done ?_, inside, payload, rfl, rfl⟩
      rw [printMemberBody, if_pos atEnd, shownMembers, List.append_nil]
  | cons member later ih =>
      obtain ⟨sid, s⟩ := member
      obtain ⟨here, others⟩ := List.forall_mem_cons.mp short
      obtain ⟨fuel, rfl⟩ : ∃ k, fuel = k + 1 := ⟨fuel - 1, by simp at enough; omega⟩
      set tail := Item.encodeEntries (memberItems later) ++ (Framing.indefinite.closing ++ rest) with tail_eq
      have counted : Inside .indefinite (2 * later.length + 2) st := inside
      have bytes : st.payload = (keyItem sid).encode ++ ((CoreconfValueT.string s).toItem.encode ++ tail) := by
        rw [payload, memberItems, List.map_cons, Item.encodeEntries, List.append_assoc, List.append_assoc]
        rfl
      have next := printMember_next counted bytes here first printed
      have behind := (counted.after ((CoreconfValueT.string s).toItem.encode ++ tail)).after tail
      obtain ⟨left, ran, at_end⟩ := ih others behind rfl false
        (printed ++ (if first then [] else text ", ") ++ decimal sid.toNat ++ text ":\"" ++ s.bytes ++ text "\"")
        (by simp at enough; exact enough)
      refine ⟨left, ?_, at_end⟩
      rw [printMembers, Fuel.loop_next (congrArg some next)]
      refine ran.trans ?_
      rw [shownMembers]
      simp only [List.append_assoc]

theorem mapItems_texts {map : CoreconfHashMapT CoreconfValueT}
    (texts : ∀ object ∈ map.objects, ∃ s, object.value = some (.string s)) :
    CoreconfValueT.mapItems map = memberItems (textMembers map) := by
  rw [CoreconfValueT.mapItems_eq, memberItems, textMembers]
  generalize map.objects = objects at texts
  induction objects with
  | nil => rfl
  | cons object rest ih =>
      obtain ⟨⟨s, same⟩, others⟩ := List.forall_mem_cons.mp texts
      obtain ⟨key, value⟩ := object
      obtain rfl : value = some (.string s) := same
      rw [List.flatMap_cons, ih others, List.filterMap_cons]
      rfl

/-- The members and their texts are part of the encoding of their map. -/
theorem memberItems_length (members : List (UInt64 × CString)) :
    2 * members.length ≤ (Item.encodeEntries (memberItems members)).length ∧
      ∀ member ∈ members, member.2.bytes.length ≤ (Item.encodeEntries (memberItems members)).length := by
  induction members with
  | nil => exact ⟨le_rfl, List.forall_mem_nil _⟩
  | cons member rest ih =>
      obtain ⟨sid, s⟩ := member
      obtain ⟨count, texts⟩ := ih
      have key : (keyItem sid).encode.length = (Width.least sid.toNat).length + 1 := Cbor.head_length ..
      have value : (CoreconfValueT.string s).toItem.encode.length =
          (Width.least s.bytes.length).length + 1 + s.bytes.length := by
        rw [CoreconfValueT.toItem, Item.encode, Cbor.string, List.length_append, Cbor.head_length]
      have bytes : (Item.encodeEntries (memberItems ((sid, s) :: rest))).length =
          (keyItem sid).encode.length + (CoreconfValueT.string s).toItem.encode.length +
            (Item.encodeEntries (memberItems rest)).length := by
        rw [memberItems, List.map_cons, Item.encodeEntries, List.length_append, List.length_append]
        rfl
      refine ⟨by rw [List.length_cons]; omega, List.forall_mem_cons.mpr ⟨by dsimp only; omega, fun other inside => ?_⟩⟩
      have part := texts other inside
      omega

/-- The value of a node is shown, and passed over. -/
theorem printPostValue_shown {value : CoreconfValueT} (showable : Showable value) {st : ZcborState}
    {rest : List UInt8} (payload : st.payload = value.toItem.encode ++ rest) (left : st.elemCount ≠ 0)
    (room : st.backupList.length < st.numBackups) (short : st.payload.length < 2 ^ 31) :
    ∃ enough, ∀ fuel ≥ enough, printPostValue fuel st = some (shownValue value, some (st.after rest)) := by
  cases showable with
  | null =>
      refine ⟨0, fun fuel _ => ?_⟩
      have nil : st.payload = 0xF6 :: rest := payload
      have read : zcborNilExpect st = some (st.after rest) := by
        simp [zcborNilExpect, zcborSimpleDecode, valueExtractFixed, valueExtract, nil, left, ZCBOR_MAJOR_TYPE,
          ZCBOR_ADDITIONAL, ZCBOR_VALUE_IS_1_BYTE, ZCBOR_VALUE_IS_8_BYTES, ZCBOR_VALUE_IS_INDEFINITE_LENGTH,
          ZCBOR_NIL_VAL, additionalLen, ZCBOR_VALUE_IN_HEADER, ZcborState.after]
      rw [printPostValue, read]
      rfl
  | @map map texts =>
      set members := textMembers map with members_eq
      have opened : st.payload = Framing.indefinite.opening 5 members.length ++
          (Item.encodeEntries (memberItems members) ++ (Framing.indefinite.closing ++ rest)) := by
        rw [payload, CoreconfValueT.toItem, mapItems_texts texts, Item.encode, ← members_eq, memberItems,
          List.length_map]
        simp only [List.append_assoc]
      have first : st.payload = 0xBF :: (Item.encodeEntries (memberItems members) ++
          (Framing.indefinite.closing ++ rest)) := opened
      have size := congrArg List.length first
      rw [List.length_cons, List.length_append] at size
      have noNil : zcborNilExpect st = none := by
        simp [zcborNilExpect, zcborSimpleDecode, first, ZCBOR_MAJOR_TYPE]
      obtain ⟨count, lengths⟩ := memberItems_length members
      have limit : ZCBOR_MAX_ELEM_COUNT / 2 = 2 ^ 63 - 1 := rfl
      have large : ZCBOR_LARGE_ELEM_COUNT = 2 ^ 64 - 16 := by decide
      have checked : typeCheck st .map = true := by
        rw [typeCheck, majorTypeAt, first]
        rfl
      have started := zcborMapStartDecode_opening opened trivial left checked room (by omega)
      set tail := Item.encodeEntries (memberItems members) ++ (Framing.indefinite.closing ++ rest) with tail_eq
      have inside : Inside .indefinite (2 * members.length) (st.entered .indefinite (2 * members.length) tail) :=
        entered_inside (by omega)
      refine ⟨members.length + 1, fun fuel enough => ?_⟩
      obtain ⟨behind, ran, at_end, bytes, backups, number⟩ := printMembers_texts
        (fun member member_in => (lengths member member_in).trans_lt (by omega)) inside rfl true (text "\x7b") enough
      have ended := at_end.leave bytes backups
      rw [printPostValue, noNil]
      dsimp only
      rw [started]
      dsimp only
      rw [ran, Option.map_some]
      dsimp only
      rw [zcborMapEndDecode, ended]
      dsimp only
      rw [shownValue, ← members_eq]
      have same : behind.leave ⟨st.elemCount - 1, st.indefiniteLengthArray⟩ st.backupList rest = st.after rest := by
        rw [ZcborState.leave, number]
        rfl
      rw [same]

theorem printPostValue_extends {m n : Nat} (le : m ≤ n) (st : ZcborState) :
    Extends (printPostValue m st) (printPostValue n st) := by
  rw [printPostValue, printPostValue]
  split
  · exact .refl _
  · split
    · exact .refl _
    · exact (Fuel.loop_extends (fun _ => .refl _) le _).map _

theorem printNodeBody_monotone : Monotone printNodeBody := by
  refine Monotone.of_extends fun m n loop le => ?_
  simp only [printNodeBody]
  refine .ite (.refl _) ?_
  split
  · exact .refl _
  · refine .ite (.refl _) ?_
    split
    · exact .refl _
    · exact (printPostValue_extends le _).map _

/-- One node is shown. -/
theorem printNode_next {item : PostItem} (showable : Showable (item.value.getD .null)) {rest : List UInt8}
    (short : (item.toItem.encode ++ rest).length < 2 ^ 31) (shown : Nat) (printed : List UInt8) :
    Returns printNodeBody ⟨item.toItem.encode ++ rest, shown, printed⟩
      (.next ⟨rest, shown + 1, printed ++ item.shown⟩) := by
  have length := item.value_length_le
  rw [List.length_append] at short
  have keyFormed : (Item.ofPatchKey item.key).WellFormed := by
    refine (ofPatchKey_wellFormed fun sid keyStr same => ?_).1
    have bytes := ofPatchKey_text_le sid keyStr
    rw [← same] at bytes
    omega
  set value := item.value.getD .null with value_eq
  set tail := value.toItem.encode ++ ([Cbor.breakCode] ++ rest) with tail_eq
  set start := zcborNewDecodeState 12 (item.toItem.encode ++ rest) 1 with start_eq
  have payload : item.toItem.encode ++ rest =
      Framing.indefinite.opening 5 1 ++ ((Item.ofPatchKey item.key).encode ++ tail) := by
    simp only [tail_eq, value_eq, PostItem.toItem, Item.encode, Item.encodeEntries, Framing.closing,
      List.length_singleton, List.append_assoc, List.append_nil]
  have started := zcborMapStartDecode_new (show 2 < 12 by decide) (show Framing.indefinite.Fits 1 from trivial)
    (by decide) payload
  set st := start.entered .indefinite (2 * 1) ((Item.ofPatchKey item.key).encode ++ tail) with st_eq
  have inside : Inside .indefinite 2 st := entered_inside (by decide)
  have keyed : printPostKey st = some (item.iid.shown item.sid, st.after tail) := by
    rw [printPostKey_eq, decodePostKey_item keyFormed rfl inside.left (show 1 < 10 by decide)]
    rfl
  have tailShort : (st.after tail).payload.length < 2 ^ 31 := by
    show tail.length < 2 ^ 31
    have size := congrArg List.length payload
    simp only [List.length_append] at size
    omega
  obtain ⟨enough, ran⟩ := @printPostValue_shown _ showable (st.after tail) _ rfl (inside.after tail).left
    (show 1 < 10 by decide) tailShort
  have done := (inside.after tail).after ([Cbor.breakCode] ++ rest)
  have ended := done.leave (show _ = Framing.indefinite.closing ++ rest from rfl) rfl
  have nonempty : item.toItem.encode ++ rest ≠ [] := by
    rw [payload]
    exact List.cons_ne_nil _ _
  refine ⟨enough, ?_⟩
  rw [printNodeBody, if_neg nonempty, started]
  dsimp only
  rw [if_neg (inside.not_atEnd keyFormed rfl), keyed]
  dsimp only
  rw [ran enough le_rfl, Option.map_some]
  dsimp only
  rw [done.atEnd rfl, zcborMapEndDecode, ended]
  simp only [PostItem.shown, List.append_assoc]
  rfl

/-- All nodes, by induction over them, and their number. -/
theorem printNodes_run {items : List PostItem} (showable : ∀ item ∈ items, Showable (item.value.getD .null))
    (short : (postPayload items).length < 2 ^ 31) (shown : Nat) (printed : List UInt8) :
    Returns (Fuel.iterate printNodeBody) ⟨postPayload items, shown, printed⟩
      (printed ++ items.flatMap PostItem.shown ++ text "    -- " ++ decimal (shown + items.length) ++
        text " root node(s) --\n") := by
  induction items generalizing shown printed with
  | nil =>
      refine Fuel.iterate_done printNodeBody_monotone ⟨0, ?_⟩
      rw [printNodeBody, if_pos (show postPayload [] = [] from rfl)]
      simp
  | cons item rest ih =>
      obtain ⟨first, others⟩ := List.forall_mem_cons.mp showable
      have payload : postPayload (item :: rest) = item.toItem.encode ++ postPayload rest := List.flatMap_cons
      rw [payload] at short ⊢
      refine Fuel.iterate_next printNodeBody_monotone (printNode_next first short shown printed) ?_
      rw [List.length_append] at short
      have later := ih others (by omega) (shown + 1) (printed ++ item.shown)
      rw [List.flatMap_cons, List.length_cons, ← List.append_assoc]
      rwa [Nat.add_assoc, Nat.add_comm 1] at later

/-- What is printed of the sequence of the nodes. -/
theorem printPostResponse_nodes {items : List PostItem} (showable : ∀ item ∈ items, Showable (item.value.getD .null))
    (short : (postPayload items).length < 2 ^ 31) :
    Returns printPostResponse (postPayload items)
      (text "\n" ++ items.flatMap PostItem.shown ++ text "    -- " ++ decimal items.length ++
        text " root node(s) --\n") := by
  have run := printNodes_run showable short 0 (text "\n")
  rwa [Nat.zero_add] at run

end Read

section Invoke

variable {env : Environment}

/-- An invocation and its answer: null for the RPC, and for the action the time at which the
server named by the key will have been reset. -/
inductive Invoked (env : Environment) : PostItem → PostItem → Prop
  | reboot {value} : Invoked env ⟨.sid, env.opsSids.rebootRpcSid, value⟩ ⟨.sid, env.opsSids.rebootRpcSid, some .null⟩
  | reset {key input resetAt finishedAt output}
      (named : getCoreconfHashMap input env.opsSids.resetInputResetAt = some (.string resetAt))
      (finished : env.formatUtcTimestamp ((env.parseUtcTimestamp resetAt).getD env.time + 3) = some finishedAt)
      (objects : CoreconfHashMapT.objects output =
        [⟨env.opsSids.resetOutputFinishedAt, some (CoreconfValueT.string finishedAt)⟩]) :
      Invoked env ⟨.sidStrKey key, env.opsSids.resetActionSid, some (.hashmap input)⟩
        ⟨.sidStrKey key, env.opsSids.resetActionSid, some (.hashmap output)⟩

theorem Invoked.showable {item out : PostItem} (invoked : Invoked env item out) : Showable (out.value.getD .null) := by
  cases invoked with
  | reboot => exact .null
  | @reset key input resetAt finishedAt output named finished objects =>
      refine .map ?_
      rw [objects]
      exact List.forall_mem_singleton.mpr ⟨finishedAt, rfl⟩

theorem invoke_invoked {item out : PostItem} (answered : invoke env item = .ok out) : Invoked env item out := by
  obtain ⟨iid, sid, value⟩ := item
  cases iid with
  | sid =>
      rw [invoke] at answered
      dsimp only at answered
      split at answered
      next named =>
          obtain rfl := named
          rw [invokeReboot] at answered
          split at answered <;> cases answered <;> exact .reboot
      next => cases answered
  | sidStrKey key =>
      rw [invoke] at answered
      dsimp only at answered
      split at answered
      next named =>
          obtain rfl := named
          rw [invokeReset] at answered
          split at answered
          next input same =>
              obtain rfl : value = some (.hashmap input) := same
              split at answered
              next resetAt found =>
                  have answer := (resetAnswer_eq _ fun s => insertCoreconfHashMap_short
                    ((repInv_create.chain_length_le _).trans (Nat.zero_le _))).symm.trans answered
                  cases finished : env.formatUtcTimestamp ((env.parseUtcTimestamp resetAt).getD env.time + 3) with
                  | none =>
                      rw [finished] at answer
                      cases answer
                  | some finishedAt =>
                      rw [finished] at answer
                      cases answer
                      exact .reset found finished (insert_create_objects _ _)
              next => cases answered
          next => cases answered
      next => cases answered

theorem invokeAll_invoked {items outs : List PostItem} (answered : invokeAll env items = .ok outs) :
    List.Forall₂ (Invoked env) items outs := by
  induction items generalizing outs with
  | nil =>
      cases answered
      exact .nil
  | cons item rest ih =>
      rw [invokeAll, List.mapM_cons] at answered
      cases first : invoke env item with
      | error failed =>
          rw [first] at answered
          cases answered
      | ok out =>
          rw [first] at answered
          cases later : rest.mapM (invoke env) with
          | error failed =>
              rw [later] at answered
              cases answered
          | ok others =>
              rw [later] at answered
              cases answered
              exact .cons (invoke_invoked first) (ih later)

theorem invoked_showable {items outs : List PostItem} (invoked : List.Forall₂ (Invoked env) items outs) :
    ∀ out ∈ outs, Showable (out.value.getD .null) := by
  induction invoked with
  | nil => exact List.forall_mem_nil _
  | cons first _ ih => exact List.forall_mem_cons.mpr ⟨first.showable, ih⟩

/-- An answer of null or of one text is one whose lack of room is reported, or fits. -/
theorem createPostItems_whole {items : List PostItem} (showable : ∀ item ∈ items, Showable (item.value.getD .null))
    (fits : (postPayload items).length ≤ BUFFER_SIZE) {out : List UInt8}
    (created : createPostItems BUFFER_SIZE items = some out) : out = postPayload items := by
  rw [createPostItems] at created
  split at created
  · cases created
  · have noNull : ∀ item ∈ items, (item.value.getD .null).NoNull := fun item member => (showable item member).noNull
    rw [createPostItemsFrom_eq noNull (reportsItems_of_room fits), if_pos fits] at created
    exact (Option.some.inj created).symm

end Invoke

private def rebootRequest : Request := ⟨some CF_YANG_INSTANCES, [0xA1, 0x19, 0xEE, 0x48, 0xF6]⟩

private def rebootAnswer : Outcome where
  state := ⟨none, false⟩
  response := ⟨.changed, some CF_YANG_INSTANCES, [0xBF, 0x19, 0xEE, 0x48, 0xF6, 0xFF]⟩
  effects := []

private theorem reboot_handled : handlePost bareEnvironment 3 ⟨none, false⟩ rebootRequest = some rebootAnswer := rfl

example : printPostResponse 3 rebootAnswer.response.payload =
    some (text "\n    61000    : null\n    -- 1 root node(s) --\n") := by
  decide +kernel

end Coreconf
