import Coreconf.SidRequests
import Coreconf.StreamFilter

set_option autoImplicit false

/- The loops of coreconf_server.c and fetch.c over the items of a payload, with the payload_bak
that a failing call of zcbor goes back to: every round ends and moves forward. -/
namespace Coreconf

open Fuel (Step Returns Terminates MovesForward Monotone)

/-- A decoder state with its payload_bak and those of its backups, each as what is left of the
payload there, and with how far the payload pointer is past the end. -/
structure BakState where
  st : ZcborState
  past : Nat
  payloadBak : List UInt8
  backupBaks : List (List UInt8)

namespace BakState

/-- The payload_bak of a new state is whatever was in its memory. -/
def new (nStates : Nat) (payload stale : List UInt8) : BakState :=
  ⟨zcborNewDecodeState nStates payload 1, 0, stale, []⟩

def errRestore (s : BakState) : BakState :=
  { s with st := { s.st with payload := s.payloadBak, elemCount := s.st.elemCount + 1 }, past := 0 }

def uint64Decode (s : BakState) : Option (UInt64 × BakState) :=
  (zcborUint64Decode s.st).map fun read => (read.1, { s with st := read.2, payloadBak := s.st.payload })

/-- The backup is taken behind the head, with payload_bak at the head. -/
def entered (s : BakState) (st : ZcborState) : BakState :=
  { s with st := st, payloadBak := s.st.payload, backupBaks := s.st.payload :: s.backupBaks }

def listStartDecode (s : BakState) : Option BakState := (zcborListStartDecode s.st).map s.entered

def mapStartDecode (s : BakState) : Option BakState :=
  match zcborMapStartDecode s.st with
  | (false, _) => none
  | (true, st) => some (s.entered st)

/-- A backup that is restored brings its payload_bak with it. -/
def endDecode (s : BakState) : Bool × BakState :=
  ((listMapEndDecode s.st).1,
    { s with
      st := (listMapEndDecode s.st).2
      payloadBak := s.backupBaks.headD s.payloadBak
      backupBaks := s.backupBaks.tail })

/-- The values inside a container are skipped in a copy, whose payload_bak is lost with it. -/
def anySkip (skip : ZcborState → Option SkipResult) (s : BakState) : Option (Bool × BakState) :=
  (skip s.st).map fun
    | .skipped st past => (true, { s with st := st, past := past })
    | .failed => (false, s)
    | .restored => (false, s.errRestore)

end BakState

def eventKeyBak (skip : ZcborState → Option SkipResult) (s : BakState) :
    Option (Except BakState (UInt64 × BakState)) :=
  match majorTypeAt s.st.payload with
  | some .pint =>
      match s.uint64Decode with
      | none => some (.error s)
      | some read => some (.ok read)
  | some .list =>
      match s.listStartDecode with
      | none => some (.error s)
      | some inner =>
          match inner.uint64Decode with
          | none => some (.error inner.endDecode.2)
          | some (sid, behind) =>
              (behind.anySkip skip).map fun
                | (false, behind) => .error behind.endDecode.2
                | (true, behind) =>
                    match behind.endDecode with
                    | (false, s) => .error s
                    | (true, s) => .ok (sid, s)
  | _ => some (.error s)

def eventEntryBodyBak (skip : ZcborState → Option SkipResult) (filterSids : List UInt64) (s : BakState) :
    Option (Step BakState MatchExit) :=
  let leave (s : BakState) : Step BakState MatchExit := .done (.left s.endDecode.2.st.payload)
  if zcborArrayAtEnd s.st then some (leave s)
  else
    (eventKeyBak skip s).bind fun
      | .error s => some (leave s)
      | .ok (sid, behind) =>
          if streamSidInFilter sid filterSids then some (.done .matched)
          else
            (behind.anySkip skip).map fun
              | (true, s) => .next s
              | (false, s) => leave s

/-- `stale` is what the memory of the round's decoder state holds before it is set up. -/
def eventMapBodyBak (stale : List UInt8 → List UInt8) (filterSids : List UInt64) (n : Nat) (ptr : List UInt8) :
    Option (Step (List UInt8) Bool) :=
  if ptr = [] then some (.done false)
  else
    match (BakState.new 16 ptr (stale ptr)).mapStartDecode with
    | none => some (.done false)
    | some s =>
        (Fuel.loop (eventEntryBodyBak (zcborAnySkip n) filterSids) n s).map fun
          | .matched => .done true
          | .left ptr => .next ptr

def sequenceEntryBodyBak (skip : ZcborState → Option SkipResult) (s : BakState) :
    Option (Step BakState BakState) :=
  if zcborArrayAtEnd s.st then some (.done s)
  else
    (s.anySkip skip).bind fun
      | (false, s) => some (.done s)
      | (true, s) =>
          (s.anySkip skip).map fun
            | (false, s) => .done s
            | (true, s) => .next s

def sequenceMapBodyBak (stale : List UInt8 → List UInt8) (n : Nat) (loop : SequenceLoop) :
    Option (Step SequenceLoop (List Slice)) :=
  if loop.ptr = [] then some (.done loop.slices)
  else
    match (BakState.new 8 loop.ptr (stale loop.ptr)).mapStartDecode with
    | none => some (.done loop.slices)
    | some s =>
        (Fuel.loop (sequenceEntryBodyBak (zcborAnySkip n)) n s).map fun s =>
          match s.endDecode with
          | (false, _) => .done loop.slices
          | (true, s) =>
              let mapLen := loop.ptr.length - s.st.payload.length + s.past
              if mapLen = 0 then .done loop.slices
              else .next ⟨s.st.payload, loop.offset + mapLen, loop.slices ++ [⟨loop.offset, mapLen⟩]⟩

section View

variable {skip : ZcborState → Option SkipResult}

/-- The outcome of a key without its payload_bak. -/
def viewKey : Except BakState (UInt64 × BakState) → Except ZcborState (UInt64 × ZcborState)
  | .error s => .error s.st
  | .ok (sid, s) => .ok (sid, s.st)

theorem eventKeyBak_view (s : BakState) : (eventKeyBak skip s).map viewKey = eventKey skip s.st := by
  rw [eventKeyBak, eventKey]
  cases majorTypeAt s.st.payload with
  | none => rfl
  | some t =>
      cases t with
      | pint =>
          dsimp only [BakState.uint64Decode]
          cases zcborUint64Decode s.st <;> rfl
      | list =>
          dsimp only [BakState.listStartDecode]
          cases zcborListStartDecode s.st with
          | none => rfl
          | some inner =>
              dsimp only [Option.map_some, BakState.uint64Decode, BakState.entered]
              cases zcborUint64Decode inner with
              | none => rfl
              | some read =>
                  dsimp only [Option.map_some, BakState.anySkip]
                  cases skip read.2 with
                  | none => rfl
                  | some result =>
                      cases result with
                      | skipped behind past =>
                          dsimp only [Option.map_some, BakState.endDecode, zcborListEndDecode]
                          cases listMapEndDecode behind with
                          | mk ended left => cases ended <;> rfl
                      | failed => rfl
                      | restored => rfl
      | nint | bstr | tstr | map | tag | simple => rfl

/-- Behind a key payload_bak is at the key. -/
theorem eventKeyBak_bak {s behind : BakState} {sid : UInt64} (read : eventKeyBak skip s = some (.ok (sid, behind))) :
    behind.payloadBak = s.st.payload := by
  rw [eventKeyBak] at read
  split at read
  · rw [BakState.uint64Decode] at read
    cases decoded : zcborUint64Decode s.st <;> rw [decoded] at read <;> cases read
    rfl
  · rw [BakState.listStartDecode] at read
    cases started : zcborListStartDecode s.st with
    | none => rw [started] at read; cases read
    | some inner =>
        rw [started] at read
        dsimp only [Option.map_some, BakState.uint64Decode, BakState.entered] at read
        cases decoded : zcborUint64Decode inner with
        | none => rw [decoded] at read; cases read
        | some pair =>
            rw [decoded] at read
            dsimp only [Option.map_some, BakState.anySkip] at read
            cases skipped : skip pair.2 with
            | none => rw [skipped] at read; cases read
            | some result =>
                rw [skipped] at read
                cases result with
                | skipped st past =>
                    dsimp only [Option.map_some, BakState.endDecode] at read
                    cases ended : listMapEndDecode st with
                    | mk closed left => cases closed <;> rw [ended] at read <;> cases read; rfl
                | failed => cases read
                | restored => cases read
  · cases read

theorem eventEntryBak_view (filterSids : List UInt64) (s : BakState) :
    eventEntryBody skip filterSids s.st =
      (eventEntryBodyBak skip filterSids s).map (Step.map BakState.st id) := by
  rw [eventEntryBody, eventEntryBodyBak, ← eventKeyBak_view]
  split
  · rfl
  · cases read : eventKeyBak skip s with
    | none => rfl
    | some key =>
        cases key with
        | error left => rfl
        | ok pair =>
            obtain ⟨sid, behind⟩ := pair
            dsimp only [Option.map_some, Option.bind_some, viewKey]
            split
            · rfl
            · rw [BakState.anySkip]
              cases skip behind.st with
              | none => rfl
              | some result =>
                  cases result with
                  | skipped st past => rfl
                  | failed => rfl
                  | restored =>
                      rw [← eventKeyBak_bak read]
                      rfl

theorem mapStartBak_view (nStates : Nat) (ptr stale : List UInt8) :
    (BakState.new nStates ptr stale).mapStartDecode =
      match zcborMapStartDecode (zcborNewDecodeState nStates ptr 1) with
      | (false, _) => none
      | (true, st) => some ⟨st, 0, ptr, [ptr]⟩ := rfl

/-- The walk over an event never sees the payload_bak that it begins with. -/
theorem eventMapBak_eq (stale : List UInt8 → List UInt8) (filterSids : List UInt64) (n : Nat) (ptr : List UInt8) :
    eventMapBodyBak stale filterSids n ptr = eventMapBody filterSids n ptr := by
  rw [eventMapBodyBak, eventMapBody, mapStartBak_view]
  cases zcborMapStartDecode (zcborNewDecodeState 16 ptr 1) with
  | mk opened st =>
      cases opened with
      | false => rfl
      | true =>
          have walked := @Fuel.loop_view _ _ _ _ (eventEntryBodyBak (zcborAnySkip n) filterSids)
            (eventEntryBody (zcborAnySkip n) filterSids) BakState.st id (fun _ => True)
            (fun s _ => eventEntryBak_view filterSids s) (fun _ _ _ _ => trivial) n ⟨st, 0, ptr, [ptr]⟩ trivial
          rw [Option.map_id, id_eq] at walked
          dsimp only
          exact walked ▸ rfl

/-- Skips leave payload_bak where it was. -/
theorem anySkip_bak {s s' : BakState} {skipped : Bool} (ran : s.anySkip skip = some (skipped, s')) :
    s'.payloadBak = s.payloadBak := by
  obtain ⟨result, -, same⟩ := Option.map_eq_some_iff.mp ran
  cases result <;> cases same <;> rfl

theorem sequenceSkipBak_view {ptr : List UInt8} {s : BakState} (bak : s.payloadBak = ptr) :
    sequenceSkip skip ptr (s.st, s.past) =
      (s.anySkip skip).map fun r => if r.1 then .ok (r.2.st, r.2.past) else .error (r.2.st, r.2.past) := by
  rw [sequenceSkip, BakState.anySkip]
  cases skip s.st with
  | none => rfl
  | some result =>
      cases result with
      | skipped st past => rfl
      | failed => rfl
      | restored => subst bak; rfl

theorem sequenceEntryBak_view {ptr : List UInt8} {s : BakState} (bak : s.payloadBak = ptr) :
    sequenceEntryBody skip ptr (s.st, s.past) =
      (sequenceEntryBodyBak skip s).map (Step.map (fun s => (s.st, s.past)) fun s => (s.st, s.past)) := by
  rw [sequenceEntryBody, sequenceEntryBodyBak]
  split
  · rfl
  · rw [sequenceSkipBak_view bak]
    cases key : s.anySkip skip with
    | none => rfl
    | some first =>
        obtain ⟨read, behind⟩ := first
        cases read with
        | false => rfl
        | true =>
            simp only [Option.map_some, Option.bind_some, if_true]
            rw [sequenceSkipBak_view ((anySkip_bak key).trans bak)]
            cases behind.anySkip skip with
            | none => rfl
            | some second =>
                obtain ⟨read', after⟩ := second
                cases read' <;> rfl

theorem sequenceEntryBak_bak {s s' : BakState} (again : sequenceEntryBodyBak skip s = some (.next s')) :
    s'.payloadBak = s.payloadBak := by
  rw [sequenceEntryBodyBak] at again
  split at again
  · cases again
  · obtain ⟨⟨read, behind⟩, key, later⟩ := Option.bind_eq_some_iff.mp again
    cases read with
    | false => cases later
    | true =>
        obtain ⟨⟨read', after⟩, value, same⟩ := Option.map_eq_some_iff.mp later
        cases read' with
        | false => cases same
        | true =>
            cases same
            exact (anySkip_bak value).trans (anySkip_bak key)

/-- In the splitter payload_bak stays at the head of the map. -/
theorem sequenceMapBak_eq (stale : List UInt8 → List UInt8) (n : Nat) (loop : SequenceLoop) :
    sequenceMapBodyBak stale n loop = sequenceMapBody n loop := by
  rw [sequenceMapBodyBak, sequenceMapBody, mapStartBak_view]
  cases zcborMapStartDecode (zcborNewDecodeState 8 loop.ptr 1) with
  | mk opened st =>
      cases opened with
      | false => rfl
      | true =>
          have walked := @Fuel.loop_view _ _ _ _ (sequenceEntryBodyBak (zcborAnySkip n))
            (sequenceEntryBody (zcborAnySkip n) loop.ptr) (fun s => (s.st, s.past)) (fun s => (s.st, s.past))
            (fun s => s.payloadBak = loop.ptr) (fun s bak => sequenceEntryBak_view bak)
            (fun s s' bak again => (sequenceEntryBak_bak again).trans bak) n ⟨st, 0, loop.ptr, [loop.ptr]⟩ rfl
          dsimp only at walked ⊢
          rw [walked, Option.map_map]
          congr 2
          funext s
          dsimp only [Function.comp, BakState.endDecode, zcborMapEndDecode]
          cases listMapEndDecode s.st with
          | mk closed left => cases closed <;> rfl

end View

section Progress

theorem zcborAnySkip_within {n past : Nat} {st st' : ZcborState}
    (ran : zcborAnySkip n st = some (.skipped st' past)) : st.Within st' := by
  obtain ⟨-, front, -, payload⟩ | ⟨-, empty, -⟩ := (zcborAnySkip_sound n st st' past ran).passes
  · exact ⟨front, payload.symm⟩
  · rw [ZcborState.Within, empty]
    exact List.nil_suffix

/-- The state at which a key is given up, or behind one that is read. -/
def keyState : Except ZcborState (UInt64 × ZcborState) → ZcborState
  | .error st => st
  | .ok read => read.2

/-- A key is left in what is behind its start, and one that is read takes something up. -/
structure KeyMoves (st : ZcborState) (key : Except ZcborState (UInt64 × ZcborState)) : Prop where
  within : st.Within (keyState key)
  before : ∀ sid st', key = .ok (sid, st') → st.Before st'

theorem KeyMoves.gaveUp {st left : ZcborState} (inside : st.Within left) : KeyMoves st (.error left) where
  within := inside
  before _ _ same := by cases same

theorem KeyMoves.readOn {st left : ZcborState} {sid : UInt64} (inside : st.Within left) (before : st.Before left) :
    KeyMoves st (.ok (sid, left)) where
  within := inside
  before _ _ same := by
    cases same
    exact before

/-- By the ways out of a key. -/
theorem eventKey_moves {n : Nat} {st : ZcborState} {key : Except ZcborState (UInt64 × ZcborState)}
    (ran : eventKey (zcborAnySkip n) st = some key) : KeyMoves st key := by
  rw [eventKey] at ran
  split at ran
  · cases read : zcborUint64Decode st with
    | none =>
        rw [read] at ran
        cases ran
        exact .gaveUp List.suffix_rfl
    | some pair =>
        rw [read] at ran
        cases ran
        exact .readOn (within_respected.uint64 read) (zcborUint64Decode_before read)
  · cases started : zcborListStartDecode st with
    | none =>
        rw [started] at ran
        cases ran
        exact .gaveUp List.suffix_rfl
    | some inner =>
        rw [started] at ran
        have inside : st.Within inner := listMapStartDecode_within started
        dsimp only at ran
        cases read : zcborUint64Decode inner with
        | none =>
            rw [read] at ran
            cases ran
            exact .gaveUp ((listMapEndDecode_within inner).trans inside)
        | some pair =>
            obtain ⟨sid, behind⟩ := pair
            rw [read] at ran
            have behindSid : st.Within behind := (within_respected.uint64 read).trans inside
            obtain ⟨result, skipped, same⟩ := Option.map_eq_some_iff.mp ran
            cases result with
            | skipped after past =>
                have behindKey : st.Within after := (zcborAnySkip_within skipped).trans behindSid
                have left : st.Within (listMapEndDecode after).2 := (listMapEndDecode_within after).trans behindKey
                have before : (listMapEndDecode after).2.payload.length < st.payload.length :=
                  calc (listMapEndDecode after).2.payload.length
                      ≤ after.payload.length := listMapEndDecode_le after
                    _ ≤ behind.payload.length := (zcborAnySkip_within skipped).length_le
                    _ < inner.payload.length := zcborUint64Decode_before read
                    _ < st.payload.length := listMapStartDecode_before started
                dsimp only [zcborListEndDecode] at same
                cases ended : listMapEndDecode after with
                | mk closed state =>
                    rw [ended] at same left before
                    cases closed with
                    | false =>
                        cases same
                        exact .gaveUp left
                    | true =>
                        cases same
                        exact .readOn left before
            | failed =>
                cases same
                exact .gaveUp ((listMapEndDecode_within behind).trans behindSid)
            | restored =>
                -- payload_bak is at the SID inside the array
                cases same
                exact .gaveUp ((listMapEndDecode_within _).trans inside)
  · cases ran
    exact .gaveUp List.suffix_rfl

theorem eventKeys_terminates (st : ZcborState) : Terminates eventKeys st := by
  simp only [Terminates, Returns, eventKeys, eventKey]
  split
  · cases zcborUint64Decode st with
    | none => exact ⟨_, 0, rfl⟩
    | some read => exact ⟨_, 0, rfl⟩
  · cases zcborListStartDecode st with
    | none => exact ⟨_, 0, rfl⟩
    | some inner =>
        dsimp only
        cases zcborUint64Decode inner with
        | none => exact ⟨_, 0, rfl⟩
        | some read =>
            obtain ⟨result, n, ran⟩ := zcborAnySkip_terminates read.2
            exact ⟨_, n, Option.map_eq_some_iff.mpr ⟨result, ran, rfl⟩⟩
  · exact ⟨_, 0, rfl⟩

theorem eventEntries_terminates (filterSids : List UInt64) (st : ZcborState) :
    Terminates (eventEntries filterSids) st := by
  cases inside : zcborArrayAtEnd st with
  | true => exact (eventEntries_ended inside).terminates
  | false =>
      obtain ⟨key, m, keyed⟩ := eventKeys_terminates st
      cases key with
      | error left => exact (eventEntries_unread inside ⟨m, keyed⟩).terminates
      | ok read =>
          cases inFilter : streamSidInFilter read.1 filterSids with
          | true => exact (eventEntries_matched inside ⟨m, keyed⟩ inFilter).terminates
          | false =>
              obtain ⟨result, skipped⟩ := zcborAnySkip_terminates read.2
              obtain ⟨n, keyed, skipped⟩ := Returns.both eventKeys_monotone zcborAnySkip_monotone ⟨m, keyed⟩ skipped
              have total : ∃ step, eventEntries filterSids n st = some step := by
                simp only [eventEntries, eventEntryBody, inside, Bool.false_eq_true, if_false,
                  show eventKey (zcborAnySkip n) st = _ from keyed, Option.bind_some, inFilter, skipped,
                  Option.map_some]
                exact ⟨_, rfl⟩
              obtain ⟨step, ran⟩ := total
              exact ⟨step, n, ran⟩

/-- An entry that is passed over ends further on. -/
theorem eventEntries_next {filterSids : List UInt64} {st st' : ZcborState}
    (again : Returns (eventEntries filterSids) st (.next st')) : st.Within st' ∧ st.Before st' := by
  obtain ⟨n, again⟩ := again
  rw [eventEntries, eventEntryBody] at again
  split at again
  · cases again
  · obtain ⟨key, keyed, later⟩ := Option.bind_eq_some_iff.mp again
    cases key with
    | error left => cases later
    | ok read =>
        have within : st.Within read.2 := (eventKey_moves keyed).within
        have before : st.Before read.2 := (eventKey_moves keyed).before read.1 read.2 rfl
        dsimp only at later
        split at later
        · cases later
        · obtain ⟨result, skipped, same⟩ := Option.map_eq_some_iff.mp later
          cases result with
          | skipped after past =>
              cases same
              have value := zcborAnySkip_within skipped
              exact ⟨value.trans within, value.length_le.trans_lt before⟩
          | failed => cases same
          | restored => cases same

/-- The entries are left where the one that is given up begins, or behind. -/
theorem eventEntries_left {filterSids : List UInt64} {n : Nat} {st : ZcborState} {exit : MatchExit}
    (left : eventEntries filterSids n st = some (.done exit)) :
    exit = .matched ∨ ∃ ptr, exit = .left ptr ∧ ptr <:+ st.payload := by
  rw [eventEntries, eventEntryBody] at left
  split at left
  · cases left
    exact Or.inr ⟨_, rfl, listMapEndDecode_within st⟩
  · obtain ⟨key, keyed, later⟩ := Option.bind_eq_some_iff.mp left
    cases key with
    | error state =>
        cases later
        exact Or.inr ⟨_, rfl, (listMapEndDecode_within state).trans (eventKey_moves keyed).within⟩
    | ok read =>
        have within : st.Within read.2 := (eventKey_moves keyed).within
        dsimp only at later
        split at later
        · cases later
          exact Or.inl rfl
        · obtain ⟨result, skipped, same⟩ := Option.map_eq_some_iff.mp later
          cases result with
          | skipped after past => cases same
          | failed =>
              cases same
              exact Or.inr ⟨_, rfl, (listMapEndDecode_within read.2).trans within⟩
          | restored =>
              cases same
              exact Or.inr ⟨_, rfl, listMapEndDecode_within _⟩

theorem eventEntries_forward (filterSids : List UInt64) :
    MovesForward (eventEntries filterSids) ZcborState.payload :=
  ⟨eventEntries_terminates filterSids, fun _ _ again => eventEntries_next again⟩

/-- What the walk over an event takes up next is behind the head of the map it leaves. -/
theorem eventMapBody_forward (filterSids : List UInt64) : MovesForward (eventMapBody filterSids) id := by
  refine ⟨fun ptr => ?_, fun ptr ptr' again => ?_⟩
  · by_cases empty : ptr = []
    · exact ⟨.done false, 0, if_pos empty⟩
    · cases started : zcborMapStartDecode (zcborNewDecodeState 16 ptr 1) with
      | mk opened st =>
          cases opened with
          | false => exact ⟨.done false, 0, by rw [eventMapBody, if_neg empty, started]⟩
          | true =>
              obtain ⟨exit, n, looped⟩ := (eventEntries_forward filterSids).terminates
                (eventEntries_monotone filterSids) st
              have total : ∃ step, eventMapBody filterSids n ptr = some step := by
                rw [eventMapBody, if_neg empty, started]
                exact ⟨_, Option.map_eq_some_iff.mpr ⟨exit, looped, rfl⟩⟩
              obtain ⟨step, ran⟩ := total
              exact ⟨step, n, ran⟩
  · obtain ⟨n, again⟩ := again
    rw [eventMapBody] at again
    split at again
    · cases again
    · split at again
      · cases again
      next st started =>
          have before := zcborMapStartDecode_before started
          have within : ZcborState.Within (zcborNewDecodeState 16 ptr 1) st := by
            have entered := zcborMapStartDecode_within (zcborNewDecodeState 16 ptr 1)
            rwa [started] at entered
          obtain ⟨exit, looped, same⟩ := Option.map_eq_some_iff.mp again
          have left : exit = .matched ∨ ∃ left, exit = .left left ∧ left <:+ st.payload := by
            refine @Fuel.loop_invariant _ _ (eventEntries filterSids n) (fun state => st.Within state)
              (fun exit => exit = .matched ∨ ∃ left, exit = .left left ∧ left <:+ st.payload)
              (fun state state' inside next => (eventEntries_next ⟨n, next⟩).1.trans inside) ?_
              n st exit List.suffix_rfl looped
            intro state exit inside done
            rcases eventEntries_left done with matched | ⟨ptr, same, behind⟩
            · exact .inl matched
            · exact .inr ⟨ptr, same, behind.trans inside⟩
          obtain rfl | ⟨left, rfl, behind⟩ := left
          · cases same
          · cases same
            exact ⟨behind.trans within, behind.length_le.trans_lt before⟩

/-- A map that is cut out of a sequence is behind the read position, or the sequence is. -/
theorem sequenceMapBody_forward : MovesForward sequenceMapBody SequenceLoop.ptr := by
  refine ⟨sequenceMapBody_terminates, fun loop loop' again => ⟨?_, sequenceMapBody_shorter again⟩⟩
  obtain ⟨mapLen, past, -, -, -, ⟨-, front, -, payload⟩ | ⟨empty, -⟩⟩ := sequenceMapBody_found again
  · exact ⟨front, payload.symm⟩
  · rw [empty]
    exact List.nil_suffix

theorem filterSids_terminates (outCap : Nat) (loop : FilterLoop) : Terminates (filterSids outCap) loop := by
  simp only [Terminates, Returns, filterSids, filterSidBody]
  split
  · exact ⟨_, 0, rfl⟩
  · split
    · cases zcborUint64Decode (zcborNewDecodeState 8 loop.ptr 1) with
      | none => exact ⟨_, 0, rfl⟩
      | some read => exact ⟨_, 0, rfl⟩
    · cases zcborListStartDecode (zcborNewDecodeState 8 loop.ptr 1) with
      | none => exact ⟨_, 0, rfl⟩
      | some inner =>
          dsimp only
          cases zcborUint64Decode inner with
          | none => exact ⟨_, 0, rfl⟩
          | some read =>
              obtain ⟨result, n, ran⟩ := zcborAnySkip_terminates read.2
              exact ⟨_, n, Option.map_eq_some_iff.mpr ⟨result, ran, rfl⟩⟩
    · exact ⟨_, 0, rfl⟩

theorem filterSids_next {outCap : Nat} {loop loop' : FilterLoop}
    (again : Returns (filterSids outCap) loop (.next loop')) :
    loop'.ptr <:+ loop.ptr ∧ loop'.ptr.length < loop.ptr.length := by
  obtain ⟨n, again⟩ := again
  rw [filterSids, filterSidBody] at again
  split at again
  · cases again
  · dsimp only at again
    split at again
    · cases read : zcborUint64Decode (zcborNewDecodeState 8 loop.ptr 1) with
      | none => rw [read] at again; cases again
      | some pair =>
          rw [read] at again
          cases again
          exact ⟨within_respected.uint64 read, zcborUint64Decode_before read⟩
    · cases started : zcborListStartDecode (zcborNewDecodeState 8 loop.ptr 1) with
      | none => rw [started] at again; cases again
      | some inner =>
          rw [started] at again
          dsimp only at again
          cases read : zcborUint64Decode inner with
          | none => rw [read] at again; cases again
          | some pair =>
              rw [read] at again
              obtain ⟨result, skipped, same⟩ := Option.map_eq_some_iff.mp again
              cases result with
              | skipped after past =>
                  have left : (listMapEndDecode after).2.payload <:+ inner.payload :=
                    (listMapEndDecode_within after).trans
                      ((zcborAnySkip_within skipped).trans (within_respected.uint64 read))
                  dsimp only [zcborListEndDecode] at same
                  cases ended : listMapEndDecode after with
                  | mk closed state =>
                      rw [ended] at same left
                      cases closed <;> cases same
                      exact ⟨left.trans (listMapStartDecode_within started),
                        left.length_le.trans_lt (listMapStartDecode_before started)⟩
              | failed => cases same
              | restored => cases same
    · cases again

theorem countSids_forward : MovesForward countSids CountLoop.data := by
  refine ⟨fun loop => ?_, fun loop loop' again => ?_⟩
  · simp only [Terminates, Returns, countSids, countSidBody]
    split
    · exact ⟨_, 0, rfl⟩
    · cases decodeSid loop.data with
      | none => exact ⟨_, 0, rfl⟩
      | some read => exact ⟨_, 0, rfl⟩
  · obtain ⟨n, again⟩ := again
    rw [countSids, countSidBody] at again
    split at again
    · cases again
    · cases read : decodeSid loop.data with
      | none => rw [read] at again; cases again
      | some pair =>
          obtain ⟨sid, rest⟩ := pair
          rw [read] at again
          cases again
          obtain ⟨u, payload, -⟩ := decodeSid_complete read
          have positive := u.encode_positive
          refine ⟨⟨u.encode, payload.symm⟩, ?_⟩
          rw [payload, List.length_append]
          exact Nat.lt_add_of_pos_left positive

theorem scanArray_suffix (depth : Nat) (payload : List UInt8) : scanArray depth payload <:+ payload := by
  induction payload generalizing depth with
  | nil => cases depth <;> exact List.suffix_rfl
  | cons byte rest ih =>
      cases depth with
      | zero => exact List.suffix_rfl
      | succ depth =>
          rw [scanArray]
          split
          · exact (ih _).trans (List.suffix_cons byte rest)
          · split
            · exact (ih _).trans (List.suffix_cons byte rest)
            · exact (ih _).trans (List.suffix_cons byte rest)

/-- An array is passed over from behind its head, wherever its scan ends. -/
theorem skipIid_forward {data rest : List UInt8} (skipped : skipIid data = some rest) :
    rest <:+ data ∧ rest.length < data.length := by
  rw [skipIid] at skipped
  cases read : zcborUint64Decode (zcborNewDecodeState 5 data 1) with
  | some pair =>
      rw [read] at skipped
      cases skipped
      exact ⟨within_respected.uint64 read, zcborUint64Decode_before read⟩
  | none =>
      rw [read] at skipped
      cases started : zcborListStartDecode (zcborNewDecodeState 5 data 1) with
      | none => rw [started] at skipped; cases skipped
      | some inner =>
          rw [started] at skipped
          cases skipped
          have left := (listMapEndDecode_within { inner with payload := scanArray 1 inner.payload }).trans
            (scanArray_suffix 1 inner.payload)
          exact ⟨left.trans (listMapStartDecode_within started),
            left.length_le.trans_lt (listMapStartDecode_before started)⟩

theorem countIids_forward : MovesForward countIids CountLoop.data := by
  refine ⟨fun loop => ?_, fun loop loop' again => ?_⟩
  · simp only [Terminates, Returns, countIids, countIidBody]
    split
    · exact ⟨_, 0, rfl⟩
    · cases skipIid loop.data with
      | none => exact ⟨_, 0, rfl⟩
      | some rest => exact ⟨_, 0, rfl⟩
  · obtain ⟨n, again⟩ := again
    rw [countIids, countIidBody] at again
    split at again
    · cases again
    · cases skipped : skipIid loop.data with
      | none => rw [skipped] at again; cases again
      | some rest =>
          rw [skipped] at again
          cases again
          exact skipIid_forward skipped

end Progress

theorem matchesFilter_terminates (filterSids : List UInt64) (data : List UInt8) :
    Terminates matchesFilter (filterSids, data) := by
  by_cases nothing : data = [] ∨ filterSids = []
  · exact ⟨false, 0, by rw [matchesFilter, streamEventMatchesFilter, if_pos nothing]⟩
  · obtain ⟨found, n, looped⟩ := (eventMapBody_forward filterSids).terminates
      (eventMapBody_monotone filterSids) data
    exact ⟨found, n, by rw [matchesFilter, streamEventMatchesFilter, if_neg nothing, looped]⟩

theorem streamCollectFilterSids_terminates (outCap : Nat) (data : List UInt8) :
    Terminates (streamCollectFilterSids outCap) data := by
  by_cases nothing : data = [] ∨ outCap = 0
  · exact ⟨none, 0, by rw [streamCollectFilterSids, if_pos nothing]⟩
  · have moves : MovesForward (filterSids outCap) FilterLoop.ptr :=
      ⟨filterSids_terminates outCap, fun _ _ again => filterSids_next again⟩
    obtain ⟨loop, n, looped⟩ := moves.terminates (filterSids_monotone outCap) ⟨[], data⟩
    have total : ∃ sids, streamCollectFilterSids outCap n data = some sids := by
      rw [streamCollectFilterSids, if_neg nothing]
      exact ⟨_, Option.map_eq_some_iff.mpr ⟨loop, looped, rfl⟩⟩
    obtain ⟨sids, ran⟩ := total
    exact ⟨sids, n, ran⟩

/-- Every loop over the items of a payload moves forward in each of its rounds, whatever
payload_bak a call of zcbor goes back to, and so comes to an end. -/
theorem scanners_move_forward (stale : List UInt8 → List UInt8) (sids : List UInt64) (outCap : Nat)
    (data : List UInt8) :
    MovesForward (eventMapBodyBak stale sids) id ∧
    MovesForward (sequenceMapBodyBak stale) SequenceLoop.ptr ∧
    MovesForward (filterSids outCap) FilterLoop.ptr ∧
    MovesForward countSids CountLoop.data ∧
    MovesForward countIids CountLoop.data ∧
    Terminates (Fuel.iterate (eventMapBodyBak stale sids)) data ∧
    Terminates (Fuel.iterate (sequenceMapBodyBak stale)) ⟨data, 0, []⟩ ∧
    Terminates (streamCollectFilterSids outCap) data ∧
    Terminates parseFetchRequest data ∧
    Terminates parseFetchRequestIids data := by
  have matcher : eventMapBodyBak stale sids = eventMapBody sids :=
    funext fun n => funext fun ptr => eventMapBak_eq stale sids n ptr
  have splitter : sequenceMapBodyBak stale = sequenceMapBody :=
    funext fun n => funext fun loop => sequenceMapBak_eq stale n loop
  rw [matcher, splitter]
  refine ⟨eventMapBody_forward sids, sequenceMapBody_forward,
    ⟨filterSids_terminates outCap, fun _ _ again => filterSids_next again⟩, countSids_forward,
    countIids_forward, (eventMapBody_forward sids).terminates (eventMapBody_monotone sids) data,
    streamPushNotificationSequence_terminates data, streamCollectFilterSids_terminates outCap data, ?_, ?_⟩
  · obtain ⟨count, n, counted⟩ := countSids_forward.terminates countSids_monotone ⟨0, data⟩
    exact ⟨_, n, Option.map_eq_some_iff.mpr ⟨count, counted, rfl⟩⟩
  · obtain ⟨count, n, counted⟩ := countIids_forward.terminates countIids_monotone ⟨0, data⟩
    exact ⟨_, n, Option.map_eq_some_iff.mpr ⟨count, counted, rfl⟩⟩

end Coreconf
