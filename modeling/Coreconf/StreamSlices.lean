import Coreconf.SkipComplete
import Coreconf.Stream

set_option autoImplicit false

/- What stream_push_notification_sequence cuts out of a payload. -/
namespace Cbor

/-- A map as it is taken from a sequence. One of indefinite length may end in a key. -/
inductive SequenceMap : List UInt8 → Prop
  | definite {w n body} (fits : n < Width.bound w) (small : n < (2 ^ 64 - 1) / 2)
      (inside : Values (2 * n) body) : SequenceMap (head 5 w n ++ body)
  | indefinite {count body} (few : count ≤ largeCount) (inside : Values count body) :
      SequenceMap (indefiniteHead 5 :: (body ++ [breakCode]))

inductive SequenceMaps : List UInt8 → Prop
  | nil : SequenceMaps []
  | cons {front rest} (first : SequenceMap front) (later : SequenceMaps rest) : SequenceMaps (front ++ rest)

/-- A map of definite length that is cut within the last string of its last value. -/
def CutMap (bytes : List UInt8) (past : Nat) : Prop :=
  ∃ w n body, n < Width.bound w ∧ n < (2 ^ 64 - 1) / 2 ∧ CutValues (2 * n) body past ∧
    bytes = head 5 w n ++ body

theorem CutValues.positive {count : Nat} {bytes : List UInt8} {past : Nat} (cut : CutValues count bytes past) :
    0 < past := by
  induction cut with
  | string _ _ _ missing => omega
  | definite _ _ _ _ ih => exact ih
  | after _ _ ih => exact ih

theorem SequenceMaps.append {maps later : List UInt8} (first : SequenceMaps maps) (second : SequenceMaps later) :
    SequenceMaps (maps ++ later) := by
  induction first with
  | nil => exact second
  | cons map _ ih =>
      rw [List.append_assoc]
      exact SequenceMaps.cons map ih

theorem SequenceMaps.snoc {maps front : List UInt8} (first : SequenceMaps maps) (last : SequenceMap front) :
    SequenceMaps (maps ++ front) :=
  first.append (List.append_nil front ▸ SequenceMaps.cons last SequenceMaps.nil)

theorem SequenceMap.nonempty {front : List UInt8} (map : SequenceMap front) : 0 < front.length := by
  cases map with
  | definite => simp only [List.length_append, head_length]; omega
  | indefinite => exact Nat.succ_pos _

end Cbor

namespace Coreconf

open Cbor (Width head indefiniteHead breakCode Values CutValues SequenceMap SequenceMaps CutMap)
open Fuel (Returns Step Monotone)

/-- The payload of a map that has been entered, by its head. -/
def Opens (ptr : List UInt8) (st : ZcborState) : Prop :=
  (st.indefiniteLengthArray = false ∧ ∃ w n, n < Width.bound w ∧ n < (2 ^ 64 - 1) / 2 ∧
      st.elemCount = 2 * n ∧ ptr = head 5 w n ++ st.payload) ∨
    (st.indefiniteLengthArray = true ∧ st.elemCount = ZCBOR_LARGE_ELEM_COUNT ∧
      ptr = indefiniteHead 5 :: st.payload)

theorem zcborMapStartDecode_opens {nStates : Nat} {ptr : List UInt8} {st : ZcborState}
    (started : zcborMapStartDecode (zcborNewDecodeState nStates ptr 1) = (true, st)) : Opens ptr st := by
  obtain ⟨framing, n, fits, small, payload, entered⟩ := zcborMapStartDecode_entered started
  cases framing with
  | definite w => exact Or.inl ⟨by rw [entered]; rfl, w, n, fits, small, by rw [entered]; rfl, payload⟩
  | indefinite => exact Or.inr ⟨by rw [entered]; rfl, by rw [entered]; rfl, payload⟩

/-- The end of a map gives back the payload behind its break, or behind its last element. -/
theorem zcborMapEndDecode_ended {st st' : ZcborState} (ended : zcborMapEndDecode st = (true, st')) :
    (st.indefiniteLengthArray = true ∧ st.payload = breakCode :: st'.payload) ∨
      (st.indefiniteLengthArray = false ∧ st.elemCount = 0 ∧ st'.payload = st.payload) := by
  rw [zcborMapEndDecode, listMapEndDecode] at ended
  split at ended
  · simp at ended
  · simp only at ended
    split at ended
    · rename_i indefinite
      split at ended
      · simp at ended
      · rename_i st'' found
        simp only [Prod.mk.injEq, true_and] at ended
        subst ended
        rw [arrayEndExpect] at found
        split at found
        · cases found
        · rename_i byte rest payload
          split_ifs at found with same
          obtain rfl := Option.some.inj found
          rw [ne_eq, Decidable.not_not] at same
          exact Or.inl ⟨indefinite, by rw [show st.payload = byte :: rest from payload, same]; rfl⟩
    · rename_i definite
      split_ifs at ended with more
      · simp at ended
      · simp only [Prod.mk.injEq, true_and] at ended
        subst ended
        exact Or.inr ⟨by simpa using definite, by omega, rfl⟩

/-- How the loop over the entries of a map is left: between two elements, or put back. -/
def LeftAt (ptr : List UInt8) (entered : ZcborState) (left : ZcborState × Nat) : Prop :=
  Between entered left ∨
    (left.1.payload = ptr ∧ left.1.elemCount ≠ 0 ∧
      left.1.indefiniteLengthArray = entered.indefiniteLengthArray)

theorem sequenceSkip_ok {n : Nat} {ptr : List UInt8} {loop loop' : ZcborState × Nat}
    (skipped : sequenceSkip (zcborAnySkip n) ptr loop = some (.ok loop')) : Skips loop.1 loop'.1 loop'.2 := by
  obtain ⟨result, ran, same⟩ := Option.map_eq_some_iff.mp skipped
  cases result with
  | skipped st past =>
      obtain rfl := Except.ok.inj same
      exact zcborAnySkip_sound n _ _ _ ran
  | failed => cases same
  | restored => cases same

theorem sequenceSkip_error {n : Nat} {ptr : List UInt8} {entered : ZcborState} {loop left : ZcborState × Nat}
    (between : Between entered loop) (skipped : sequenceSkip (zcborAnySkip n) ptr loop = some (.error left)) :
    LeftAt ptr entered left := by
  obtain ⟨result, -, same⟩ := Option.map_eq_some_iff.mp skipped
  cases result with
  | skipped st past => cases same
  | failed =>
      obtain rfl := Except.error.inj same
      exact Or.inl between
  | restored =>
      obtain rfl := Except.error.inj same
      have frame := congrArg ZcborState.indefiniteLengthArray between.1
      exact Or.inr ⟨rfl, Nat.succ_ne_zero _, frame⟩

theorem sequenceEntryBody_next {n : Nat} {ptr : List UInt8} {loop loop' : ZcborState × Nat}
    (again : sequenceEntryBody (zcborAnySkip n) ptr loop = some (.next loop')) :
    ∃ key : ZcborState × Nat, Skips loop.1 key.1 key.2 ∧ Skips key.1 loop'.1 loop'.2 := by
  rw [sequenceEntryBody] at again
  split at again
  · simp at again
  · obtain ⟨key, first, again⟩ := Option.bind_eq_some_iff.mp again
    cases key with
    | error left => simp at again
    | ok key =>
        obtain ⟨value, second, same⟩ := Option.map_eq_some_iff.mp again
        cases value with
        | error left => cases same
        | ok value =>
            obtain rfl := Step.next.inj same
            exact ⟨key, sequenceSkip_ok first, sequenceSkip_ok second⟩

theorem sequenceEntryBody_done {n : Nat} {ptr : List UInt8} {entered : ZcborState} {loop left : ZcborState × Nat}
    (between : Between entered loop)
    (ended : sequenceEntryBody (zcborAnySkip n) ptr loop = some (.done left)) : LeftAt ptr entered left := by
  rw [sequenceEntryBody] at ended
  split at ended
  · obtain rfl := Step.done.inj (Option.some.inj ended)
    exact Or.inl between
  · obtain ⟨key, first, ended⟩ := Option.bind_eq_some_iff.mp ended
    cases key with
    | error left =>
        obtain rfl := Step.done.inj (Option.some.inj ended)
        exact sequenceSkip_error between first
    | ok key =>
        obtain ⟨value, second, same⟩ := Option.map_eq_some_iff.mp ended
        cases value with
        | error left =>
            obtain rfl := Step.done.inj same
            exact sequenceSkip_error (between.next (sequenceSkip_ok first)) second
        | ok value => cases same

theorem sequenceEntries_left {n fuel : Nat} {ptr : List UInt8} {entered : ZcborState} {left : ZcborState × Nat}
    (looped : Fuel.loop (sequenceEntryBody (zcborAnySkip n) ptr) fuel (entered, 0) = some left) :
    LeftAt ptr entered left := by
  have start : Between entered (entered, 0) := ⟨rfl, 0, rfl, Passes.zero entered.payload⟩
  refine @Fuel.loop_invariant _ _ _ (Between entered) (LeftAt ptr entered) ?_ ?_ _ _ _ start looped
  · intro loop loop' between again
    obtain ⟨key, first, second⟩ := sequenceEntryBody_next again
    exact (between.next first).next second
  · exact fun loop left between ended => sequenceEntryBody_done between ended

/-- A map that is accepted is complete, or cut at the end of the payload. -/
theorem sequenceMap_accepted {n fuel : Nat} {ptr : List UInt8} {entered st : ZcborState}
    {left : ZcborState × Nat} (opens : Opens ptr entered)
    (looped : Fuel.loop (sequenceEntryBody (zcborAnySkip n) ptr) fuel (entered, 0) = some left)
    (ended : zcborMapEndDecode left.1 = (true, st)) :
    (left.2 = 0 ∧ ∃ front, SequenceMap front ∧ ptr = front ++ st.payload) ∨
      (st.payload = [] ∧ CutMap ptr left.2) := by
  have ended := zcborMapEndDecode_ended ended
  rcases sequenceEntries_left looped with ⟨frame, count, counted, passes⟩ | ⟨back, more, indefinite⟩
  · rw [frame] at ended
    rcases opens with ⟨definite, w, n, fits, small, doubled, payload⟩ | ⟨indefinite, large, payload⟩
    · obtain ⟨indefinite, -⟩ | ⟨-, none_left, behind⟩ := ended
      · simp [definite] at indefinite
      · have none_left : left.1.elemCount = 0 := none_left
        have behind : st.payload = left.1.payload := behind
        have all : count = 2 * n := by omega
        subst all
        rw [payload, behind]
        rcases passes with ⟨inside, body, values, whole⟩ | ⟨-, empty, cut⟩
        · exact Or.inl ⟨inside, _, SequenceMap.definite fits small values, by rw [whole, List.append_assoc]⟩
        · exact Or.inr ⟨empty, w, n, _, fits, small, cut, rfl⟩
    · obtain ⟨-, atBreak⟩ | ⟨definite, -⟩ := ended
      · have atBreak : left.1.payload = breakCode :: st.payload := atBreak
        rcases passes with ⟨inside, body, values, whole⟩ | ⟨-, empty, -⟩
        · refine Or.inl ⟨inside, _, SequenceMap.indefinite ?_ values, ?_⟩
          · rw [← largeCount_eq]
            omega
          · rw [payload, whole, atBreak]
            simp
        · rw [empty] at atBreak
          cases atBreak
      · simp [indefinite] at definite
  · exfalso
    rcases opens with ⟨definite, w, n, fits, small, doubled, payload⟩ | ⟨indefinite', large, payload⟩
    · obtain ⟨indefinite', -⟩ | ⟨-, none_left, -⟩ := ended
      · rw [indefinite, definite] at indefinite'
        cases indefinite'
      · exact more none_left
    · obtain ⟨-, atBreak⟩ | ⟨definite, -⟩ := ended
      · rw [back, payload] at atBreak
        cases atBreak
      · rw [indefinite, indefinite'] at definite
        cases definite

/-- So many skips one after the other. -/
inductive SkipChain : Nat → ZcborState × Nat → ZcborState × Nat → Prop
  | refl (loop : ZcborState × Nat) : SkipChain 0 loop loop
  | head {count past past' : Nat} {st st' : ZcborState} {left : ZcborState × Nat}
      (skipped : Returns zcborAnySkip st (.skipped st' past')) (later : SkipChain count (st', past') left) :
      SkipChain (count + 1) (st, past) left

theorem SkipChain.trans {a b : Nat} {loop middle left : ZcborState × Nat} (first : SkipChain a loop middle)
    (second : SkipChain b middle left) : SkipChain (a + b) loop left := by
  induction first with
  | refl => rwa [Nat.zero_add]
  | @head count _ _ _ _ _ skipped _ ih =>
      rw [Nat.add_right_comm]
      exact SkipChain.head skipped (ih second)

theorem SkipSteps.chain {count past : Nat} {st st' : ZcborState} (steps : SkipSteps count st st' past) :
    SkipChain count (st, 0) (st', past) := by
  induction steps with
  | refl st => exact SkipChain.refl _
  | skip skipped => exact SkipChain.head skipped (SkipChain.refl _)
  | append _ _ first second => exact first.trans second

def sequenceEntries (ptr : List UInt8) (n : Nat) :
    ZcborState × Nat → Option (Step (ZcborState × Nat) (ZcborState × Nat)) :=
  sequenceEntryBody (zcborAnySkip n) ptr

theorem sequenceSkip_monotone (ptr : List UInt8) : Monotone fun n => sequenceSkip (zcborAnySkip n) ptr := by
  refine Monotone.of_extends fun m n loop le => ?_
  exact (zcborAnySkip_monotone.extends le loop.1).map _

theorem sequenceEntries_monotone (ptr : List UInt8) : Monotone (sequenceEntries ptr) := by
  refine Monotone.of_extends fun m n loop le => ?_
  rw [sequenceEntries, sequenceEntryBody]
  refine .ite (.refl _) (((sequenceSkip_monotone ptr).extends le loop).bind fun key => ?_)
  cases key with
  | error left => exact .refl _
  | ok key => exact ((sequenceSkip_monotone ptr).extends le key).map _

theorem sequenceMapBody_monotone : Monotone sequenceMapBody := by
  refine Monotone.of_extends fun m n loop le => ?_
  simp only [sequenceMapBody]
  refine .ite (.refl _) ?_
  split
  · exact .refl _
  · have entries := Fuel.iterate_monotone (sequenceEntries_monotone loop.ptr)
    exact (entries.extends le _).map _

theorem sequenceSkip_skipped {st st' : ZcborState} {past past' : Nat} (ptr : List UInt8)
    (skipped : Returns zcborAnySkip st (.skipped st' past')) :
    Returns (fun n => sequenceSkip (zcborAnySkip n) ptr) (st, past) (.ok (st', past')) := by
  obtain ⟨n, ran⟩ := skipped
  exact ⟨n, Option.map_eq_some_iff.mpr ⟨_, ran, rfl⟩⟩

theorem sequenceSkip_break {loop : ZcborState × Nat} (ptr : List UInt8)
    (atBreak : loop.1.payload.head? = some 0xFF) :
    Returns (fun n => sequenceSkip (zcborAnySkip n) ptr) loop (.error loop) := by
  obtain ⟨result, n, ran⟩ := zcborAnySkip_terminates loop.1
  obtain rfl := zcborAnySkip_break atBreak ran
  exact ⟨n, Option.map_eq_some_iff.mpr ⟨_, ran, rfl⟩⟩

theorem sequenceEntries_pair {loop key value : ZcborState × Nat} {ptr : List UInt8}
    (inside : zcborArrayAtEnd loop.1 = false)
    (first : Returns (fun n => sequenceSkip (zcborAnySkip n) ptr) loop (.ok key))
    (second : Returns (fun n => sequenceSkip (zcborAnySkip n) ptr) key (.ok value)) :
    Returns (sequenceEntries ptr) loop (.next value) := by
  obtain ⟨n, first, second⟩ := Returns.both (sequenceSkip_monotone ptr) (sequenceSkip_monotone ptr) first second
  refine ⟨n, ?_⟩
  simp only [sequenceEntries, sequenceEntryBody, inside, Bool.false_eq_true, if_false, first, second,
    Option.bind_some, Option.map_some]

theorem sequenceEntries_key {loop key left : ZcborState × Nat} {ptr : List UInt8}
    (inside : zcborArrayAtEnd loop.1 = false)
    (first : Returns (fun n => sequenceSkip (zcborAnySkip n) ptr) loop (.ok key))
    (second : Returns (fun n => sequenceSkip (zcborAnySkip n) ptr) key (.error left)) :
    Returns (sequenceEntries ptr) loop (.done left) := by
  obtain ⟨n, first, second⟩ := Returns.both (sequenceSkip_monotone ptr) (sequenceSkip_monotone ptr) first second
  refine ⟨n, ?_⟩
  simp only [sequenceEntries, sequenceEntryBody, inside, Bool.false_eq_true, if_false, first, second,
    Option.bind_some, Option.map_some]

/-- The loop goes over pairs, up to the end of the map; at a break it may lack a value. -/
theorem sequenceEntries_chain {count : Nat} {loop left : ZcborState × Nat} (ptr : List UInt8)
    (chain : SkipChain count loop left) (ended : zcborArrayAtEnd left.1 = true)
    (pairs : count % 2 = 0 ∨ left.1.payload.head? = some 0xFF) :
    Returns (Fuel.iterate (sequenceEntries ptr)) loop left := by
  induction count using Nat.twoStepInduction generalizing loop with
  | zero =>
      cases chain with
      | refl =>
          exact Fuel.iterate_done (sequenceEntries_monotone ptr)
            ⟨0, by simp [sequenceEntries, sequenceEntryBody, ended]⟩
  | one =>
      have atBreak := pairs.resolve_left (by decide)
      cases chain with
      | head skipped later =>
          cases later with
          | refl =>
              have inside := zcborAnySkip_notAtEnd skipped.choose_spec
              exact Fuel.iterate_done (sequenceEntries_monotone ptr)
                (sequenceEntries_key inside (sequenceSkip_skipped ptr skipped) (sequenceSkip_break ptr atBreak))
  | more count ih _ =>
      cases chain with
      | head key later =>
          cases later with
          | head value later =>
              have inside := zcborAnySkip_notAtEnd key.choose_spec
              exact Fuel.iterate_next (sequenceEntries_monotone ptr)
                (sequenceEntries_pair inside (sequenceSkip_skipped ptr key) (sequenceSkip_skipped ptr value))
                (ih later (pairs.imp_left fun even => by omega))

theorem sequenceMapBody_next {loop : SequenceLoop} {entered left st : ZcborState} {past : Nat}
    (started : zcborMapStartDecode (zcborNewDecodeState 8 loop.ptr 1) = (true, entered))
    (looped : Returns (Fuel.iterate (sequenceEntries loop.ptr)) (entered, 0) (left, past))
    (ended : zcborMapEndDecode left = (true, st)) (positive : loop.ptr.length - st.payload.length + past ≠ 0) :
    Returns sequenceMapBody loop (.next ⟨st.payload, loop.offset + (loop.ptr.length - st.payload.length + past),
      loop.slices ++ [⟨loop.offset, loop.ptr.length - st.payload.length + past⟩]⟩) := by
  have nonempty : loop.ptr ≠ [] := by
    intro empty
    rw [empty] at started
    cases started
  obtain ⟨n, looped⟩ := looped
  refine ⟨n, ?_⟩
  rw [sequenceMapBody, if_neg nonempty, started]
  simp only
  rw [show Fuel.loop (sequenceEntryBody (zcborAnySkip n) loop.ptr) n (entered, 0) = _ from looped, Option.map_some,
    ended]
  simp only [if_neg positive]

/-- A map of definite length is at its end once its members are passed over. -/
theorem zcborMapEndDecode_definite (ptr : List UInt8) (w : Width) (n : Nat) (tail rest : List UInt8) :
    zcborMapEndDecode { (zcborNewDecodeState 8 ptr 1).entered (.definite w) (2 * n) tail with
        payload := rest, elemCount := 2 * n - 2 * n } = (true, (zcborNewDecodeState 8 ptr 1).after rest) := by
  simp [zcborMapEndDecode, listMapEndDecode, ZcborState.entered, ZcborState.after, zcborNewDecodeState]

/-- A complete map is cut out of the sequence. -/
theorem sequenceMapBody_complete {loop : SequenceLoop} {front rest : List UInt8} (map : SequenceMap front)
    (payload : loop.ptr = front ++ rest) :
    Returns sequenceMapBody loop
      (.next ⟨rest, loop.offset + front.length, loop.slices ++ [⟨loop.offset, front.length⟩]⟩) := by
  have length : loop.ptr.length - rest.length + 0 = front.length := by
    rw [payload, List.length_append]
    omega
  have positive : loop.ptr.length - rest.length + 0 ≠ 0 := length ▸ map.nonempty.ne'
  rw [← length]
  cases map with
  | @definite w n body fits small inside =>
      rw [List.append_assoc] at payload
      have framed : (Cbor.Framing.definite w).Fits n := fits
      have started := zcborMapStartDecode_new (show 2 < 8 by decide) framed small payload
      have steps := skipSteps_values inside
        ((zcborNewDecodeState 8 loop.ptr 1).entered_payload (.definite w) (2 * n) (body ++ rest)) (Nat.le_refl _)
      have looped := sequenceEntries_chain loop.ptr steps.chain (by simp [zcborArrayAtEnd, ZcborState.entered])
        (Or.inl (Nat.mul_mod_right 2 n))
      have ended := zcborMapEndDecode_definite loop.ptr w n (body ++ rest) rest
      exact sequenceMapBody_next started looped ended positive
  | @indefinite count body few inside =>
      simp only [List.cons_append, List.append_assoc, List.nil_append] at payload
      have started := zcborMapStartDecode_new (show 2 < 8 by decide) (show Cbor.Framing.indefinite.Fits 0 from trivial)
        (by decide) payload
      have steps := skipSteps_values inside
        ((zcborNewDecodeState 8 loop.ptr 1).entered_payload .indefinite (2 * 0) (body ++ breakCode :: rest))
        (few.trans largeCount_eq.ge)
      have looped := sequenceEntries_chain loop.ptr steps.chain
        (by simp [zcborArrayAtEnd, ZcborState.entered, breakCode]) (Or.inr rfl)
      have ended : (zcborMapEndDecode { (zcborNewDecodeState 8 loop.ptr 1).entered .indefinite (2 * 0)
          (body ++ breakCode :: rest) with
            payload := breakCode :: rest, elemCount := ZCBOR_LARGE_ELEM_COUNT - 2 * count }) =
          (true, (zcborNewDecodeState 8 loop.ptr 1).after rest) := by
        simp [zcborMapEndDecode, listMapEndDecode, ZcborState.entered, ZcborState.after, zcborNewDecodeState,
          arrayEndExpect, breakCode]
      exact sequenceMapBody_next started looped ended positive

/-- So is a cut one, with bytes from behind the payload. -/
theorem sequenceMapBody_cut {loop : SequenceLoop} {past : Nat} (cut : CutMap loop.ptr past) :
    Returns sequenceMapBody loop (.next ⟨[], loop.offset + (loop.ptr.length + past),
      loop.slices ++ [⟨loop.offset, loop.ptr.length + past⟩]⟩) := by
  obtain ⟨w, n, body, fits, small, inside, payload⟩ := cut
  have positive : loop.ptr.length - ([] : List UInt8).length + past ≠ 0 := by
    have := inside.positive
    omega
  have framed : (Cbor.Framing.definite w).Fits n := fits
  have started := zcborMapStartDecode_new (show 2 < 8 by decide) framed small payload
  have steps := skipSteps_cut inside
    ((zcborNewDecodeState 8 loop.ptr 1).entered_payload (.definite w) (2 * n) body) (Nat.le_refl _)
  have looped := sequenceEntries_chain loop.ptr steps.chain (by simp [zcborArrayAtEnd, ZcborState.entered])
    (Or.inl (Nat.mul_mod_right 2 n))
  have ended := zcborMapEndDecode_definite loop.ptr w n body []
  exact sequenceMapBody_next started looped ended positive

theorem sequenceSkip_terminates (ptr : List UInt8) (loop : ZcborState × Nat) :
    Fuel.Terminates (fun n => sequenceSkip (zcborAnySkip n) ptr) loop := by
  obtain ⟨result, n, ran⟩ := zcborAnySkip_terminates loop.1
  exact ⟨_, n, Option.map_eq_some_iff.mpr ⟨result, ran, rfl⟩⟩

theorem sequenceEntries_terminates (ptr : List UInt8) (loop : ZcborState × Nat) :
    Fuel.Terminates (sequenceEntries ptr) loop := by
  cases inside : zcborArrayAtEnd loop.1 with
  | true => exact ⟨.done loop, 0, by rw [sequenceEntries, sequenceEntryBody, if_pos inside]⟩
  | false =>
      obtain ⟨key, m, first⟩ := sequenceSkip_terminates ptr loop
      cases key with
      | error left =>
          refine ⟨.done left, m, ?_⟩
          simp only [sequenceEntries, sequenceEntryBody, inside, Bool.false_eq_true, if_false, first,
            Option.bind_some]
      | ok key =>
          obtain ⟨value, second⟩ := sequenceSkip_terminates ptr key
          cases value with
          | error left => exact (sequenceEntries_key inside ⟨m, first⟩ second).terminates
          | ok value => exact (sequenceEntries_pair inside ⟨m, first⟩ second).terminates

theorem sequenceEntries_loop_terminates (ptr : List UInt8) (loop : ZcborState × Nat) :
    Fuel.Terminates (Fuel.iterate (sequenceEntries ptr)) loop := by
  refine (Fuel.iterate_terminates_iff (sequenceEntries_monotone ptr) (fun loop => loop.1.payload.length) ?_ loop).mpr
    fun loop _ => sequenceEntries_terminates ptr loop
  rintro loop loop' ⟨n, again⟩
  obtain ⟨key, first, second⟩ := sequenceEntryBody_next again
  exact second.shorter.trans first.shorter

/-- What a round over a sequence has found, if it goes on to the next. -/
theorem sequenceMapBody_found {loop loop' : SequenceLoop} (again : Returns sequenceMapBody loop (.next loop')) :
    ∃ mapLen past, loop'.offset = loop.offset + mapLen ∧
      loop'.slices = loop.slices ++ [⟨loop.offset, mapLen⟩] ∧
      mapLen = loop.ptr.length - loop'.ptr.length + past ∧
      ((past = 0 ∧ ∃ front, SequenceMap front ∧ loop.ptr = front ++ loop'.ptr) ∨
        (loop'.ptr = [] ∧ CutMap loop.ptr past)) := by
  obtain ⟨n, again⟩ := again
  rw [sequenceMapBody] at again
  split at again
  · simp at again
  · split at again
    · simp at again
    · rename_i entered started
      obtain ⟨⟨left, past⟩, looped, same⟩ := Option.map_eq_some_iff.mp again
      cases ended : zcborMapEndDecode left with
      | mk closed st =>
          simp only [ended] at same
          cases closed with
          | false => cases same
          | true =>
              simp only at same
              split_ifs at same
              obtain rfl := Step.next.inj same
              exact ⟨_, past, rfl, rfl, rfl, sequenceMap_accepted (zcborMapStartDecode_opens started) looped ended⟩

theorem sequenceMapBody_left {n : Nat} {loop : SequenceLoop} {slices : List Slice}
    (ended : sequenceMapBody n loop = some (.done slices)) : slices = loop.slices := by
  rw [sequenceMapBody] at ended
  split at ended
  · exact (Step.done.inj (Option.some.inj ended)).symm
  · split at ended
    · exact (Step.done.inj (Option.some.inj ended)).symm
    · obtain ⟨⟨left, past⟩, -, same⟩ := Option.map_eq_some_iff.mp ended
      simp only at same
      split at same
      · exact (Step.done.inj same).symm
      · split_ifs at same
        exact (Step.done.inj same).symm

theorem sequenceMapBody_terminates (loop : SequenceLoop) : Fuel.Terminates sequenceMapBody loop := by
  by_cases empty : loop.ptr = []
  · exact ⟨.done loop.slices, 0, by rw [sequenceMapBody, if_pos empty]⟩
  · cases started : zcborMapStartDecode (zcborNewDecodeState 8 loop.ptr 1) with
    | mk opened entered =>
        cases opened with
        | false => exact ⟨.done loop.slices, 0, by rw [sequenceMapBody, if_neg empty, started]⟩
        | true =>
            obtain ⟨left, n, looped⟩ := sequenceEntries_loop_terminates loop.ptr (entered, 0)
            have total : ∃ step, sequenceMapBody n loop = some step := by
              rw [sequenceMapBody, if_neg empty, started]
              exact ⟨_, Option.map_eq_some_iff.mpr ⟨left, looped, rfl⟩⟩
            obtain ⟨step, ran⟩ := total
            exact ⟨step, n, ran⟩

theorem sequenceMapBody_shorter {loop loop' : SequenceLoop} (again : Returns sequenceMapBody loop (.next loop')) :
    loop'.ptr.length < loop.ptr.length := by
  obtain ⟨mapLen, past, -, -, -, ⟨-, front, map, payload⟩ | ⟨empty, w, n, body, -, -, -, payload⟩⟩ :=
    sequenceMapBody_found again
  · have positive := map.nonempty
    rw [payload, List.length_append]
    omega
  · rw [empty, payload, List.length_append, Cbor.head_length, List.length_nil]
    omega

/-- The splitter comes back from every payload. -/
theorem streamPushNotificationSequence_terminates (seqData : List UInt8) :
    Fuel.Terminates streamPushNotificationSequence seqData :=
  (Fuel.iterate_terminates_iff sequenceMapBody_monotone (fun loop => loop.ptr.length)
    (fun _ _ again => sequenceMapBody_shorter again) ⟨seqData, 0, []⟩).mpr
      fun loop _ => sequenceMapBody_terminates loop

/-- Every slice of the payload that is passed on to be queued lies inside it. -/
def SlicesInside (seqData : List UInt8) : Prop :=
  ∃ slices, Returns streamPushNotificationSequence seqData slices ∧
    ∀ slice ∈ slices, slice.start + slice.len ≤ seqData.length

theorem streamPushNotificationSequence_monotone : Monotone streamPushNotificationSequence :=
  fun _ _ _ _ le ran => Fuel.iterate_monotone sequenceMapBody_monotone le ran

/-- Complete maps in front are cut out one after the other, and then the cut one. -/
theorem sequenceMaps_cut {maps cut : List UInt8} {past : Nat} (complete : SequenceMaps maps)
    (last : CutMap cut past) (loop : SequenceLoop) (payload : loop.ptr = maps ++ cut) :
    ∃ slices, Returns (Fuel.iterate sequenceMapBody) loop slices ∧
      ⟨loop.offset + maps.length, cut.length + past⟩ ∈ slices := by
  induction complete generalizing loop with
  | nil =>
      have same : loop.ptr = cut := payload
      subst same
      have ended : Returns sequenceMapBody ⟨[], loop.offset + (loop.ptr.length + past),
          loop.slices ++ [⟨loop.offset, loop.ptr.length + past⟩]⟩ (.done _) := ⟨0, rfl⟩
      refine ⟨_, Fuel.iterate_next sequenceMapBody_monotone (sequenceMapBody_cut last)
        (Fuel.iterate_done sequenceMapBody_monotone ended), ?_⟩
      exact List.mem_append_right _ (List.mem_singleton_self _)
  | @cons front rest first _ ih =>
      rw [List.append_assoc] at payload
      have again := sequenceMapBody_complete first payload
      obtain ⟨slices, later, member⟩ := ih ⟨rest ++ cut, _, _⟩ rfl
      refine ⟨slices, Fuel.iterate_next sequenceMapBody_monotone again later, ?_⟩
      rwa [List.length_append, ← Nat.add_assoc]

/-- What the rounds over a payload keep, where nothing of it ends in a cut map. -/
structure SlicedSoFar (seqData : List UInt8) (loop : SequenceLoop) : Prop where
  offset : loop.offset = seqData.length - loop.ptr.length
  taken : ∃ maps, SequenceMaps maps ∧ seqData = maps ++ loop.ptr
  inside : ∀ slice ∈ loop.slices, slice.start + slice.len ≤ seqData.length

theorem SlicedSoFar.next {seqData : List UInt8}
    (uncut : ¬ ∃ maps cut past, SequenceMaps maps ∧ CutMap cut past ∧ seqData = maps ++ cut)
    {loop loop' : SequenceLoop} (sliced : SlicedSoFar seqData loop)
    (again : Returns sequenceMapBody loop (.next loop')) : SlicedSoFar seqData loop' := by
  obtain ⟨offset, ⟨maps, complete, payload⟩, inside⟩ := sliced
  obtain ⟨mapLen, past, offset', slices, length, found⟩ := sequenceMapBody_found again
  rcases found with ⟨rfl, front, map, taken⟩ | ⟨-, cut⟩
  · have total : seqData.length = maps.length + (front.length + loop'.ptr.length) := by
      rw [payload, taken, List.length_append, List.length_append]
    have remaining : loop.ptr.length = front.length + loop'.ptr.length := by rw [taken, List.length_append]
    refine ⟨by omega, ⟨maps ++ front, complete.snoc map, by rw [payload, taken, List.append_assoc]⟩, ?_⟩
    intro slice member
    rw [slices] at member
    rcases List.mem_append.mp member with earlier | last
    · exact inside slice earlier
    · obtain rfl := List.mem_singleton.mp last
      show loop.offset + mapLen ≤ seqData.length
      omega
  · exact absurd ⟨maps, loop.ptr, past, complete, cut, payload⟩ uncut

/-- The slices lie inside the payload exactly if it does not end, behind complete maps, in a
map of definite length that is cut within its last string by no more bytes than the tags and
the head of this string take. -/
theorem slices_inside_iff (seqData : List UInt8) :
    SlicesInside seqData ↔
      ¬ ∃ maps cut past, SequenceMaps maps ∧ CutMap cut past ∧ seqData = maps ++ cut := by
  constructor
  · rintro ⟨slices, returned, inside⟩ ⟨maps, cut, past, complete, last, rfl⟩
    obtain ⟨slices', returned', member⟩ := sequenceMaps_cut complete last ⟨maps ++ cut, 0, []⟩ rfl
    obtain rfl := returned.unique streamPushNotificationSequence_monotone returned'
    have bound := inside _ member
    obtain ⟨w, n, body, -, -, values, -⟩ := last
    have positive := values.positive
    rw [List.length_append] at bound
    simp only at bound
    omega
  · intro uncut
    obtain ⟨slices, n, ran⟩ := streamPushNotificationSequence_terminates seqData
    refine ⟨slices, ⟨n, ran⟩, ?_⟩
    have start : SlicedSoFar seqData ⟨seqData, 0, []⟩ :=
      ⟨(Nat.sub_self _).symm, ⟨[], SequenceMaps.nil, rfl⟩, by simp⟩
    apply Fuel.loop_invariant
      ?_ ?_ start ran
    · exact fun loop loop' sliced again => sliced.next uncut ⟨n, again⟩
    · intro loop left sliced ended
      rw [sequenceMapBody_left ended]
      exact sliced.inside

/-- In {0: "ab"} without its last byte the slice is one byte longer than the payload. -/
theorem slices_outside : ¬ SlicesInside [0xA1, 0x00, 0x62, 0x61] := by
  rintro ⟨slices, returned, inside⟩
  have ran : Returns streamPushNotificationSequence [0xA1, 0x00, 0x62, 0x61] [⟨0, 5⟩] := ⟨10, by decide +kernel⟩
  obtain rfl := returned.unique streamPushNotificationSequence_monotone ran
  have bound := inside ⟨0, 5⟩ (List.mem_singleton_self _)
  exact absurd bound (by decide)

end Coreconf
