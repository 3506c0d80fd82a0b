import Coreconf.ItemDecode
import Coreconf.RefusedValues
import Coreconf.ZcborSkip

set_option autoImplicit false

/- What zcbor_any_skip passes over. It reads heads only: a map of indefinite length may
have an odd number of members, and a string may go past the end of the payload by as much
as its tags and head are long. -/
namespace Cbor

/-- The numbers of elements that zcbor counts in a container of indefinite length. -/
def largeCount : Nat := 2 ^ 64 - 16

/-- Tags of at most four bytes each. -/
inductive Tags : List UInt8 → Prop
  | nil : Tags []
  | cons {w n rest} (fits : n < Width.bound w) (short : w.length ≤ 4) (later : Tags rest) :
      Tags (head 6 w n ++ rest)

/-- The values in a list or map whose head has this count; a map has two for each entry. -/
def Members (major count inner : Nat) : Prop :=
  (major = 4 ∧ inner = count) ∨ (major = 5 ∧ inner = 2 * count ∧ count ≤ (2 ^ 64 - 1) / 2)

/-- So many values in a row. -/
inductive Values : Nat → List UInt8 → Prop
  | nil : Values 0 []
  | append {a b front rest} (first : Values a front) (later : Values b rest) :
      Values (a + b) (front ++ rest)
  | scalar {tags major w n} (tagged : Tags tags) (plain : major = 0 ∨ major = 1 ∨ major = 7)
      (fits : n < Width.bound w) : Values 1 (tags ++ head major w n)
  | string {tags major w bytes} (tagged : Tags tags) (text : major = 2 ∨ major = 3)
      (fits : bytes.length < Width.bound w) : Values 1 (tags ++ (head major w bytes.length ++ bytes))
  | definite {tags major w n inner body} (tagged : Tags tags) (members : Members major n inner)
      (fits : n < Width.bound w) (inside : Values inner body) :
      Values 1 (tags ++ (head major w n ++ body))
  | indefinite {tags major inner body} (tagged : Tags tags) (container : major = 4 ∨ major = 5)
      (few : inner ≤ largeCount) (inside : Values inner body) :
      Values 1 (tags ++ indefiniteHead major :: (body ++ [breakCode]))

/-- So many values of which the last ends in a string that lacks its last bytes, no more of
them than its tags and head have, and with containers of definite length only around it. -/
inductive CutValues : Nat → List UInt8 → Nat → Prop
  | string {tags major w n bytes} (tagged : Tags tags) (text : major = 2 ∨ major = 3)
      (fits : n < Width.bound w) (missing : bytes.length < n)
      (unnoticed : n ≤ (tags ++ (head major w n ++ bytes)).length) :
      CutValues 1 (tags ++ (head major w n ++ bytes)) (n - bytes.length)
  | definite {tags major w n inner body past} (tagged : Tags tags) (members : Members major n inner)
      (fits : n < Width.bound w) (inside : CutValues inner body past) :
      CutValues 1 (tags ++ (head major w n ++ body)) past
  | after {a b front rest past} (first : Values a front) (last : CutValues b rest past) :
      CutValues (a + b) (front ++ rest) past

theorem Width.length_le (w : Width) : w.length ≤ 8 := by
  cases w <;> decide

theorem Tags.append {tags later : List UInt8} (first : Tags tags) (second : Tags later) :
    Tags (tags ++ later) := by
  induction first with
  | nil => exact second
  | cons fits short _ ih =>
      rw [List.append_assoc]
      exact Tags.cons fits short ih

/-- A value is at least one byte. -/
theorem Values.count_le {count : Nat} {bytes : List UInt8} (values : Values count bytes) : count ≤ bytes.length := by
  induction values with
  | nil => exact Nat.le_refl 0
  | append _ _ first second =>
      rw [List.length_append]
      omega
  | scalar => simp only [List.length_append, head_length]; omega
  | string => simp only [List.length_append, head_length]; omega
  | definite => simp only [List.length_append, head_length]; omega
  | indefinite => simp only [List.length_append, List.length_cons]; omega

end Cbor

namespace Coreconf

open Cbor (Framing Width head indefiniteHead breakCode Tags Values CutValues Members)
open Fuel (Step)

theorem largeCount_eq : ZCBOR_LARGE_ELEM_COUNT = Cbor.largeCount := rfl

theorem majorTypeAt_head (t : ZcborMajorType) {w : Width} {n : Nat} (fits : n < w.bound) (rest : List UInt8) :
    majorTypeAt (head t.number w n ++ rest) = some t := by
  have additional := Width.additional_le fits
  have number := number_lt t
  have first : (UInt8.ofNat (32 * t.number + w.additional n)).toNat / 32 = t.number := by
    rw [UInt8.toNat_ofNat']
    omega
  rw [head, List.cons_append, majorTypeAt, List.head?_cons, Option.map_some, ZCBOR_MAJOR_TYPE_eq first]

theorem majorTypeAt_indefiniteHead (t : ZcborMajorType) (rest : List UInt8) :
    majorTypeAt (indefiniteHead t.number :: rest) = some t := by
  cases t <;> rfl

private theorem immediate_of_additional {additional : Nat} (small : additional ≤ ZCBOR_VALUE_IS_8_BYTES)
    (short : additionalLen additional = 0) : additional < Width.bound .immediate := by
  rw [additionalLen] at short
  split_ifs at short with immediate
  · exact Nat.lt_succ_of_le immediate
  · exact absurd short (by positivity)

/-- Beyond the values in the head itself there is one width for each additional information. -/
private theorem width_of_additional {additional : Nat} (small : additional ≤ ZCBOR_VALUE_IS_8_BYTES)
    (long : additionalLen additional ≠ 0) :
    ∃ w : Width, w.length = additionalLen additional ∧ w.bound = 256 ^ w.length ∧
      ∀ n, w.additional n = additional := by
  rw [additionalLen] at long
  split_ifs at long with immediate
  · exact absurd rfl long
  · simp only [ZCBOR_VALUE_IN_HEADER, ZCBOR_VALUE_IS_8_BYTES] at immediate small
    obtain rfl | rfl | rfl | rfl : additional = 24 ∨ additional = 25 ∨ additional = 26 ∨ additional = 27 := by
      omega
    · exact ⟨.one, rfl, rfl, fun _ => rfl⟩
    · exact ⟨.two, rfl, rfl, fun _ => rfl⟩
    · exact ⟨.four, rfl, rfl, fun _ => rfl⟩
    · exact ⟨.eight, rfl, rfl, fun _ => rfl⟩

private theorem byte_eq (byte : UInt8) :
    UInt8.ofNat (32 * (byte.toNat / 32) + ZCBOR_ADDITIONAL byte) = byte := by
  rw [ZCBOR_ADDITIONAL, Nat.div_add_mod, UInt8.ofNat_toNat]

/-- What is extracted is the argument of a head. -/
theorem valueExtract_value {st st' : ZcborState} {resultLen : Nat} {indefinite : Bool} {n : Nat}
    (extracted : valueExtract st resultLen indefinite = some (.value n, st')) {t : ZcborMajorType}
    (major : majorTypeAt st.payload = some t) :
    st.elemCount ≠ 0 ∧ st' = st.after st'.payload ∧
      ∃ w : Width, n < w.bound ∧ w.length ≤ resultLen ∧ st.payload = head t.number w n ++ st'.payload := by
  rw [valueExtract] at extracted
  split at extracted
  · cases extracted
  · rename_i byte rest payload
    rw [payload, majorTypeAt, List.head?_cons, Option.map_some, Option.some.injEq] at major
    have number : byte.toNat / 32 = t.number := by rw [← major, ZCBOR_MAJOR_TYPE_number]
    simp only at extracted
    split_ifs at extracted with empty unbounded invalid large short immediate
    · cases extracted
    · simp only [Option.some.injEq, Prod.mk.injEq, ExtractedValue.value.injEq] at extracted
      obtain ⟨rfl, rfl⟩ := extracted
      refine ⟨empty, rfl, .immediate, immediate_of_additional (by omega) immediate, Nat.zero_le _, ?_⟩
      rw [payload, head, Width.additional, ← number, byte_eq, immediate]
      rfl
    · simp only [Option.some.injEq, Prod.mk.injEq, ExtractedValue.value.injEq] at extracted
      obtain ⟨rfl, rfl⟩ := extracted
      obtain ⟨w, length, bound, same⟩ := width_of_additional (by omega) immediate
      have taken : (rest.take w.length).length = w.length := List.length_take_of_le (by omega)
      rw [← length]
      refine ⟨empty, rfl, w, ?_, by omega, ?_⟩
      · calc Cbor.beNat (rest.take w.length) < 256 ^ (rest.take w.length).length := Cbor.beNat_lt _
          _ = w.bound := by rw [taken, bound]
      · have bytes := Cbor.beBytes_beNat (rest.take w.length)
        rw [taken] at bytes
        rw [payload, head, same, ← number, byte_eq, bytes, List.cons_append, List.take_append_drop]

/-- An indefinite length is read where one is expected, from one byte. -/
theorem valueExtract_indefinite {st st' : ZcborState} {resultLen : Nat} {indefinite : Bool}
    (extracted : valueExtract st resultLen indefinite = some (.indefinite, st')) {t : ZcborMajorType}
    (major : majorTypeAt st.payload = some t) :
    st.elemCount ≠ 0 ∧ st' = st.after st'.payload ∧
      st.payload = indefiniteHead t.number :: st'.payload := by
  rw [valueExtract] at extracted
  split at extracted
  · cases extracted
  · rename_i byte rest payload
    rw [payload, majorTypeAt, List.head?_cons, Option.map_some, Option.some.injEq] at major
    have number : byte.toNat / 32 = t.number := by rw [← major, ZCBOR_MAJOR_TYPE_number]
    simp only at extracted
    split_ifs at extracted with empty unbounded
    · simp only [Option.some.injEq, Prod.mk.injEq, true_and] at extracted
      subst extracted
      have first := byte_eq byte
      rw [unbounded.1, number] at first
      exact ⟨empty, rfl, by rw [payload, indefiniteHead, ← first]; rfl⟩
    all_goals cases extracted

theorem valueExtractFixed_value {st st' : ZcborState} {resultLen n : Nat}
    (extracted : valueExtractFixed st resultLen = some (n, st')) {t : ZcborMajorType}
    (major : majorTypeAt st.payload = some t) :
    st.elemCount ≠ 0 ∧ st' = st.after st'.payload ∧
      ∃ w : Width, n < w.bound ∧ w.length ≤ resultLen ∧ st.payload = head t.number w n ++ st'.payload := by
  rw [valueExtractFixed] at extracted
  split at extracted
  · rename_i n' st'' found
    obtain ⟨rfl, rfl⟩ := Prod.mk.injEq .. ▸ Option.some.inj extracted
    exact valueExtract_value found major
  · cases extracted

theorem majorTypeAt_opening (t : ZcborMajorType) {framing : Framing} {count : Nat}
    (fits : framing.Fits count) (rest : List UInt8) :
    majorTypeAt (framing.opening t.number count ++ rest) = some t := by
  cases framing with
  | definite w => exact majorTypeAt_head t fits rest
  | indefinite => exact majorTypeAt_indefiniteHead t rest

/-- A list or map is entered behind its head. -/
theorem listMapStartDecode_entered {st st' : ZcborState} {t : ZcborMajorType}
    (started : listMapStartDecode st t = some st') :
    st.elemCount ≠ 0 ∧ st.backupList.length < st.numBackups ∧
      ∃ (framing : Framing) (n : Nat), framing.Fits n ∧
      st.payload = framing.opening t.number n ++ st'.payload ∧ st' = st.entered framing n st'.payload := by
  rw [listMapStartDecode] at started
  split_ifs at started with checked
  have major : majorTypeAt st.payload = some t := eq_of_beq checked
  split at started
  · cases started
  · rename_i left extracted
    obtain ⟨counted, after, payload⟩ := valueExtract_indefinite extracted major
    obtain ⟨backed, backup, rfl⟩ := Option.map_eq_some_iff.mp started
    rw [after, zcborNewBackup] at backup
    split_ifs at backup with room
    obtain rfl := Option.some.inj backup
    exact ⟨counted, Nat.lt_of_not_le room, .indefinite, 0, trivial, payload, rfl⟩
  · rename_i n left extracted
    obtain ⟨counted, after, w, fits, -, payload⟩ := valueExtract_value extracted major
    obtain ⟨backed, backup, rfl⟩ := Option.map_eq_some_iff.mp started
    rw [after, zcborNewBackup] at backup
    split_ifs at backup with room
    obtain rfl := Option.some.inj backup
    exact ⟨counted, Nat.lt_of_not_le room, .definite w, n, fits, payload, rfl⟩

theorem zcborMapStartDecode_entered {st st' : ZcborState} (started : zcborMapStartDecode st = (true, st')) :
    ∃ (framing : Framing) (n : Nat), framing.Fits n ∧ n < ZCBOR_MAX_ELEM_COUNT / 2 ∧
      st.payload = framing.opening 5 n ++ st'.payload ∧ st' = st.entered framing (2 * n) st'.payload := by
  rw [zcborMapStartDecode] at started
  split at started
  · simp at started
  · rename_i opened found
    obtain ⟨-, -, framing, n, fits, payload, entered⟩ := listMapStartDecode_entered found
    cases framing with
    | indefinite =>
        rw [if_pos (by rw [entered]; rfl)] at started
        obtain rfl := (Prod.mk.inj started).2
        exact ⟨.indefinite, 0, trivial, by decide, payload, entered⟩
    | definite w =>
        rw [if_neg (by rw [entered]; exact Bool.false_ne_true)] at started
        split_ifs at started with large
        · simp at started
        · obtain rfl := (Prod.mk.inj started).2
          have count : opened.elemCount = n := by rw [entered]; rfl
          refine ⟨.definite w, n, fits, by omega, payload, ?_⟩
          simp only
          rw [entered]
          simp only [ZcborState.entered, Nat.mul_comm]

theorem zcborMapStartDecode_new {nStates n : Nat} {framing : Framing} {ptr rest : List UInt8}
    (room : 2 < nStates) (fits : framing.Fits n) (small : n < ZCBOR_MAX_ELEM_COUNT / 2)
    (payload : ptr = framing.opening 5 n ++ rest) :
    zcborMapStartDecode (zcborNewDecodeState nStates ptr 1) =
      (true, (zcborNewDecodeState nStates ptr 1).entered framing (2 * n) rest) := by
  have major : majorTypeAt ptr = some .map := payload ▸ majorTypeAt_opening .map fits rest
  refine zcborMapStartDecode_opening payload fits Nat.one_ne_zero ?_ (Nat.sub_pos_of_lt room) small
  rw [typeCheck, zcborNewDecodeState, major, beq_self_eq_true]

/-- These bytes hold so many values in front of the rest, or are so many values of which the
last goes past the end. -/
def Passes (count : Nat) (payload rest : List UInt8) (past : Nat) : Prop :=
  (past = 0 ∧ ∃ front, Values count front ∧ payload = front ++ rest) ∨
    (0 < past ∧ rest = [] ∧ CutValues count payload past)

theorem Passes.zero (payload : List UInt8) : Passes 0 payload payload 0 :=
  Or.inl ⟨rfl, [], Values.nil, rfl⟩

theorem Passes.inside {count : Nat} {payload rest : List UInt8} {past : Nat}
    (passes : Passes count payload rest past) (more : rest ≠ []) : past = 0 := by
  rcases passes with ⟨inside, -⟩ | ⟨-, empty, -⟩
  · exact inside
  · exact absurd empty more

theorem Passes.append {a b : Nat} {payload middle rest : List UInt8} {past : Nat}
    (first : Passes a payload middle 0) (second : Passes b middle rest past) :
    Passes (a + b) payload rest past := by
  obtain ⟨-, front, values, rfl⟩ | ⟨positive, -⟩ := first
  · obtain ⟨inside, back, more, rfl⟩ | ⟨positive, empty, cut⟩ := second
    · exact Or.inl ⟨inside, front ++ back, values.append more, (List.append_assoc ..).symm⟩
    · exact Or.inr ⟨positive, empty, cut.after values⟩
  · exact absurd positive (Nat.lt_irrefl 0)

/-- What a skip that succeeds has done. -/
structure Skips (st st' : ZcborState) (past : Nat) : Prop where
  nonempty : st.payload ≠ []
  counted : st.elemCount ≠ 0
  frame : st' = st.after st'.payload
  passes : Passes 1 st.payload st'.payload past

/-- The tags in front of the state's payload, which are no elements. -/
def BehindTags (st copy : ZcborState) : Prop :=
  copy = { st with payload := copy.payload } ∧ ∃ tags, Tags tags ∧ st.payload = tags ++ copy.payload

theorem zcborTagDecode_some {st st' : ZcborState} {tag : Nat} (read : zcborTagDecode st = some (tag, st')) :
    BehindTags st st' ∧ st'.payload.length < st.payload.length := by
  rw [zcborTagDecode] at read
  split_ifs at read with checked
  split at read
  · rename_i n left extracted
    obtain ⟨rfl, rfl⟩ := Prod.mk.injEq .. ▸ Option.some.inj read
    obtain ⟨counted, same, w, fits, short, payload⟩ := valueExtractFixed_value extracted (eq_of_beq checked)
    have count : left.elemCount + 1 = st.elemCount := by
      rw [same]
      exact Nat.succ_pred_eq_of_ne_zero counted
    refine ⟨⟨?_, head 6 w n, ?_, payload⟩, ?_⟩
    · rw [count, same]
      rfl
    · exact List.append_nil (head 6 w n) ▸ Tags.cons fits short Tags.nil
    · rw [payload, List.length_append, Cbor.head_length]
      simp only
      omega
  · cases read

theorem BehindTags.trans {st copy copy' : ZcborState} (first : BehindTags st copy)
    (second : BehindTags copy copy') : BehindTags st copy' := by
  obtain ⟨frame, tags, tagged, payload⟩ := first
  obtain ⟨frame', tags', tagged', payload'⟩ := second
  refine ⟨?_, tags ++ tags', tagged.append tagged', ?_⟩
  · rw [frame', frame]
  · rw [payload, payload', List.append_assoc]

theorem skipTagBody_next {st st' : ZcborState} (again : skipTagBody st = some (.next st')) :
    BehindTags st st' ∧ st'.payload.length < st.payload.length := by
  rw [skipTagBody] at again
  split at again
  · split at again
    · simp at again
    · rename_i tag left read
      split at again
      · simp at again
      · obtain rfl := Step.next.inj (Option.some.inj again)
        exact zcborTagDecode_some read
  · simp at again

theorem skipTagBody_done {st copy : ZcborState} (left : skipTagBody st = some (.done (some copy))) :
    copy = st ∧ majorTypeAt st.payload ≠ some .tag := by
  rw [skipTagBody] at left
  split at left
  · split at left
    · simp at left
    · split at left <;> simp at left
  · rename_i untagged
    simp only [Option.some.injEq, Step.done.injEq] at left
    exact ⟨left.symm, untagged⟩

theorem skipTagBody_loop {fuel : Nat} {st copy : ZcborState}
    (looped : Fuel.loop skipTagBody fuel st = some (some copy)) :
    BehindTags st copy ∧ majorTypeAt copy.payload ≠ some .tag := by
  have behind : ∀ left, some copy = some left → BehindTags st left ∧ majorTypeAt left.payload ≠ some .tag := by
    refine @Fuel.loop_invariant _ _ _ (BehindTags st)
      (fun r => ∀ left, r = some left → BehindTags st left ∧ majorTypeAt left.payload ≠ some .tag)
      ?_ ?_ _ _ _ ⟨rfl, [], Tags.nil, rfl⟩ looped
    · exact fun s s' behind again => behind.trans (skipTagBody_next again).1
    · rintro s r behind left copy rfl
      obtain ⟨rfl, untagged⟩ := skipTagBody_done left
      exact ⟨behind, untagged⟩
  exact behind copy rfl

/-- Between the members of a container that was entered in this state. -/
def Between (entered : ZcborState) (loop : ZcborState × Nat) : Prop :=
  loop.1 = { entered with payload := loop.1.payload, elemCount := loop.1.elemCount } ∧
    ∃ count, loop.1.elemCount + count = entered.elemCount ∧
      Passes count entered.payload loop.1.payload loop.2

def SkipsOnly (skip : ZcborState → Option SkipResult) : Prop :=
  ∀ st st' past, skip st = some (.skipped st' past) → Skips st st' past

theorem skipMemberBody_next {skip : ZcborState → Option SkipResult} (sound : SkipsOnly skip)
    {loop loop' : ZcborState × Nat} (again : skipMemberBody skip loop = some (.next loop')) :
    Skips loop.1 loop'.1 loop'.2 := by
  obtain ⟨st, past⟩ := loop
  rw [skipMemberBody] at again
  split at again
  · simp at again
  · obtain ⟨result, skipped, same⟩ := Option.map_eq_some_iff.mp again
    cases result with
    | skipped st' past' =>
        obtain rfl := Step.next.inj same
        exact sound st st' past' skipped
    | failed => cases same
    | restored => cases same

theorem skipMemberBody_done {skip : ZcborState → Option SkipResult} {loop left : ZcborState × Nat}
    (ended : skipMemberBody skip loop = some (.done (some left))) :
    left = loop ∧ zcborArrayAtEnd loop.1 = true := by
  obtain ⟨st, past⟩ := loop
  rw [skipMemberBody] at ended
  split at ended
  · rename_i atEnd
    simp only [Option.some.injEq, Step.done.injEq] at ended
    exact ⟨ended.symm, atEnd⟩
  · obtain ⟨result, skipped, same⟩ := Option.map_eq_some_iff.mp ended
    cases result <;> cases same

theorem Between.next {entered : ZcborState} {loop loop' : ZcborState × Nat} (between : Between entered loop)
    (skips : Skips loop.1 loop'.1 loop'.2) : Between entered loop' := by
  obtain ⟨frame, count, counted, passes⟩ := between
  have inside := passes.inside skips.nonempty
  have positive := skips.counted
  refine ⟨?_, count + 1, ?_, ?_⟩
  · rw [skips.frame, frame]
    rfl
  · have less : loop'.1.elemCount = loop.1.elemCount - 1 := congrArg ZcborState.elemCount skips.frame
    omega
  · exact Passes.append (inside ▸ passes) skips.passes

theorem skipMembers_loop {skip : ZcborState → Option SkipResult} (sound : SkipsOnly skip) {fuel : Nat}
    {entered : ZcborState} {left : ZcborState × Nat}
    (looped : Fuel.loop (skipMemberBody skip) fuel (entered, 0) = some (some left)) :
    Between entered left ∧ zcborArrayAtEnd left.1 = true := by
  have ended : ∀ left', some left = some left' → Between entered left' ∧ zcborArrayAtEnd left'.1 = true := by
    refine @Fuel.loop_invariant _ _ _ (Between entered)
      (fun r => ∀ left', r = some left' → Between entered left' ∧ zcborArrayAtEnd left'.1 = true)
      ?_ ?_ _ _ _ ⟨rfl, 0, rfl, Passes.zero entered.payload⟩ looped
    · exact fun s s' between again => between.next (skipMemberBody_next sound again)
    · rintro s r between ended left' rfl
      obtain ⟨rfl, atEnd⟩ := skipMemberBody_done ended
      exact ⟨between, atEnd⟩
  exact ended left rfl

/-- A container of definite length ends behind its last member, which may be cut. -/
theorem skipMembers_definite {skip : ZcborState → Option SkipResult} (sound : SkipsOnly skip) {fuel : Nat}
    {st st' entered : ZcborState} {past : Nat} (definite : entered.indefiniteLengthArray = false)
    (ran : skipMembers skip fuel st entered = some (.skipped st' past)) :
    st' = st.after st'.payload ∧ Passes entered.elemCount entered.payload st'.payload past := by
  obtain ⟨left, looped, same⟩ := Option.map_eq_some_iff.mp ran
  cases left with
  | none => cases same
  | some left =>
      obtain ⟨⟨frame, count, counted, passes⟩, atEnd⟩ := skipMembers_loop sound looped
      obtain ⟨left, past'⟩ := left
      simp only [definite, Bool.false_eq_true, if_false, SkipResult.skipped.injEq] at same
      obtain ⟨rfl, rfl⟩ := same
      have none_left : left.elemCount = 0 := by
        rw [zcborArrayAtEnd, frame] at atEnd
        simpa [definite] using atEnd
      simp only [none_left, Nat.zero_add] at counted
      exact ⟨rfl, counted ▸ passes⟩

/-- One of indefinite length ends at a break, so that nothing in it is cut. -/
theorem skipMembers_indefinite {skip : ZcborState → Option SkipResult} (sound : SkipsOnly skip) {fuel : Nat}
    {st st' entered : ZcborState} {past : Nat} (indefinite : entered.indefiniteLengthArray = true)
    (ran : skipMembers skip fuel st entered = some (.skipped st' past)) :
    st' = st.after st'.payload ∧ past = 0 ∧ ∃ count body, count ≤ entered.elemCount ∧ Values count body ∧
      entered.payload = body ++ breakCode :: st'.payload := by
  obtain ⟨left, looped, same⟩ := Option.map_eq_some_iff.mp ran
  cases left with
  | none => cases same
  | some left =>
      obtain ⟨⟨frame, count, counted, passes⟩, atEnd⟩ := skipMembers_loop sound looped
      have few : count ≤ entered.elemCount := Nat.le_of_add_left_le counted.le
      obtain ⟨left, past'⟩ := left
      rw [zcborArrayAtEnd, frame] at atEnd
      simp only [indefinite, if_true, beq_iff_eq] at atEnd
      obtain ⟨rest, payload⟩ := List.head?_eq_some_iff.mp atEnd
      obtain ⟨inside, body, values, whole⟩ | ⟨-, empty, -⟩ := passes
      · simp only [indefinite, if_true, arrayEndExpect, payload] at same
        simp only [ne_eq, not_true_eq_false, if_false, SkipResult.skipped.injEq] at same
        obtain ⟨rfl, rfl⟩ := same
        exact ⟨rfl, inside, count, body, few, values, by rw [whole, payload]; rfl⟩
      · rw [payload] at empty
        cases empty

/-- The head of the container in front of a state that has entered it. -/
theorem skipEnter_some {copy entered : ZcborState} {isMap : Bool} (ran : skipEnter copy isMap = some entered)
    {t : ZcborMajorType} (major : majorTypeAt copy.payload = some t)
    (container : t.number = if isMap then 5 else 4) :
    copy.elemCount ≠ 0 ∧
      ((entered.indefiniteLengthArray = false ∧ ∃ w n, n < Width.bound w ∧
          Members t.number n entered.elemCount ∧ copy.payload = head t.number w n ++ entered.payload) ∨
        (entered.indefiniteLengthArray = true ∧ entered.elemCount = ZCBOR_LARGE_ELEM_COUNT ∧
          copy.payload = indefiniteHead t.number :: entered.payload)) := by
  rw [skipEnter] at ran
  split at ran
  · cases ran
  · rename_i copy' extracted
    obtain ⟨counted, -, payload⟩ := valueExtract_indefinite extracted major
    obtain rfl := Option.some.inj ran
    exact ⟨counted, Or.inr ⟨rfl, rfl, payload⟩⟩
  · rename_i n copy' extracted
    obtain ⟨counted, -, w, fits, -, payload⟩ := valueExtract_value extracted major
    refine ⟨counted, Or.inl ?_⟩
    cases isMap with
    | false =>
        obtain rfl := Option.some.inj ran
        exact ⟨rfl, w, n, fits, Or.inl ⟨container, rfl⟩, payload⟩
    | true =>
        simp only [if_true] at ran container
        split_ifs at ran with large
        obtain rfl := Option.some.inj ran
        exact ⟨rfl, w, n, fits, Or.inr ⟨container, rfl, Nat.le_of_not_lt large⟩, payload⟩

private theorem skipContainer_skips {skip : ZcborState → Option SkipResult} (sound : SkipsOnly skip) {fuel : Nat}
    {st copy entered st' : ZcborState} {past : Nat} (behind : BehindTags st copy) {isMap : Bool}
    {t : ZcborMajorType} (major : majorTypeAt copy.payload = some t)
    (container : t.number = if isMap then 5 else 4) (enter : skipEnter copy isMap = some entered)
    (nonempty : st.payload ≠ []) (ran : skipMembers skip fuel st entered = some (.skipped st' past)) :
    Skips st st' past := by
  obtain ⟨frame, tags, tagged, payload⟩ := behind
  obtain ⟨counted, entered⟩ := skipEnter_some enter major container
  have counted : st.elemCount ≠ 0 := by rwa [frame] at counted
  rcases entered with ⟨definite, w, n, fits, members, first⟩ | ⟨indefinite, large, first⟩
  · obtain ⟨after, passes⟩ := skipMembers_definite sound definite ran
    refine ⟨nonempty, counted, after, ?_⟩
    rw [payload, first]
    rcases passes with ⟨inside, body, values, whole⟩ | ⟨positive, empty, cut⟩
    · refine Or.inl ⟨inside, _, Values.definite tagged members fits values, ?_⟩
      simp only [whole, List.append_assoc]
    · exact Or.inr ⟨positive, empty, CutValues.definite tagged members fits cut⟩
  · obtain ⟨after, inside, count, body, few, values, whole⟩ := skipMembers_indefinite sound indefinite ran
    refine ⟨nonempty, counted, after, ?_⟩
    have either : t.number = 4 ∨ t.number = 5 := by cases isMap <;> simp [container]
    rw [payload, first]
    refine Or.inl ⟨inside, _, Values.indefinite tagged either (few.trans (large.trans largeCount_eq).le) values, ?_⟩
    simp only [whole, List.append_assoc, List.cons_append, List.nil_append]

private theorem skipScalar_skips {st copy st' : ZcborState} {past : Nat} (behind : BehindTags st copy)
    {t : ZcborMajorType} (major : majorTypeAt copy.payload = some t) (untagged : t ≠ .tag)
    (noList : t ≠ .list) (noMap : t ≠ .map) (nonempty : st.payload ≠ [])
    (ran : skipScalar st copy (some t) = .skipped st' past) : Skips st st' past := by
  obtain ⟨frame, tags, tagged, payload⟩ := behind
  rw [skipScalar] at ran
  split at ran
  · cases ran
  · rename_i n left extracted
    obtain ⟨counted, after, w, fits, -, first⟩ := valueExtractFixed_value extracted major
    have counted : st.elemCount ≠ 0 := by rwa [frame] at counted
    split_ifs at ran with text long
    · obtain ⟨rfl, rfl⟩ := SkipResult.skipped.injEq .. ▸ ran
      have kind : t.number = 2 ∨ t.number = 3 := by
        rcases text with text | text <;> obtain rfl := Option.some.inj text <;> simp [ZcborMajorType.number]
      refine ⟨nonempty, counted, rfl, ?_⟩
      rcases Nat.lt_or_ge left.payload.length n with missing | enough
      · refine Or.inr ⟨by omega, List.drop_of_length_le missing.le, ?_⟩
        have noticed : n ≤ st.payload.length := Nat.le_of_not_lt long
        rw [payload, first] at noticed ⊢
        exact CutValues.string tagged kind fits missing noticed
      · have length : (left.payload.take n).length = n := List.length_take_of_le enough
        refine Or.inl ⟨by omega, _, Values.string tagged kind (length.symm ▸ fits), ?_⟩
        rw [payload, first, length]
        simp only [List.append_assoc, List.take_append_drop]
    · obtain ⟨rfl, rfl⟩ := SkipResult.skipped.injEq .. ▸ ran
      have plain : t.number = 0 ∨ t.number = 1 ∨ t.number = 7 := by
        cases t with
        | pint => exact Or.inl rfl
        | nint => exact Or.inr (Or.inl rfl)
        | bstr => exact absurd (Or.inl rfl) text
        | tstr => exact absurd (Or.inr rfl) text
        | list => exact absurd rfl noList
        | map => exact absurd rfl noMap
        | tag => exact absurd rfl untagged
        | simple => exact Or.inr (Or.inr rfl)
      refine ⟨nonempty, counted, rfl, Or.inl ⟨rfl, _, Values.scalar tagged plain fits, ?_⟩⟩
      rw [payload, first, List.append_assoc]

/-- Whatever is skipped is a value, or a value cut within its last string. -/
theorem zcborAnySkip_sound (fuel : Nat) : SkipsOnly (zcborAnySkip fuel) := by
  induction fuel with
  | zero => intro st st' past ran; cases ran
  | succ fuel ih =>
      intro st st' past ran
      rw [zcborAnySkip] at ran
      split at ran
      · simp at ran
      · rename_i nonempty
        split at ran
        · cases ran
        · simp at ran
        · rename_i copy looped
          obtain ⟨behind, untagged⟩ := skipTagBody_loop looped
          rw [skipValue] at ran
          split at ran
          · rename_i major
            split at ran
            · simp at ran
            · rename_i enter
              exact skipContainer_skips ih behind major rfl enter nonempty ran
          · rename_i major
            split at ran
            · simp at ran
            · rename_i enter
              exact skipContainer_skips ih behind major rfl enter nonempty ran
          · rename_i noList noMap
            cases major : majorTypeAt copy.payload with
            | none =>
                have empty : copy.payload = [] := List.head?_eq_none_iff.mp (Option.map_eq_none_iff.mp major)
                simp [skipScalar, valueExtractFixed, valueExtract, empty] at ran
            | some t =>
                rw [major] at ran untagged noList noMap
                exact skipScalar_skips behind major (fun same => untagged (same ▸ rfl))
                  (fun same => noList (same ▸ rfl)) (fun same => noMap (same ▸ rfl)) nonempty (Option.some.inj ran)

end Coreconf
