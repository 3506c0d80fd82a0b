import Coreconf.SkipGrammar

set_option autoImplicit false

/- zcbor_any_skip passes over every value it can, and always comes back. -/
namespace Coreconf

open Cbor (Width head indefiniteHead breakCode Tags Values CutValues Members)
open Fuel (Returns Step Monotone)

/-- So many skips in a row, of which only the last may go past the end. -/
inductive SkipSteps : Nat → ZcborState → ZcborState → Nat → Prop
  | refl (st : ZcborState) : SkipSteps 0 st st 0
  | skip {st st' : ZcborState} {past : Nat} (skipped : Returns zcborAnySkip st (.skipped st' past)) :
      SkipSteps 1 st st' past
  | append {a b : Nat} {st middle st' : ZcborState} {past : Nat} (first : SkipSteps a st middle 0)
      (second : SkipSteps b middle st' past) : SkipSteps (a + b) st st' past

def skipMembersBody (n : Nat) : ZcborState × Nat → Option (Step (ZcborState × Nat) (Option (ZcborState × Nat))) :=
  skipMemberBody (zcborAnySkip n)

theorem skipMembersBody_monotone : Monotone skipMembersBody :=
  Monotone.of_extends fun _ _ loop le => skipMemberBody_extends (zcborAnySkip_monotone.extends le) loop

/-- A break is not skipped. -/
theorem zcborAnySkip_break {fuel : Nat} {st : ZcborState} (atBreak : st.payload.head? = some 0xFF)
    {result : SkipResult} (ran : zcborAnySkip fuel st = some result) : result = .failed := by
  obtain ⟨rest, payload⟩ := List.head?_eq_some_iff.mp atBreak
  have major : majorTypeAt st.payload = some .simple := by rw [payload]; rfl
  have untagged : skipTagBody st = some (.done (some st)) := by simp [skipTagBody, major]
  have none_extracted : valueExtractFixed st 8 = none := by
    rw [valueExtractFixed, valueExtract, payload]
    simp only [show ZCBOR_ADDITIONAL 0xFF = 31 from rfl, Bool.false_eq_true, and_false, if_false,
      ZCBOR_VALUE_IS_8_BYTES, gt_iff_lt]
    split <;> simp_all
  cases fuel with
  | zero => cases ran
  | succ fuel =>
      cases fuel with
      | zero => simp [zcborAnySkip, payload, Fuel.loop] at ran
      | succ fuel =>
          rw [zcborAnySkip, if_neg (payload ▸ List.cons_ne_nil 0xFF rest), Fuel.loop_done untagged] at ran
          simp only [skipValue, major, skipScalar, none_extracted, Option.some.injEq] at ran
          exact ran.symm

theorem zcborAnySkip_notAtEnd {fuel : Nat} {st st' : ZcborState} {past : Nat}
    (ran : zcborAnySkip fuel st = some (.skipped st' past)) : zcborArrayAtEnd st = false := by
  rw [zcborArrayAtEnd]
  split
  · rw [beq_eq_false_iff_ne]
    intro atBreak
    cases zcborAnySkip_break atBreak ran
  · simpa using (zcborAnySkip_sound fuel st st' past ran).counted

theorem SkipSteps.loop {count : Nat} {st st' : ZcborState} {past : Nat} (steps : SkipSteps count st st' past)
    {result : Option (ZcborState × Nat)} (rest : Returns (Fuel.iterate skipMembersBody) (st', past) result) :
    Returns (Fuel.iterate skipMembersBody) (st, 0) result := by
  induction steps with
  | refl st => exact rest
  | @skip st st' past skipped =>
      obtain ⟨n, ran⟩ := skipped
      refine Fuel.iterate_next skipMembersBody_monotone ⟨n, ?_⟩ rest
      simp only [skipMembersBody, skipMemberBody, zcborAnySkip_notAtEnd ran, Bool.false_eq_true, if_false, ran,
        Option.map_some]
  | append _ _ first second => exact first (second rest)

theorem zcborTagDecode_head {st : ZcborState} {w : Width} {n : Nat} {rest : List UInt8}
    (payload : st.payload = head 6 w n ++ rest) (fits : n < w.bound) (short : w.length ≤ 4)
    (left : st.elemCount ≠ 0) : zcborTagDecode st = some (n, { st with payload := rest }) := by
  have checked : typeCheck st .tag = true := by
    rw [typeCheck, payload, show majorTypeAt (head 6 w n ++ rest) = _ from majorTypeAt_head .tag fits rest,
      beq_self_eq_true]
  have count : st.elemCount - 1 + 1 = st.elemCount := Nat.succ_pred_eq_of_ne_zero left
  rw [zcborTagDecode, if_pos checked, valueExtractFixed_head payload (by decide) fits short left]
  simp only [ZcborState.after, count]

/-- The loop over the tags stops at what they tag. -/
theorem skipTagBody_returns {tags : List UInt8} (tagged : Tags tags) {st : ZcborState} {rest : List UInt8}
    (payload : st.payload = tags ++ rest) (left : st.elemCount ≠ 0) {t : ZcborMajorType}
    (major : majorTypeAt rest = some t) (untagged : t ≠ .tag) :
    ∃ n, Fuel.loop skipTagBody n st = some (some { st with payload := rest }) := by
  have nonempty : rest ≠ [] := by
    rintro rfl
    cases major
  induction tagged generalizing st with
  | nil =>
      have same : st = { st with payload := rest } := by rw [← show st.payload = rest from payload]
      have done : skipTagBody st = some (.done (some st)) := by
        rw [skipTagBody, if_neg]
        rw [show st.payload = rest from payload, major]
        exact fun tag => untagged (Option.some.inj tag)
      exact ⟨1, (Fuel.loop_done done).trans (by rw [← same])⟩
  | @cons w n later fits short _ ih =>
      rw [List.append_assoc] at payload
      obtain ⟨fuel, looped⟩ := ih (payload_with st (later ++ rest)) left
      have again : skipTagBody st = some (.next { st with payload := later ++ rest }) := by
        have tag : majorTypeAt st.payload = some .tag := payload ▸ majorTypeAt_head .tag fits (later ++ rest)
        rw [skipTagBody, if_pos tag, zcborTagDecode_head payload fits short left]
        simp [nonempty]
      exact ⟨fuel + 1, (Fuel.loop_next again).trans looped⟩

theorem zcborAnySkip_returns {st copy : ZcborState} (nonempty : st.payload ≠ [])
    (tags : ∃ n, Fuel.loop skipTagBody n st = some (some copy)) {result : SkipResult}
    (value : ∃ n, skipValue (zcborAnySkip n) n st copy = some result) : Returns zcborAnySkip st result := by
  obtain ⟨m, looped⟩ := tags
  obtain ⟨n, value⟩ := value
  refine ⟨max m n + 1, ?_⟩
  have tagged := Fuel.loop_extends (fun st => Fuel.Extends.refl (skipTagBody st)) (Nat.le_max_left m n) st looped
  rw [zcborAnySkip, if_neg nonempty, tagged]
  exact skipValue_extends (zcborAnySkip_monotone.extends (Nat.le_max_right m n)) (Nat.le_max_right m n) st copy value

theorem skipValue_scalar {skip : ZcborState → Option SkipResult} {fuel : Nat} {st copy : ZcborState}
    {t : ZcborMajorType} (major : majorTypeAt copy.payload = some t) (noList : t ≠ .list) (noMap : t ≠ .map) :
    skipValue skip fuel st copy = some (skipScalar st copy (some t)) := by
  rw [skipValue, major]
  cases t <;> first | rfl | contradiction

theorem skipValue_container {skip : ZcborState → Option SkipResult} {fuel : Nat} {st copy entered : ZcborState}
    {t : ZcborMajorType} (major : majorTypeAt copy.payload = some t) {isMap : Bool}
    (container : t = if isMap then .map else .list) (enter : skipEnter copy isMap = some entered) :
    skipValue skip fuel st copy = skipMembers skip fuel st entered := by
  rw [skipValue, major]
  cases isMap <;> subst container <;> simp only [Bool.false_eq_true, if_true, if_false, enter]

theorem zcborAnySkip_behindTags {st : ZcborState} {tags rest : List UInt8} (tagged : Tags tags)
    (payload : st.payload = tags ++ rest) (counted : st.elemCount ≠ 0) {t : ZcborMajorType}
    (major : majorTypeAt rest = some t) (untagged : t ≠ .tag) {result : SkipResult}
    (value : ∃ n, skipValue (zcborAnySkip n) n st { st with payload := rest } = some result) :
    Returns zcborAnySkip st result := by
  have nonempty : st.payload ≠ [] := by
    rw [payload]
    intro empty
    rw [(List.append_eq_nil_iff.mp empty).2] at major
    cases major
  exact zcborAnySkip_returns nonempty (skipTagBody_returns tagged payload counted major untagged) value

/-- What has no members is skipped at once. -/
theorem zcborAnySkip_plain {st : ZcborState} {tags rest : List UInt8} (tagged : Tags tags)
    (payload : st.payload = tags ++ rest) (counted : st.elemCount ≠ 0) {t : ZcborMajorType}
    (major : majorTypeAt rest = some t) (plain : t ≠ .tag ∧ t ≠ .list ∧ t ≠ .map) :
    Returns zcborAnySkip st (skipScalar st { st with payload := rest } (some t)) := by
  obtain ⟨untagged, noList, noMap⟩ := plain
  exact zcborAnySkip_behindTags tagged payload counted major untagged ⟨0, skipValue_scalar major noList noMap⟩

theorem zcborAnySkip_scalar {st : ZcborState} {t : ZcborMajorType} {w : Width} {n : Nat}
    {tags rest : List UInt8} (tagged : Tags tags) (payload : st.payload = tags ++ (head t.number w n ++ rest))
    (counted : st.elemCount ≠ 0) (plain : t = .pint ∨ t = .nint ∨ t = .simple) (fits : n < w.bound) :
    Returns zcborAnySkip st (.skipped (st.after rest) 0) := by
  have major := majorTypeAt_head t fits rest
  have noMembers : t ≠ .tag ∧ t ≠ .list ∧ t ≠ .map := by rcases plain with rfl | rfl | rfl <;> decide
  have noString : ¬ (some t = some ZcborMajorType.bstr ∨ some t = some ZcborMajorType.tstr) := by
    rcases plain with rfl | rfl | rfl <;> decide
  have skipped := zcborAnySkip_plain tagged payload counted major noMembers
  have read := valueExtractFixed_head (payload_with st (head t.number w n ++ rest)) (number_lt t) fits
    (Width.length_le w) counted
  simp only [skipScalar, read, if_neg noString] at skipped
  exact skipped

/-- A string is taken to end at its length, inside the payload or not. -/
theorem zcborAnySkip_string {st : ZcborState} {t : ZcborMajorType} {w : Width} {n : Nat}
    {tags rest : List UInt8} (tagged : Tags tags) (payload : st.payload = tags ++ (head t.number w n ++ rest))
    (counted : st.elemCount ≠ 0) (text : t = .bstr ∨ t = .tstr) (fits : n < w.bound)
    (unnoticed : n ≤ st.payload.length) :
    Returns zcborAnySkip st (.skipped (st.after (rest.drop n)) (n - rest.length)) := by
  have major := majorTypeAt_head t fits rest
  have noMembers : t ≠ .tag ∧ t ≠ .list ∧ t ≠ .map := by rcases text with rfl | rfl <;> decide
  have string : some t = some ZcborMajorType.bstr ∨ some t = some ZcborMajorType.tstr := by
    rcases text with rfl | rfl <;> decide
  have skipped := zcborAnySkip_plain tagged payload counted major noMembers
  have read := valueExtractFixed_head (payload_with st (head t.number w n ++ rest)) (number_lt t) fits
    (Width.length_le w) counted
  simp only [skipScalar, read, if_pos string, if_neg (Nat.not_lt.mpr unnoticed)] at skipped
  exact skipped

theorem skipEnter_definite {copy : ZcborState} {t : ZcborMajorType} {w : Width} {n inner : Nat}
    {rest : List UInt8} (payload : copy.payload = head t.number w n ++ rest) (counted : copy.elemCount ≠ 0)
    {isMap : Bool} (container : t = if isMap then .map else .list) (members : Members t.number n inner)
    (fits : n < w.bound) :
    skipEnter copy isMap = some { copy with payload := rest, elemCount := inner, indefiniteLengthArray := false } := by
  rw [skipEnter, valueExtract_head payload (number_lt t) fits (Width.length_le w) counted]
  obtain ⟨number, rfl⟩ | ⟨number, rfl, small⟩ := members
  · have noMap : isMap = false := by cases isMap <;> simp_all [ZcborMajorType.number]
    subst noMap
    rfl
  · have isMap : isMap = true := by cases isMap <;> simp_all [ZcborMajorType.number]
    subst isMap
    have few : n ≤ ZCBOR_MAX_ELEM_COUNT / 2 := small
    simp only [if_true]
    rw [if_neg (Nat.not_lt.mpr few)]
    rfl

theorem skipEnter_indefinite {copy : ZcborState} {t : ZcborMajorType} {rest : List UInt8}
    (payload : copy.payload = indefiniteHead t.number :: rest) (counted : copy.elemCount ≠ 0) (isMap : Bool) :
    skipEnter copy isMap =
      some { copy with payload := rest, elemCount := ZCBOR_LARGE_ELEM_COUNT, indefiniteLengthArray := true } := by
  rw [skipEnter, valueExtract_indefiniteHead payload (number_lt t) counted]
  rfl

/-- Skipping the members one after the other leaves the container. -/
theorem skipMembers_returns {st entered left : ZcborState} {count past : Nat}
    (steps : SkipSteps count entered left past) (ended : zcborArrayAtEnd left = true) :
    ∃ n, skipMembers (zcborAnySkip n) n st entered =
      some (match if entered.indefiniteLengthArray then arrayEndExpect left else some left with
        | none => .failed
        | some left => .skipped { st with payload := left.payload, elemCount := st.elemCount - 1 } past) := by
  have exit : Returns (Fuel.iterate skipMembersBody) (left, past) (some (left, past)) :=
    Fuel.iterate_done skipMembersBody_monotone ⟨0, by simp [skipMembersBody, skipMemberBody, ended]⟩
  obtain ⟨n, looped⟩ := steps.loop exit
  exact ⟨n, Option.map_eq_some_iff.mpr ⟨_, looped, rfl⟩⟩

theorem zcborAnySkip_definite {st : ZcborState} {t : ZcborMajorType} {w : Width} {n inner past : Nat}
    {tags rest rest' : List UInt8} (tagged : Tags tags)
    (payload : st.payload = tags ++ (head t.number w n ++ rest)) (counted : st.elemCount ≠ 0)
    (members : Members t.number n inner) (fits : n < w.bound)
    (steps : ∀ entered : ZcborState, entered.payload = rest → inner ≤ entered.elemCount →
      SkipSteps inner entered { entered with payload := rest', elemCount := entered.elemCount - inner } past) :
    Returns zcborAnySkip st (.skipped (st.after rest') past) := by
  have major := majorTypeAt_head t fits rest
  obtain ⟨isMap, container⟩ : ∃ isMap : Bool, t = if isMap then .map else .list := by
    obtain ⟨number, -⟩ | ⟨number, -⟩ := members
    · exact ⟨false, by cases t <;> simp_all [ZcborMajorType.number]⟩
    · exact ⟨true, by cases t <;> simp_all [ZcborMajorType.number]⟩
  have enter := skipEnter_definite (payload_with st (head t.number w n ++ rest)) counted
    container members fits
  obtain ⟨fuel, ran⟩ := skipMembers_returns
    (steps { st with payload := rest, elemCount := inner, indefiniteLengthArray := false } rfl (Nat.le_refl inner))
    (by simp [zcborArrayAtEnd])
  exact zcborAnySkip_behindTags tagged payload counted major (by cases isMap <;> subst container <;> decide)
    ⟨fuel, (skipValue_container major container enter).trans ran⟩

theorem zcborAnySkip_indefinite {st : ZcborState} {t : ZcborMajorType} {inner : Nat}
    {tags body rest : List UInt8} (tagged : Tags tags)
    (payload : st.payload = tags ++ (indefiniteHead t.number :: (body ++ breakCode :: rest)))
    (counted : st.elemCount ≠ 0) (isMap : Bool) (container : t = if isMap then .map else .list)
    (few : inner ≤ ZCBOR_LARGE_ELEM_COUNT)
    (steps : ∀ entered : ZcborState, entered.payload = body ++ breakCode :: rest → inner ≤ entered.elemCount →
      SkipSteps inner entered
        { entered with payload := breakCode :: rest, elemCount := entered.elemCount - inner } 0) :
    Returns zcborAnySkip st (.skipped (st.after rest) 0) := by
  have major := majorTypeAt_indefiniteHead t (body ++ breakCode :: rest)
  have enter := skipEnter_indefinite
    (payload_with st (indefiniteHead t.number :: (body ++ breakCode :: rest))) counted isMap
  obtain ⟨fuel, ran⟩ := skipMembers_returns
    (steps { st with
      payload := body ++ breakCode :: rest
      elemCount := ZCBOR_LARGE_ELEM_COUNT
      indefiniteLengthArray := true } rfl few) (by simp [zcborArrayAtEnd, breakCode])
  refine zcborAnySkip_behindTags tagged payload counted major (by cases isMap <;> subst container <;> decide)
    ⟨fuel, (skipValue_container major container enter).trans (ran.trans ?_)⟩
  simp [arrayEndExpect, breakCode, ZcborState.after]

theorem SkipSteps.one {st : ZcborState} {rest : List UInt8} {past : Nat}
    (skipped : Returns zcborAnySkip st (.skipped (st.after rest) past)) :
    SkipSteps 1 st { st with payload := rest, elemCount := st.elemCount - 1 } past :=
  SkipSteps.skip skipped

/-- Values are skipped one after the other, by induction on how they are made up. -/
theorem skipSteps_values {count : Nat} {bytes : List UInt8} (values : Values count bytes) {st : ZcborState}
    {rest : List UInt8} (payload : st.payload = bytes ++ rest) (enough : count ≤ st.elemCount) :
    SkipSteps count st { st with payload := rest, elemCount := st.elemCount - count } 0 := by
  induction values generalizing st rest with
  | nil =>
      have same : { st with payload := rest, elemCount := st.elemCount - 0 } = st := by
        rw [← show st.payload = rest from payload, Nat.sub_zero]
      rw [same]
      exact SkipSteps.refl st
  | @append a b front back _ _ first second =>
      have one := first (show st.payload = _ ++ (back ++ rest) by rw [payload, List.append_assoc]) (by omega)
      have two := second (payload_with { st with elemCount := st.elemCount - a } (back ++ rest)) (by
        show b ≤ st.elemCount - a
        omega)
      simpa only [Nat.sub_sub] using one.append two
  | @scalar tags major w n tagged plain fits =>
      rw [List.append_assoc] at payload
      have counted : st.elemCount ≠ 0 := by omega
      apply SkipSteps.one
      rcases plain with rfl | rfl | rfl
      · exact zcborAnySkip_scalar (t := .pint) tagged payload counted (by decide) fits
      · exact zcborAnySkip_scalar (t := .nint) tagged payload counted (by decide) fits
      · exact zcborAnySkip_scalar (t := .simple) tagged payload counted (by decide) fits
  | @string tags major w bytes tagged text fits =>
      simp only [List.append_assoc] at payload
      have counted : st.elemCount ≠ 0 := by omega
      have unnoticed : bytes.length ≤ st.payload.length := by
        rw [payload]
        simp only [List.length_append]
        omega
      have ends : (bytes ++ rest).drop bytes.length = rest := List.drop_left ..
      have inside : bytes.length - (bytes ++ rest).length = 0 := by simp
      apply SkipSteps.one
      rcases text with rfl | rfl
      · simpa only [ends, inside] using
          zcborAnySkip_string (t := .bstr) tagged payload counted (by decide) fits unnoticed
      · simpa only [ends, inside] using
          zcborAnySkip_string (t := .tstr) tagged payload counted (by decide) fits unnoticed
  | @definite tags major w n inner body tagged members fits _ ih =>
      simp only [List.append_assoc] at payload
      apply SkipSteps.one
      obtain ⟨t, rfl⟩ : ∃ t : ZcborMajorType, t.number = major := by
        obtain ⟨rfl, -⟩ | ⟨rfl, -⟩ := members
        · exact ⟨.list, rfl⟩
        · exact ⟨.map, rfl⟩
      exact zcborAnySkip_definite tagged payload (by omega) members fits (fun entered inside more => ih inside more)
  | @indefinite tags major inner body tagged container few _ ih =>
      simp only [List.append_assoc, List.cons_append, List.nil_append] at payload
      apply SkipSteps.one
      rcases container with rfl | rfl
      · exact zcborAnySkip_indefinite (t := .list) tagged payload (by omega) false rfl few
          (fun entered inside more => ih inside more)
      · exact zcborAnySkip_indefinite (t := .map) tagged payload (by omega) true rfl few
          (fun entered inside more => ih inside more)

/-- So are values of which the last is cut, up to the end of the payload. -/
theorem skipSteps_cut {count : Nat} {bytes : List UInt8} {past : Nat} (cut : CutValues count bytes past)
    {st : ZcborState} (payload : st.payload = bytes) (enough : count ≤ st.elemCount) :
    SkipSteps count st { st with payload := [], elemCount := st.elemCount - count } past := by
  induction cut generalizing st with
  | @string tags major w n bytes tagged text fits missing unnoticed =>
      have counted : st.elemCount ≠ 0 := by omega
      have noticed : n ≤ st.payload.length := by
        rw [payload]
        exact unnoticed
      have ends : bytes.drop n = [] := List.drop_of_length_le missing.le
      apply SkipSteps.one
      rcases text with rfl | rfl
      · simpa only [ends] using zcborAnySkip_string (t := .bstr) tagged payload counted (by decide) fits noticed
      · simpa only [ends] using zcborAnySkip_string (t := .tstr) tagged payload counted (by decide) fits noticed
  | @definite tags major w n inner body past tagged members fits _ ih =>
      apply SkipSteps.one
      obtain ⟨t, rfl⟩ : ∃ t : ZcborMajorType, t.number = major := by
        obtain ⟨rfl, -⟩ | ⟨rfl, -⟩ := members
        · exact ⟨.list, rfl⟩
        · exact ⟨.map, rfl⟩
      exact zcborAnySkip_definite tagged payload (by omega) members fits (fun entered inside more => ih inside more)
  | @after a b front rest past first _ ih =>
      have one := skipSteps_values first payload (by omega)
      have two := ih (payload_with { st with elemCount := st.elemCount - a } rest) (by
        show b ≤ st.elemCount - a
        omega)
      simpa only [Nat.sub_sub] using one.append two

theorem Skips.shorter {st st' : ZcborState} {past : Nat} (skips : Skips st st' past) :
    st'.payload.length < st.payload.length := by
  rcases skips.passes with ⟨-, front, values, payload⟩ | ⟨-, empty, -⟩
  · have positive := values.count_le
    rw [payload, List.length_append]
    omega
  · rw [empty]
    exact List.length_pos_iff.mpr skips.nonempty

theorem skipMembersBody_next {loop loop' : ZcborState × Nat} (again : Returns skipMembersBody loop (.next loop')) :
    loop'.1.payload.length < loop.1.payload.length := by
  obtain ⟨n, again⟩ := again
  exact (skipMemberBody_next (zcborAnySkip_sound n) again).shorter

theorem skipMembersBody_terminates {loop : ZcborState × Nat} (skips : Fuel.Terminates zcborAnySkip loop.1) :
    Fuel.Terminates skipMembersBody loop := by
  obtain ⟨result, n, ran⟩ := skips
  obtain ⟨st, past⟩ := loop
  by_cases atEnd : zcborArrayAtEnd st = true
  · exact ⟨_, n, by rw [skipMembersBody, skipMemberBody, if_pos atEnd]⟩
  · exact ⟨_, n, by rw [skipMembersBody, skipMemberBody, if_neg atEnd, ran]; rfl⟩

theorem skipMembers_terminates {st entered : ZcborState}
    (each : ∀ member : ZcborState, member.payload.length ≤ entered.payload.length →
      Fuel.Terminates zcborAnySkip member) : ∃ n result, skipMembers (zcborAnySkip n) n st entered = some result := by
  have reached : ∀ loop, Fuel.Reached skipMembersBody (entered, 0) loop →
      loop.1.payload.length ≤ entered.payload.length := by
    intro loop reached
    induction reached with
    | refl => exact Nat.le_refl _
    | tail _ again ih => exact (skipMembersBody_next again).le.trans ih
  obtain ⟨r, n, looped⟩ := (Fuel.iterate_terminates_iff skipMembersBody_monotone
    (fun loop => loop.1.payload.length) (fun _ _ again => skipMembersBody_next again) (entered, 0)).mpr
    (fun loop within => skipMembersBody_terminates (each loop.1 (reached loop within)))
  exact ⟨n, _, Option.map_eq_some_iff.mpr ⟨r, looped, rfl⟩⟩

private theorem skipTagBody_total (st : ZcborState) : ∃ step, skipTagBody st = some step := by
  rw [skipTagBody]
  split
  · split
    · exact ⟨_, rfl⟩
    · split <;> exact ⟨_, rfl⟩
  · exact ⟨_, rfl⟩

theorem skipTagBody_terminates (st : ZcborState) : ∃ n copy, Fuel.loop skipTagBody n st = some copy := by
  obtain ⟨copy, n, looped⟩ := (@Fuel.iterate_terminates_iff _ _ (fun _ => skipTagBody) (fun _ _ _ _ _ ran => ran)
    (fun st => st.payload.length) (fun _ _ ⟨_, again⟩ => (skipTagBody_next again).2) st).mpr
    (fun st _ => ⟨_, 0, (skipTagBody_total st).choose_spec⟩)
  exact ⟨n, copy, looped⟩

theorem skipEnter_shorter {copy entered : ZcborState} {isMap : Bool} (enter : skipEnter copy isMap = some entered)
    {t : ZcborMajorType} (major : majorTypeAt copy.payload = some t)
    (container : t.number = if isMap then 5 else 4) : entered.payload.length < copy.payload.length := by
  obtain ⟨-, ⟨-, w, n, -, -, payload⟩ | ⟨-, -, payload⟩⟩ := skipEnter_some enter major container
  · rw [payload, List.length_append, Cbor.head_length]
    omega
  · rw [payload]
    exact Nat.lt_succ_self _

/-- The skip comes back from whatever it is given, by induction on the payload. -/
theorem zcborAnySkip_terminates (st : ZcborState) : Fuel.Terminates zcborAnySkip st := by
  induction size : st.payload.length using Nat.strongRecOn generalizing st with
  | ind length ih =>
      by_cases empty : st.payload = []
      · exact ⟨.failed, 1, by rw [zcborAnySkip, if_pos empty]⟩
      obtain ⟨n, copy, looped⟩ := skipTagBody_terminates st
      cases copy with
      | none => exact ⟨.failed, n + 1, by rw [zcborAnySkip, if_neg empty, looped]⟩
      | some copy =>
          obtain ⟨⟨-, tags, -, payload⟩, -⟩ := skipTagBody_loop looped
          have behind : copy.payload.length ≤ st.payload.length := by
            rw [payload, List.length_append]
            omega
          have container : ∀ {isMap : Bool} {t : ZcborMajorType}, majorTypeAt copy.payload = some t →
              (t.number = if isMap then 5 else 4) → ∀ entered, skipEnter copy isMap = some entered →
              ∃ n result, skipMembers (zcborAnySkip n) n st entered = some result := by
            intro isMap t major number entered enter
            have shorter := skipEnter_shorter enter major number
            exact skipMembers_terminates fun member within => ih _ (by omega) member rfl
          suffices value : ∃ n result, skipValue (zcborAnySkip n) n st copy = some result by
            obtain ⟨m, result, value⟩ := value
            exact ⟨result, zcborAnySkip_returns empty ⟨n, looped⟩ ⟨m, value⟩⟩
          simp only [skipValue]
          split
          · rename_i major
            cases enter : skipEnter copy false with
            | none => exact ⟨0, .failed, rfl⟩
            | some entered => exact container major rfl entered enter
          · rename_i major
            cases enter : skipEnter copy true with
            | none => exact ⟨0, .failed, rfl⟩
            | some entered => exact container major rfl entered enter
          · exact ⟨0, _, rfl⟩

end Coreconf
