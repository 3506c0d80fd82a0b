import Coreconf.RefusedValues
import Mathlib.Logic.Relation

set_option autoImplicit false

/- When the decoder returns. The loop of `_parse_array` has no exit but the end of
the array, so a value it cannot read and cannot consume keeps it there for ever. -/
namespace Coreconf

open Fuel (Step Returns Terminates)

/-- A place the decoder's run passes: the start of a value, or the guard of a loop. -/
inductive Site where
  | value (st : ZcborState) (indent : Nat)
  | arrayLoop (st : ZcborState) (indent : Nat)
  | mapLoop (st : ZcborState) (indent loopCount : Nat)

/-- From one place to the next: into a container, into a member, round a loop. -/
inductive Enters : Site → Site → Prop
  | array {st st' indent} (shallow : indent ≤ CORECONF_MAX_DEPTH)
      (major : majorTypeAt st.payload = some .list) (started : zcborListStartDecode st = some st') :
      Enters (.value st indent) (.arrayLoop st' indent)
  | map {st st' indent} (shallow : indent ≤ CORECONF_MAX_DEPTH)
      (major : majorTypeAt st.payload = some .map) (started : zcborMapStartDecode st = (true, st')) :
      Enters (.value st indent) (.mapLoop st' indent 0)
  | element {st indent} (inside : ¬ zcborArrayAtEnd st) :
      Enters (.arrayLoop st indent) (.value st (indent + 1))
  | nextElement {st st' indent value} (inside : ¬ zcborArrayAtEnd st)
      (decoded : Decodes st (indent + 1) (value, st')) :
      Enters (.arrayLoop st indent) (.arrayLoop st' indent)
  | member {st st' indent loopCount key} (inside : ¬ zcborArrayAtEnd st)
      (within : loopCount ≤ CORECONF_MAX_LOOP) (keyed : zcborUint64Decode st = some (key, st')) :
      Enters (.mapLoop st indent loopCount) (.value st' (indent + 1))
  | nextMember {st st' st'' indent loopCount key value} (inside : ¬ zcborArrayAtEnd st)
      (within : loopCount ≤ CORECONF_MAX_LOOP) (keyed : zcborUint64Decode st = some (key, st'))
      (decoded : Decodes st' (indent + 1) (value, st'')) :
      Enters (.mapLoop st indent loopCount) (.mapLoop st'' indent (loopCount + 1))

def Reaches : Site → Site → Prop := Relation.ReflTransGen Enters

/-- An iteration that consumed input, or after which the loop is left. -/
def Advances (st st' : ZcborState) : Prop := st.Before st' ∨ zcborArrayAtEnd st'

def IterationAdvances : Site → Prop
  | .value _ _ => True
  | .arrayLoop st indent => ∀ st', Enters (.arrayLoop st indent) (.arrayLoop st' indent) → Advances st st'
  | .mapLoop st indent loopCount =>
      ∀ st', Enters (.mapLoop st indent loopCount) (.mapLoop st' indent (loopCount + 1)) → Advances st st'

/-- The guard of an array loop lets a refused element through. -/
def Stalled (st : ZcborState) (indent : Nat) : Prop :=
  ¬ zcborArrayAtEnd st ∧ Refused st (indent + 1)

/-- No array loop that is reached from this place is stalled. -/
def NeverStalls (site : Site) : Prop :=
  ∀ st indent, Reaches site (.arrayLoop st indent) → ¬ Stalled st indent

private theorem scalar_advances {st st' : ZcborState} {value : Option CoreconfValueT}
    {read : Option (CoreconfValueT × ZcborState)}
    (before : ∀ v left, read = some (v, left) → st.Before left)
    (same : (value, st') = scalarResult st read) (taken : read ≠ none) : Advances st st' := by
  obtain ⟨⟨v, left⟩, rfl⟩ := Option.ne_none_iff_exists'.mp taken
  cases same
  exact Or.inl (before v st' rfl)

theorem Decodes.advances {st st' : ZcborState} {indent : Nat} {value : Option CoreconfValueT}
    (decoded : Decodes st indent (value, st')) (taken : ¬ Unread st indent) : Advances st st' := by
  have shallow : ¬ indent > CORECONF_MAX_DEPTH := fun deep => taken (Or.inl deep)
  have taken := fun unread => taken (Or.inr unread)
  rw [decodes_iff, if_neg shallow] at decoded
  cases major : majorTypeAt st.payload with
  | none => exact absurd trivial (by simpa only [major] using taken)
  | some majorType =>
      simp only [major] at decoded taken
      cases majorType with
      | list =>
          cases started : zcborListStartDecode st with
          | none => exact absurd started taken
          | some start =>
              simp only [started] at decoded
              obtain ⟨ended, elements, left, returned, same⟩ := decoded
              cases same
              exact Or.inl (Nat.lt_of_le_of_lt (neverLeavesPayload.arrayReturns returned).length_le
                (listMapStartDecode_before started))
      | map =>
          rcases started : zcborMapStartDecode st with ⟨_ | _, start⟩
          · simp only [started] at decoded taken
            cases decoded
            exact Or.inr (by simpa using taken)
          · simp only [started] at decoded
            obtain ⟨ended, loop, returned, same⟩ := decoded
            cases same
            exact Or.inl (Nat.lt_of_le_of_lt (neverLeavesPayload.mapReturns returned).length_le
              (zcborMapStartDecode_before started))
      | _ => exact scalar_advances (fun _ _ => cborToCoreconfScalar_before) decoded taken

/-- A value that is not read is not consumed, and is not read the next time. -/
theorem Decodes.unread {st st' : ZcborState} {indent : Nat} {value : Option CoreconfValueT}
    (decoded : Decodes st indent (value, st')) (inside : ¬ zcborArrayAtEnd st)
    (unread : Unread st indent) :
    st'.payload = st.payload ∧ ¬ zcborArrayAtEnd st' ∧ Unread st' indent := by
  rw [decodes_iff] at decoded
  by_cases deep : indent > CORECONF_MAX_DEPTH
  · rw [if_pos deep] at decoded
    cases decoded
    exact ⟨rfl, inside, unread⟩
  rw [if_neg deep] at decoded
  have here := unread.resolve_left deep
  cases major : majorTypeAt st.payload with
  | none =>
      simp only [major] at decoded
      cases decoded
      exact ⟨rfl, inside, unread⟩
  | some majorType =>
      simp only [major] at decoded here
      cases majorType with
      | list =>
          simp only [here] at decoded
          cases decoded
          exact ⟨rfl, inside, unread⟩
      | map =>
          rcases started : zcborMapStartDecode st with ⟨_ | _, start⟩
          · simp only [started] at decoded
            cases decoded
            have payload := zcborMapStartDecode_refused started
            have refused := (mapStart_refused_iff inside).mp here
            rw [started] at here
            refine ⟨payload, here.2, ?_⟩
            rcases refused with none | ⟨n, rest, argument, large, notEnd⟩
            · rw [zcborMapStartDecode, none] at started
              cases started
              exact unread
            · rw [← payload] at major argument
              exact (unread_iff here.2).mpr (.count major argument large notEnd)
          · rw [started] at here
            exact absurd here.1 (by simp)
      | _ =>
          dsimp only at decoded here
          rw [here] at decoded
          cases decoded
          exact ⟨rfl, inside, unread⟩

/-- A stalled loop never returns: every iteration leaves it stalled. -/
theorem Stalled.never_returns {st : ZcborState} {indent : Nat} (stalled : Stalled st indent)
    (elements : List CoreconfValueT) (result : Bool × ArrayLoop) :
    ¬ ArrayReturns indent (elements, st) result := by
  rintro ⟨fuel, ran⟩
  have keep : ∀ loop loop' : ArrayLoop, Stalled loop.2 indent →
      parseArrayBody (cborToCoreconfValue fuel) indent loop = some (.next loop') →
      Stalled loop'.2 indent := by
    rintro ⟨elements, now⟩ loop' ⟨inside, refused⟩ ran
    simp only [parseArrayBody, inside] at ran
    obtain ⟨⟨value, later⟩, found, same⟩ := Option.map_eq_some_iff.mp ran
    cases same
    obtain ⟨-, inside', unread⟩ := (Decodes.of_fuel found).unread inside ((unread_iff inside).mpr refused)
    exact ⟨inside', (unread_iff inside').mp unread⟩
  have exit : ∀ (loop : ArrayLoop) (left : Bool × ArrayLoop), Stalled loop.2 indent →
      parseArrayBody (cborToCoreconfValue fuel) indent loop = some (.done left) → False := by
    rintro ⟨elements, now⟩ left ⟨inside, refused⟩ ran
    simp only [parseArrayBody, inside] at ran
    obtain ⟨result, found, same⟩ := Option.map_eq_some_iff.mp ran
    cases same
  exact Fuel.loop_invariant keep exit stalled ran

/-- The run returns from this place, with something collected so far. -/
def CanReturn : Site → Prop
  | .value st indent => ∃ result, Decodes st indent result
  | .arrayLoop st indent => ∃ elements result, ArrayReturns indent (elements, st) result
  | .mapLoop st indent loopCount => ∃ map result, MapReturns indent ⟨map, loopCount, st⟩ result

theorem Enters.canReturn {site site' : Site} (enters : Enters site site') (returned : CanReturn site) :
    CanReturn site' := by
  cases enters with
  | array shallow major started =>
      obtain ⟨result, decoded⟩ := returned
      rw [decodes_iff, if_neg (Nat.not_lt.mpr shallow), major] at decoded
      simp only [started] at decoded
      obtain ⟨ended, elements, left, looped, -⟩ := decoded
      exact ⟨[], _, looped⟩
  | map shallow major started =>
      obtain ⟨result, decoded⟩ := returned
      rw [decodes_iff, if_neg (Nat.not_lt.mpr shallow), major] at decoded
      simp only [started] at decoded
      obtain ⟨ended, loop, looped, -⟩ := decoded
      exact ⟨createCoreconfHashmap, _, looped⟩
  | element inside =>
      obtain ⟨elements, result, looped⟩ := returned
      obtain ⟨value, st', decoded, -⟩ := arrayReturns_inside inside looped
      exact ⟨_, decoded⟩
  | nextElement inside decoded =>
      obtain ⟨elements, result, looped⟩ := returned
      exact ⟨_, result, (arrayReturns_next_iff inside decoded).mp looped⟩
  | member inside within keyed =>
      obtain ⟨map, result, looped⟩ := returned
      rcases mapReturns_inside inside looped with
        ⟨-, many | unkeyed⟩ | ⟨key, st', value, st'', -, read, decoded, -⟩
      · exact absurd many (Nat.not_lt.mpr within)
      · rw [keyed] at unkeyed
        cases unkeyed
      · rw [keyed] at read
        cases read
        exact ⟨_, decoded⟩
  | nextMember inside within keyed decoded =>
      obtain ⟨map, result, looped⟩ := returned
      exact ⟨_, result, (mapReturns_next_iff inside within keyed decoded).mp looped⟩

theorem Reaches.canReturn {site site' : Site} (reached : Reaches site site')
    (returned : CanReturn site) : CanReturn site' := by
  induction reached with
  | refl => exact returned
  | tail _ enters ih => exact enters.canReturn ih

theorem NeverStalls.enters {site site' : Site} (never : NeverStalls site) (enters : Enters site site') :
    NeverStalls site' :=
  fun st indent later => never st indent (Relation.ReflTransGen.head enters later)

/-- Twice the bytes left, and one more at a guard that will let an iteration through. -/
def Site.weight : Site → Nat
  | .value st _ => 2 * st.payload.length
  | .arrayLoop st _ => 2 * st.payload.length + if zcborArrayAtEnd st then 0 else 1
  | .mapLoop st _ _ => 2 * st.payload.length + if zcborArrayAtEnd st then 0 else 1

theorem NeverStalls.weight_lt {site site' : Site} (never : NeverStalls site) (enters : Enters site site') :
    site'.weight < site.weight := by
  have guard : ∀ st : ZcborState, (if zcborArrayAtEnd st then 0 else 1) ≤ 1 := by
    intro st
    split <;> omega
  cases enters with
  | @array st st' indent shallow major started =>
      have before := listMapStartDecode_before started
      have last := guard st'
      simp only [ZcborState.Before, Site.weight] at *
      omega
  | @map st st' indent shallow major started =>
      have before := zcborMapStartDecode_before started
      have last := guard st'
      simp only [ZcborState.Before, Site.weight] at *
      omega
  | element inside =>
      simp only [Site.weight, inside, Bool.false_eq_true, ↓reduceIte]
      omega
  | @nextElement st st' indent value inside decoded =>
      have taken : ¬ Unread st (indent + 1) := fun unread =>
        never st indent Relation.ReflTransGen.refl ⟨inside, (unread_iff inside).mp unread⟩
      have le := decoded.le
      rcases decoded.advances taken with before | atEnd
      · have last := guard st'
        simp only [ZcborState.Before, Site.weight, inside, Bool.false_eq_true, ↓reduceIte] at *
        omega
      · simp only [Site.weight, inside, atEnd, Bool.false_eq_true, ↓reduceIte]
        omega
  | member inside within keyed =>
      have before := zcborUint64Decode_before keyed
      simp only [ZcborState.Before, Site.weight] at *
      omega
  | @nextMember st st' st'' indent loopCount key value inside within keyed decoded =>
      have before := zcborUint64Decode_before keyed
      have le := decoded.le
      have last := guard st''
      simp only [ZcborState.Before, Site.weight] at *
      omega

/-- The run returns from this place, whatever was collected so far. -/
def AlwaysReturns : Site → Prop
  | .value st indent => ∃ result, Decodes st indent result
  | .arrayLoop st indent => ∀ elements, ∃ result, ArrayReturns indent (elements, st) result
  | .mapLoop st indent loopCount => ∀ map, ∃ result, MapReturns indent ⟨map, loopCount, st⟩ result

private theorem alwaysReturns_value {st : ZcborState} {indent : Nat}
    (next : ∀ site, Enters (.value st indent) site → AlwaysReturns site) :
    AlwaysReturns (.value st indent) := by
  show ∃ result, Decodes st indent result
  simp only [decodes_iff]
  by_cases deep : indent > CORECONF_MAX_DEPTH
  · exact ⟨_, by rw [if_pos deep]⟩
  simp only [if_neg deep]
  have shallow := Nat.not_lt.mp deep
  cases major : majorTypeAt st.payload with
  | none => exact ⟨_, rfl⟩
  | some majorType =>
      cases majorType with
      | list =>
          cases started : zcborListStartDecode st with
          | none => exact ⟨_, rfl⟩
          | some st' =>
              obtain ⟨⟨ended, elements, left⟩, looped⟩ := next _ (.array shallow major started) []
              exact ⟨_, ended, elements, left, looped, rfl⟩
      | map =>
          rcases started : zcborMapStartDecode st with ⟨_ | _, st'⟩
          · exact ⟨_, rfl⟩
          · obtain ⟨⟨ended, loop⟩, looped⟩ :=
              next _ (.map shallow major started) createCoreconfHashmap
            exact ⟨_, ended, loop, looped, rfl⟩
      | _ => exact ⟨_, rfl⟩

/-- A run that stalls nowhere returns, by induction on the weight of the place. -/
theorem NeverStalls.returns {site : Site} (never : NeverStalls site) : AlwaysReturns site := by
  induction size : site.weight using Nat.strongRecOn generalizing site with
  | ind bound ih =>
      have next : ∀ site', Enters site site' → AlwaysReturns site' := fun site' enters =>
        ih _ (size ▸ never.weight_lt enters) (never.enters enters) rfl
      cases site with
      | value st indent => exact alwaysReturns_value next
      | arrayLoop st indent =>
          intro elements
          by_cases atEnd : zcborArrayAtEnd st
          · exact ⟨_, arrayReturns_atEnd _ _ atEnd⟩
          · obtain ⟨⟨value, st'⟩, decoded⟩ := next _ (.element atEnd)
            obtain ⟨result, rest⟩ := next _ (.nextElement atEnd decoded) (storeElement elements value)
            exact ⟨result, arrayReturns_next atEnd decoded rest⟩
      | mapLoop st indent loopCount =>
          intro map
          by_cases atEnd : zcborArrayAtEnd st
          · exact ⟨_, mapReturns_atEnd _ atEnd⟩
          by_cases within : loopCount ≤ CORECONF_MAX_LOOP
          · cases keyed : zcborUint64Decode st with
            | none =>
                refine ⟨(false, ⟨map, loopCount, st⟩), Fuel.iterate_done (mapBody_monotone indent) ?_⟩
                rw [mapBody_returns_iff, if_neg atEnd, if_neg (Nat.not_lt.mpr within)]
                simp only [keyed]
            | some decodedKey =>
                obtain ⟨key, st'⟩ := decodedKey
                obtain ⟨⟨value, st''⟩, decoded⟩ := next _ (.member atEnd within keyed)
                obtain ⟨result, rest⟩ :=
                  next _ (.nextMember atEnd within keyed decoded) (storeMember map key value)
                exact ⟨result, mapReturns_next atEnd within keyed decoded rest⟩
          · refine ⟨(false, ⟨map, loopCount, st⟩), Fuel.iterate_done (mapBody_monotone indent) ?_⟩
            rw [mapBody_returns_iff, if_neg atEnd, if_pos (Nat.not_le.mp within)]

theorem decodes_returns_iff {st : ZcborState} {indent : Nat} :
    (∃ result, Decodes st indent result) ↔ NeverStalls (.value st indent) := by
  constructor
  · intro returned st' indent' reached stalled
    obtain ⟨elements, result, looped⟩ := reached.canReturn (show CanReturn (.value st indent) from returned)
    exact stalled.never_returns elements result looped
  · exact NeverStalls.returns

theorem NeverStalls.iterationAdvances {st : ZcborState} {indent : Nat} (never : NeverStalls (.value st indent))
    {site : Site} (reached : Reaches (.value st indent) site) : IterationAdvances site := by
  cases site with
  | value st indent => trivial
  | arrayLoop st' indent' =>
      intro st'' enters
      cases enters with
      | nextElement inside decoded =>
          exact decoded.advances fun unread => never st' indent' reached ⟨inside, (unread_iff inside).mp unread⟩
  | mapLoop st' indent' loopCount =>
      intro st'' enters
      cases enters with
      | nextMember inside within keyed decoded =>
          exact Or.inl (Nat.lt_of_le_of_lt decoded.le (zcborUint64Decode_before keyed))

end Coreconf
