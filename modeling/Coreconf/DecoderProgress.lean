import Coreconf.DecoderRules

set_option autoImplicit false

/- How far each decoding function moves in the payload, and the backups it leaves. -/
namespace Coreconf

/-- A call that moved the payload pointer forward. -/
def ZcborState.Before (st st' : ZcborState) : Prop := st'.payload.length < st.payload.length

theorem valueExtract_before {st st' : ZcborState} {resultLen : Nat} {indefinite : Bool}
    {v : ExtractedValue} (extracted : valueExtract st resultLen indefinite = some (v, st')) :
    st.Before st' := by
  unfold valueExtract at extracted
  split at extracted
  · cases extracted
  · rename_i headerByte rest same
    simp only [ZcborState.Before, same, List.length_cons]
    split at extracted
    · cases extracted
    · dsimp only at extracted
      split at extracted
      · cases extracted
        exact Nat.lt_succ_self _
      · split at extracted
        · cases extracted
        · split at extracted
          · cases extracted
          · split at extracted
            · cases extracted
            · cases extracted
              simp only [List.length_drop]
              omega

/-- A relation between the states around an extraction, which does not look at how much
of the payload is taken with it. -/
structure Respected (R : ZcborState → ZcborState → Prop) : Prop where
  extract : ∀ st st' resultLen indefinite v,
    valueExtract st resultLen indefinite = some (v, st') → R st st'
  drop : ∀ st st' len, R st st' → R st { st' with payload := st'.payload.drop len }

namespace Respected

variable {R : ZcborState → ZcborState → Prop} {st st' : ZcborState}

theorem extractFixed (respected : Respected R) {resultLen n : Nat}
    (extracted : valueExtractFixed st resultLen = some (n, st')) : R st st' := by
  unfold valueExtractFixed at extracted
  split at extracted
  · rename_i found
    cases extracted
    exact respected.extract _ _ _ _ _ found
  · cases extracted

theorem uint64 (respected : Respected R) {u : UInt64} (decoded : zcborUint64Decode st = some (u, st')) :
    R st st' := by
  unfold zcborUint64Decode at decoded
  split at decoded
  · split at decoded
    · rename_i found
      cases decoded
      exact respected.extractFixed found
    · cases decoded
  · cases decoded

theorem int64 (respected : Respected R) {i : Int64} (decoded : zcborInt64Decode st = some (i, st')) :
    R st st' := by
  unfold zcborInt64Decode at decoded
  split at decoded
  · split at decoded
    · rename_i found
      have holds := respected.extractFixed found
      split at decoded
      · cases decoded
      · split at decoded <;> cases decoded <;> exact holds
    · cases decoded
  · cases decoded

theorem str (respected : Respected R) {t : ZcborMajorType} {bytes : List UInt8}
    (decoded : strDecode st t = some (bytes, st')) : R st st' := by
  unfold strDecode at decoded
  split at decoded
  · split at decoded
    · rename_i found
      have holds := respected.extractFixed found
      split at decoded
      · cases decoded
      · cases decoded
        exact respected.drop _ _ _ holds
    · cases decoded
  · cases decoded

theorem simple (respected : Respected R) {n : Nat} (decoded : zcborSimpleDecode st = some (n, st')) :
    R st st' := by
  unfold zcborSimpleDecode at decoded
  split at decoded
  · cases decoded
  · split at decoded
    · cases decoded
    · split at decoded
      · cases decoded
      · split at decoded
        · cases decoded
        · rename_i found
          have holds := respected.extractFixed found
          split at decoded
          · cases decoded
          · cases decoded
            exact holds

theorem scalar (respected : Respected R) {t : ZcborMajorType} {v : CoreconfValueT}
    (decoded : cborToCoreconfScalar st t = some (v, st')) : R st st' := by
  cases t with
  | pint =>
      obtain ⟨⟨u, rest⟩, found, same⟩ := Option.map_eq_some_iff.mp decoded
      cases same
      exact respected.uint64 found
  | nint =>
      obtain ⟨⟨i, rest⟩, found, same⟩ := Option.map_eq_some_iff.mp decoded
      cases same
      exact respected.int64 found
  | bstr =>
      obtain ⟨⟨zstr, rest⟩, found, same⟩ := Option.map_eq_some_iff.mp decoded
      cases same
      exact respected.str found
  | tstr =>
      obtain ⟨⟨zstr, rest⟩, found, same⟩ := Option.map_eq_some_iff.mp decoded
      cases same
      exact respected.str found
  | simple =>
      simp only [cborToCoreconfScalar] at decoded
      split at decoded
      · rename_i found
        cases decoded
        unfold zcborFloat64Decode at found
        split at found
        · cases found
        · split at found
          · cases found
          · split at found
            · cases found
            · split at found
              · rename_i extracted
                cases found
                exact respected.extractFixed extracted
              · cases found
      · split at decoded
        · rename_i found
          cases decoded
          unfold zcborBoolDecode at found
          split at found
          · rename_i simple
            have holds := respected.simple simple
            split at found
            · cases found
              exact holds
            · split at found
              · cases found
                exact holds
              · cases found
          · cases found
        · obtain ⟨rest, found, same⟩ := Option.map_eq_some_iff.mp decoded
          cases same
          unfold zcborNilExpect at found
          split at found
          · rename_i simple
            split at found
            · cases found
            · cases found
              exact respected.simple simple
          · cases found
  | list => cases decoded
  | map => cases decoded
  | tag => cases decoded

end Respected

theorem before_respected : Respected ZcborState.Before where
  extract _ _ _ _ _ extracted := valueExtract_before extracted
  drop st st' len before := by
    simp only [ZcborState.Before, List.length_drop] at before ⊢
    omega

theorem zcborUint64Decode_before {st st' : ZcborState} {u : UInt64}
    (decoded : zcborUint64Decode st = some (u, st')) : st.Before st' := before_respected.uint64 decoded

theorem strDecode_before {st st' : ZcborState} {t : ZcborMajorType} {bytes : List UInt8}
    (decoded : strDecode st t = some (bytes, st')) : st.Before st' := before_respected.str decoded

/-- A scalar that is read consumes its head at least. -/
theorem cborToCoreconfScalar_before {st st' : ZcborState} {t : ZcborMajorType} {v : CoreconfValueT}
    (decoded : cborToCoreconfScalar st t = some (v, st')) : st.Before st' :=
  before_respected.scalar decoded

theorem zcborNewBackup_payload {st st' : ZcborState} {n : Nat}
    (pushed : zcborNewBackup st n = some st') : st'.payload = st.payload := by
  unfold zcborNewBackup at pushed
  split at pushed
  · cases pushed
  · cases pushed
    rfl

theorem listMapStartDecode_before {st st' : ZcborState} {t : ZcborMajorType}
    (started : listMapStartDecode st t = some st') : st.Before st' := by
  unfold listMapStartDecode at started
  split at started
  · split at started
    · cases started
    · rename_i found
      obtain ⟨pushed, backup, rfl⟩ := Option.map_eq_some_iff.mp started
      have before := valueExtract_before found
      rw [ZcborState.Before, ← zcborNewBackup_payload backup] at before
      exact before
    · rename_i found
      obtain ⟨pushed, backup, rfl⟩ := Option.map_eq_some_iff.mp started
      have before := valueExtract_before found
      rw [ZcborState.Before, ← zcborNewBackup_payload backup] at before
      exact before
  · cases started

theorem zcborMapStartDecode_before {st st' : ZcborState}
    (started : zcborMapStartDecode st = (true, st')) : st.Before st' := by
  unfold zcborMapStartDecode at started
  split at started
  · cases started
  · rename_i found
    have before := listMapStartDecode_before found
    split at started
    · cases started
      exact before
    · split at started
      · cases started
      · cases started
        exact before

/-- A map that is not entered leaves the payload where it was. -/
theorem zcborMapStartDecode_refused {st st' : ZcborState}
    (started : zcborMapStartDecode st = (false, st')) : st'.payload = st.payload := by
  unfold zcborMapStartDecode at started
  split at started
  · cases started
    rfl
  · split at started
    · cases started
    · split at started
      · cases started
        rfl
      · cases started

/-- The payload pointer that is left stands in the payload that was entered with. -/
def ZcborState.Within (st st' : ZcborState) : Prop := st'.payload <:+ st.payload

theorem valueExtract_within {st st' : ZcborState} {resultLen : Nat} {indefinite : Bool}
    {v : ExtractedValue} (extracted : valueExtract st resultLen indefinite = some (v, st')) :
    st.Within st' := by
  unfold valueExtract at extracted
  split at extracted
  · cases extracted
  · rename_i headerByte rest same
    rw [ZcborState.Within, same]
    split at extracted
    · cases extracted
    · dsimp only at extracted
      split at extracted
      · cases extracted
        exact List.suffix_cons headerByte rest
      · split at extracted
        · cases extracted
        · split at extracted
          · cases extracted
          · split at extracted
            · cases extracted
            · cases extracted
              exact (List.drop_suffix _ rest).trans (List.suffix_cons headerByte rest)

theorem within_respected : Respected ZcborState.Within where
  extract _ _ _ _ _ extracted := valueExtract_within extracted
  drop _ st' len within := (List.drop_suffix len st'.payload).trans within

theorem listMapStartDecode_within {st st' : ZcborState} {t : ZcborMajorType}
    (started : listMapStartDecode st t = some st') : st.Within st' := by
  unfold listMapStartDecode at started
  split at started
  · split at started
    · cases started
    · rename_i found
      obtain ⟨pushed, backup, rfl⟩ := Option.map_eq_some_iff.mp started
      have within := valueExtract_within found
      rwa [ZcborState.Within, ← zcborNewBackup_payload backup] at within
    · rename_i found
      obtain ⟨pushed, backup, rfl⟩ := Option.map_eq_some_iff.mp started
      have within := valueExtract_within found
      rwa [ZcborState.Within, ← zcborNewBackup_payload backup] at within
  · cases started

theorem zcborMapStartDecode_within (st : ZcborState) : st.Within (zcborMapStartDecode st).2 := by
  unfold zcborMapStartDecode
  split
  · exact List.suffix_rfl
  · rename_i found
    have within := listMapStartDecode_within found
    split
    · exact within
    · split
      · exact List.suffix_rfl
      · exact within

theorem listMapEndDecode_within (st : ZcborState) : st.Within (listMapEndDecode st).2 := by
  unfold listMapEndDecode
  split
  · exact List.suffix_rfl
  · dsimp only
    split
    · split
      · exact List.suffix_rfl
      · rename_i found
        unfold arrayEndExpect at found
        split at found
        · cases found
        · rename_i byte rest same
          split at found
          · cases found
          · cases found
            rw [ZcborState.Within, show st.payload = byte :: rest from same]
            exact List.suffix_cons byte rest
    · split <;> exact List.suffix_rfl

theorem listMapEndDecode_le (st : ZcborState) :
    (listMapEndDecode st).2.payload.length ≤ st.payload.length := (listMapEndDecode_within st).length_le

theorem neverLeavesPayload : DecoderInvariant ZcborState.Within (fun _ => True) := by
  refine ⟨fun _ => List.suffix_rfl, fun _ _ _ first second => second.trans first, ?_, ?_, ?_, ?_,
    listMapEndDecode_within, fun _ _ => trivial, trivial, fun _ _ _ _ _ => trivial⟩
  · exact fun _ _ _ _ _ read => ⟨within_respected.scalar read, trivial⟩
  · exact fun _ _ _ read => within_respected.uint64 read
  · exact fun _ _ started => listMapStartDecode_within started
  · intro st started st' same
    have within := zcborMapStartDecode_within st
    rwa [same] at within

theorem Decodes.within {st st' : ZcborState} {indent : Nat} {value : Option CoreconfValueT}
    (decoded : Decodes st indent (value, st')) : st.Within st' := (neverLeavesPayload.decodes decoded).1

theorem Decodes.le {st st' : ZcborState} {indent : Nat} {value : Option CoreconfValueT}
    (decoded : Decodes st indent (value, st')) : st'.payload.length ≤ st.payload.length :=
  decoded.within.length_le

/-- An extraction takes bytes and one element, and nothing else. -/
theorem valueExtract_frame {st st' : ZcborState} {resultLen : Nat} {indefinite : Bool}
    {v : ExtractedValue} (extracted : valueExtract st resultLen indefinite = some (v, st')) :
    st' = { st with payload := st'.payload, elemCount := st.elemCount - 1 } := by
  unfold valueExtract at extracted
  split at extracted
  · cases extracted
  · split at extracted
    · cases extracted
    · dsimp only at extracted
      split at extracted
      · cases extracted
        rfl
      · split at extracted
        · cases extracted
        · split at extracted
          · cases extracted
          · split at extracted
            · cases extracted
            · cases extracted
              rfl

theorem valueExtract_backups {st st' : ZcborState} {resultLen : Nat} {indefinite : Bool}
    {v : ExtractedValue} (extracted : valueExtract st resultLen indefinite = some (v, st')) :
    st'.backupList = st.backupList := by
  rw [valueExtract_frame extracted]

theorem backups_respected : Respected fun st st' => st'.backupList = st.backupList where
  extract _ _ _ _ _ extracted := valueExtract_backups extracted
  drop _ _ _ same := same

private theorem zcborNewBackup_backups {st st' : ZcborState} {n : Nat}
    (pushed : zcborNewBackup st n = some st') : st'.backupList.length = st.backupList.length + 1 := by
  unfold zcborNewBackup at pushed
  split at pushed
  · cases pushed
  · cases pushed
    rfl

theorem listMapStartDecode_backups {st st' : ZcborState} {t : ZcborMajorType}
    (started : listMapStartDecode st t = some st') :
    st'.backupList.length = st.backupList.length + 1 := by
  unfold listMapStartDecode at started
  split at started
  · split at started
    · cases started
    · rename_i found
      obtain ⟨pushed, backup, rfl⟩ := Option.map_eq_some_iff.mp started
      have pushes := zcborNewBackup_backups backup
      rwa [valueExtract_backups found] at pushes
    · rename_i found
      obtain ⟨pushed, backup, rfl⟩ := Option.map_eq_some_iff.mp started
      have pushes := zcborNewBackup_backups backup
      rwa [valueExtract_backups found] at pushes
  · cases started

/-- A map that is entered has one backup more, one that is not has none or one. -/
theorem zcborMapStartDecode_backups (st : ZcborState) :
    st.backupList.length + (if (zcborMapStartDecode st).1 then 1 else 0) ≤
      (zcborMapStartDecode st).2.backupList.length := by
  unfold zcborMapStartDecode
  split
  · exact le_refl _
  · rename_i found
    have pushed := listMapStartDecode_backups found
    split
    · exact le_of_eq pushed.symm
    · split
      · simp only [Bool.false_eq_true, if_false]
        omega
      · exact le_of_eq pushed.symm

theorem listMapEndDecode_backups (st : ZcborState) :
    st.backupList.length ≤ (listMapEndDecode st).2.backupList.length + 1 := by
  unfold listMapEndDecode
  split
  · exact Nat.le_succ _
  · rename_i backup backups same
    rw [same, List.length_cons]
    dsimp only
    split
    · split
      · exact le_refl _
      · rename_i found
        unfold arrayEndExpect at found
        split at found
        · cases found
        · split at found
          · cases found
          · cases found
            exact le_refl _
    · split <;> exact le_refl _

private theorem arrayLoop_backups {decode : ValueDecoder} {fuel indent bound : Nat}
    (each : ∀ {st indent v st'}, decode st indent = some (v, st') →
      st.backupList.length ≤ st'.backupList.length)
    {elements : List CoreconfValueT} {st : ZcborState} {left : Bool × ArrayLoop}
    (start : bound ≤ st.backupList.length)
    (ran : Fuel.loop (parseArrayBody decode indent) fuel (elements, st) = some left) :
    bound ≤ left.2.2.backupList.length + 1 := by
  let Inv : ArrayLoop → Prop := fun loop => bound ≤ loop.2.backupList.length
  let Post : Bool × ArrayLoop → Prop := fun left => bound ≤ left.2.2.backupList.length + 1
  have keep : ∀ loop loop', Inv loop → parseArrayBody decode indent loop = some (.next loop') →
      Inv loop' := by
    rintro ⟨elements, now⟩ loop' enough ran
    simp only [parseArrayBody] at ran
    split at ran
    · cases ran
    · obtain ⟨⟨value, later⟩, found, same⟩ := Option.map_eq_some_iff.mp ran
      cases same
      exact enough.trans (each found)
  have exit : ∀ loop left, Inv loop → parseArrayBody decode indent loop = some (.done left) →
      Post left := by
    rintro ⟨elements, now⟩ left enough ran
    simp only [parseArrayBody] at ran
    split at ran
    · cases ran
      exact enough.trans (listMapEndDecode_backups now)
    · obtain ⟨result, found, same⟩ := Option.map_eq_some_iff.mp ran
      cases same
  exact Fuel.loop_invariant keep exit (show Inv (elements, st) from start) ran

private theorem mapLoop_backups {decode : ValueDecoder} {fuel indent bound : Nat}
    (each : ∀ {st indent v st'}, decode st indent = some (v, st') →
      st.backupList.length ≤ st'.backupList.length)
    {loop : MapLoop} {left : Bool × MapLoop} (start : bound ≤ loop.st.backupList.length)
    (ran : Fuel.loop (parseMapBody decode indent) fuel loop = some left) :
    bound ≤ left.2.st.backupList.length + 1 := by
  let Inv : MapLoop → Prop := fun loop => bound ≤ loop.st.backupList.length
  let Post : Bool × MapLoop → Prop := fun left => bound ≤ left.2.st.backupList.length + 1
  have keep : ∀ loop loop', Inv loop → parseMapBody decode indent loop = some (.next loop') →
      Inv loop' := by
    intro loop loop' enough ran
    unfold parseMapBody at ran
    split at ran
    · cases ran
    · split at ran
      · cases ran
      · split at ran
        · cases ran
        · rename_i key afterKey keyed
          obtain ⟨⟨value, later⟩, found, same⟩ := Option.map_eq_some_iff.mp ran
          cases same
          have kept : afterKey.backupList = loop.st.backupList := backups_respected.uint64 keyed
          have more := each found
          rw [kept] at more
          exact enough.trans more
  have exit : ∀ loop left, Inv loop → parseMapBody decode indent loop = some (.done left) →
      Post left := by
    intro loop left enough ran
    unfold parseMapBody at ran
    split at ran
    · cases ran
      exact enough.trans (listMapEndDecode_backups loop.st)
    · split at ran
      · cases ran
        exact enough.trans (Nat.le_succ _)
      · split at ran
        · cases ran
          exact enough.trans (Nat.le_succ _)
        · obtain ⟨result, found, same⟩ := Option.map_eq_some_iff.mp ran
          cases same
  exact Fuel.loop_invariant keep exit (show Inv loop from start) ran

/-- No value is left with fewer backups than it was entered with, as each container
gives up one at most, by induction on the fuel. -/
theorem Decodes.backups_le {st st' : ZcborState} {indent : Nat} {value : Option CoreconfValueT}
    (decoded : Decodes st indent (value, st')) : st.backupList.length ≤ st'.backupList.length := by
  obtain ⟨fuel, ran⟩ := decoded
  change cborToCoreconfValue fuel st indent = some (value, st') at ran
  induction fuel generalizing st indent value st' with
  | zero => cases ran
  | succ fuel ih =>
      unfold cborToCoreconfValue at ran
      split at ran
      · cases ran
        exact le_refl _
      · split at ran
        · cases ran
          exact le_refl _
        · obtain ⟨⟨ended, elements, left⟩, parsed, same⟩ := Option.map_eq_some_iff.mp ran
          cases same
          unfold parseArray at parsed
          split at parsed
          · cases parsed
            exact le_refl _
          · rename_i started
            have pushed := listMapStartDecode_backups started
            exact Nat.succ_le_succ_iff.mp (arrayLoop_backups ih (le_of_eq pushed.symm) parsed)
        · obtain ⟨⟨ended, loop⟩, parsed, same⟩ := Option.map_eq_some_iff.mp ran
          cases same
          have pushed := zcborMapStartDecode_backups st
          unfold parseMap at parsed
          split at parsed
          · rename_i started
            rw [started] at pushed
            cases parsed
            exact pushed
          · rename_i started
            rw [started] at pushed
            exact Nat.succ_le_succ_iff.mp (mapLoop_backups ih pushed parsed)
        · rename_i majorType _ _ major
          cases scalar : cborToCoreconfScalar st majorType with
          | none =>
              rw [scalar] at ran
              cases ran
              exact le_refl _
          | some read =>
              obtain ⟨v, left⟩ := read
              rw [scalar] at ran
              cases ran
              exact le_of_eq (congrArg List.length (backups_respected.scalar scalar)).symm

theorem ArrayReturns.backups_le {indent : Nat} {elements elements' : List CoreconfValueT}
    {st st' : ZcborState} {ended : Bool}
    (returned : ArrayReturns indent (elements, st) (ended, elements', st')) :
    st.backupList.length ≤ st'.backupList.length + 1 := by
  obtain ⟨fuel, ran⟩ := returned
  exact arrayLoop_backups (fun found => Decodes.backups_le ⟨fuel, found⟩) (le_refl _) ran

theorem MapReturns.backups_le {indent : Nat} {loop left : MapLoop} {ended : Bool}
    (returned : MapReturns indent loop (ended, left)) :
    loop.st.backupList.length ≤ left.st.backupList.length + 1 := by
  obtain ⟨fuel, ran⟩ := returned
  exact mapLoop_backups (fun found => Decodes.backups_le ⟨fuel, found⟩) (le_refl _) ran

end Coreconf
