import Coreconf.Decoder

set_option autoImplicit false

/- The decoder as a relation between a state and what it returns, with one rule for
each way through it. -/
namespace Coreconf

open Fuel (Step Monotone Returns Terminates Extends)

def decode (fuel : Nat) (s : ZcborState × Nat) : Option (Option CoreconfValueT × ZcborState) :=
  cborToCoreconfValue fuel s.1 s.2

def arrayBody (indent fuel : Nat) : ArrayLoop → Option (Step ArrayLoop (Bool × ArrayLoop)) :=
  parseArrayBody (cborToCoreconfValue fuel) indent

def mapBody (indent fuel : Nat) : MapLoop → Option (Step MapLoop (Bool × MapLoop)) :=
  parseMapBody (cborToCoreconfValue fuel) indent

/-- The decoder returns this value or NULL, in this state. -/
def Decodes (st : ZcborState) (indent : Nat) (result : Option CoreconfValueT × ZcborState) : Prop :=
  Returns decode (st, indent) result

/-- The loop of `_parse_array` leaves with this result. -/
def ArrayReturns (indent : Nat) (loop : ArrayLoop) (result : Bool × ArrayLoop) : Prop :=
  Returns (Fuel.iterate (arrayBody indent)) loop result

/-- The loop of `_parse_map` leaves with this result. -/
def MapReturns (indent : Nat) (loop : MapLoop) (result : Bool × MapLoop) : Prop :=
  Returns (Fuel.iterate (mapBody indent)) loop result

private theorem arrayBody_extends {decode decode' : ValueDecoder} {indent : Nat}
    (le : ∀ st i, Extends (decode st i) (decode' st i)) (loop : ArrayLoop) :
    Extends (parseArrayBody decode indent loop) (parseArrayBody decode' indent loop) := by
  obtain ⟨elements, st⟩ := loop
  simp only [parseArrayBody]
  exact .ite (.refl _) ((le st _).map _)

private theorem mapBody_extends {decode decode' : ValueDecoder} {indent : Nat}
    (le : ∀ st i, Extends (decode st i) (decode' st i)) (loop : MapLoop) :
    Extends (parseMapBody decode indent loop) (parseMapBody decode' indent loop) := by
  simp only [parseMapBody]
  refine .ite (.refl _) (.ite (.refl _) ?_)
  cases key : zcborUint64Decode loop.st with
  | none => exact .refl _
  | some decoded => exact (le decoded.2 _).map _

private theorem parseArray_extends {decode decode' : ValueDecoder}
    (le : ∀ st i, Extends (decode st i) (decode' st i)) {m n : Nat} (fuel : m ≤ n)
    (st : ZcborState) (elements : List CoreconfValueT) (indent : Nat) :
    Extends (parseArray decode m st elements indent) (parseArray decode' n st elements indent) := by
  simp only [parseArray]
  split
  · exact .refl _
  · exact Fuel.loop_extends (arrayBody_extends le) fuel _

private theorem parseMap_extends {decode decode' : ValueDecoder}
    (le : ∀ st i, Extends (decode st i) (decode' st i)) {m n : Nat} (fuel : m ≤ n)
    (st : ZcborState) (map : CoreconfHashMapT CoreconfValueT) (indent : Nat) :
    Extends (parseMap decode m st map indent) (parseMap decode' n st map indent) := by
  simp only [parseMap]
  split
  · exact .refl _
  · exact Fuel.loop_extends (mapBody_extends le) fuel _

/-- More fuel changes no result of the decoder. -/
theorem decode_monotone : Monotone decode := by
  refine Monotone.of_succ fun fuel => ?_
  induction fuel with
  | zero => exact fun _ _ ran => by cases ran
  | succ fuel ih =>
      rintro ⟨st, indent⟩
      have le : ∀ st i, Extends (cborToCoreconfValue fuel st i) (cborToCoreconfValue (fuel + 1) st i) :=
        fun st i => ih (st, i)
      simp only [decode]
      rw [cborToCoreconfValue, cborToCoreconfValue]
      refine Extends.ite (.refl _) ?_
      split
      · exact .refl _
      · exact (parseArray_extends le (Nat.le_succ fuel) _ _ _).map _
      · exact (parseMap_extends le (Nat.le_succ fuel) _ _ _).map _
      · exact .refl _

theorem decoder_extends {m n : Nat} (le : m ≤ n) (st : ZcborState) (indent : Nat) :
    Extends (cborToCoreconfValue m st indent) (cborToCoreconfValue n st indent) :=
  decode_monotone.extends le (st, indent)

theorem parseRequest_monotone : Monotone parseRequest := by
  refine Monotone.of_extends fun m n data le => ?_
  simp only [parseRequest]
  exact .ite (.refl _) ((decoder_extends le _ _).map _)

/-- A payload is parsed as the decoder reads it from its first byte. -/
theorem parseRequest_returns_iff {data : List UInt8} (present : data ≠ [])
    {value : Option CoreconfValueT} : Returns parseRequest data value ↔
      ∃ st', Decodes (zcborNewDecodeState 8 data 1) 0 (value, st') := by
  constructor
  · rintro ⟨fuel, ran⟩
    rw [parseRequest, if_neg present] at ran
    obtain ⟨⟨value, st'⟩, decoded, rfl⟩ := Option.map_eq_some_iff.mp ran
    exact ⟨st', fuel, decoded⟩
  · rintro ⟨st', fuel, decoded⟩
    refine ⟨fuel, ?_⟩
    rw [parseRequest, if_neg present]
    exact Option.map_eq_some_iff.mpr ⟨_, decoded, rfl⟩

theorem arrayBody_monotone (indent : Nat) : Monotone (arrayBody indent) :=
  Monotone.of_extends fun _ _ loop le => arrayBody_extends (decoder_extends le) loop

theorem mapBody_monotone (indent : Nat) : Monotone (mapBody indent) :=
  Monotone.of_extends fun _ _ loop le => mapBody_extends (decoder_extends le) loop

theorem Decodes.unique {st : ZcborState} {indent : Nat}
    {result result' : Option CoreconfValueT × ZcborState} (first : Decodes st indent result)
    (second : Decodes st indent result') : result = result' :=
  Returns.unique decode_monotone first second

theorem Decodes.of_fuel {fuel : Nat} {st : ZcborState} {indent : Nat}
    {result : Option CoreconfValueT × ZcborState}
    (ran : cborToCoreconfValue fuel st indent = some result) : Decodes st indent result :=
  ⟨fuel, ran⟩

theorem arrayBody_returns_iff {indent : Nat} {elements : List CoreconfValueT} {st : ZcborState}
    {step : Step ArrayLoop (Bool × ArrayLoop)} :
    Returns (arrayBody indent) (elements, st) step ↔
      if zcborArrayAtEnd st then
        step = .done ((zcborListEndDecode st).1, elements, (zcborListEndDecode st).2)
      else ∃ value st', Decodes st (indent + 1) (value, st') ∧
        step = .next (storeElement elements value, st') := by
  simp only [Returns, arrayBody, parseArrayBody]
  split
  · simp [eq_comm]
  · constructor
    · rintro ⟨fuel, ran⟩
      obtain ⟨⟨value, st'⟩, found, same⟩ := Option.map_eq_some_iff.mp ran
      exact ⟨value, st', ⟨fuel, found⟩, same.symm⟩
    · rintro ⟨value, st', ⟨fuel, found⟩, rfl⟩
      exact ⟨fuel, Option.map_eq_some_iff.mpr ⟨_, found, rfl⟩⟩

theorem mapBody_returns_iff {indent : Nat} {loop : MapLoop}
    {step : Step MapLoop (Bool × MapLoop)} :
    Returns (mapBody indent) loop step ↔
      if zcborArrayAtEnd loop.st then
        step = .done ((zcborMapEndDecode loop.st).1, { loop with st := (zcborMapEndDecode loop.st).2 })
      else if loop.loopCount > CORECONF_MAX_LOOP then step = .done (false, loop)
      else
        match zcborUint64Decode loop.st with
        | none => step = .done (false, loop)
        | some (key, st') => ∃ value st'', Decodes st' (indent + 1) (value, st'') ∧
            step = .next ⟨storeMember loop.map key value, loop.loopCount + 1, st''⟩ := by
  simp only [Returns, mapBody, parseMapBody]
  split
  · simp [eq_comm]
  · split
    · simp [eq_comm]
    · cases keyed : zcborUint64Decode loop.st with
      | none => simp [eq_comm]
      | some decoded =>
          obtain ⟨key, st'⟩ := decoded
          constructor
          · rintro ⟨fuel, ran⟩
            obtain ⟨⟨value, st''⟩, found, same⟩ := Option.map_eq_some_iff.mp ran
            exact ⟨value, st'', ⟨fuel, found⟩, same.symm⟩
          · rintro ⟨value, st'', ⟨fuel, found⟩, rfl⟩
            exact ⟨fuel, Option.map_eq_some_iff.mpr ⟨_, found, rfl⟩⟩

/-- One value of the decoder from the loops of its containers. -/
theorem decodes_iff {st : ZcborState} {indent : Nat} {result : Option CoreconfValueT × ZcborState} :
    Decodes st indent result ↔
      if indent > CORECONF_MAX_DEPTH then result = (none, st)
      else
        match majorTypeAt st.payload with
        | none => result = (none, st)
        | some .list =>
            match zcborListStartDecode st with
            | none => result = (some (.array []), st)
            | some st' => ∃ ended elements st'', ArrayReturns indent ([], st') (ended, elements, st'') ∧
                result = (some (.array elements), st'')
        | some .map =>
            match zcborMapStartDecode st with
            | (false, st') => result = (some (.hashmap createCoreconfHashmap), st')
            | (true, st') => ∃ ended loop, MapReturns indent ⟨createCoreconfHashmap, 0, st'⟩ (ended, loop) ∧
                result = (some (.hashmap loop.map), loop.st)
        | some majorType => result = scalarResult st (cborToCoreconfScalar st majorType) := by
  have positive : Decodes st indent result ↔
      ∃ fuel, cborToCoreconfValue (fuel + 1) st indent = some result := by
    constructor
    · rintro ⟨fuel, ran⟩
      cases fuel with
      | zero => cases ran
      | succ fuel => exact ⟨fuel, ran⟩
    · rintro ⟨fuel, ran⟩
      exact ⟨fuel + 1, ran⟩
  rw [positive]
  simp only [cborToCoreconfValue]
  split
  · simp [eq_comm]
  · cases major : majorTypeAt st.payload with
    | none => simp [eq_comm]
    | some majorType =>
        cases majorType with
        | list =>
            cases started : zcborListStartDecode st with
            | none => simp [parseArray, started, eq_comm]
            | some st' =>
                simp only [parseArray, started, Option.map_eq_some_iff]
                constructor
                · rintro ⟨fuel, ⟨ended, elements, st''⟩, looped, same⟩
                  exact ⟨ended, elements, st'', ⟨fuel, looped⟩, same.symm⟩
                · rintro ⟨ended, elements, st'', ⟨fuel, looped⟩, rfl⟩
                  exact ⟨fuel, _, looped, rfl⟩
        | map =>
            rcases started : zcborMapStartDecode st with ⟨_ | _, st'⟩
            · simp [parseMap, started, eq_comm]
            · simp only [parseMap, started, Option.map_eq_some_iff]
              constructor
              · rintro ⟨fuel, ⟨ended, loop⟩, looped, same⟩
                exact ⟨ended, loop, ⟨fuel, looped⟩, same.symm⟩
              · rintro ⟨ended, loop, ⟨fuel, looped⟩, rfl⟩
                exact ⟨fuel, _, looped, rfl⟩
        | _ => simp [eq_comm]

theorem arrayReturns_atEnd (indent : Nat) (elements : List CoreconfValueT) {st : ZcborState}
    (atEnd : zcborArrayAtEnd st) : ArrayReturns indent (elements, st)
      ((zcborListEndDecode st).1, elements, (zcborListEndDecode st).2) := by
  refine Fuel.iterate_done (arrayBody_monotone indent) ?_
  rw [arrayBody_returns_iff, if_pos atEnd]

theorem arrayReturns_next {indent : Nat} {elements : List CoreconfValueT} {st st' : ZcborState}
    {value : Option CoreconfValueT} {result : Bool × ArrayLoop} (inside : ¬ zcborArrayAtEnd st)
    (decoded : Decodes st (indent + 1) (value, st'))
    (rest : ArrayReturns indent (storeElement elements value, st') result) :
    ArrayReturns indent (elements, st) result := by
  refine Fuel.iterate_next (arrayBody_monotone indent) ?_ rest
  rw [arrayBody_returns_iff, if_neg inside]
  exact ⟨value, st', decoded, rfl⟩

theorem mapReturns_atEnd (indent : Nat) {loop : MapLoop} (atEnd : zcborArrayAtEnd loop.st) :
    MapReturns indent loop
      ((zcborMapEndDecode loop.st).1, { loop with st := (zcborMapEndDecode loop.st).2 }) := by
  refine Fuel.iterate_done (mapBody_monotone indent) ?_
  rw [mapBody_returns_iff, if_pos atEnd]

theorem mapReturns_next {indent : Nat} {loop : MapLoop} {key : UInt64} {st' st'' : ZcborState}
    {value : Option CoreconfValueT} {result : Bool × MapLoop} (inside : ¬ zcborArrayAtEnd loop.st)
    (within : loop.loopCount ≤ CORECONF_MAX_LOOP) (keyed : zcborUint64Decode loop.st = some (key, st'))
    (decoded : Decodes st' (indent + 1) (value, st''))
    (rest : MapReturns indent ⟨storeMember loop.map key value, loop.loopCount + 1, st''⟩ result) :
    MapReturns indent loop result := by
  refine Fuel.iterate_next (mapBody_monotone indent) ?_ rest
  rw [mapBody_returns_iff, if_neg inside, if_neg (by omega)]
  simp only [keyed]
  exact ⟨value, st'', decoded, rfl⟩

/-- The loop is left as it is behind too many entries, or at a key that is not read. -/
theorem mapReturns_givenUp (indent : Nat) {loop : MapLoop} (inside : ¬ zcborArrayAtEnd loop.st)
    (stops : loop.loopCount > CORECONF_MAX_LOOP ∨ zcborUint64Decode loop.st = none) :
    MapReturns indent loop (false, loop) := by
  refine Fuel.iterate_done (mapBody_monotone indent) ?_
  rw [mapBody_returns_iff, if_neg inside]
  split
  · rfl
  · rename_i within
    rw [stops.resolve_left within]

/-- Before the end of an array there is another value. -/
theorem arrayReturns_inside {indent : Nat} {elements : List CoreconfValueT} {st : ZcborState}
    {result : Bool × ArrayLoop} (inside : ¬ zcborArrayAtEnd st)
    (returned : ArrayReturns indent (elements, st) result) :
    ∃ value st', Decodes st (indent + 1) (value, st') ∧
      ArrayReturns indent (storeElement elements value, st') result := by
  rcases Fuel.iterate_cases returned with left | ⟨loop, again, rest⟩
  · rw [arrayBody_returns_iff, if_neg inside] at left
    obtain ⟨value, st', -, same⟩ := left
    cases same
  · rw [arrayBody_returns_iff, if_neg inside] at again
    obtain ⟨value, st', decoded, same⟩ := again
    cases same
    exact ⟨value, st', decoded, rest⟩

/-- Before the end of a map the loop is given up, or there is another entry. -/
theorem mapReturns_inside {indent : Nat} {loop : MapLoop} {result : Bool × MapLoop}
    (inside : ¬ zcborArrayAtEnd loop.st) (returned : MapReturns indent loop result) :
    (result = (false, loop) ∧
      (loop.loopCount > CORECONF_MAX_LOOP ∨ zcborUint64Decode loop.st = none)) ∨
    ∃ key st' value st'', loop.loopCount ≤ CORECONF_MAX_LOOP ∧
      zcborUint64Decode loop.st = some (key, st') ∧ Decodes st' (indent + 1) (value, st'') ∧
      MapReturns indent ⟨storeMember loop.map key value, loop.loopCount + 1, st''⟩ result := by
  rcases Fuel.iterate_cases returned with left | ⟨next, again, rest⟩
  · rw [mapBody_returns_iff, if_neg inside] at left
    split at left
    · rename_i many
      cases left
      exact Or.inl ⟨rfl, Or.inl many⟩
    · split at left
      · rename_i keyed
        cases left
        exact Or.inl ⟨rfl, Or.inr keyed⟩
      · obtain ⟨value, st'', -, same⟩ := left
        cases same
  · rw [mapBody_returns_iff, if_neg inside] at again
    split at again
    · cases again
    · rename_i few
      split at again
      · cases again
      · rename_i key st' keyed
        obtain ⟨value, st'', decoded, same⟩ := again
        cases same
        exact Or.inr ⟨key, st', value, st'', Nat.not_lt.mp few, keyed, decoded, rest⟩

/-- An element that is read is behind the loop. -/
theorem arrayReturns_next_iff {indent : Nat} {elements : List CoreconfValueT} {st st' : ZcborState}
    {value : Option CoreconfValueT} {result : Bool × ArrayLoop} (inside : ¬ zcborArrayAtEnd st)
    (decoded : Decodes st (indent + 1) (value, st')) :
    ArrayReturns indent (elements, st) result ↔
      ArrayReturns indent (storeElement elements value, st') result := by
  constructor
  · intro returned
    obtain ⟨value', later, other, rest⟩ := arrayReturns_inside inside returned
    cases other.unique decoded
    exact rest
  · exact arrayReturns_next inside decoded

/-- An entry that is read is behind the loop. -/
theorem mapReturns_next_iff {indent : Nat} {loop : MapLoop} {key : UInt64} {st' st'' : ZcborState}
    {value : Option CoreconfValueT} {result : Bool × MapLoop} (inside : ¬ zcborArrayAtEnd loop.st)
    (within : loop.loopCount ≤ CORECONF_MAX_LOOP) (keyed : zcborUint64Decode loop.st = some (key, st'))
    (decoded : Decodes st' (indent + 1) (value, st'')) :
    MapReturns indent loop result ↔
      MapReturns indent ⟨storeMember loop.map key value, loop.loopCount + 1, st''⟩ result := by
  constructor
  · intro returned
    rcases mapReturns_inside inside returned with
      ⟨-, many | unkeyed⟩ | ⟨key', afterKey, value', later, -, read, other, rest⟩
    · exact absurd many (Nat.not_lt.mpr within)
    · rw [keyed] at unkeyed
      cases unkeyed
    · rw [keyed] at read
      cases read
      cases other.unique decoded
      exact rest
  · exact mapReturns_next inside within keyed decoded

/-- A value that is not read, and consumes nothing, is tried again for ever. -/
theorem arrayReturns_stuck {indent : Nat} {elements : List CoreconfValueT} {st : ZcborState}
    (inside : ¬ zcborArrayAtEnd st) (decoded : Decodes st (indent + 1) (none, st))
    (result : Bool × ArrayLoop) : ¬ ArrayReturns indent (elements, st) result := by
  rintro ⟨fuel, ran⟩
  have again : ∀ step, arrayBody indent fuel (elements, st) = some step → step = .next (elements, st) := by
    intro step ran
    have returned : Returns (arrayBody indent) (elements, st) step := ⟨fuel, ran⟩
    rw [arrayBody_returns_iff, if_neg inside] at returned
    obtain ⟨value, st', other, same⟩ := returned
    cases other.unique decoded
    exact same
  have keep : ∀ loop loop', loop = (elements, st) → arrayBody indent fuel loop = some (.next loop') →
      loop' = (elements, st) := by
    rintro loop loop' rfl ran
    cases again _ ran
    rfl
  have exit : ∀ loop (left : Bool × ArrayLoop), loop = (elements, st) →
      arrayBody indent fuel loop = some (.done left) → False := by
    rintro loop left rfl ran
    cases again _ ran
  exact Fuel.loop_invariant keep exit rfl ran

/-- What holds between the states around each call of a zcbor function, of each value, and
of each map after so many rounds of its loop, holds of everything the decoder returns. -/
structure CountedInvariant (R : ZcborState → ZcborState → Prop) (P : CoreconfValueT → Prop)
    (M : Nat → CoreconfHashMapT CoreconfValueT → Prop) : Prop where
  refl : ∀ st, R st st
  trans : ∀ st st' st'', R st st' → R st' st'' → R st st''
  scalar : ∀ st t v st', majorTypeAt st.payload = some t →
    cborToCoreconfScalar st t = some (v, st') → R st st' ∧ P v
  key : ∀ st key st', zcborUint64Decode st = some (key, st') → R st st'
  listStart : ∀ st st', zcborListStartDecode st = some st' → R st st'
  mapStart : ∀ st started st', zcborMapStartDecode st = (started, st') → R st st'
  containerEnd : ∀ st, R st (listMapEndDecode st).2
  array : ∀ elements, (∀ element ∈ elements, P element) → P (.array elements)
  create : M 0 createCoreconfHashmap
  skip : ∀ n map, n ≤ CORECONF_MAX_LOOP → M n map → M (n + 1) map
  insert : ∀ n map key value, n ≤ CORECONF_MAX_LOOP → M n map → P value →
    M (n + 1) (insertCoreconfHashMap map key (some value)).2
  hashmap : ∀ n map, M n map → P (.hashmap map)

namespace CountedInvariant

variable {R : ZcborState → ZcborState → Prop} {P : CoreconfValueT → Prop}
  {M : Nat → CoreconfHashMapT CoreconfValueT → Prop}

private theorem storeElement {elements : List CoreconfValueT}
    {value : Option CoreconfValueT} (each : ∀ element ∈ elements, P element)
    (new : ∀ v, value = some v → P v) : ∀ element ∈ storeElement elements value, P element := by
  cases value with
  | none => exact each
  | some value =>
      intro element member
      rcases List.mem_append.mp member with member | member
      · exact each element member
      · exact new element (by rw [List.mem_singleton.mp member])

private theorem storeMember (inv : CountedInvariant R P M) {n : Nat} (within : n ≤ CORECONF_MAX_LOOP)
    {map : CoreconfHashMapT CoreconfValueT} {key : UInt64} {value : Option CoreconfValueT}
    (holds : M n map) (new : ∀ v, value = some v → P v) : M (n + 1) (storeMember map key value) := by
  cases value with
  | none => exact inv.skip n map within holds
  | some value => exact inv.insert n map key value within holds (new value rfl)

private theorem arrayLoop (inv : CountedInvariant R P M) {decode : ValueDecoder} {fuel indent : Nat}
    (each : ∀ st indent v st', decode st indent = some (v, st') → R st st' ∧ ∀ w, v = some w → P w)
    {st : ZcborState} {ended : Bool} {elements : List CoreconfValueT} {st' : ZcborState}
    (ran : Fuel.loop (parseArrayBody decode indent) fuel ([], st) = some (ended, elements, st')) :
    R st st' ∧ ∀ element ∈ elements, P element := by
  let Inv : ArrayLoop → Prop := fun loop => R st loop.2 ∧ ∀ element ∈ loop.1, P element
  have keep : ∀ loop loop', Inv loop → parseArrayBody decode indent loop = some (.next loop') →
      Inv loop' := by
    rintro ⟨elements, now⟩ loop' ⟨reached, all⟩ ran
    simp only [parseArrayBody] at ran
    split at ran
    · cases ran
    · obtain ⟨⟨value, later⟩, found, same⟩ := Option.map_eq_some_iff.mp ran
      cases same
      obtain ⟨moved, new⟩ := each _ _ _ _ found
      exact ⟨inv.trans _ _ _ reached moved, CountedInvariant.storeElement all new⟩
  have exit : ∀ loop (left : Bool × ArrayLoop), Inv loop →
      parseArrayBody decode indent loop = some (.done left) → Inv left.2 := by
    rintro ⟨elements, now⟩ left ⟨reached, all⟩ ran
    simp only [parseArrayBody] at ran
    split at ran
    · cases ran
      exact ⟨inv.trans _ _ _ reached (inv.containerEnd now), all⟩
    · obtain ⟨result, found, same⟩ := Option.map_eq_some_iff.mp ran
      cases same
  exact Fuel.loop_invariant keep exit (show Inv ([], st) from ⟨inv.refl st, by simp⟩) ran

private theorem mapLoop (inv : CountedInvariant R P M) {decode : ValueDecoder} {fuel indent : Nat}
    (each : ∀ st indent v st', decode st indent = some (v, st') → R st st' ∧ ∀ w, v = some w → P w)
    {st : ZcborState} {ended : Bool} {loop : MapLoop}
    (ran : Fuel.loop (parseMapBody decode indent) fuel ⟨createCoreconfHashmap, 0, st⟩ =
      some (ended, loop)) : R st loop.st ∧ M loop.loopCount loop.map := by
  let Inv : MapLoop → Prop := fun loop => R st loop.st ∧ M loop.loopCount loop.map
  have keep : ∀ loop loop', Inv loop → parseMapBody decode indent loop = some (.next loop') →
      Inv loop' := by
    rintro loop loop' ⟨reached, holds⟩ ran
    unfold parseMapBody at ran
    split at ran
    · cases ran
    · split at ran
      · cases ran
      · rename_i within
        split at ran
        · cases ran
        · rename_i key afterKey keyed
          obtain ⟨⟨value, later⟩, found, same⟩ := Option.map_eq_some_iff.mp ran
          cases same
          obtain ⟨moved, new⟩ := each _ _ _ _ found
          have toKey := inv.trans _ _ _ reached (inv.key _ _ _ keyed)
          exact ⟨inv.trans _ _ _ toKey moved, inv.storeMember (Nat.not_lt.mp within) holds new⟩
  have exit : ∀ loop (left : Bool × MapLoop), Inv loop →
      parseMapBody decode indent loop = some (.done left) → Inv left.2 := by
    rintro loop left ⟨reached, holds⟩ ran
    unfold parseMapBody at ran
    split at ran
    · cases ran
      exact ⟨inv.trans _ _ _ reached (inv.containerEnd loop.st), holds⟩
    · split at ran
      · cases ran
        exact ⟨reached, holds⟩
      · split at ran
        · cases ran
          exact ⟨reached, holds⟩
        · obtain ⟨result, found, same⟩ := Option.map_eq_some_iff.mp ran
          cases same
  exact Fuel.loop_invariant keep exit
    (show Inv ⟨createCoreconfHashmap, 0, st⟩ from ⟨inv.refl st, inv.create⟩) ran

theorem decodes (inv : CountedInvariant R P M) {st st' : ZcborState} {indent : Nat}
    {value : Option CoreconfValueT} (decoded : Decodes st indent (value, st')) :
    R st st' ∧ ∀ v, value = some v → P v := by
  obtain ⟨fuel, ran⟩ := decoded
  change cborToCoreconfValue fuel st indent = some (value, st') at ran
  induction fuel generalizing st indent value st' with
  | zero => cases ran
  | succ fuel ih =>
      have each : ∀ st indent v st', cborToCoreconfValue fuel st indent = some (v, st') →
          R st st' ∧ ∀ w, v = some w → P w := fun _ _ _ _ ran => ih ran
      unfold cborToCoreconfValue at ran
      split at ran
      · cases ran
        exact ⟨inv.refl st, by simp⟩
      · split at ran
        · cases ran
          exact ⟨inv.refl st, by simp⟩
        · obtain ⟨⟨ended, elements, left⟩, parsed, same⟩ := Option.map_eq_some_iff.mp ran
          cases same
          unfold parseArray at parsed
          split at parsed
          · cases parsed
            exact ⟨inv.refl st, by rintro v ⟨⟩; exact inv.array [] (by simp)⟩
          · rename_i start started
            obtain ⟨moved, all⟩ := inv.arrayLoop each parsed
            exact ⟨inv.trans _ _ _ (inv.listStart _ _ started) moved,
              by rintro v ⟨⟩; exact inv.array _ all⟩
        · obtain ⟨⟨ended, loop⟩, parsed, same⟩ := Option.map_eq_some_iff.mp ran
          cases same
          unfold parseMap at parsed
          split at parsed
          · rename_i start started
            cases parsed
            exact ⟨inv.mapStart _ _ _ started, by rintro v ⟨⟩; exact inv.hashmap _ _ inv.create⟩
          · rename_i start started
            obtain ⟨moved, holds⟩ := inv.mapLoop each parsed
            exact ⟨inv.trans _ _ _ (inv.mapStart _ _ _ started) moved,
              by rintro v ⟨⟩; exact inv.hashmap _ _ holds⟩
        · rename_i majorType _ _ major
          cases scalar : cborToCoreconfScalar st majorType with
          | none =>
              rw [scalar] at ran
              cases ran
              exact ⟨inv.refl st, by simp⟩
          | some read =>
              obtain ⟨v, left⟩ := read
              rw [scalar] at ran
              cases ran
              obtain ⟨moved, holds⟩ := inv.scalar _ _ _ _ major scalar
              exact ⟨moved, by rintro w ⟨⟩; exact holds⟩

theorem arrayReturns (inv : CountedInvariant R P M) {st st' : ZcborState} {indent : Nat} {ended : Bool}
    {elements : List CoreconfValueT} (returned : ArrayReturns indent ([], st) (ended, elements, st')) :
    R st st' := by
  obtain ⟨fuel, ran⟩ := returned
  exact (inv.arrayLoop (fun _ _ _ _ found => inv.decodes ⟨fuel, found⟩) ran).1

theorem mapReturns (inv : CountedInvariant R P M) {st : ZcborState} {indent : Nat} {ended : Bool}
    {loop : MapLoop} (returned : MapReturns indent ⟨createCoreconfHashmap, 0, st⟩ (ended, loop)) :
    R st loop.st := by
  obtain ⟨fuel, ran⟩ := returned
  exact (inv.mapLoop (fun _ _ _ _ found => inv.decodes ⟨fuel, found⟩) ran).1

end CountedInvariant

/-- What holds between the states around each call of a zcbor function, and of each
value as it is built, holds of everything the decoder returns. -/
structure DecoderInvariant (R : ZcborState → ZcborState → Prop) (P : CoreconfValueT → Prop) :
    Prop where
  refl : ∀ st, R st st
  trans : ∀ st st' st'', R st st' → R st' st'' → R st st''
  scalar : ∀ st t v st', majorTypeAt st.payload = some t →
    cborToCoreconfScalar st t = some (v, st') → R st st' ∧ P v
  key : ∀ st key st', zcborUint64Decode st = some (key, st') → R st st'
  listStart : ∀ st st', zcborListStartDecode st = some st' → R st st'
  mapStart : ∀ st started st', zcborMapStartDecode st = (started, st') → R st st'
  containerEnd : ∀ st, R st (listMapEndDecode st).2
  array : ∀ elements, (∀ element ∈ elements, P element) → P (.array elements)
  create : P (.hashmap createCoreconfHashmap)
  insert : ∀ map key value, P (.hashmap map) → P value →
    P (.hashmap (insertCoreconfHashMap map key (some value)).2)

namespace DecoderInvariant

variable {R : ZcborState → ZcborState → Prop} {P : CoreconfValueT → Prop}

/-- A property of every value as it is built does not depend on the rounds. -/
theorem counted (inv : DecoderInvariant R P) : CountedInvariant R P fun _ map => P (.hashmap map) where
  refl := inv.refl
  trans := inv.trans
  scalar := inv.scalar
  key := inv.key
  listStart := inv.listStart
  mapStart := inv.mapStart
  containerEnd := inv.containerEnd
  array := inv.array
  create := inv.create
  skip _ _ _ holds := holds
  insert _ map key value _ holds new := inv.insert map key value holds new
  hashmap _ _ holds := holds

theorem decodes (inv : DecoderInvariant R P) {st st' : ZcborState} {indent : Nat}
    {value : Option CoreconfValueT} (decoded : Decodes st indent (value, st')) :
    R st st' ∧ ∀ v, value = some v → P v := inv.counted.decodes decoded

theorem arrayReturns (inv : DecoderInvariant R P) {st st' : ZcborState} {indent : Nat} {ended : Bool}
    {elements : List CoreconfValueT} (returned : ArrayReturns indent ([], st) (ended, elements, st')) :
    R st st' := inv.counted.arrayReturns returned

theorem mapReturns (inv : DecoderInvariant R P) {st : ZcborState} {indent : Nat} {ended : Bool}
    {loop : MapLoop} (returned : MapReturns indent ⟨createCoreconfHashmap, 0, st⟩ (ended, loop)) :
    R st loop.st := inv.counted.mapReturns returned

end DecoderInvariant

end Coreconf
