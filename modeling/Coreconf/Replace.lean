import Coreconf.DecoderLimits
import Coreconf.ServerInvariant

set_option autoImplicit false

/- PUT, and POST that creates: what a payload replaces the datastore with. -/
namespace Coreconf

open Cbor (Item Framing)
open Fuel (Returns)

/-- The request was refused and changed nothing, or its payload is one map and the
datastore holds exactly the entries of that map. -/
def AllOrNothing (s : ServerState) (req : Request) (outcome : Outcome) : Prop :=
  outcome.Rejects s ∨ ∃ framing entries map, Item.WellFormed (.map framing entries) ∧
    req.payload = (Item.map framing entries).encode ∧
    outcome.state = ⟨some (.hashmap map), true⟩ ∧
    (Item.map framing entries).tree? = some (CoreconfValueT.hashmap map).toTree

/-- The handler comes back, and all or nothing of the payload is installed. -/
def ReplacesAllOrNothing (env : Environment) (s : ServerState) (method : Method) (req : Request) : Prop :=
  ∃ outcome, Handles env s method req outcome ∧ AllOrNothing s req outcome

/-- Nothing but the payload can have the request refused. -/
def GetsParsed (s : ServerState) (method : Method) (req : Request) : Prop :=
  getContentFormat req = CF_YANG_DATA_CBOR ∧ req.payload ≠ [] ∧ (method = .post → s.current = none)

/-- The payload is one map that the decoder can hold, and nothing after it. -/
def OneMap (data : List UInt8) : Prop :=
  ∃ framing entries, Item.WellFormed (.map framing entries) ∧
    data = (Item.map framing entries).encode ∧ (Item.map framing entries).value?.isSome ∧
    ((Item.map framing entries).KeepsTexts ∧ (Item.map framing entries).NulFree) ∧
    ((Item.map framing entries).depth ≤ 6 ∨ (Item.map framing entries).Brims 6)

/-- The payload is no map at all, and the decoder comes back from it; or it is one map. -/
def Replaceable (data : List UInt8) : Prop :=
  (majorTypeAt data ≠ some .map ∧ NeverStalls (.value (zcborNewDecodeState 8 data 1) 0)) ∨ OneMap data

def Outcome.Installs (outcome : Outcome) (s : ServerState) : Option CoreconfValueT → Prop
  | some (.hashmap map) =>
      outcome.state = ⟨some (.hashmap map), true⟩ ∧ outcome.response.code.isError = false
  | _ => outcome.Rejects s

section Handlers

variable (env : Environment) {s : ServerState} {method : Method} {req : Request} {outcome : Outcome}

private theorem installs_of {answer : Option CoreconfValueT → Outcome}
    (map : ∀ map, (answer (some (.hashmap map))).state = ⟨some (.hashmap map), true⟩ ∧
      (answer (some (.hashmap map))).response.code.isError = false)
    (other : ∀ value, (∀ map, value ≠ some (.hashmap map)) → (answer value).Rejects s)
    (value : Option CoreconfValueT) : (answer value).Installs s value := by
  rcases value with _ | value
  · exact other none fun _ same => by cases same
  · cases value with
    | hashmap root => exact map root
    | _ => exact other _ fun _ same => by cases same

theorem answer_of_parsed (creates : method = .put ∨ method = .post) (parsed : GetsParsed s method req) :
    ∃ answer : Option CoreconfValueT → Outcome,
      (∀ fuel, handle env fuel s method req = (parsePutRequest fuel req.payload).map answer) ∧
      ∀ value, (answer value).Installs s value := by
  obtain ⟨format, nonempty, absent⟩ := parsed
  rcases creates with rfl | rfl
  · refine ⟨_, fun fuel => (if_neg (not_not.mpr format)).trans (if_neg nonempty),
      installs_of (fun map => ⟨rfl, rfl⟩) fun value other => ?_⟩
    split
    · exact absurd rfl (other _)
    · exact reject_rejects s rfl _ _
  · refine ⟨_, fun fuel => (if_pos format).trans ((if_neg nonempty).trans (if_neg (by simp [absent]))),
      installs_of (fun map => ⟨rfl, rfl⟩) fun value other => ?_⟩
    split
    · exact absurd rfl (other _)
    · exact reject_rejects s rfl _ _

theorem handles_of_decodes (creates : method = .put ∨ method = .post) (parsed : GetsParsed s method req)
    {value : Option CoreconfValueT} {st' : ZcborState}
    (decoded : Decodes (zcborNewDecodeState 8 req.payload 1) 0 (value, st')) :
    ∃ outcome, Handles env s method req outcome ∧ outcome.Installs s value := by
  obtain ⟨answer, handled, installs⟩ := answer_of_parsed env creates parsed
  obtain ⟨fuel, read⟩ := (parseRequest_returns_iff parsed.2.1).mpr ⟨st', decoded⟩
  exact ⟨answer value, ⟨fuel, by rw [handled, parsePutRequest, read]; rfl⟩, installs value⟩

theorem decodes_of_handles {env : Environment} (creates : method = .put ∨ method = .post) (parsed : GetsParsed s method req)
    (handles : Handles env s method req outcome) :
    ∃ value st', Decodes (zcborNewDecodeState 8 req.payload 1) 0 (value, st') ∧ outcome.Installs s value := by
  obtain ⟨answer, handled, installs⟩ := answer_of_parsed env creates parsed
  obtain ⟨fuel, ran⟩ := handles
  rw [handled] at ran
  obtain ⟨value, read, rfl⟩ := Option.map_eq_some_iff.mp ran
  obtain ⟨st', decoded⟩ := (parseRequest_returns_iff parsed.2.1).mp ⟨fuel, read⟩
  exact ⟨value, st', decoded, installs value⟩

theorem refused_unparsed (creates : method = .put ∨ (method = .post ∧ getContentFormat req = CF_YANG_DATA_CBOR))
    (unparsed : ¬ GetsParsed s method req) : ∃ outcome, Handles env s method req outcome ∧ outcome.Rejects s := by
  rcases creates with rfl | ⟨rfl, format⟩
  · by_cases format : getContentFormat req = CF_YANG_DATA_CBOR
    · have empty : req.payload = [] := by
        by_contra nonempty
        exact unparsed ⟨format, nonempty, fun post => by cases post⟩
      exact ⟨_, ⟨0, by rw [handle, handlePut, if_neg (not_not.mpr format), if_pos empty]⟩,
        reject_rejects s rfl _ _⟩
    · exact ⟨_, ⟨0, by rw [handle, handlePut, if_pos format]⟩, reject_rejects s rfl _ _⟩
  · by_cases empty : req.payload = []
    · exact ⟨_, ⟨0, by rw [handle, handlePost, if_pos format, handlePostCreate, if_pos empty]⟩,
        reject_rejects s rfl _ _⟩
    · have present : s.current.isSome := by
        by_contra absent
        exact unparsed ⟨format, empty, fun _ => by simpa using absent⟩
      exact ⟨_, ⟨0, by rw [handle, handlePost, if_pos format, handlePostCreate, if_neg empty, if_pos present]⟩,
        reject_rejects s rfl _ _⟩

end Handlers

private theorem deep_start (payload : Payload) {item : Item} (same : payload.bytes = item.encode)
    (deep : 6 < item.depth) : Deep (zcborNewDecodeState 8 payload.bytes 1) 0 item [] where
  payload := same.trans (List.append_nil _).symm
  left := Nat.one_ne_zero
  inside := by simp [zcborNewDecodeState, zcborArrayAtEnd]
  backups := Nat.zero_le _
  deep := deep
  shallow := show 0 + (6 - 0) ≤ CORECONF_MAX_DEPTH by decide
  size := payload.size

theorem OneMap.decodes (payload : Payload) (oneMap : OneMap payload.bytes) :
    ∃ framing entries map st', Item.WellFormed (.map framing entries) ∧
      payload.bytes = (Item.map framing entries).encode ∧
      Decodes (zcborNewDecodeState 8 payload.bytes 1) 0 (some (.hashmap map), st') ∧
      (Item.map framing entries).tree? = some (CoreconfValueT.hashmap map).toTree := by
  obtain ⟨framing, entries, wellFormed, encoded, found, ⟨keeps, free⟩, depth⟩ := oneMap
  obtain ⟨value, read⟩ := Option.isSome_iff_exists.mp found
  obtain ⟨map, rfl⟩ : ∃ map, value = .hashmap map := by
    rw [Item.value?] at read
    split at read
    · cases read
    · obtain ⟨members, -, rfl⟩ := Option.map_eq_some_iff.mp read
      exact ⟨_, rfl⟩
  have shown := Item.tree?_of_keeps read wellFormed keeps free
  rcases depth with depth | brims
  · have levels := ((Item.map framing entries).levels_le_depth.trans depth).trans
      (show 6 ≤ CORECONF_MAX_DEPTH by decide)
    exact ⟨framing, entries, map, _, wellFormed, encoded,
      decodes_item 8 payload wellFormed (encoded.trans (List.append_nil _).symm) read depth levels, shown⟩
  · obtain ⟨st', decoded, -⟩ := decodes_brims brims wellFormed read
      (deep_start payload encoded brims.lt_depth) rfl
    exact ⟨framing, entries, map, st', wellFormed, encoded, decoded, shown⟩

/-- A map that is parsed with its content is within the limits. -/
theorem oneMap_of_decodes (payload : Payload) (short : payload.bytes.length < 2 ^ 31) {framing : Framing}
    {entries : List (Item × Item)} (wellFormed : Item.WellFormed (.map framing entries))
    (encoded : payload.bytes = (Item.map framing entries).encode)
    (distinct : (Item.map framing entries).DistinctKeys) {map : CoreconfHashMapT CoreconfValueT} {st' : ZcborState}
    (decoded : Decodes (zcborNewDecodeState 8 payload.bytes 1) 0 (some (.hashmap map), st'))
    (shown : (Item.map framing entries).tree? = some (CoreconfValueT.hashmap map).toTree) :
    OneMap payload.bytes := by
  obtain ⟨found, free⟩ := holds_of_tree distinct decoded.valid decoded.few shown
  obtain ⟨value, read⟩ := Option.isSome_iff_exists.mp found
  have keeps := Item.keepsTexts_of_length (encoded ▸ short)
  refine ⟨framing, entries, wellFormed, encoded, found, ⟨keeps, free⟩, ?_⟩
  by_cases depth : (Item.map framing entries).depth ≤ 6
  · exact Or.inl depth
  · obtain ⟨read', same, -, brims⟩ := spills wellFormed distinct read
      (deep_start payload encoded (Nat.not_le.mp depth)) (show 6 = 6 + 0 from rfl) decoded
    cases same
    refine Or.inr (brims ?_)
    have shown' := Item.tree?_of_keeps read wellFormed keeps free
    exact Option.some.inj (shown.symm.trans shown')

/-- All or nothing of a payload is installed where the request is refused before, where the
payload is no map and the decoder comes back from it, and where it is one map within the
limits; and nowhere else, if the payload is short and no map in it has a key twice. -/
theorem replace_all_or_nothing {env : Environment} {s : ServerState} (payload : Payload)
    (contentFormat : Option Nat) {method : Method}
    (creates : method = .put ∨ (method = .post ∧ contentFormat = some CF_YANG_DATA_CBOR)) :
    ((GetsParsed s method ⟨contentFormat, payload.bytes⟩ → Replaceable payload.bytes) →
      ReplacesAllOrNothing env s method ⟨contentFormat, payload.bytes⟩) ∧
    (payload.bytes.length < 2 ^ 31 →
      (∀ framing entries, Item.WellFormed (.map framing entries) →
        payload.bytes = (Item.map framing entries).encode → (Item.map framing entries).DistinctKeys) →
      ReplacesAllOrNothing env s method ⟨contentFormat, payload.bytes⟩ →
      GetsParsed s method ⟨contentFormat, payload.bytes⟩ → Replaceable payload.bytes) := by
  have replaces : method = .put ∨ method = .post := creates.imp_right And.left
  constructor
  · intro replaceable
    by_cases parsed : GetsParsed s method ⟨contentFormat, payload.bytes⟩
    · rcases replaceable parsed with ⟨noMap, never⟩ | oneMap
      · obtain ⟨⟨value, st'⟩, decoded⟩ := decodes_returns_iff.mpr never
        obtain ⟨outcome, handled, installs⟩ := handles_of_decodes env replaces parsed decoded
        refine ⟨outcome, handled, Or.inl ?_⟩
        unfold Outcome.Installs at installs
        split at installs
        · exact absurd decoded.map_head noMap
        · exact installs
      · obtain ⟨framing, entries, map, st', wellFormed, encoded, decoded, shown⟩ := oneMap.decodes payload
        obtain ⟨outcome, handled, installs⟩ := handles_of_decodes env replaces parsed decoded
        exact ⟨outcome, handled, Or.inr ⟨framing, entries, map, wellFormed, encoded, installs.1, shown⟩⟩
    · obtain ⟨outcome, handled, rejects⟩ := refused_unparsed env
        (creates.imp_right fun post => ⟨post.1, by rw [getContentFormat, post.2]; rfl⟩) parsed
      exact ⟨outcome, handled, Or.inl rejects⟩
  · rintro short distinct ⟨outcome, handled, whole⟩ parsed
    obtain ⟨value, st', decoded, installs⟩ := decodes_of_handles replaces parsed handled
    by_cases major : majorTypeAt payload.bytes = some .map
    · obtain ⟨map, rfl⟩ := decoded.hashmap major
      obtain ⟨state, accepts⟩ := installs
      rcases whole with ⟨-, error, -⟩ | ⟨framing, entries, map', wellFormed, encoded, state', shown⟩
      · rw [accepts] at error
        cases error
      · cases state.symm.trans state'
        exact Or.inr (oneMap_of_decodes payload short wellFormed encoded (distinct _ _ wellFormed encoded)
          decoded shown)
    · exact Or.inl ⟨major, decodes_returns_iff.mp ⟨_, decoded⟩⟩

theorem put_all_or_nothing : ReplacesAllOrNothing bareEnvironment ⟨none, false⟩ .put
    ⟨some CF_YANG_DATA_CBOR, [0xBF, 0x05, 0xF5, 0xFF]⟩ := by
  refine (replace_all_or_nothing ⟨[0xBF, 0x05, 0xF5, 0xFF], by decide⟩ _ (Or.inl rfl)).1 fun _ => Or.inr ?_
  refine ⟨.indefinite, [(.uint .immediate 5, .primitive .immediate 21)], .map trivial ?_ ?_, by decide,
    rfl, ⟨⟨trivial, trivial, trivial⟩, trivial, trivial, trivial⟩, Or.inl (by decide)⟩
  · rintro entry (_ | ⟨_, ⟨⟩⟩)
    exact .uint (by decide)
  · rintro entry (_ | ⟨_, ⟨⟩⟩)
    exact .primitive (by decide) (by decide)

/-- A PUT of the head of a map empties a datastore. -/
theorem put_unclosed_empties :
    ¬ ReplacesAllOrNothing bareEnvironment ⟨some (.hashmap (mapOf [(5, .true)])), true⟩ .put
      ⟨some CF_YANG_DATA_CBOR, [0xBF]⟩ := by
  rintro ⟨outcome, handled, whole⟩
  obtain ⟨value, st', decoded, installs⟩ := decodes_of_handles (Or.inl rfl)
    ⟨rfl, List.cons_ne_nil _ _, fun post => by cases post⟩ handled
  cases decoded.unique decodes_unclosed
  rcases whole with ⟨-, error, -⟩ | ⟨framing, entries, map, wellFormed, encoded, -⟩
  · rw [installs.2] at error
    cases error
  · exact encode_ne_unclosed wellFormed encoded.symm

end Coreconf
