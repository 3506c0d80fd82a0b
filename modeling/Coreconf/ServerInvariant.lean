import Coreconf.Codec
import Coreconf.PatchMeaning
import Coreconf.Server

set_option autoImplicit false

/- Every datastore the server can reach satisfies the representation invariant. -/
namespace Coreconf

open CoreconfValueT (Valid)
open Fuel (Returns)

variable {target : CoreconfHashMapT CoreconfValueT}

private theorem patchEntries_valid {fuel bound : Nat} {loop left : PatchLoop}
    (valid : Valid (.hashmap loop.target))
    (ran : Fuel.loop (patchEntryBody (cborToCoreconfValue fuel)) bound loop = some left) :
    Valid (.hashmap left.target) := by
  have keep : ∀ loop loop' : PatchLoop, Valid (.hashmap loop.target) →
      patchEntryBody (cborToCoreconfValue fuel) loop = some (.next loop') →
        Valid (.hashmap loop'.target) := by
    intro loop loop' valid again
    unfold patchEntryBody at again
    split at again
    · cases again
    · split at again
      · cases again
      · obtain ⟨⟨value, st⟩, decoded, same⟩ := Option.map_eq_some_iff.mp again
        cases value with
        | none => cases same
        | some val =>
            cases same
            exact applyEntry_valid valid (Decodes.of_fuel decoded).valid _
  have exit : ∀ loop left : PatchLoop, Valid (.hashmap loop.target) →
      patchEntryBody (cborToCoreconfValue fuel) loop = some (.done left) →
        Valid (.hashmap left.target) := by
    intro loop left valid done
    unfold patchEntryBody at done
    split at done
    · cases done
      exact valid
    · split at done
      · cases done
        exact valid
      · obtain ⟨⟨value, st⟩, decoded, same⟩ := Option.map_eq_some_iff.mp done
        cases value with
        | none =>
            cases same
            exact valid
        | some val => cases same
  exact Fuel.loop_invariant keep exit valid ran

theorem applyIpatchRaw_valid {fuel : Nat} {data : List UInt8} {n : Int} {datastore : CoreconfValueT}
    (valid : Valid (.hashmap target))
    (ran : applyIpatchRaw fuel (.hashmap target) data = some (n, datastore)) :
    ∃ target', datastore = .hashmap target' ∧ Valid (.hashmap target') := by
  unfold applyIpatchRaw at ran
  dsimp only at ran
  split at ran
  · cases ran
    exact ⟨target, rfl, valid⟩
  · obtain ⟨⟨count, target'⟩, looped, same⟩ := Option.map_eq_some_iff.mp ran
    cases same
    have keep : ∀ maps maps' : PatchMaps, Valid (.hashmap maps.target) →
        patchMapBody (cborToCoreconfValue fuel) fuel maps = some (.next maps') →
          Valid (.hashmap maps'.target) := by
      intro maps maps' valid again
      unfold patchMapBody at again
      split at again
      · cases again
      · split at again
        · cases again
        · obtain ⟨left, entries, same⟩ := Option.map_eq_some_iff.mp again
          cases same
          exact patchEntries_valid valid entries
    have exit : ∀ (maps : PatchMaps) (left : Int × CoreconfHashMapT CoreconfValueT),
        Valid (.hashmap maps.target) →
          patchMapBody (cborToCoreconfValue fuel) fuel maps = some (.done left) →
            Valid (.hashmap left.2) := by
      intro maps left valid done
      unfold patchMapBody at done
      split at done
      · cases done
        exact valid
      · split at done
        · cases done
          exact valid
        · obtain ⟨left, entries, same⟩ := Option.map_eq_some_iff.mp done
          cases same
    have start : Valid (.hashmap (PatchMaps.mk target 0 data).target) := valid
    exact ⟨target', rfl, Fuel.loop_invariant keep exit start looped⟩

/-- A handler that was called with this request has returned this. -/
def Handles (env : Environment) (s : ServerState) (method : Method) (req : Request)
    (outcome : Outcome) : Prop :=
  ∃ fuel, handle env fuel s method req = some outcome

/-- The states of the server from start-up on. -/
inductive Reachable (env : Environment) : ServerState → Prop
  | start : Reachable env (initIetfExampleDatastore env.sysSids env.ifSids)
  | step {s method req outcome} (reached : Reachable env s)
      (handled : Handles env s method req outcome) : Reachable env outcome.state

/-- An error answer that changed nothing. -/
def Outcome.Rejects (outcome : Outcome) (s : ServerState) : Prop :=
  outcome.state = s ∧ outcome.response.code.isError ∧ outcome.effects = []

@[simp] theorem reject_code (s : ServerState) (code : ResponseCode) (esid : Nat) (msg : String) :
    (reject s code esid msg).response.code = code := by
  simp only [reject, sendError]
  split <;> rfl

theorem reject_rejects (s : ServerState) {code : ResponseCode} (error : code.isError)
    (esid : Nat) (msg : String) : (reject s code esid msg).Rejects s :=
  ⟨rfl, by rwa [reject_code], rfl⟩

theorem parseRequest_decodes {fuel : Nat} {data : List UInt8} {value : CoreconfValueT}
    (parsed : parseRequest fuel data = some (some value)) :
    data ≠ [] ∧ ∃ st', Decodes (zcborNewDecodeState 8 data 1) 0 (some value, st') := by
  have present : data ≠ [] := by
    rintro rfl
    cases parsed
  exact ⟨present, (parseRequest_returns_iff present).mp ⟨fuel, parsed⟩⟩

/-- A PUT is rejected, or installs the map that was decoded from its payload. -/
theorem handlePut_cases {fuel : Nat} {s : ServerState} {req : Request} {outcome : Outcome}
    (handled : handlePut fuel s req = some outcome) :
    outcome.Rejects s ∨ ∃ map st', req.payload ≠ [] ∧
      Decodes (zcborNewDecodeState 8 req.payload 1) 0 (some (.hashmap map), st') ∧
      outcome.state = ⟨some (.hashmap map), true⟩ ∧ outcome.response = ⟨.changed, none, []⟩ := by
  unfold handlePut at handled
  split at handled
  · cases handled
    exact Or.inl (reject_rejects s rfl _ _)
  · split at handled
    · cases handled
      exact Or.inl (reject_rejects s rfl _ _)
    · obtain ⟨parsed, found, same⟩ := Option.map_eq_some_iff.mp handled
      split at same
      · rename_i map
        cases same
        obtain ⟨nonempty, st', decoded⟩ := parseRequest_decodes found
        exact Or.inr ⟨map, st', nonempty, decoded, rfl, rfl⟩
      · cases same
        exact Or.inl (reject_rejects s rfl _ _)

theorem handlePostCreate_cases {fuel : Nat} {s : ServerState} {req : Request} {outcome : Outcome}
    (handled : handlePostCreate fuel s req = some outcome) :
    outcome.Rejects s ∨ ∃ map st', req.payload ≠ [] ∧ s.current = none ∧
      Decodes (zcborNewDecodeState 8 req.payload 1) 0 (some (.hashmap map), st') ∧
      outcome.state = ⟨some (.hashmap map), true⟩ ∧ outcome.response = ⟨.created, none, []⟩ := by
  unfold handlePostCreate at handled
  split at handled
  · cases handled
    exact Or.inl (reject_rejects s rfl _ _)
  · split at handled
    · cases handled
      exact Or.inl (reject_rejects s rfl _ _)
    · rename_i absent
      obtain ⟨parsed, found, same⟩ := Option.map_eq_some_iff.mp handled
      split at same
      · rename_i map
        cases same
        obtain ⟨nonempty, st', decoded⟩ := parseRequest_decodes found
        refine Or.inr ⟨map, st', nonempty, ?_, decoded, rfl, rfl⟩
        simpa using absent
      · cases same
        exact Or.inl (reject_rejects s rfl _ _)

/-- Invoking operations never changes the state. -/
theorem handlePostInvoke_state {env : Environment} {fuel : Nat} {s : ServerState} {req : Request}
    {outcome : Outcome} (handled : handlePostInvoke env fuel s req = some outcome) :
    outcome.state = s := by
  unfold handlePostInvoke at handled
  split at handled
  · cases handled
    rfl
  · obtain ⟨parsed, -, same⟩ := Option.map_eq_some_iff.mp handled
    split at same
    · cases same
      rfl
    · split at same
      · cases same
        rfl
      · split at same <;> cases same <;> rfl

theorem handleIpatch_cases {fuel : Nat} {s : ServerState} {req : Request} {outcome : Outcome}
    (handled : handleIpatch fuel s req = some outcome) :
    outcome.Rejects s ∨ ∃ datastore n datastore', getContentFormat req = CF_YANG_INSTANCES ∧
      req.payload ≠ [] ∧ s.current = some datastore ∧
      applyIpatchRaw fuel datastore req.payload = some (n, datastore') ∧
      outcome.state = { s with datastore := some datastore' } ∧ outcome.response = ⟨.changed, none, []⟩ ∧
      outcome.effects = if n ≥ 0 then [.pushNotificationSequence req.payload, .notifyStreamObservers] else [] := by
  unfold handleIpatch at handled
  split at handled
  · cases handled
    exact Or.inl (reject_rejects s rfl _ _)
  · rename_i format
    split at handled
    · cases handled
      exact Or.inl (reject_rejects s rfl _ _)
    · rename_i nonempty
      split at handled
      · cases handled
        exact Or.inl (reject_rejects s rfl _ _)
      · rename_i datastore current
        obtain ⟨⟨n, datastore'⟩, applied, same⟩ := Option.map_eq_some_iff.mp handled
        cases same
        exact Or.inr ⟨datastore, n, datastore', not_not.mp format, nonempty, current, applied, rfl, rfl, rfl⟩

theorem handleGet_state (s : ServerState) : (handleGet s).state = s := by
  unfold handleGet
  split
  · rfl
  · split
    · rfl
    · split <;> rfl

theorem handleFetch_state (s : ServerState) (req : Request) : (handleFetch s req).state = s := by
  unfold handleFetch
  split
  · rfl
  · split
    · rfl
    · split
      · rfl
      · split <;> rfl

theorem handleDelete_state (s : ServerState) :
    (handleDelete s).state = s ∨ (handleDelete s).state = ⟨none, false⟩ := by
  unfold handleDelete
  split
  · exact Or.inl rfl
  · exact Or.inr rfl

/-- Everything a request can do to the datastore. -/
theorem Handles.state_cases {env : Environment} {s : ServerState} {method : Method} {req : Request}
    {outcome : Outcome} (handled : Handles env s method req outcome) :
    outcome.state = s ∨ outcome.state = ⟨none, false⟩ ∨
    (∃ map st', Decodes (zcborNewDecodeState 8 req.payload 1) 0 (some (.hashmap map), st') ∧
      outcome.state = ⟨some (.hashmap map), true⟩) ∨
    (∃ fuel datastore n datastore', s.current = some datastore ∧
      applyIpatchRaw fuel datastore req.payload = some (n, datastore') ∧
      outcome.state = { s with datastore := some datastore' }) := by
  obtain ⟨fuel, handled⟩ := handled
  cases method with
  | get =>
      cases handled
      exact Or.inl (handleGet_state s)
  | fetch =>
      cases handled
      exact Or.inl (handleFetch_state s req)
  | delete =>
      cases handled
      rcases handleDelete_state s with same | deleted
      · exact Or.inl same
      · exact Or.inr (Or.inl deleted)
  | put =>
      rcases handlePut_cases handled with rejected | ⟨map, st', -, decoded, state, -⟩
      · exact Or.inl rejected.1
      · exact Or.inr (Or.inr (Or.inl ⟨map, st', decoded, state⟩))
  | post =>
      simp only [handle, handlePost] at handled
      split at handled
      · rcases handlePostCreate_cases handled with rejected | ⟨map, st', -, -, decoded, state, -⟩
        · exact Or.inl rejected.1
        · exact Or.inr (Or.inr (Or.inl ⟨map, st', decoded, state⟩))
      · split at handled
        · cases handled
          exact Or.inl rfl
        · exact Or.inl (handlePostInvoke_state handled)
  | ipatch =>
      rcases handleIpatch_cases handled with rejected | ⟨datastore, n, datastore', -, -, current, applied, state, -⟩
      · exact Or.inl rejected.1
      · exact Or.inr (Or.inr (Or.inr ⟨fuel, datastore, n, datastore', current, applied, state⟩))

/-- No datastore, or one hash map that is valid throughout. -/
def ServerState.Invariant (s : ServerState) : Prop :=
  (s.datastore = none ∧ s.dsExists = false) ∨
    (s.dsExists = true ∧ ∃ map, s.datastore = some (.hashmap map) ∧ Valid (.hashmap map))

theorem mapOf_valid {members : List (UInt64 × CoreconfValueT)} (each : ∀ member ∈ members, member.2.Valid) :
    Valid (.hashmap (mapOf members)) := by
  have fold : ∀ map : CoreconfHashMapT CoreconfValueT, Valid (.hashmap map) →
      Valid (.hashmap (members.foldl (fun map member =>
        (insertCoreconfHashMap map member.1 (some member.2)).2) map)) := by
    induction members with
    | nil => exact fun map valid => valid
    | cons member rest ih =>
        obtain ⟨first, others⟩ := List.forall_mem_cons.mp each
        exact fun map valid => ih others _ (valid.insert first member.1)
  exact fold _ CoreconfValueT.valid_createCoreconfHashmap

theorem initIetfExampleDatastore_invariant (sys : RuntimeSystemSids) (ifs : RuntimeInterfacesSids) :
    (initIetfExampleDatastore sys ifs).Invariant := by
  have boolean : ∀ b, (createCoreconfBoolean b).Valid := by
    intro b
    cases b <;> exact .leaf rfl
  have literal : ∀ s, (createCoreconfString s).Valid := fun s => .leaf rfl
  have number : ∀ u, (CoreconfValueT.uint64 u).Valid := fun u => .leaf rfl
  unfold initIetfExampleDatastore
  split
  · exact Or.inl ⟨rfl, rfl⟩
  · refine Or.inr ⟨rfl, _, rfl, mapOf_valid ?_⟩
    simp only [addToCoreconfArray, List.nil_append, List.forall_mem_cons]
    refine ⟨mapOf_valid ?_, .array ?_, boolean _, .array ?_, by simp⟩
    · simp [literal]
    · simp only [List.forall_mem_cons]
      exact ⟨mapOf_valid (by simp [literal, boolean, number]), by simp⟩
    · simp only [List.forall_mem_cons]
      refine ⟨mapOf_valid ?_, by simp⟩
      simp only [List.forall_mem_cons]
      exact ⟨literal _, boolean _, mapOf_valid (by simp [literal]), by simp⟩

theorem ServerState.Invariant.handles {env : Environment} {s : ServerState} (inv : s.Invariant)
    {method : Method} {req : Request} {outcome : Outcome}
    (handled : Handles env s method req outcome) : outcome.state.Invariant := by
  rcases handled.state_cases with same | deleted | ⟨map, st', decoded, installed⟩ |
    ⟨fuel, datastore, n, datastore', current, applied, state⟩
  · exact same ▸ inv
  · exact deleted ▸ Or.inl ⟨rfl, rfl⟩
  · exact installed ▸ Or.inr ⟨rfl, map, rfl, decoded.valid⟩
  · rcases inv with ⟨absent, flag⟩ | ⟨flag, map, present, valid⟩
    · rw [ServerState.current, flag] at current
      cases current
    · rw [ServerState.current, if_pos flag, present] at current
      cases current
      obtain ⟨target', rfl, valid'⟩ := applyIpatchRaw_valid valid applied
      rw [state]
      exact Or.inr ⟨flag, target', rfl, valid'⟩

theorem Reachable.invariant {env : Environment} {s : ServerState} (reached : Reachable env s) :
    s.Invariant := by
  induction reached with
  | start => exact initIetfExampleDatastore_invariant _ _
  | step reached handled ih => exact ih.handles handled

theorem Reachable.current {env : Environment} {s : ServerState} (reached : Reachable env s)
    (present : s.current.isSome) :
    ∃ root, s.current = some (.hashmap root) ∧ Valid (.hashmap root) := by
  rcases reached.invariant with ⟨-, flag⟩ | ⟨flag, map, datastore, valid⟩
  · rw [ServerState.current, flag] at present
    cases present
  · exact ⟨map, by rw [ServerState.current, if_pos flag, datastore], valid⟩

/-- In every state from start-up on there is no datastore, or a hash map in which every
nested map is one object per key in its bucket, without NULL, and counted. -/
theorem reachable_datastore {env : Environment} {s : ServerState} (reached : Reachable env s) :
    (s.datastore = none ∧ s.dsExists = false) ∨
      (s.dsExists = true ∧ ∃ map, s.datastore = some (.hashmap map) ∧ Valid (.hashmap map)) :=
  reached.invariant

theorem put_bare : Handles bareEnvironment ⟨none, false⟩ .put
    ⟨some CF_YANG_DATA_CBOR, [0xA1, 0x01, 0x02]⟩
    ⟨⟨some (.hashmap (mapOf [(1, .uint64 2)])), true⟩, ⟨.changed, none, []⟩,
      [.pushNotificationMap [0xA1, 0x01, 0x02], .notifyStreamObservers]⟩ :=
  ⟨3, rfl⟩

theorem reachable_datastore_put :
    ((some (CoreconfValueT.hashmap (mapOf [(1, .uint64 2)]))) = none ∧ true = false) ∨
      (true = true ∧ ∃ map, some (CoreconfValueT.hashmap (mapOf [(1, .uint64 2)])) =
        some (.hashmap map) ∧ Valid (.hashmap map)) :=
  @reachable_datastore bareEnvironment _ (.step .start put_bare)

end Coreconf
