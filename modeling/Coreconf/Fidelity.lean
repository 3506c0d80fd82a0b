import Coreconf.ServerInvariant

set_option autoImplicit false

/- What a client reads of the datastore with GET, over whole runs of the server. -/
namespace Coreconf

open CoreconfValueT (Fits Valid)
open Fuel (Returns)

/-- One request and its answer, from the state it found. -/
structure Exchange where
  before : ServerState
  method : Method
  request : Request
  outcome : Outcome

/-- Requests handled in turn, each in the state the one before left. -/
inductive Run (env : Environment) : ServerState → List Exchange → Prop
  | nil (s) : Run env s []
  | cons {s method request outcome later} (handled : Handles env s method request outcome)
      (rest : Run env outcome.state later) : Run env s (⟨s, method, request, outcome⟩ :: later)

/-- The client's value of a response is the content of the server's datastore. -/
def Faithful (s : ServerState) (payload : List UInt8) : Prop :=
  ∃ datastore value, s.datastore = some datastore ∧
    Returns parseGetResponse payload (some value) ∧ value.toTree = datastore.toTree

/-- A datastore that fits the buffer nests at most six containers of at most 51 entries
each, and one that does not is not cut inside a nested map. -/
def Readable (s : ServerState) : Prop :=
  ∀ map, s.datastore = some (.hashmap map) →
    ReportsMembers map.objects (BUFFER_SIZE - 1) ∧
    ((CoreconfValueT.hashmap map).toItem.encode.length ≤ BUFFER_SIZE → Fits 6 (.hashmap map))

private theorem parseGetResponse_encode {map : CoreconfHashMapT CoreconfValueT}
    (fits : Fits 6 (.hashmap map))
    (room : (CoreconfValueT.hashmap map).toItem.encode.length ≤ BUFFER_SIZE) :
    ∃ value, Returns parseGetResponse (CoreconfValueT.hashmap map).toItem.encode (some value) ∧
      value.toTree = (CoreconfValueT.hashmap map).toTree := by
  obtain ⟨value, read, same⟩ := fits.readable
  have object : (CoreconfValueT.hashmap map).toItem.encode.length < 2 ^ 63 :=
    room.trans_lt (by decide)
  exact ⟨value, parseRequest_item ⟨_, object⟩ fits.wellFormed rfl read fits.depth_le, same⟩

theorem handleGet_faithful {s : ServerState} (inv : s.Invariant) (readable : Readable s)
    (answered : (handleGet s).response.code = .content) :
    Faithful s (handleGet s).response.payload := by
  rcases inv with ⟨absent, flag⟩ | ⟨flag, map, present, valid⟩
  · simp [handleGet, ServerState.current, flag] at answered
  · have current : s.current = some (.hashmap map) := by
      rw [ServerState.current, if_pos flag, present]
    obtain ⟨reports, fits⟩ := readable map present
    have encoded := createMapPayload_eq BUFFER_SIZE
      (fun empty => List.eq_nil_of_length_eq_zero (valid.repInv.size_eq ▸ empty)) valid.noNull reports
    rw [handleGet, current] at answered ⊢
    dsimp only at answered ⊢
    split at answered
    · simp at answered
    · rename_i nonempty
      rw [if_neg nonempty]
      rw [createGetResponse, encoded] at answered ⊢
      by_cases room : (CoreconfValueT.hashmap map).toItem.encode.length ≤ BUFFER_SIZE
      · rw [if_pos room]
        obtain ⟨value, parsed, same⟩ := parseGetResponse_encode (fits room) room
        exact ⟨_, value, present, parsed, same⟩
      · rw [if_neg room] at answered
        simp at answered

private theorem run_faithful {env : Environment} {s : ServerState} {exchanges : List Exchange}
    (run : Run env s exchanges) (inv : s.Invariant)
    (readable : ∀ exchange ∈ exchanges, exchange.method = .get → Readable exchange.before) :
    ∀ exchange ∈ exchanges, exchange.method = .get →
      exchange.outcome.response.code = .content →
        Faithful exchange.before exchange.outcome.response.payload := by
  induction run with
  | nil => simp
  | cons handled rest ih =>
      obtain ⟨first, others⟩ := List.forall_mem_cons.mp readable
      refine List.forall_mem_cons.mpr ⟨?_, ih (inv.handles handled) others⟩
      intro isGet answered
      dsimp only at isGet answered ⊢
      subst isGet
      obtain ⟨fuel, same⟩ := handled
      cases same
      exact handleGet_faithful inv (first rfl) answered

/-- In a run from start-up every GET that answers 2.05 in a readable state is read by
the client as the server's datastore. -/
theorem get_fidelity {env : Environment} {exchanges : List Exchange}
    (run : Run env (initIetfExampleDatastore env.sysSids env.ifSids) exchanges)
    (readable : ∀ exchange ∈ exchanges, exchange.method = .get → Readable exchange.before) :
    ∀ exchange ∈ exchanges, exchange.method = .get →
      exchange.outcome.response.code = .content →
        Faithful exchange.before exchange.outcome.response.payload :=
  run_faithful run (initIetfExampleDatastore_invariant _ _) readable

theorem get_fidelity_put_get :
    Faithful ⟨some (.hashmap (mapOf [(5, .true)])), true⟩ [0xBF, 0x05, 0xF5, 0xFF] := by
  refine @get_fidelity bareEnvironment
    [⟨⟨none, false⟩, .put, ⟨some CF_YANG_DATA_CBOR, [0xA1, 0x05, 0xF5]⟩,
        ⟨⟨some (.hashmap (mapOf [(5, .true)])), true⟩, ⟨.changed, none, []⟩,
          [.pushNotificationMap [0xA1, 0x05, 0xF5], .notifyStreamObservers]⟩⟩,
      ⟨⟨some (.hashmap (mapOf [(5, .true)])), true⟩, .get, ⟨none, []⟩,
        ⟨⟨some (.hashmap (mapOf [(5, .true)])), true⟩,
          ⟨.content, some CF_YANG_DATA_CBOR, [0xBF, 0x05, 0xF5, 0xFF]⟩, []⟩⟩]
    (.cons ⟨3, rfl⟩ (.cons ⟨1, rfl⟩ (.nil _))) ?_ _
    (List.mem_cons_of_mem _ List.mem_cons_self) rfl rfl
  rintro exchange (_ | ⟨_, _ | ⟨_, ⟨⟩⟩⟩) isGet
  · cases isGet
  · rintro map same
    cases same
    have objects : (mapOf [(5, .true)]).objects = [⟨5, some .true⟩] := rfl
    refine ⟨objects ▸ fun _ => ⟨trivial, fun _ => trivial⟩, fun _ => .hashmap ?_ ?_ ?_ ?_⟩
    all_goals rw [objects]
    · simp
    · decide
    · simp
    · rintro object (_ | ⟨_, ⟨⟩⟩) value same
      cases same
      exact .leaf rfl (by simp)

/-- A map of one member. -/
private def single (value : CoreconfValueT) : CoreconfValueT := .hashmap (mapOf [(1, value)])

/-- Six maps in one another around an empty array, one container too deep. -/
private def seventh : CoreconfValueT :=
  single (single (single (single (single (.array [])))))

private def before : CoreconfHashMapT CoreconfValueT := mapOf [(5, .uint64 7), (1, seventh)]

private def read : CoreconfHashMapT CoreconfValueT := mapOf [(1, seventh)]

private def seventhRequest : List UInt8 :=
  [0xA2, 0x05, 0x07, 0x01, 0xA1, 0x01, 0xA1, 0x01, 0xA1, 0x01, 0xA1, 0x01, 0xA1, 0x01, 0x80]

private def seventhResponse : List UInt8 :=
  [0xBF, 0x01, 0xBF, 0x01, 0xBF, 0x01, 0xBF, 0x01, 0xBF, 0x01, 0xBF, 0x01, 0x9F, 0xFF, 0xFF, 0xFF,
    0xFF, 0xFF, 0xFF, 0x05, 0x07, 0xFF]

private theorem put_seventh : Handles bareEnvironment ⟨none, false⟩ .put
    ⟨some CF_YANG_DATA_CBOR, seventhRequest⟩
    ⟨⟨some (.hashmap before), true⟩, ⟨.changed, none, []⟩,
      [.pushNotificationMap seventhRequest, .notifyStreamObservers]⟩ :=
  ⟨9, rfl⟩

private theorem get_seventh : Handles bareEnvironment ⟨some (.hashmap before), true⟩ .get ⟨none, []⟩
    ⟨⟨some (.hashmap before), true⟩, ⟨.content, some CF_YANG_DATA_CBOR, seventhResponse⟩, []⟩ := by
  have encoded : createGetResponse BUFFER_SIZE (.hashmap before) = some seventhResponse := by
    decide +kernel
  refine ⟨0, congrArg some ?_⟩
  simp only [handleGet, ServerState.current, ↓reduceIte, encoded]
  exact if_neg (by decide +kernel)

private theorem parse_seventh : parseGetResponse 9 seventhResponse = some (some (.hashmap read)) := rfl

private theorem single_valid {value : CoreconfValueT} (valid : value.Valid) : (single value).Valid :=
  mapOf_valid (by simpa using valid)

private theorem seventh_valid : seventh.Valid :=
  single_valid (single_valid (single_valid (single_valid (single_valid (.array (by simp))))))

/-- The server takes an array in a seventh container for empty, and GET sends it; the
client, which cannot open it, loses the SID that follows. -/
theorem get_loses_sid :
    ∃ exchanges, Run bareEnvironment (initIetfExampleDatastore bareEnvironment.sysSids
        bareEnvironment.ifSids) exchanges ∧
      ∃ exchange ∈ exchanges, exchange.method = .get ∧
        exchange.outcome.response.code = .content ∧
        ¬ Faithful exchange.before exchange.outcome.response.payload := by
  refine ⟨_, .cons put_seventh (.cons get_seventh (.nil _)), _,
    List.mem_cons_of_mem _ List.mem_cons_self, rfl, rfl, ?_⟩
  rintro ⟨datastore, value, present, parsed, same⟩
  cases present
  cases Fuel.Returns.unique parseRequest_monotone parsed ⟨9, parse_seventh⟩
  have sent : Valid (.hashmap before) :=
    mapOf_valid (by simpa using ⟨.leaf rfl, seventh_valid⟩)
  have kept : Valid (.hashmap read) := mapOf_valid (by simpa using seventh_valid)
  rw [CoreconfHashMapT.toTree_hashmap, CoreconfHashMapT.toTree_hashmap, Tree.map.injEq] at same
  have five := congrArg (fun content => (FinMap.lookup (5 : UInt64).toNat content).isSome) same
  simp only [sent.repInv.lookup_content_get, kept.repInv.lookup_content_get, Option.isSome_map] at five
  have lost : (getCoreconfHashMap read 5).isSome = false := by decide +kernel
  have stored : (getCoreconfHashMap before 5).isSome = true := by decide +kernel
  rw [lost, stored] at five
  cases five

end Coreconf
