import Coreconf.DecoderTermination
import Coreconf.Ipatch
import Coreconf.Post

set_option autoImplicit false

/- The loops of apply_ipatch_raw and parse_post_items as relations, and when they end. -/
namespace Coreconf

open Fuel (Step Monotone Returns Terminates)

/-- The entry loop of one map. -/
def patchEntries (fuel : Nat) : PatchLoop → Option (Step PatchLoop PatchLoop) :=
  patchEntryBody (cborToCoreconfValue fuel)

def patchMaps (fuel : Nat) : PatchMaps → Option (Step PatchMaps (Int × CoreconfHashMapT CoreconfValueT)) :=
  patchMapBody (cborToCoreconfValue fuel) fuel

def postItems (fuel : Nat) : PostLoop → Option (Step PostLoop (Option (List PostItem))) :=
  postItemBody (cborToCoreconfValue fuel)

/-- What the entry loop does with a key and what was decoded after it. -/
def patchEntryStep (loop : PatchLoop) (key : PatchKey) (st : ZcborState) :
    Option CoreconfValueT → Step PatchLoop PatchLoop
  | none => .done { loop with st := st }
  | some val =>
      .next ⟨(applyEntry loop.target key val).1,
        if (applyEntry loop.target key val).2 then loop.count + 1 else loop.count, st⟩

theorem patchEntries_returns_iff {loop : PatchLoop} {step : Step PatchLoop PatchLoop} :
    Returns patchEntries loop step ↔
      if zcborArrayAtEnd loop.st then step = .done loop
      else
        match decodePatchKey loop.st with
        | (none, st) => step = .done { loop with st := st }
        | (some key, st) => ∃ value st', Decodes st 0 (value, st') ∧
            step = patchEntryStep loop key st' value := by
  simp only [Returns, patchEntries, patchEntryBody]
  split
  · simp [eq_comm]
  · rcases decodePatchKey loop.st with ⟨_ | key, st⟩
    · simp [eq_comm]
    · simp only [Option.map_eq_some_iff]
      constructor
      · rintro ⟨fuel, ⟨value, st'⟩, found, same⟩
        refine ⟨value, st', ⟨fuel, found⟩, ?_⟩
        rw [← same]
        cases value <;> rfl
      · rintro ⟨value, st', ⟨fuel, found⟩, rfl⟩
        refine ⟨fuel, _, found, ?_⟩
        cases value <;> rfl

theorem patchEntries_monotone : Monotone patchEntries := by
  refine Monotone.of_extends fun m n loop le => ?_
  simp only [patchEntries, patchEntryBody]
  refine .ite (.refl _) ?_
  split
  · exact .refl _
  · exact (decoder_extends le _ _).map _

theorem patchMaps_returns_iff {maps : PatchMaps}
    {step : Step PatchMaps (Int × CoreconfHashMapT CoreconfValueT)} :
    Returns patchMaps maps step ↔
      if maps.ptr = [] then step = .done (maps.count, maps.target)
      else
        match zcborMapStartDecode (zcborNewDecodeState 8 maps.ptr 1) with
        | (false, _) => step = .done (maps.count, maps.target)
        | (true, st) => ∃ left, Returns (Fuel.iterate patchEntries) ⟨maps.target, maps.count, st⟩ left ∧
            step = .next ⟨left.target, left.count, (zcborMapEndDecode left.st).2.payload⟩ := by
  simp only [Returns, patchMaps, patchMapBody]
  split
  · simp [eq_comm]
  · rcases zcborMapStartDecode (zcborNewDecodeState 8 maps.ptr 1) with ⟨_ | _, st⟩
    · simp [eq_comm]
    · simp only [Option.map_eq_some_iff]
      constructor
      · rintro ⟨fuel, left, looped, same⟩
        exact ⟨left, ⟨fuel, looped⟩, same.symm⟩
      · rintro ⟨left, ⟨fuel, looped⟩, rfl⟩
        exact ⟨fuel, left, looped, rfl⟩

theorem patchMaps_monotone : Monotone patchMaps := by
  refine Monotone.of_extends fun m n maps le => ?_
  simp only [patchMaps, patchMapBody]
  refine .ite (.refl _) ?_
  split
  · exact .refl _
  · exact (Fuel.loop_extends (patchEntries_monotone.extends le) le _).map _

/-- What parse_post_items does with a key and what was decoded after it. -/
def postItemStep (loop : PostLoop) (iid : PostIid) (sid : UInt64) (st : ZcborState) :
    Option CoreconfValueT → Step PostLoop (Option (List PostItem))
  | none => .done none
  | some value =>
      if !zcborArrayAtEnd st then .done none
      else
        match zcborMapEndDecode st with
        | (false, _) => .done none
        | (true, ended) =>
            if ended.payload.length ≥ loop.ptr.length then .done none
            else .next ⟨loop.items ++ [⟨iid, sid, some value⟩], ended.payload⟩

theorem postItems_returns_iff {loop : PostLoop} {step : Step PostLoop (Option (List PostItem))} :
    Returns postItems loop step ↔
      if loop.ptr = [] then step = .done (some loop.items)
      else
        match zcborMapStartDecode (zcborNewDecodeState 12 loop.ptr 1) with
        | (false, _) => step = .done none
        | (true, st) =>
            if zcborArrayAtEnd st then step = .done none
            else
              match decodePostKey st with
              | none => step = .done none
              | some ((iid, sid), st') => ∃ value st'', Decodes st' 0 (value, st'') ∧
                  step = postItemStep loop iid sid st'' value := by
  simp only [Returns, postItems, postItemBody]
  split
  · simp [eq_comm]
  · rcases zcborMapStartDecode (zcborNewDecodeState 12 loop.ptr 1) with ⟨_ | _, st⟩
    · simp [eq_comm]
    · dsimp only
      split
      · simp [eq_comm]
      · rcases decodePostKey st with _ | ⟨⟨iid, sid⟩, st'⟩
        · simp [eq_comm]
        · simp only [Option.map_eq_some_iff]
          constructor
          · rintro ⟨fuel, ⟨value, st''⟩, found, same⟩
            refine ⟨value, st'', ⟨fuel, found⟩, ?_⟩
            rw [← same]
            cases value <;> rfl
          · rintro ⟨value, st'', ⟨fuel, found⟩, rfl⟩
            refine ⟨fuel, _, found, ?_⟩
            cases value <;> rfl

theorem postItems_monotone : Monotone postItems := by
  refine Monotone.of_extends fun m n loop le => ?_
  simp only [postItems, postItemBody]
  refine .ite (.refl _) ?_
  split
  · exact .refl _
  · refine .ite (.refl _) ?_
    split
    · exact .refl _
    · exact (decoder_extends le _ _).map _

end Coreconf
