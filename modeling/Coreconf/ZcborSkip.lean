import Coreconf.Fuel
import Coreconf.ZcborDecode

set_option autoImplicit false

/- zcbor_any_skip of zcbor_decode.c. It recurses into containers, so it is a function of
a fuel; `none` is fuel that did not suffice. -/
namespace Coreconf

open Fuel (Step Monotone Extends)

/-- The element is given back: a tag is part of what it tags. -/
def zcborTagDecode (st : ZcborState) : Option (Nat × ZcborState) :=
  if typeCheck st .tag then
    match valueExtractFixed st 4 with
    | some (tag, st') => some (tag, { st' with elemCount := st'.elemCount + 1 })
    | none => none
  else none

/-- A string that is too long for the payload fails with the caller's state put back to
where its last value began; other failures leave it as it was. After a success the payload
pointer may be past the end, by so many bytes. -/
inductive SkipResult where
  | skipped (st : ZcborState) (past : Nat)
  | failed
  | restored

def skipTagBody (st : ZcborState) : Option (Step ZcborState (Option ZcborState)) :=
  if majorTypeAt st.payload = some .tag then
    match zcborTagDecode st with
    | none => some (.done none)
    | some (_, st') => if st'.payload = [] then some (.done none) else some (.next st')
  else some (.done (some st))

def skipMemberBody (skip : ZcborState → Option SkipResult) :
    ZcborState × Nat → Option (Step (ZcborState × Nat) (Option (ZcborState × Nat)))
  | (st, past) =>
      if zcborArrayAtEnd st then some (.done (some (st, past)))
      else
        (skip st).map fun
          | .skipped st' past' => .next (st', past')
          | _ => .done none

/-- The members of a container are skipped in a copy of the state. -/
def skipMembers (skip : ZcborState → Option SkipResult) (fuel : Nat) (st entered : ZcborState) :
    Option SkipResult :=
  (Fuel.loop (skipMemberBody skip) fuel (entered, 0)).map fun
    | none => .failed
    | some (left, past) =>
        let ended := if entered.indefiniteLengthArray then arrayEndExpect left else some left
        match ended with
        | none => .failed
        | some left => .skipped { st with payload := left.payload, elemCount := st.elemCount - 1 } past

/-- The copy of the state at the first member; a map has two for each entry it counts. -/
def skipEnter (copy : ZcborState) (isMap : Bool) : Option ZcborState :=
  match valueExtract copy 8 true with
  | none => none
  | some (.indefinite, copy) =>
      some { copy with elemCount := ZCBOR_LARGE_ELEM_COUNT, indefiniteLengthArray := true }
  | some (.value n, copy) =>
      if isMap then
        if n > ZCBOR_MAX_ELEM_COUNT / 2 then none
        else some { copy with elemCount := 2 * n, indefiniteLengthArray := false }
      else some { copy with elemCount := n, indefiniteLengthArray := false }

/-- The length of a string is compared with the payload from before its tags and head on, so
it may be longer than what is left after them. -/
def skipScalar (st copy : ZcborState) (majorType : Option ZcborMajorType) : SkipResult :=
  match valueExtractFixed copy 8 with
  | none => .failed
  | some (n, copy) =>
      if majorType = some .bstr ∨ majorType = some .tstr then
        if n > st.payload.length then .restored
        else
          .skipped { st with payload := copy.payload.drop n, elemCount := st.elemCount - 1 }
            (n - copy.payload.length)
      else .skipped { st with payload := copy.payload, elemCount := st.elemCount - 1 } 0

/-- What is skipped after the tags. -/
def skipValue (skip : ZcborState → Option SkipResult) (fuel : Nat) (st copy : ZcborState) :
    Option SkipResult :=
  match majorTypeAt copy.payload with
  | some .list =>
      match skipEnter copy false with
      | none => some .failed
      | some entered => skipMembers skip fuel st entered
  | some .map =>
      match skipEnter copy true with
      | none => some .failed
      | some entered => skipMembers skip fuel st entered
  | majorType => some (skipScalar st copy majorType)

def zcborAnySkip : Nat → ZcborState → Option SkipResult
  | 0, _ => none
  | fuel + 1, st =>
      if st.payload = [] then some .failed
      else
        match Fuel.loop skipTagBody fuel st with
        | none => none
        | some none => some .failed
        | some (some copy) => skipValue (zcborAnySkip fuel) fuel st copy

theorem skipMemberBody_extends {skip skip' : ZcborState → Option SkipResult}
    (le : ∀ st, Extends (skip st) (skip' st)) (loop : ZcborState × Nat) :
    Extends (skipMemberBody skip loop) (skipMemberBody skip' loop) := by
  obtain ⟨st, past⟩ := loop
  simp only [skipMemberBody]
  exact .ite (.refl _) ((le st).map _)

private theorem skipMembers_extends {skip skip' : ZcborState → Option SkipResult}
    (le : ∀ st, Extends (skip st) (skip' st)) {m n : Nat} (fuel : m ≤ n) (st entered : ZcborState) :
    Extends (skipMembers skip m st entered) (skipMembers skip' n st entered) :=
  (Fuel.loop_extends (skipMemberBody_extends le) fuel _).map _

theorem skipValue_extends {skip skip' : ZcborState → Option SkipResult}
    (le : ∀ st, Extends (skip st) (skip' st)) {m n : Nat} (fuel : m ≤ n) (st copy : ZcborState) :
    Extends (skipValue skip m st copy) (skipValue skip' n st copy) := by
  rw [skipValue, skipValue]
  split
  · split
    · exact .refl _
    · exact skipMembers_extends le fuel st _
  · split
    · exact .refl _
    · exact skipMembers_extends le fuel st _
  · exact .refl _

theorem zcborAnySkip_monotone : Monotone zcborAnySkip := by
  apply Monotone.of_succ
  intro n
  induction n with
  | zero => intro st r ran; cases ran
  | succ n ih =>
      intro st
      have less : ∀ st, Extends (zcborAnySkip n st) (zcborAnySkip (n + 1) st) := fun st => ih st
      rw [zcborAnySkip, zcborAnySkip]
      refine Extends.ite (.refl _) ?_
      cases tags : Fuel.loop skipTagBody n st with
      | none => exact fun r ran => by cases ran
      | some copy =>
          rw [Fuel.loop_extends (fun st => Extends.refl (skipTagBody st)) (Nat.le_succ n) st tags]
          cases copy with
          | none => exact .refl _
          | some copy => exact skipValue_extends less (Nat.le_succ n) st copy

end Coreconf
