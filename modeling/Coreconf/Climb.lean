import Mathlib.Data.List.Nodup
import Mathlib.Logic.Function.Basic

set_option autoImplicit false

/- Ways up where every place has a stack of the places above it, and a step takes the last of
them off. A way that comes back to a place goes on to another one. It ends where it arrives at
the stop, or is lost at a place without a stack. -/
namespace Climb

variable {K : Type} {stop : K}

abbrev Stacks (K : Type) : Type := K → Option (List K)

/-- The place a step goes to. From an empty stack it is the stop. -/
def above (stop : K) (stack : List K) : K := stack.getLast?.getD stop

@[simp] theorem above_append (below : List K) (last : K) : above stop (below ++ [last]) = last := by
  simp [above]

/-- Where the places of a stack are distinct, its next step changes when the last of them is
taken, unless that one is the stop and the only one. -/
theorem above_rest_iff {stack rest : List K} (nonempty : stack ≠ []) (distinct : stack.Nodup)
    (front : rest <+: stack.dropLast) (once : above stop stack = stop → rest = stack.dropLast) :
    above stop rest = above stop stack ↔ stack = [stop] := by
  obtain ⟨below, last, rfl⟩ : ∃ below last, stack = below ++ [last] :=
    ⟨_, _, (List.dropLast_append_getLast nonempty).symm⟩
  rw [List.dropLast_concat] at front once
  rw [above_append] at once ⊢
  have fresh : last ∉ below := by
    intro member
    exact List.disjoint_of_nodup_append distinct member List.mem_cons_self
  constructor
  · intro same
    rcases List.eq_nil_or_concat rest with rfl | ⟨below', last', rfl⟩
    · have top : last = stop := same.symm
      rw [← once top, top, List.nil_append]
    · rw [List.concat_eq_append, above_append] at same
      have member : last' ∈ below := front.subset (by simp)
      exact absurd (same ▸ member) fresh
  · intro single
    obtain ⟨rfl, top⟩ : below = [] ∧ last = stop := by simpa [List.append_eq_singleton_iff] using single
    rw [once top]
    exact top.symm

/-- The places above have stacks themselves, as far as the stop. -/
def Closed (stop : K) (stackAt : Stacks K) : Prop :=
  ∀ place stack, stackAt place = some stack → ∀ next ∈ stack, next = stop ∨ (stackAt next).isSome

theorem Closed.above {stackAt : Stacks K} (closed : Closed stop stackAt) {place : K} {stack : List K}
    (present : stackAt place = some stack) :
    above stop stack = stop ∨ (stackAt (above stop stack)).isSome := by
  rw [Climb.above]
  cases last : stack.getLast? with
  | none => exact Or.inl rfl
  | some next => exact closed place stack present next (List.mem_of_getLast? last)

variable [DecidableEq K]

/-- The places whose stacks are popped, the stacks that are left, and whether the way arrives. -/
inductive Way (stop : K) : Stacks K → K → List K → Stacks K → Bool → Prop
  | arrived {stackAt} : Way stop stackAt stop [] stackAt true
  | lost {stackAt place} (away : place ≠ stop) (absent : stackAt place = none) :
      Way stop stackAt place [] stackAt false
  | up {stackAt place stack places left arrived} (away : place ≠ stop) (present : stackAt place = some stack)
      (later : Way stop (Function.update stackAt place (some stack.dropLast)) (above stop stack) places left
        arrived) : Way stop stackAt place (place :: places) left arrived

def Lost (stop : K) (stackAt : Stacks K) (place : K) : Prop := ∃ places left, Way stop stackAt place places left false

theorem Way.unique {stackAt left left' : Stacks K} {place : K} {places places' : List K} {arrived arrived' : Bool}
    (way : Way stop stackAt place places left arrived) (way' : Way stop stackAt place places' left' arrived') :
    places = places' ∧ left = left' ∧ arrived = arrived' := by
  induction way generalizing places' left' arrived' with
  | arrived =>
      cases way' with
      | arrived => exact ⟨rfl, rfl, rfl⟩
      | lost away => exact absurd rfl away
      | up away => exact absurd rfl away
  | lost away absent =>
      cases way' with
      | arrived => exact absurd rfl away
      | lost => exact ⟨rfl, rfl, rfl⟩
      | up _ present => exact absurd (absent.symm.trans present) (by simp)
  | up away present later ih =>
      cases way' with
      | arrived => exact absurd rfl away
      | lost _ absent => exact absurd (absent.symm.trans present) (by simp)
      | up _ present' later' =>
          cases present.symm.trans present'
          obtain ⟨rfl, rfl, rfl⟩ := ih later'
          exact ⟨rfl, rfl, rfl⟩

theorem Way.starts {stackAt left : Stacks K} {place : K} {places : List K}
    (way : Way stop stackAt place places left true) : places.head?.getD stop = place := by
  cases way with
  | arrived => rfl
  | up => rfl

theorem Way.at_stop {stackAt left : Stacks K} {places : List K} {arrived : Bool}
    (way : Way stop stackAt stop places left arrived) : places = [] ∧ left = stackAt ∧ arrived = true := by
  cases way with
  | arrived => exact ⟨rfl, rfl, rfl⟩
  | lost away => exact absurd rfl away
  | up away => exact absurd rfl away

theorem Way.frame {stackAt left : Stacks K} {place other : K} {places : List K} {arrived : Bool}
    (way : Way stop stackAt place places left arrived) (outside : other ∉ places) : left other = stackAt other := by
  induction way with
  | arrived => rfl
  | lost => rfl
  | up away present later ih =>
      rw [List.mem_cons, not_or] at outside
      rw [ih outside.2, Function.update_of_ne outside.1]

theorem Way.left_prefix {stackAt left : Stacks K} {place other : K} {places : List K} {arrived : Bool}
    (way : Way stop stackAt place places left arrived) {stack : List K} (present : stackAt other = some stack) :
    ∃ rest, left other = some rest ∧ rest <+: stack := by
  induction way generalizing stack with
  | arrived => exact ⟨stack, present, List.prefix_rfl⟩
  | lost => exact ⟨stack, present, List.prefix_rfl⟩
  | @up _ place popped _ _ _ away here later ih =>
      by_cases same : other = place
      · subst same
        cases here.symm.trans present
        obtain ⟨rest, found, front⟩ := ih (Function.update_self _ _ _)
        exact ⟨rest, found, front.trans popped.dropLast_prefix⟩
      · exact ih ((Function.update_of_ne same _ _).trans present)

/-- Of the stack of a place on the way the last place at least is not left. -/
theorem Way.popped {stackAt left : Stacks K} {place other : K} {places : List K} {arrived : Bool}
    (way : Way stop stackAt place places left arrived) (onWay : other ∈ places) :
    ∃ stack rest, stackAt other = some stack ∧ left other = some rest ∧ rest <+: stack.dropLast := by
  induction way with
  | arrived => cases onWay
  | lost => cases onWay
  | @up _ place popped _ _ _ away here later ih =>
      by_cases same : other = place
      · subst same
        obtain ⟨rest, found, front⟩ := later.left_prefix (Function.update_self _ _ _)
        exact ⟨popped, rest, here, found, front⟩
      · obtain ⟨stack, rest, present, found, front⟩ := ih ((List.mem_cons.mp onWay).resolve_left same)
        rw [Function.update_of_ne same] at present
        exact ⟨stack, rest, present, found, front⟩

/-- A place under the stop is come to once. -/
theorem Way.popped_once {stackAt left : Stacks K} {place other : K} {places : List K} {arrived : Bool}
    (way : Way stop stackAt place places left arrived) (onWay : other ∈ places) {stack : List K}
    (present : stackAt other = some stack) (top : above stop stack = stop) : left other = some stack.dropLast := by
  induction way with
  | arrived => cases onWay
  | lost => cases onWay
  | @up _ place popped _ _ _ away here later ih =>
      by_cases same : other = place
      · subst same
        cases here.symm.trans present
        rw [top] at later
        rw [later.at_stop.2.1, Function.update_self]
      · exact ih ((List.mem_cons.mp onWay).resolve_left same) ((Function.update_of_ne same _ _).trans present)

/-- Ways that go on from a popped stack and from the one it was come to the same only where
both steps go to the stop. -/
theorem forked {stackAt stackAt' left left' : Stacks K} {stack rest places places' : List K} {arrived arrived' : Bool}
    (later : Way stop stackAt (above stop stack) places left arrived)
    (later' : Way stop stackAt' (above stop rest) places' left' arrived')
    (changes : above stop rest = above stop stack ↔ stack = [stop]) :
    (arrived = arrived' ∧ (arrived = true → places = places')) ↔
      stack = [stop] ∨ arrived = false ∧ arrived' = false := by
  constructor
  · rintro ⟨rfl, same⟩
    cases arrived with
    | false => exact Or.inr ⟨rfl, rfl⟩
    | true =>
        left
        apply changes.mp
        rw [← later.starts, ← later'.starts, same rfl]
  · rintro (single | ⟨rfl, rfl⟩)
    · have top : above stop stack = stop := by rw [single]; rfl
      rw [changes.mpr single, top] at later'
      rw [top] at later
      obtain ⟨rfl, -, rfl⟩ := later.at_stop
      obtain ⟨rfl, -, rfl⟩ := later'.at_stop
      exact ⟨rfl, fun _ => rfl⟩
    · refine ⟨rfl, ?_⟩
      intro holds
      cases holds

/-- A way on stacks of which those of the `taken` places have been popped, as far as it is the
way it was: to the first of these places. -/
theorem Way.kept_iff {taken : List K} {stackAt left : Stacks K} {place : K} {places : List K} {arrived : Bool}
    (way : Way stop stackAt place places left arrived) {stackAt' left' : Stacks K} {places' : List K}
    {arrived' : Bool} (kept : ∀ other, other ∉ taken → stackAt' other = stackAt other)
    (popped : ∀ other ∈ taken, ∃ stack rest, stackAt other = some stack ∧ stackAt' other = some rest ∧
      (above stop rest = above stop stack ↔ stack = [stop]))
    (way' : Way stop stackAt' place places' left' arrived') :
    (arrived = arrived' ∧ (arrived = true → places = places')) ↔
      (∀ first, places.find? (· ∈ taken) = some first → stackAt first = some [stop]) ∨
        arrived = false ∧ arrived' = false := by
  induction way generalizing stackAt' places' with
  | arrived =>
      cases way' with
      | arrived => simp
      | lost away => exact absurd rfl away
      | up away => exact absurd rfl away
  | @lost stackAt place away absent =>
      have outside : place ∉ taken := by
        intro member
        obtain ⟨stack, rest, present, -⟩ := popped place member
        exact absurd (absent.symm.trans present) (by simp)
      cases way' with
      | arrived => exact absurd rfl away
      | lost => simp
      | up _ present => exact absurd (absent.symm.trans ((kept place outside).symm.trans present)) (by simp)
  | @up stackAt place stack places left arrived away present later ih =>
      by_cases member : place ∈ taken
      · obtain ⟨_, rest, present', popped', changes⟩ := popped place member
        cases present.symm.trans present'
        cases way' with
        | arrived => exact absurd rfl away
        | lost _ absent => exact absurd (absent.symm.trans popped') (by simp)
        | up _ found later' =>
            cases popped'.symm.trans found
            rw [List.find?_cons_of_pos (by simpa using member)]
            simp only [Option.some.injEq, forall_eq', present, List.cons.injEq, true_and]
            exact forked later later' changes
      · have here := (kept place member).trans present
        cases way' with
        | arrived => exact absurd rfl away
        | lost _ absent => exact absurd (absent.symm.trans here) (by simp)
        | up _ found later' =>
            cases here.symm.trans found
            have apart : ∀ other ∈ taken, other ≠ place := by
              rintro other inside rfl
              exact member inside
            have step := @ih (Function.update stackAt' place (some stack.dropLast)) _ ?_ ?_ later'
            · rw [List.find?_cons_of_neg (by simpa using member)]
              simp only [List.cons.injEq, true_and]
              refine step.trans (or_congr_left (forall_congr' fun first => imp_congr_right fun found => ?_))
              have inside : first ∈ taken := by simpa using List.find?_some found
              rw [Function.update_of_ne (apart first inside)]
            · intro other outside
              by_cases same : other = place
              · rw [same, Function.update_self, Function.update_self]
              · rw [Function.update_of_ne same, Function.update_of_ne same]
                exact kept other outside
            · intro other inside
              rw [Function.update_of_ne (apart other inside), Function.update_of_ne (apart other inside)]
              exact popped other inside

/-- A second way on the stacks that a first one has left is the way it would have been exactly
if the first place that both come to, where there is one, is right under the stop and under
nothing else, or if it is lost with and without the first way. -/
theorem Way.same_iff {stackAt left₀ left left' : Stacks K} {place₀ place : K} {taken places places' : List K}
    {arrived₀ arrived arrived' : Bool} (way₀ : Way stop stackAt place₀ taken left₀ arrived₀)
    (tidy : ∀ other stack, stackAt other = some stack → stack ≠ [] ∧ stack.Nodup)
    (way : Way stop stackAt place places left arrived) (way' : Way stop left₀ place places' left' arrived') :
    (arrived = arrived' ∧ (arrived = true → places = places')) ↔
      (∀ first, places.find? (· ∈ taken) = some first → stackAt first = some [stop]) ∨
        arrived = false ∧ arrived' = false := by
  apply way.kept_iff _ _ way'
  · intro other outside
    exact way₀.frame outside
  · intro other inside
    obtain ⟨stack, rest, present, found, front⟩ := way₀.popped inside
    refine ⟨stack, rest, present, found, ?_⟩
    obtain ⟨nonempty, distinct⟩ := tidy other stack present
    apply above_rest_iff nonempty distinct front
    intro top
    exact Option.some.inj (found.symm.trans (way₀.popped_once inside present top))

theorem isSome_pop {stackAt : Stacks K} {place : K} {stack : List K} (present : stackAt place = some stack)
    (other : K) : (Function.update stackAt place (some stack.dropLast) other).isSome = (stackAt other).isSome := by
  by_cases same : other = place
  · rw [same, Function.update_self, present]
    rfl
  · rw [Function.update_of_ne same]

theorem Closed.pop {stackAt : Stacks K} (closed : Closed stop stackAt) {place : K} {stack : List K}
    (present : stackAt place = some stack) : Closed stop (Function.update stackAt place (some stack.dropLast)) := by
  intro other stack' found next member
  rw [isSome_pop present]
  by_cases same : other = place
  · rw [same, Function.update_self] at found
    cases found
    exact closed place stack present next ((List.dropLast_sublist stack).subset member)
  · rw [Function.update_of_ne same] at found
    exact closed other stack' found next member

/-- A way leaves a stack in every place that had one. -/
theorem Way.keeps_closed {stackAt left : Stacks K} {place : K} {places : List K} {arrived : Bool}
    (way : Way stop stackAt place places left arrived) (closed : Closed stop stackAt) :
    Closed stop left ∧ ∀ other, (left other).isSome = (stackAt other).isSome := by
  induction way with
  | arrived => exact ⟨closed, fun _ => rfl⟩
  | lost => exact ⟨closed, fun _ => rfl⟩
  | up away present later ih =>
      obtain ⟨kept, same⟩ := ih (closed.pop present)
      refine ⟨kept, ?_⟩
      intro other
      rw [same, isSome_pop present]

theorem Way.arrives {stackAt left : Stacks K} {place : K} {places : List K} {arrived : Bool}
    (way : Way stop stackAt place places left arrived) (closed : Closed stop stackAt)
    (start : place = stop ∨ (stackAt place).isSome) : arrived = true := by
  induction way with
  | arrived => rfl
  | lost away absent =>
      rw [absent] at start
      rcases start with top | present
      · exact absurd top away
      · cases present
  | up away present later ih =>
      apply ih (closed.pop present)
      rw [isSome_pop present]
      exact closed.above present

end Climb
