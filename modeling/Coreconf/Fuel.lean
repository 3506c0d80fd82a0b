import Mathlib.Logic.Relation

set_option autoImplicit false

/- Computations that need not terminate, as functions of a fuel, and the while
loop over them. A result obtained with some fuel is obtained with any more. -/
namespace Fuel

variable {σ ρ τ υ : Type}

/-- More fuel never changes a result that was reached. -/
def Monotone (run : Nat → σ → Option ρ) : Prop :=
  ∀ ⦃m n : Nat⦄ ⦃s : σ⦄ ⦃r : ρ⦄, m ≤ n → run m s = some r → run n s = some r

/-- The computation reaches the result with some fuel. -/
def Returns (run : Nat → σ → Option ρ) (s : σ) (r : ρ) : Prop := ∃ n, run n s = some r

def Terminates (run : Nat → σ → Option ρ) (s : σ) : Prop := ∃ r, Returns run s r

theorem Returns.terminates {run : Nat → σ → Option ρ} {s : σ} {r : ρ}
    (returned : Returns run s r) : Terminates run s := ⟨r, returned⟩

theorem Monotone.of_succ {run : Nat → σ → Option ρ}
    (step : ∀ n s r, run n s = some r → run (n + 1) s = some r) : Monotone run := by
  intro m n s r le
  induction le with
  | refl => exact id
  | step _ ih => exact fun ran => step _ s r (ih ran)

theorem Returns.unique {run : Nat → σ → Option ρ} (mono : Monotone run) {s : σ} {r r' : ρ}
    (first : Returns run s r) (second : Returns run s r') : r = r' := by
  obtain ⟨m, hm⟩ := first
  obtain ⟨n, hn⟩ := second
  have hm := mono (Nat.le_max_left m n) hm
  have hn := mono (Nat.le_max_right m n) hn
  exact Option.some.inj (hm.symm.trans hn)

/-- Two results need a common fuel, the larger of both. -/
theorem Returns.both {ρ' : Type} {run : Nat → σ → Option ρ} {run' : Nat → τ → Option ρ'}
    (mono : Monotone run) (mono' : Monotone run') {s : σ} {t : τ} {r : ρ} {r' : ρ'}
    (first : Returns run s r) (second : Returns run' t r') :
    ∃ n, run n s = some r ∧ run' n t = some r' := by
  obtain ⟨m, hm⟩ := first
  obtain ⟨n, hn⟩ := second
  exact ⟨max m n, mono (Nat.le_max_left m n) hm, mono' (Nat.le_max_right m n) hn⟩

/-- Whatever the first computation returns, the second returns. -/
def Extends (a b : Option ρ) : Prop := ∀ ⦃r : ρ⦄, a = some r → b = some r

namespace Extends

theorem refl (a : Option ρ) : Extends a a := fun _ ran => ran

theorem map {a b : Option ρ} (le : Extends a b) (f : ρ → τ) : Extends (a.map f) (b.map f) := by
  intro t ran
  obtain ⟨r, returned, same⟩ := Option.map_eq_some_iff.mp ran
  exact Option.map_eq_some_iff.mpr ⟨r, le returned, same⟩

theorem bind {a b : Option ρ} (le : Extends a b) {f g : ρ → Option τ} (later : ∀ r, Extends (f r) (g r)) :
    Extends (a.bind f) (b.bind g) := by
  intro t ran
  obtain ⟨r, returned, rest⟩ := Option.bind_eq_some_iff.mp ran
  exact Option.bind_eq_some_iff.mpr ⟨r, le returned, later r rest⟩

theorem ite {c : Prop} [Decidable c] {a a' b b' : Option ρ} (yes : Extends a a') (no : Extends b b') :
    Extends (if c then a else b) (if c then a' else b') := by
  split
  · exact yes
  · exact no

end Extends

theorem Monotone.of_extends {run : Nat → σ → Option ρ}
    (each : ∀ m n s, m ≤ n → Extends (run m s) (run n s)) : Monotone run :=
  fun m n s _ le ran => each m n s le ran

theorem Monotone.extends {run : Nat → σ → Option ρ} (mono : Monotone run) {m n : Nat} (le : m ≤ n) (s : σ) :
    Extends (run m s) (run n s) :=
  fun _ ran => mono le ran

/-- What one run of a loop's body does: go round again, or leave the loop. -/
inductive Step (σ ρ : Type) where
  | next (s : σ)
  | done (r : ρ)
deriving DecidableEq, Repr

/-- The same step with its state and its result seen through functions. -/
def Step.map (f : σ → τ) (g : ρ → υ) : Step σ ρ → Step τ υ
  | next s => next (f s)
  | done r => done (g r)

/-- At most `n` rounds of a loop whose guard and exits are in its body. -/
def loop (body : σ → Option (Step σ ρ)) : Nat → σ → Option ρ
  | 0, _ => none
  | n + 1, s =>
      match body s with
      | none => none
      | some (.done r) => some r
      | some (.next s') => loop body n s'

/-- The loop whose body may itself need the fuel. -/
def iterate (body : Nat → σ → Option (Step σ ρ)) (n : Nat) (s : σ) : Option ρ :=
  loop (body n) n s

@[simp] theorem loop_zero (body : σ → Option (Step σ ρ)) (s : σ) : loop body 0 s = none := rfl

theorem loop_done {body : σ → Option (Step σ ρ)} {n : Nat} {s : σ} {r : ρ}
    (left : body s = some (.done r)) : loop body (n + 1) s = some r := by
  simp only [loop, left]

theorem loop_next {body : σ → Option (Step σ ρ)} {n : Nat} {s s' : σ}
    (again : body s = some (.next s')) : loop body (n + 1) s = loop body n s' := by
  simp only [loop, again]

theorem loop_cases {body : σ → Option (Step σ ρ)} {n : Nat} {s : σ} {r : ρ}
    (ran : loop body (n + 1) s = some r) :
    body s = some (.done r) ∨ ∃ s', body s = some (.next s') ∧ loop body n s' = some r := by
  unfold loop at ran
  split at ran
  · cases ran
  · rename_i found
    exact Or.inl (found.trans (congrArg (some ∘ Step.done) (Option.some.inj ran)))
  · rename_i s' found
    exact Or.inr ⟨s', found, ran⟩

theorem loop_extends {body body' : σ → Option (Step σ ρ)} (le : ∀ s, Extends (body s) (body' s))
    {m n : Nat} (fuel : m ≤ n) (s : σ) : Extends (loop body m s) (loop body' n s) := by
  intro r ran
  induction m generalizing n s with
  | zero => cases ran
  | succ m ih =>
    obtain ⟨n, rfl⟩ : ∃ k, n = k + 1 := ⟨n - 1, by omega⟩
    rcases loop_cases ran with left | ⟨s', again, rest⟩
    · exact loop_done (le s left)
    · rw [loop_next (le s again)]
      exact ih (by omega) s' rest

/-- Two loops in step, where the second sees the states of the first through a function. -/
theorem loop_view {body : σ → Option (Step σ ρ)} {body' : τ → Option (Step τ υ)} {f : σ → τ} {g : ρ → υ}
    {Inv : σ → Prop} (same : ∀ s, Inv s → body' (f s) = (body s).map (Step.map f g))
    (keep : ∀ s s', Inv s → body s = some (.next s') → Inv s') (n : Nat) {s : σ} (start : Inv s) :
    loop body' n (f s) = (loop body n s).map g := by
  induction n generalizing s with
  | zero => rfl
  | succ n ih =>
    have seen := same s start
    rw [loop, loop, seen]
    cases ran : body s with
    | none => rfl
    | some step =>
      cases step with
      | done r => rfl
      | next s' => exact ih (keep s s' start ran)

theorem iterate_monotone {body : Nat → σ → Option (Step σ ρ)} (mono : Monotone body) :
    Monotone (iterate body) :=
  Monotone.of_extends fun _ _ s le => loop_extends (mono.extends le) le s

/-- Partial correctness of a loop: what the body keeps holds at the exit. -/
theorem loop_invariant {body : σ → Option (Step σ ρ)} {Inv : σ → Prop} {Post : ρ → Prop}
    (keep : ∀ s s', Inv s → body s = some (.next s') → Inv s')
    (exit : ∀ s r, Inv s → body s = some (.done r) → Post r)
    {n : Nat} {s : σ} {r : ρ} (start : Inv s) (ran : loop body n s = some r) : Post r := by
  induction n generalizing s with
  | zero => cases ran
  | succ n ih =>
    rcases loop_cases ran with left | ⟨s', again, rest⟩
    · exact exit s r start left
    · exact ih (keep s s' start again) rest

/-- Total correctness of a loop: where each round either leaves with the postcondition or
keeps the invariant and decreases a measure, fuel above the measure is enough. -/
theorem loop_total {body : σ → Option (Step σ ρ)} {I : σ → Prop} {P : ρ → Prop} (measure : σ → Nat)
    (round : ∀ s, I s → (∃ r, body s = some (.done r) ∧ P r) ∨
      ∃ s', body s = some (.next s') ∧ I s' ∧ measure s' < measure s)
    {n : Nat} {s : σ} (start : I s) (enough : measure s < n) : ∃ r, loop body n s = some r ∧ P r := by
  induction n generalizing s with
  | zero => cases enough
  | succ n ih =>
    rcases round s start with ⟨r, left, post⟩ | ⟨s', again, kept, less⟩
    · exact ⟨r, loop_done left, post⟩
    · rw [loop_next again]
      exact ih kept (by omega)

/-- Steps of two loops that both go on or both leave. -/
inductive Step.Related (R : σ → τ → Prop) (Q : ρ → υ → Prop) : Step σ ρ → Step τ υ → Prop
  | next {s t} (related : R s t) : Related R Q (.next s) (.next t)
  | done {r u} (related : Q r u) : Related R Q (.done r) (.done u)

/-- A loop that does round for round what another does, on related states. -/
theorem loop_related {body : σ → Option (Step σ ρ)} {body' : τ → Option (Step τ υ)} {R : σ → τ → Prop}
    {Q : ρ → υ → Prop}
    (round : ∀ s t step, R s t → body s = some step → ∃ step', body' t = some step' ∧ Step.Related R Q step step')
    {n : Nat} {s : σ} {t : τ} {r : ρ} (start : R s t) (ran : loop body n s = some r) :
    ∃ u, loop body' n t = some u ∧ Q r u := by
  induction n generalizing s t with
  | zero => cases ran
  | succ n ih =>
    rcases loop_cases ran with left | ⟨s', again, rest⟩
    · obtain ⟨step', left', related⟩ := round s t _ start left
      cases related with
      | done related => exact ⟨_, loop_done left', related⟩
    · obtain ⟨step', again', related⟩ := round s t _ start again
      cases related with
      | next related =>
        obtain ⟨u, rest', last⟩ := ih related rest
        exact ⟨u, (loop_next again').trans rest', last⟩

theorem iterate_done {body : Nat → σ → Option (Step σ ρ)} (mono : Monotone body) {s : σ} {r : ρ}
    (left : Returns body s (.done r)) : Returns (iterate body) s r := by
  obtain ⟨n, left⟩ := left
  exact ⟨n + 1, loop_done (mono (Nat.le_succ n) left)⟩

theorem iterate_next {body : Nat → σ → Option (Step σ ρ)} (mono : Monotone body) {s s' : σ} {r : ρ}
    (again : Returns body s (.next s')) (rest : Returns (iterate body) s' r) :
    Returns (iterate body) s r := by
  obtain ⟨m, again⟩ := again
  obtain ⟨n, rest⟩ := rest
  refine ⟨max m n + 1, ?_⟩
  have again := mono (show m ≤ max m n + 1 by omega) again
  have rest := loop_extends (mono.extends (show n ≤ max m n + 1 by omega)) (show n ≤ max m n by omega) s' rest
  exact (loop_next again).trans rest

theorem iterate_cases {body : Nat → σ → Option (Step σ ρ)} {s : σ} {r : ρ}
    (ran : Returns (iterate body) s r) :
    Returns body s (.done r) ∨ ∃ s', Returns body s (.next s') ∧ Returns (iterate body) s' r := by
  obtain ⟨n, ran⟩ := ran
  cases n with
  | zero => cases ran
  | succ n =>
    rcases loop_cases ran with left | ⟨s', again, rest⟩
    · exact Or.inl ⟨_, left⟩
    · refine Or.inr ⟨s', ⟨_, again⟩, n + 1, ?_⟩
      exact loop_extends (fun s => Extends.refl (body (n + 1) s)) (Nat.le_succ n) s' rest

/-- The loop's states at the guard, from the first one on. -/
def Reached (body : Nat → σ → Option (Step σ ρ)) : σ → σ → Prop :=
  Relation.ReflTransGen fun s s' => Returns body s (.next s')

theorem Reached.next {body : Nat → σ → Option (Step σ ρ)} {s s' t : σ}
    (again : Returns body s (.next s')) (later : Reached body s' t) : Reached body s t :=
  Relation.ReflTransGen.head again later

theorem Reached.iterate {body : Nat → σ → Option (Step σ ρ)} (mono : Monotone body) {s t : σ} {r : ρ}
    (reached : Reached body s t) (later : Returns (iterate body) t r) : Returns (iterate body) s r := by
  induction reached using Relation.ReflTransGen.head_induction_on with
  | refl => exact later
  | head again _ ih => exact iterate_next mono again ih

/-- A loop whose every round decreases a measure ends exactly when each round it
reaches does. -/
theorem iterate_terminates_iff {body : Nat → σ → Option (Step σ ρ)} (mono : Monotone body)
    (measure : σ → Nat) (less : ∀ s s', Returns body s (.next s') → measure s' < measure s) (s : σ) :
    Terminates (iterate body) s ↔ ∀ t, Reached body s t → Terminates body t := by
  constructor
  · rintro ended t reached
    induction reached using Relation.ReflTransGen.head_induction_on with
    | refl =>
      obtain ⟨r, ran⟩ := ended
      rcases iterate_cases ran with left | ⟨s', again, -⟩
      · exact left.terminates
      · exact again.terminates
    | head again _ ih =>
      obtain ⟨r, ran⟩ := ended
      rcases iterate_cases ran with left | ⟨s', other, rest⟩
      · cases Returns.unique mono left again
      · cases Returns.unique mono other again
        exact ih rest.terminates
  · intro rounds
    induction size : measure s using Nat.strongRecOn generalizing s with
    | ind bound ih =>
      obtain ⟨x, ran⟩ := rounds s Relation.ReflTransGen.refl
      cases x with
      | done r => exact (iterate_done mono ran).terminates
      | next s' =>
        have smaller : measure s' < bound := size ▸ less s s' ran
        obtain ⟨r, rest⟩ := ih (measure s') smaller s'
          (fun t later => rounds t (Reached.next ran later)) rfl
        exact (iterate_next mono ran rest).terminates

/-- Every round of the loop ends, and either leaves the loop or goes on further in what is
read. -/
structure MovesForward {α : Type} (body : Nat → σ → Option (Step σ ρ)) (position : σ → List α) : Prop where
  round : ∀ s, Terminates body s
  forward : ∀ s s', Returns body s (.next s') →
    position s' <:+ position s ∧ (position s').length < (position s).length

theorem MovesForward.terminates {α : Type} {body : Nat → σ → Option (Step σ ρ)} {position : σ → List α}
    (moves : MovesForward body position) (mono : Monotone body) (s : σ) : Terminates (iterate body) s :=
  (iterate_terminates_iff mono (fun s => (position s).length)
    (fun s s' again => (moves.forward s s' again).2) s).mpr fun t _ => moves.round t

end Fuel
