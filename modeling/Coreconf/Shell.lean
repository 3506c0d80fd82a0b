import Mathlib.Algebra.Order.Ring.Nat
import Mathlib.Data.List.Basic

set_option autoImplicit false

/- How a POSIX shell splits a line into words, as far as quoting alone decides it. A line
that needs more, an operator, a newline, an expansion or a pattern outside quotes, has no
words here, and neither has one with a quote that is not closed. -/
namespace Coreconf.Shell

inductive Mode where
  | bare | escaped | single | double | doubleEscaped | comment
deriving DecidableEq

/-- The word being read, if one has begun, and those before it. -/
structure State where
  mode : Mode
  word : Option (List UInt8)
  words : List (List UInt8)
deriving DecidableEq

def State.push (s : State) (byte : UInt8) : State := { s with word := some (s.word.getD [] ++ [byte]) }

/-- A quote begins a word even where nothing follows in it. -/
def State.enter (s : State) (mode : Mode) : State := { s with mode := mode, word := some (s.word.getD []) }

/-- The newline, the operators, and the signs of expansions and patterns. -/
def isSpecial (byte : UInt8) : Bool :=
  byte ∈ [0x0A, 0x26, 0x7C, 0x3B, 0x3C, 0x3E, 0x28, 0x29, 0x24, 0x60, 0x2A, 0x3F, 0x5B]

def bareStep (s : State) (byte : UInt8) : Option State :=
  if byte = 0x27 then some (s.enter .single)
  else if byte = 0x22 then some (s.enter .double)
  else if byte = 0x5C then some { s with mode := .escaped }
  else if byte = 0x20 ∨ byte = 0x09 then some ⟨.bare, none, s.words ++ s.word.toList⟩
  else if s.word = none ∧ byte = 0x23 then some { s with mode := .comment }
  else if s.word = none ∧ byte = 0x7E then none
  else if isSpecial byte then none
  else some (s.push byte)

def doubleStep (s : State) (byte : UInt8) : Option State :=
  if byte = 0x22 then some { s with mode := .bare }
  else if byte = 0x5C then some { s with mode := .doubleEscaped }
  else if byte = 0x24 ∨ byte = 0x60 then none
  else some (s.push byte)

/-- Between double quotes a backslash stays where there is nothing to escape. -/
def doubleEscapedStep (s : State) (byte : UInt8) : State :=
  if byte = 0x0A then { s with mode := .double }
  else if byte ∈ [(0x24 : UInt8), 0x60, 0x22, 0x5C] then { s.push byte with mode := .double }
  else { (s.push 0x5C).push byte with mode := .double }

def step (s : State) (byte : UInt8) : Option State :=
  match s.mode with
  | .bare => bareStep s byte
  | .escaped =>
      if byte = 0x0A then some { s with mode := .bare } else some { s.push byte with mode := .bare }
  | .single => if byte = 0x27 then some { s with mode := .bare } else some (s.push byte)
  | .double => doubleStep s byte
  | .doubleEscaped => some (doubleEscapedStep s byte)
  | .comment => if byte = 0x0A then none else some s

def run (s : State) (line : List UInt8) : Option State := line.foldlM step s

/-- A backslash at the end of the line is itself. -/
def finish (s : State) : Option (List (List UInt8)) :=
  match s.mode with
  | .bare | .comment => some (s.words ++ s.word.toList)
  | .escaped => some (s.words ++ (s.push 0x5C).word.toList)
  | .single | .double | .doubleEscaped => none

def words (line : List UInt8) : Option (List (List UInt8)) := (run ⟨.bare, none, []⟩ line).bind finish

theorem run_cons (s : State) (byte : UInt8) (line : List UInt8) :
    run s (byte :: line) = (step s byte).bind (run · line) := rfl

theorem run_append (s : State) (line rest : List UInt8) :
    run s (line ++ rest) = (run s line).bind (run · rest) := by
  rw [run, List.foldlM_append]
  rfl

/-- Between single quotes every byte but a quote is itself. -/
theorem run_single {bytes : List UInt8} (unquoted : 0x27 ∉ bytes) (word : List UInt8)
    (words : List (List UInt8)) :
    run ⟨.single, some word, words⟩ bytes = some ⟨.single, some (word ++ bytes), words⟩ := by
  induction bytes generalizing word with
  | nil => rw [List.append_nil]; rfl
  | cons byte rest ih =>
      obtain ⟨other, later⟩ : ¬ (0x27 : UInt8) = byte ∧ 0x27 ∉ rest := by
        simpa only [List.mem_cons, not_or] using unquoted
      rw [run_cons, step, if_neg (Ne.symm other), Option.bind_some, State.push, Option.getD_some, ih later,
        List.append_assoc, List.singleton_append]

/-- The bytes of the words so far. -/
def State.size (s : State) : Nat := (s.words.map List.length).sum + (s.word.getD []).length

@[simp, grind =] theorem push_mode (s : State) (byte : UInt8) : (s.push byte).mode = s.mode := rfl

@[simp, grind =] theorem enter_mode (s : State) (mode : Mode) : (s.enter mode).mode = mode := rfl

@[simp, grind =] theorem size_push (s : State) (byte : UInt8) : (s.push byte).size = s.size + 1 := by
  simp only [State.size, State.push, Option.getD_some, List.length_append, List.length_singleton]
  omega

@[simp, grind =] theorem size_enter (s : State) (mode : Mode) : (s.enter mode).size = s.size := rfl

@[simp, grind =] theorem size_mode (s : State) (mode : Mode) : ({ s with mode := mode } : State).size = s.size := rfl

@[simp, grind =] theorem size_blank (s : State) :
    (⟨.bare, none, s.words ++ s.word.toList⟩ : State).size = s.size := by
  cases word : s.word <;> simp [State.size, word]

@[grind =] def Mode.quoted : Mode → Bool
  | single | double | doubleEscaped => true
  | bare | escaped | comment => false

/-- A backslash that waits for its byte counts as if it were part of a word. -/
@[grind =] def Mode.waiting : Mode → Nat
  | escaped | doubleEscaped => 1
  | bare | single | double | comment => 0

@[grind =] def State.weight (s : State) : Nat := s.size + s.mode.waiting

/-- A byte adds at most itself, one that opens quotes adds nothing, and a single quote adds
something only between double quotes. -/
structure StepGain (s : State) (byte : UInt8) (s' : State) : Prop where
  le : s'.weight ≤ s.weight + 1
  opens : s'.mode.quoted → s.mode.quoted ∨ s'.weight ≤ s.weight
  quote : byte = 0x27 → s.mode.quoted ∨ s'.weight ≤ s.weight

theorem step_gain {s s' : State} {byte : UInt8} (ran : step s byte = some s') : StepGain s byte s' := by
  rw [step] at ran
  cases mode : s.mode with
  | bare =>
      simp only [mode, bareStep] at ran
      split_ifs at ran <;> cases ran <;> constructor <;> grind
  | escaped =>
      simp only [mode] at ran
      split_ifs at ran <;> cases ran <;> constructor <;> grind
  | single =>
      simp only [mode] at ran
      split_ifs at ran <;> cases ran <;> constructor <;> grind
  | double =>
      simp only [mode, doubleStep] at ran
      split_ifs at ran <;> cases ran <;> constructor <;> grind
  | doubleEscaped =>
      simp only [mode, doubleEscapedStep] at ran
      split_ifs at ran <;> cases ran <;> constructor <;> grind
  | comment =>
      simp only [mode] at ran
      split_ifs at ran
      cases ran
      constructor <;> grind

/-- What a run has added: fewer bytes than it read, as soon as there is a quote in what it
read or it is between quotes. -/
structure Gained (base : Nat) (bytes : List UInt8) (s : State) : Prop where
  le : s.weight ≤ base + bytes.length
  lt : 0x27 ∈ bytes ∨ s.mode.quoted → s.weight < base + bytes.length

theorem Gained.step {base : Nat} {bytes : List UInt8} {s s' : State} {byte : UInt8}
    (gained : Gained base bytes s) (ran : step s byte = some s') : Gained base (bytes ++ [byte]) s' := by
  obtain ⟨le, lt⟩ := gained
  obtain ⟨size, opens, quote⟩ := step_gain ran
  constructor
  · rw [List.length_append, List.length_singleton]
    omega
  · intro costs
    rw [List.length_append, List.length_singleton]
    have free : 0x27 ∈ bytes ∨ s.mode.quoted ∨ s'.weight ≤ s.weight := by
      rcases costs with member | quoted
      · rcases List.mem_append.mp member with before | last
        · exact Or.inl before
        · exact Or.inr (quote (List.mem_singleton.mp last).symm)
      · exact Or.inr (opens quoted)
    rcases free with before | inside | same
    · have := lt (Or.inl before)
      omega
    · have := lt (Or.inr inside)
      omega
    · omega

theorem Gained.run {base : Nat} {bytes line : List UInt8} {s s' : State} (gained : Gained base bytes s)
    (ran : run s line = some s') : Gained base (bytes ++ line) s' := by
  induction line generalizing bytes s with
  | nil =>
      cases ran
      rwa [List.append_nil]
  | cons byte rest ih =>
      rw [run_cons] at ran
      obtain ⟨next, first, later⟩ := Option.bind_eq_some_iff.mp ran
      have stepped := ih (gained.step first) later
      rwa [List.append_assoc] at stepped

/-- The words that come of what is left of a line, outside quotes, have at most its bytes
more than those before it, and not all of them where there is a quote. -/
theorem finish_length {s s' : State} {line : List UInt8} {words : List (List UInt8)}
    (bare : s.mode = .bare) (ran : run s line = some s') (finished : finish s' = some words) :
    (words.map List.length).sum ≤ s.size + line.length ∧
      (0x27 ∈ line → (words.map List.length).sum < s.size + line.length) := by
  have start : Gained s.size [] s := by
    constructor <;> simp [State.weight, bare, Mode.waiting, Mode.quoted]
  obtain ⟨le, lt⟩ := start.run ran
  rw [List.nil_append] at le lt
  have total : (words.map List.length).sum = s'.weight := by
    rw [finish] at finished
    cases mode : s'.mode <;> simp only [mode, Option.some.injEq, reduceCtorEq] at finished
    all_goals
      subst finished
      cases word : s'.word <;>
        simp [State.weight, State.size, State.push, Mode.waiting, mode, word, Nat.add_assoc]
  rw [total]
  exact ⟨le, fun quote => lt (Or.inl quote)⟩

end Coreconf.Shell
