import Mathlib.Data.List.Nodup
import Mathlib.Data.List.Perm.Basic

set_option autoImplicit false

/- Keys in a chain that is walked only so far: entries that bind a key, at the head of the
chain where it is new, or drop it, and what depends on the order in which they come. -/
namespace ChainOrder

variable {K : Type} [DecidableEq K]

/-- A key, and whether it is dropped. -/
abbrev Entry (K : Type) := K × Bool

def step (chain : List K) (entry : Entry K) : List K :=
  if entry.2 then chain.erase entry.1 else if entry.1 ∈ chain then chain else entry.1 :: chain

def run (chain : List K) (entries : List (Entry K)) : List K := entries.foldl step chain

/-- The walk for a key comes to it among the first `cap` keys, or to the end of a chain of at most so
many. -/
def Refused (cap : Nat) (chain : List K) (k : K) : Prop :=
  if k ∈ chain then cap ≤ chain.idxOf k else cap < chain.length

/-- No key that is to be bound is refused. -/
def Taken (cap : Nat) : List K → List (Entry K) → Prop
  | _, [] => True
  | chain, entry :: rest => (entry.2 = false → ¬ Refused cap chain entry.1) ∧ Taken cap (step chain entry) rest

/-- The keys that are bound and were not in the chain. -/
def news (chain : List K) (entries : List (Entry K)) : List K :=
  (entries.filter fun entry => !entry.2 && !decide (entry.1 ∈ chain)).map Prod.fst

def dropped (entries : List (Entry K)) : List K := (entries.filter (·.2)).map Prod.fst

/-- There is room for all the new keys, and in front of every other one that is bound. -/
structure Room (cap : Nat) (chain : List K) (entries : List (Entry K)) : Prop where
  inserts : news chain entries ≠ [] → chain.length + (news chain entries).length ≤ cap + 1
  updates : ∀ entry ∈ entries, entry.2 = false → entry.1 ∈ chain →
    chain.idxOf entry.1 + (news chain entries).length < cap

variable {cap : Nat} {chain : List K} {entries : List (Entry K)} {k : K}

@[simp] theorem news_nil (chain : List K) : news chain [] = [] := rfl

theorem news_drop (chain : List K) (k : K) (rest : List (Entry K)) :
    news chain ((k, true) :: rest) = news chain rest := rfl

theorem news_present (present : k ∈ chain) (rest : List (Entry K)) :
    news chain ((k, false) :: rest) = news chain rest := by
  simp [news, present]

theorem news_absent (absent : k ∉ chain) (rest : List (Entry K)) :
    news chain ((k, false) :: rest) = k :: news chain rest := by
  simp [news, absent]

/-- Only whether the keys of the entries are in the chain matters. -/
theorem news_congr {chain' : List K} (same : ∀ entry ∈ entries, entry.1 ∈ chain' ↔ entry.1 ∈ chain) :
    news chain' entries = news chain entries := by
  refine congrArg (List.map Prod.fst) (List.filter_congr fun entry member => ?_)
  simp only [same entry member]

theorem news_perm {entries' : List (Entry K)} (perm : entries'.Perm entries) :
    (news chain entries').Perm (news chain entries) := (perm.filter _).map _

theorem Room.perm {entries' : List (Entry K)} (room : Room cap chain entries) (perm : entries'.Perm entries) :
    Room cap chain entries' := by
  have length := (@news_perm _ _ chain _ _ perm).length_eq
  refine ⟨fun nonempty => ?_, fun entry member bound present => ?_⟩
  · rw [length]
    refine room.inserts fun empty => nonempty ?_
    rw [← List.length_eq_zero_iff, length, empty]
    rfl
  · rw [length]
    exact room.updates entry (perm.mem_iff.mp member) bound present

omit [DecidableEq K] in
private theorem others {entry : Entry K} {rest : List (Entry K)} (distinct : ((entry :: rest).map Prod.fst).Nodup) :
    (∀ later ∈ rest, later.1 ≠ entry.1) ∧ (rest.map Prod.fst).Nodup := by
  rw [List.map_cons, List.nodup_cons] at distinct
  exact ⟨fun later member same => distinct.1 (same ▸ List.mem_map_of_mem member), distinct.2⟩

/-- A step leaves the later keys in the chain or out of it. -/
theorem mem_step {entry : Entry K} (other : k ≠ entry.1) : k ∈ step chain entry ↔ k ∈ chain := by
  unfold step
  split
  · exact List.mem_erase_of_ne other
  · split
    · rfl
    · rw [List.mem_cons, or_iff_right other]

theorem news_step {entry : Entry K} {rest : List (Entry K)} (other : ∀ later ∈ rest, later.1 ≠ entry.1) :
    news (step chain entry) rest = news chain rest :=
  news_congr fun later member => mem_step (other later member)

theorem idxOf_erase_le (chain : List K) (k other : K) (different : k ≠ other) :
    (chain.erase other).idxOf k ≤ chain.idxOf k := by
  induction chain with
  | nil => exact Nat.le_refl _
  | cons x rest ih =>
      rw [List.erase_cons]
      split
      · rename_i here
        obtain rfl := eq_of_beq here
        rw [List.idxOf_cons_ne _ different.symm]
        exact Nat.le_succ _
      · by_cases found : x = k
        · rw [found, List.idxOf_cons_self]
          exact Nat.zero_le _
        · rw [List.idxOf_cons_ne _ found, List.idxOf_cons_ne _ found]
          exact Nat.succ_le_succ ih

/-- The first entry finds room. -/
theorem Room.first {drop : Bool} {rest : List (Entry K)} (room : Room cap chain ((k, drop) :: rest))
    (bound : drop = false) : ¬ Refused cap chain k := by
  subst bound
  rw [Refused]
  split
  · rename_i present
    have front : chain.idxOf k + _ < cap := room.updates _ List.mem_cons_self rfl present
    omega
  · rename_i absent
    have fits := room.inserts
    rw [news_absent absent, List.length_cons] at fits
    have enough := fits (List.cons_ne_nil _ _)
    omega

/-- What is left finds room in the chain after the first entry. -/
theorem Room.later {drop : Bool} {rest : List (Entry K)} (room : Room cap chain ((k, drop) :: rest))
    (other : ∀ later ∈ rest, later.1 ≠ k) : Room cap (step chain (k, drop)) rest := by
  have newsRest : news (step chain (k, drop)) rest = news chain rest := news_step other
  have inside : ∀ later ∈ rest, later.1 ∈ step chain (k, drop) ↔ later.1 ∈ chain :=
    fun later member => mem_step (other later member)
  constructor
  · intro nonempty
    rw [newsRest] at nonempty ⊢
    cases drop with
    | true =>
        have fits := room.inserts nonempty
        have shorter : (chain.erase k).length ≤ chain.length := List.erase_sublist.length_le
        rw [news_drop] at fits
        exact Nat.le_trans (Nat.add_le_add_right shorter _) fits
    | false =>
        have fits := room.inserts
        by_cases present : k ∈ chain
        · rw [news_present present] at fits
          rw [step, if_neg Bool.false_ne_true, if_pos present]
          exact fits nonempty
        · rw [news_absent present, List.length_cons] at fits
          rw [step, if_neg Bool.false_ne_true, if_neg present, List.length_cons]
          have enough := fits (List.cons_ne_nil _ _)
          omega
  · intro later member bound present
    have front := room.updates later (List.mem_cons_of_mem _ member) bound ((inside later member).mp present)
    rw [newsRest]
    cases drop with
    | true =>
        rw [news_drop] at front
        have nearer : (chain.erase k).idxOf later.1 ≤ chain.idxOf later.1 :=
          idxOf_erase_le chain later.1 k (other later member)
        exact Nat.lt_of_le_of_lt (Nat.add_le_add_right nearer _) front
    | false =>
        by_cases here : k ∈ chain
        · rw [news_present here] at front
          rwa [step, if_neg Bool.false_ne_true, if_pos here]
        · rw [news_absent here, List.length_cons] at front
          rw [step, if_neg Bool.false_ne_true, if_neg here, List.idxOf_cons_ne _ (other later member).symm]
          omega

/-- Where there is room, it is enough whatever the order, by induction over the entries. -/
theorem taken_of_room (distinct : (entries.map Prod.fst).Nodup) (room : Room cap chain entries) :
    Taken cap chain entries := by
  induction entries generalizing chain with
  | nil => trivial
  | cons entry rest ih =>
      obtain ⟨other, distinctRest⟩ := others distinct
      exact ⟨room.first, ih distinctRest (room.later other)⟩

/-- The new keys in front, the last one first, and then what was in the chain and is not dropped. -/
theorem run_eq (nodup : chain.Nodup) (distinct : (entries.map Prod.fst).Nodup) :
    run chain entries = (news chain entries).reverse ++ chain.filter (· ∉ dropped entries) := by
  induction entries generalizing chain with
  | nil => simp [run, dropped]
  | cons entry rest ih =>
      obtain ⟨other, distinctRest⟩ := others distinct
      obtain ⟨k, drop⟩ := entry
      have newsRest : news (step chain (k, drop)) rest = news chain rest := news_step other
      have ran : run chain ((k, drop) :: rest) = run (step chain (k, drop)) rest := rfl
      cases drop with
      | true =>
          have stepped : step chain (k, true) = chain.filter (· ≠ k) := by
            rw [step, if_pos rfl, nodup.erase_eq_filter]
            exact List.filter_congr fun x _ => by by_cases same : x = k <;> simp [same]
          rw [ran, ih (stepped ▸ nodup.filter _) distinctRest, newsRest, news_drop, stepped, List.filter_filter]
          have also : dropped ((k, true) :: rest) = k :: dropped rest := rfl
          rw [also]
          refine congrArg _ (List.filter_congr fun x _ => ?_)
          by_cases same : x = k <;> simp [same]
      | false =>
          have kept : k ∉ dropped rest := by
            intro member
            obtain ⟨later, inside, rfl⟩ := List.mem_map.mp member
            exact other later (List.mem_of_mem_filter inside) rfl
          have same : dropped ((k, false) :: rest) = dropped rest := rfl
          by_cases present : k ∈ chain
          · have stepped : step chain (k, false) = chain := by
              rw [step, if_neg Bool.false_ne_true, if_pos present]
            rw [ran, ih (by rwa [stepped]) distinctRest, newsRest, news_present present, stepped, same]
          · have stepped : step chain (k, false) = k :: chain := by
              rw [step, if_neg Bool.false_ne_true, if_neg present]
            rw [ran, ih (stepped ▸ List.nodup_cons.mpr ⟨present, nodup⟩) distinctRest, newsRest,
              news_absent present, stepped, same, List.filter_cons_of_pos (by simpa using kept),
              List.reverse_cons, List.append_assoc, List.singleton_append]

/-- A key that stays in the chain moves back by no more than the new keys. -/
theorem idxOf_run_le (nodup : chain.Nodup) (distinct : (entries.map Prod.fst).Nodup) (present : k ∈ chain)
    (kept : k ∉ dropped entries) :
    (run chain entries).idxOf k ≤ chain.idxOf k + (news chain entries).length := by
  have notNew : k ∉ (news chain entries).reverse := by
    intro member
    obtain ⟨entry, inside, rfl⟩ := List.mem_map.mp (List.mem_reverse.mp member)
    have absent := (List.mem_filter.mp inside).2
    simp [present] at absent
  have filtered : ∀ l : List K, (l.filter (· ∉ dropped entries)).idxOf k ≤ l.idxOf k := by
    intro l
    induction l with
    | nil => exact Nat.le_refl _
    | cons x rest ih =>
        by_cases here : x = k
        · subst here
          rw [List.filter_cons_of_pos (by simpa using kept), List.idxOf_cons_self]
          exact Nat.zero_le _
        · rw [List.idxOf_cons_ne _ here, List.filter_cons]
          split
          · rw [List.idxOf_cons_ne _ here]
            exact Nat.succ_le_succ ih
          · exact Nat.le_succ_of_le ih
  rw [run_eq nodup distinct, List.idxOf_append_of_notMem notNew, List.length_reverse, Nat.add_comm]
  exact Nat.add_le_add_right (filtered chain) _

/-- A new key ends up behind the new keys that come after it. -/
theorem idxOf_run_new {before after : List (Entry K)} (nodup : chain.Nodup)
    (distinct : ((before ++ (k, false) :: after).map Prod.fst).Nodup) (absent : k ∉ chain) :
    (run chain (before ++ (k, false) :: after)).idxOf k = (news chain after).length := by
  have whole : news chain (before ++ (k, false) :: after) = news chain before ++ k :: news chain after := by
    rw [news, List.filter_append, List.map_append]
    exact congrArg _ (news_absent absent after)
  have notLater : k ∉ (news chain after).reverse := by
    intro member
    obtain ⟨entry, inside, same⟩ := List.mem_map.mp (List.mem_reverse.mp member)
    rw [List.map_append, List.map_cons, List.nodup_append] at distinct
    have fresh := (List.nodup_cons.mp distinct.2.1).1
    exact fresh (List.mem_map.mpr ⟨entry, List.mem_of_mem_filter inside, same⟩)
  rw [run_eq nodup distinct, whole, List.reverse_append, List.reverse_cons, List.append_assoc,
    List.append_assoc, List.idxOf_append_of_notMem notLater, List.length_reverse]
  simp

theorem taken_append {later : List (Entry K)} (taken : Taken cap chain (entries ++ later)) :
    Taken cap (run chain entries) later := by
  induction entries generalizing chain with
  | nil => exact taken
  | cons entry rest ih => exact ih taken.2

/-- New keys alone are put in front. -/
theorem run_new (all : ∀ entry ∈ entries, entry.2 = false ∧ entry.1 ∉ chain)
    (distinct : (entries.map Prod.fst).Nodup) : run chain entries = (entries.map Prod.fst).reverse ++ chain := by
  induction entries generalizing chain with
  | nil => rfl
  | cons entry rest ih =>
      obtain ⟨other, distinctRest⟩ := others distinct
      obtain ⟨first, allRest⟩ := List.forall_mem_cons.mp all
      have stepped : step chain entry = entry.1 :: chain := by
        rw [step, first.1, if_neg Bool.false_ne_true, if_neg first.2]
      have later : ∀ entry' ∈ rest, entry'.2 = false ∧ entry'.1 ∉ entry.1 :: chain := fun entry' member =>
        ⟨(allRest entry' member).1, fun inside =>
          (List.mem_cons.mp inside).elim (other entry' member) (allRest entry' member).2⟩
      rw [run, List.foldl_cons, stepped, ← run, ih later distinctRest, List.map_cons, List.reverse_cons,
        List.append_assoc, List.singleton_append]

/-- Where no order refuses a key, there is room: the new keys may come first, and each of the others
behind them. -/
theorem room_of_taken (distinct : (entries.map Prod.fst).Nodup)
    (every : ∀ entries' : List (Entry K), entries'.Perm entries → Taken cap chain entries') :
    Room cap chain entries := by
  set new := fun entry : Entry K => !entry.2 && !decide (entry.1 ∈ chain)
  have perm : (entries.filter new ++ entries.filter (!new ·)).Perm entries := List.filter_append_perm new entries
  have all : ∀ entry ∈ entries.filter new, entry.2 = false ∧ entry.1 ∉ chain := by
    intro entry member
    simpa [new] using (List.mem_filter.mp member).2
  have distinctNew : ((entries.filter new).map Prod.fst).Nodup :=
    distinct.sublist ((List.filter_sublist).map _)
  constructor
  · intro nonempty
    obtain ⟨init, last, split⟩ : ∃ init last, entries.filter new = init ++ [last] := by
      refine ⟨_, _, (List.dropLast_append_getLast fun empty => nonempty ?_).symm⟩
      rw [news, empty]
      rfl
    rw [split] at all distinctNew perm
    have allInit : ∀ entry ∈ init, entry.2 = false ∧ entry.1 ∉ chain :=
      fun entry member => all entry (List.mem_append_left _ member)
    have lastNew := all last (List.mem_append_right _ List.mem_cons_self)
    rw [List.map_append, List.map_singleton, List.nodup_append] at distinctNew
    have ran := run_new allInit distinctNew.1
    have absent : last.1 ∉ run chain init := by
      rw [ran, List.mem_append, List.mem_reverse]
      rintro (before | inside)
      · exact distinctNew.2.2 _ before _ List.mem_cons_self rfl
      · exact lastNew.2 inside
    have taken := every _ perm
    rw [List.append_assoc] at taken
    have fits := (taken_append taken).1 lastNew.1
    rw [Refused, if_neg absent, ran, List.length_append, List.length_reverse, List.length_map] at fits
    have length : (news chain entries).length = init.length + 1 := by
      rw [news, List.length_map, show entries.filter _ = init ++ [last] from split, List.length_append,
        List.length_singleton]
    omega
  · intro entry member bound present
    have others : entry ∈ entries.filter (!new ·) := by
      refine List.mem_filter.mpr ⟨member, ?_⟩
      simp [new, present]
    have order := (perm.symm.trans ((List.perm_cons_erase others).append_left _)).symm
    have taken := (taken_append (every _ order)).1 bound
    have notNew : entry.1 ∉ ((entries.filter new).map Prod.fst).reverse := by
      intro inside
      obtain ⟨other, found, same⟩ := List.mem_map.mp (List.mem_reverse.mp inside)
      exact (all other found).2 (same ▸ present)
    rw [run_new all distinctNew, Refused, if_pos (List.mem_append_right _ present),
      List.idxOf_append_of_notMem notNew, List.length_reverse] at taken
    have length : ((entries.filter new).map Prod.fst).length = (news chain entries).length := rfl
    omega

end ChainOrder
