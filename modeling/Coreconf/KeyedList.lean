import Mathlib.Data.List.Induction
import Mathlib.Data.List.Nodup
import Mathlib.Data.List.TakeWhile

set_option autoImplicit false

/- Lists whose elements hold keys, changed key by key: the first element that holds a
key is removed or replaced, or a new one is appended. -/
namespace KeyedList

variable {α K : Type}

def replaceFirst (p : α → Bool) (v : α) : List α → List α
  | [] => []
  | x :: rest => if p x then v :: rest else x :: replaceFirst p v rest

/-- A key with the element that is to hold it, or none. -/
abbrev Update (α K : Type) := K × Option α

def update (holds : K → α → Bool) (l : List α) : Update α K → List α
  | (k, none) => l.eraseP (holds k)
  | (k, some v) => if l.any (holds k) then replaceFirst (holds k) v l else l ++ [v]

def replay (holds : K → α → Bool) (l : List α) (updates : List (Update α K)) : List α :=
  updates.foldl (update holds) l

section Replace

variable {p q : α → Bool} {u v w : α} {l : List α}

theorem replaceFirst_eq_set {i : Nat} (found : l.findIdx? p = some i) : replaceFirst p v l = l.set i v := by
  induction l generalizing i with
  | nil => cases found
  | cons x rest ih =>
    rw [List.findIdx?_cons] at found
    rw [replaceFirst]
    split at found
    · rename_i here
      cases found
      rw [if_pos here, List.set_cons_zero]
    · rename_i later
      obtain ⟨j, inRest, rfl⟩ := Option.map_eq_some_iff.mp found
      rw [if_neg later, List.set_cons_succ, ih inRest]

theorem find?_replaceFirst (new : p v) (present : l.any p) : (replaceFirst p v l).find? p = some v := by
  induction l with
  | nil => cases present
  | cons x rest ih =>
    rw [replaceFirst]
    split
    · rw [List.find?_cons_of_pos new]
    · rename_i later
      rw [List.find?_cons_of_neg later]
      exact ih (by simpa [later] using present)

/-- Replacing does not change which element is the first for another key, if that
element is not the one replaced. -/
theorem find?_replaceFirst_other (new : ¬ q v) (found : l.find? q = some u) (other : ¬ p u) :
    (replaceFirst p v l).find? q = some u := by
  induction l with
  | nil => cases found
  | cons x rest ih =>
    rw [replaceFirst]
    by_cases here : q x
    · rw [List.find?_cons_of_pos here, Option.some.injEq] at found
      subst found
      rw [if_neg other, List.find?_cons_of_pos here]
    · rw [List.find?_cons_of_neg here] at found
      split
      · rwa [List.find?_cons_of_neg new]
      · rw [List.find?_cons_of_neg here]
        exact ih found

theorem mem_replaceFirst {x : α} (member : x ∈ replaceFirst p v l) : x = v ∨ x ∈ l := by
  induction l with
  | nil => cases member
  | cons y rest ih =>
    rw [replaceFirst] at member
    split at member
    · exact (List.mem_cons.mp member).imp_right (List.mem_cons_of_mem _)
    · rcases List.mem_cons.mp member with rfl | member
      · exact Or.inr List.mem_cons_self
      · exact (ih member).imp_right (List.mem_cons_of_mem _)

theorem countP_replaceFirst_le (new : ¬ q v) : (replaceFirst p v l).countP q ≤ l.countP q := by
  induction l with
  | nil => exact Nat.le_refl _
  | cons x rest ih =>
    rw [replaceFirst]
    split
    · rw [List.countP_cons_of_neg new]
      exact (List.sublist_cons_self x rest).countP_le
    · simp only [List.countP_cons]
      omega

theorem replaceFirst_replaceFirst (new : p v) : replaceFirst p w (replaceFirst p v l) = replaceFirst p w l := by
  induction l with
  | nil => rfl
  | cons x rest ih =>
    by_cases here : p x <;> simp [replaceFirst, here, new, ih]

theorem replaceFirst_found (found : l.find? p = some v) : replaceFirst p v l = l := by
  induction l with
  | nil => rfl
  | cons x rest ih =>
    rw [replaceFirst]
    split
    · rename_i here
      rw [List.find?_cons_of_pos here, Option.some.injEq] at found
      rw [found]
    · rename_i later
      rw [List.find?_cons_of_neg later] at found
      rw [ih found]

/-- Replacements of elements apart from each other commute. -/
theorem replaceFirst_comm (newV : ¬ q v) (newW : ¬ p w)
    (foundP : ∀ x, l.find? p = some x → ¬ q x) (foundQ : ∀ x, l.find? q = some x → ¬ p x) :
    replaceFirst p v (replaceFirst q w l) = replaceFirst q w (replaceFirst p v l) := by
  induction l with
  | nil => rfl
  | cons x rest ih =>
    by_cases inP : p x
    · have notQ := foundP x (List.find?_cons_of_pos inP)
      simp [replaceFirst, inP, notQ, newV]
    · rw [List.find?_cons_of_neg inP] at foundP
      by_cases inQ : q x
      · simp [replaceFirst, inP, inQ, newW]
      · rw [List.find?_cons_of_neg inQ] at foundQ
        simp [replaceFirst, inP, inQ, ih foundP foundQ]

theorem find?_eraseP_other (found : l.find? q = some u) (other : ¬ p u) :
    (l.eraseP p).find? q = some u := by
  induction l with
  | nil => cases found
  | cons x rest ih =>
    by_cases here : q x
    · rw [List.find?_cons_of_pos here, Option.some.injEq] at found
      subst found
      rw [List.eraseP_cons_of_neg other, List.find?_cons_of_pos here]
    · rw [List.find?_cons_of_neg here] at found
      by_cases removed : p x
      · rwa [List.eraseP_cons_of_pos removed]
      · rw [List.eraseP_cons_of_neg removed, List.find?_cons_of_neg here]
        exact ih found

theorem countP_eraseP (l : List α) : (l.eraseP p).countP p = l.countP p - 1 := by
  induction l with
  | nil => rfl
  | cons x rest ih =>
    by_cases here : p x
    · rw [List.eraseP_cons_of_pos here, List.countP_cons_of_pos here]
      rfl
    · rw [List.eraseP_cons_of_neg here, List.countP_cons_of_neg here, List.countP_cons_of_neg here, ih]

end Replace

/-! Two predicates that are to find the same element. -/

section Lookup

variable {p q : α → Bool} {l : List α}

/-- They do where the first predicate leaves out what is in front of that element and
does not leave out the element. -/
theorem findIdx?_eq_iff : l.findIdx? p = l.findIdx? q ↔
    (∀ x ∈ l.takeWhile (!q ·), ¬ p x) ∧ ∀ x, l.find? q = some x → p x := by
  induction l with
  | nil => simp
  | cons x rest ih =>
    rw [List.findIdx?_cons, List.findIdx?_cons, List.takeWhile_cons, List.find?_cons]
    by_cases here : q x
    · by_cases held : p x
      · simp [here, held]
      · simp [here, held]
    · by_cases held : p x
      · cases rest.findIdx? q <;> simp [here, held]
      · simp only [here, held, Bool.false_eq_true, if_false, Bool.not_false, if_true, List.forall_mem_cons,
          not_false_eq_true, true_and]
        rw [← ih]
        cases rest.findIdx? p <;> cases rest.findIdx? q <;> simp

theorem find?_eq_of_findIdx?_eq (same : l.findIdx? p = l.findIdx? q) : l.find? p = l.find? q := by
  rw [List.find?_eq_bind_findIdx?_getElem?, same, ← List.find?_eq_bind_findIdx?_getElem?]

theorem eraseP_eq_of_findIdx?_eq (same : l.findIdx? p = l.findIdx? q) : l.eraseP p = l.eraseP q := by
  rw [List.eraseP_eq_eraseIdx, same, ← List.eraseP_eq_eraseIdx]

theorem eraseP_eq_filter (once : l.Pairwise fun x y => ¬ (q x ∧ q y)) : l.eraseP q = l.filter (!q ·) := by
  induction l with
  | nil => rfl
  | cons x rest ih =>
    obtain ⟨first, later⟩ := List.pairwise_cons.mp once
    rw [List.eraseP_cons, List.filter_cons]
    by_cases here : q x
    · have others : rest.filter (!q ·) = rest :=
        List.filter_eq_self.mpr fun y member => by simpa [here] using first y member
      simp [here, others]
    · simp [here, ih later]

/-- Where removing by the one removes by the other, they find the same element. -/
theorem findIdx?_eq_of_eraseP_eq (nodup : l.Nodup) (same : l.eraseP p = l.filter (!q ·)) :
    l.findIdx? p = l.findIdx? q := by
  have erased : ∀ y, l.find? p = some y → q y := by
    intro y found
    obtain ⟨a, before, after, front, held, split, rest⟩ :=
      List.exists_of_eraseP (List.mem_of_find?_eq_some found) (List.find?_some found)
    have first : l.find? p = some a := by
      rw [split, List.find?_append, List.find?_eq_none.mpr (by simpa using front), Option.none_or,
        List.find?_cons_of_pos held]
    rw [found, Option.some.injEq] at first
    subst first
    have gone : y ∉ l.eraseP p := by
      rw [rest]
      rw [split] at nodup
      exact (List.nodup_middle.mp nodup).notMem
    rw [same, List.mem_filter] at gone
    simpa [List.mem_of_find?_eq_some found] using gone
  refine findIdx?_eq_iff.mpr ⟨fun x member held => ?_, fun x found => ?_⟩
  · obtain ⟨y, inFront⟩ : ∃ y, (l.takeWhile (!q ·)).find? p = some y :=
      Option.isSome_iff_exists.mp (List.find?_isSome.mpr ⟨x, member, held⟩)
    have found : l.find? p = some y := by
      rw [← @List.takeWhile_append_dropWhile _ (!q ·) l, List.find?_append, inFront, Option.some_or]
    have other := List.mem_takeWhile_imp (List.mem_of_find?_eq_some inFront)
    simp [erased y found] at other
  · by_contra other
    have kept : x ∈ l.eraseP p := (List.mem_eraseP_of_neg other).mpr (List.mem_of_find?_eq_some found)
    rw [same, List.mem_filter] at kept
    simp [List.find?_some found] at kept

/-- What is left after a removal tells which element was removed. -/
theorem getElem?_eq_of_eraseIdx_eq {i j : Nat} (same : l.eraseIdx i = l.eraseIdx j) : l[i]? = l[j]? := by
  have shifted : ∀ (rest : List α) (x : α) (k : Nat), rest = x :: rest.eraseIdx k → rest[k]? = some x := by
    intro rest
    induction rest with
    | nil => exact fun x k empty => absurd empty (List.cons_ne_nil _ _).symm
    | cons y rest ih =>
        intro x k later
        cases k with
        | zero => exact congrArg some (List.cons.inj later).1
        | succ k => exact (List.cons.inj later).1 ▸ ih y k (List.cons.inj later).2
  induction l generalizing i j with
  | nil => rfl
  | cons x rest ih =>
      cases i with
      | zero =>
          cases j with
          | zero => rfl
          | succ j => exact (shifted rest x j same).symm
      | succ i =>
          cases j with
          | zero => exact shifted rest x i same.symm
          | succ j => exact ih (List.cons.inj same).2

end Lookup

section Replay

variable {holds : K → α → Bool} {updates : List (Update α K)} {l : List α}

/-- Every new element holds its own key and no other key of the updates, and no key
has both a new element and a removal. -/
structure Separate (holds : K → α → Bool) (updates : List (Update α K)) : Prop where
  own : ∀ k v, (k, some v) ∈ updates → holds k v
  other : ∀ k v k' v', (k, some v) ∈ updates → (k', v') ∈ updates → k' ≠ k → ¬ holds k' v
  either : ∀ k v, (k, some v) ∈ updates → (k, none) ∉ updates

/-- A list in which every key with a new element has one already, which holds no other
key, and no key with a removal is held. -/
structure Settled (holds : K → α → Bool) (updates : List (Update α K)) (l : List α) : Prop where
  present : ∀ k v, (k, some v) ∈ updates → ∃ u, l.find? (holds k) = some u ∧
    ∀ k' v', (k', v') ∈ updates → k' ≠ k → ¬ holds k' u
  absent : ∀ k, (k, none) ∈ updates → ∀ x ∈ l, ¬ holds k x

theorem Settled.update_none (settled : Settled holds updates l) {k : K} (member : (k, none) ∈ updates) :
    update holds l (k, none) = l :=
  List.eraseP_of_forall_not (settled.absent k member)

theorem Settled.update_some (settled : Settled holds updates l) {k : K} {v : α}
    (member : (k, some v) ∈ updates) : update holds l (k, some v) = replaceFirst (holds k) v l := by
  obtain ⟨u, found, -⟩ := settled.present k v member
  refine if_pos (List.any_eq_true.mpr ⟨u, List.mem_of_find?_eq_some found, List.find?_some found⟩)

theorem Settled.any (settled : Settled holds updates l) {k : K} {v : α}
    (member : (k, some v) ∈ updates) : l.any (holds k) := by
  obtain ⟨u, found, -⟩ := settled.present k v member
  exact List.any_eq_true.mpr ⟨u, List.mem_of_find?_eq_some found, List.find?_some found⟩

theorem Settled.replaceFirst (separate : Separate holds updates) (settled : Settled holds updates l)
    {k : K} {v : α} (member : (k, some v) ∈ updates) :
    Settled holds updates (replaceFirst (holds k) v l) where
  present := by
    intro k' v' member'
    by_cases same : k' = k
    · subst same
      exact ⟨v, find?_replaceFirst (separate.own k' v member) (settled.any member),
        fun k'' v'' member'' other => separate.other k' v k'' v'' member member'' other⟩
    · obtain ⟨u, found, alone⟩ := settled.present k' v' member'
      exact ⟨u, find?_replaceFirst_other (separate.other k v k' v' member member' same) found
        (alone k v member (Ne.symm same)), alone⟩
  absent := by
    intro k' removed x inside
    rcases mem_replaceFirst inside with rfl | inside
    · refine separate.other k x k' none member removed ?_
      rintro rfl
      exact separate.either k' x member removed
    · exact settled.absent k' removed x inside

theorem Settled.update (separate : Separate holds updates) (settled : Settled holds updates l)
    {next : Update α K} (member : next ∈ updates) : Settled holds updates (update holds l next) := by
  obtain ⟨k, _ | v⟩ := next
  · rwa [settled.update_none member]
  · rw [settled.update_some member]
    exact settled.replaceFirst separate member

/-- A new element that a later one for the same key replaces leaves no trace. -/
theorem replay_overwritten (separate : Separate holds updates) {rest : List (Update α K)}
    (within : ∀ next ∈ rest, next ∈ updates) (settled : Settled holds updates l) {k : K} {v : α}
    (member : (k, some v) ∈ updates) (later : k ∈ rest.map Prod.fst) :
    replay holds (replaceFirst (holds k) v l) rest = replay holds l rest := by
  induction rest generalizing l with
  | nil => cases later
  | cons next rest ih =>
    obtain ⟨first, others⟩ := List.forall_mem_cons.mp within
    have changed := settled.replaceFirst separate member
    show replay holds (KeyedList.update holds _ next) rest = replay holds (KeyedList.update holds l next) rest
    obtain ⟨k', _ | v'⟩ := next
    · rw [changed.update_none first, settled.update_none first]
      refine ih others settled ?_
      rcases List.mem_cons.mp later with rfl | later
      · exact absurd first (separate.either _ _ member)
      · exact later
    · rw [changed.update_some first, settled.update_some first]
      by_cases same : k' = k
      · subst same
        rw [replaceFirst_replaceFirst (separate.own k' v member)]
      · have commute : replaceFirst (holds k') v' (replaceFirst (holds k) v l) =
            replaceFirst (holds k) v (replaceFirst (holds k') v' l) := by
          obtain ⟨u, found, alone⟩ := settled.present k v member
          obtain ⟨u', found', alone'⟩ := settled.present k' v' first
          refine replaceFirst_comm (separate.other k' v' k v first member (Ne.symm same))
            (separate.other k v k' v' member first same) ?_ ?_
          · intro x here
            rw [found'] at here
            cases here
            exact alone' k v member (Ne.symm same)
          · intro x here
            rw [found] at here
            cases here
            exact alone k' v' first same
        rw [commute]
        refine ih others (settled.replaceFirst separate first) ?_
        rcases List.mem_cons.mp later with equal | later
        · exact absurd equal.symm same
        · exact later

/-- The last new element for each key is the first that holds the key. -/
def Latest (holds : K → α → Bool) (updates : List (Update α K)) (l : List α) : Prop :=
  ∀ k v before after, updates = before ++ (k, some v) :: after → k ∉ after.map Prod.fst →
    l.find? (holds k) = some v

theorem replay_settled (separate : Separate holds updates) {rest : List (Update α K)}
    (within : ∀ next ∈ rest, next ∈ updates) (settled : Settled holds updates l)
    (latest : Latest holds rest l) : replay holds l rest = l := by
  induction rest with
  | nil => rfl
  | cons next rest ih =>
    obtain ⟨first, others⟩ := List.forall_mem_cons.mp within
    have tail : replay holds l rest = l :=
      ih others fun k v before after same => latest k v (next :: before) after (by rw [same]; rfl)
    show replay holds (KeyedList.update holds l next) rest = l
    obtain ⟨k, _ | v⟩ := next
    · rwa [settled.update_none first]
    · rw [settled.update_some first]
      by_cases later : k ∈ rest.map Prod.fst
      · rwa [replay_overwritten separate others settled first later]
      · rwa [replaceFirst_found (latest k v [] rest rfl later)]

theorem find?_update {k : K} {v : α} (own : holds k v) :
    (update holds l (k, some v)).find? (holds k) = some v := by
  rw [update]
  split
  · rename_i present
    exact find?_replaceFirst own present
  · rename_i absent
    have nowhere : l.find? (holds k) = none := by
      rw [List.find?_eq_none]
      exact fun x member here => absent (List.any_eq_true.mpr ⟨x, member, here⟩)
    rw [List.find?_append, nowhere, Option.none_or, List.find?_cons_of_pos own]

/-- The new element is the first with its key: in the place of the one before, or else
at the end, and everything else stays where it was. -/
theorem update_some_at {k : K} {v : α} (own : holds k v) :
    ∃ i, (update holds l (k, some v)).findIdx? (holds k) = some i ∧
      (update holds l (k, some v))[i]? = some v ∧
      (∀ j, j ≠ i → (update holds l (k, some v))[j]? = l[j]?) ∧
      (update holds l (k, some v)).length = l.length + if l.any (holds k) then 0 else 1 := by
  cases place : l.findIdx? (holds k) with
  | some i =>
      have present : l.any (holds k) := by rw [← List.findIdx?_isSome, place]; rfl
      obtain ⟨within, -, earlier⟩ := List.findIdx?_eq_some_iff_getElem.mp place
      rw [update, if_pos present, replaceFirst_eq_set place]
      refine ⟨i, ?_, List.getElem?_set_self within, fun j other => ?_, ?_⟩
      · refine List.findIdx?_eq_some_iff_getElem.mpr ⟨by rwa [List.length_set], ?_, fun j before => ?_⟩
        · rwa [List.getElem_set_self]
        · rw [List.getElem_set_ne (Nat.ne_of_gt before)]
          exact earlier j before
      · exact List.getElem?_set_ne (Ne.symm other)
      · rw [List.length_set, if_pos present, Nat.add_zero]
  | none =>
      have absent : l.any (holds k) = false := by rw [← List.findIdx?_isSome, place]; rfl
      rw [update, absent, if_neg Bool.false_ne_true]
      refine ⟨l.length, ?_, by simp, fun j other => ?_, by simp⟩
      · rw [List.findIdx?_append, place, Option.none_or, List.findIdx?_cons, if_pos own, Option.map_some,
          Nat.zero_add]
      · rcases Nat.lt_or_gt_of_ne other with before | after
        · exact List.getElem?_append_left before
        · have outside : (l ++ [v]).length ≤ j := by
            rw [List.length_append, List.length_singleton]
            exact after
          rw [List.getElem?_eq_none outside, List.getElem?_eq_none (Nat.le_of_lt after)]

theorem update_none_at {k : K} {i : Nat} (found : l.findIdx? (holds k) = some i) :
    update holds l (k, none) = l.eraseIdx i := by
  rw [update, List.eraseP_eq_eraseIdx, found]

theorem find?_update_other {k : K} {u : α} (found : l.find? (holds k) = some u) {next : Update α K}
    (other : ¬ holds next.1 u) (new : ∀ v, next.2 = some v → ¬ holds k v) :
    (update holds l next).find? (holds k) = some u := by
  obtain ⟨k', _ | v⟩ := next
  · exact find?_eraseP_other found other
  · rw [update]
    split
    · exact find?_replaceFirst_other (new v rfl) found other
    · rw [List.find?_append, found, Option.some_or]

theorem replay_append_singleton (l : List α) (updates : List (Update α K)) (next : Update α K) :
    replay holds l (updates ++ [next]) = update holds (replay holds l updates) next := by
  rw [replay, replay, List.foldl_append, List.foldl_cons, List.foldl_nil]

/-- From any list, by induction over the updates from their end. -/
theorem latest_replay (separate : Separate holds updates) {done : List (Update α K)}
    (within : ∀ next ∈ done, next ∈ updates) (l : List α) :
    Latest holds done (replay holds l done) := by
  induction done using List.reverseRecOn with
  | nil =>
    intro k v before after same
    simp at same
  | append_singleton done next ih =>
    intro k v before after same absent
    have first := within next (List.mem_append_right _ List.mem_cons_self)
    rw [replay_append_singleton]
    rcases List.eq_nil_or_concat after with rfl | ⟨later, last, rfl⟩
    · obtain ⟨rfl, rfl⟩ := List.append_singleton_inj.mp same
      exact find?_update (separate.own k v first)
    · rw [List.concat_eq_append, ← List.cons_append, ← List.append_assoc] at same
      obtain ⟨rfl, rfl⟩ := List.append_singleton_inj.mp same
      simp only [List.concat_eq_append, List.map_append, List.map_cons, List.map_nil,
        List.mem_append, List.mem_singleton, not_or] at absent
      have member : (k, some v) ∈ updates := within _ (by simp)
      have found := ih (fun next inside => within next (List.mem_append_left _ inside)) k v before later
        rfl absent.1
      refine find?_update_other found (separate.other k v next.1 next.2 member first (Ne.symm absent.2))
        fun w same => ?_
      exact separate.other next.1 w k (some v) (same ▸ first) member absent.2

theorem exists_last {k : K} {v : Option α} (member : (k, v) ∈ updates) :
    ∃ v' before after, updates = before ++ (k, v') :: after ∧ k ∉ after.map Prod.fst := by
  induction updates generalizing v with
  | nil => cases member
  | cons next rest ih =>
    by_cases later : k ∈ rest.map Prod.fst
    · obtain ⟨⟨_, v'⟩, inside, rfl⟩ := List.mem_map.mp later
      obtain ⟨v'', before, after, same, absent⟩ := ih inside
      exact ⟨v'', next :: before, after, by rw [same]; rfl, absent⟩
    · rcases List.mem_cons.mp member with rfl | member
      · exact ⟨v, [], rest, rfl, later⟩
      · exact absurd (List.mem_map_of_mem member) later

theorem countP_update_le [DecidableEq K] (separate : Separate holds updates) {k : K}
    (removed : (k, none) ∈ updates) {next : Update α K} (member : next ∈ updates) :
    (update holds l next).countP (holds k) ≤ l.countP (holds k) - if next.1 = k then 1 else 0 := by
  obtain ⟨k', _ | v⟩ := next
  · by_cases same : k' = k
    · subst same
      have removedOne := countP_eraseP (p := holds k') l
      rw [if_pos rfl]
      exact Nat.le_of_eq removedOne
    · rw [if_neg same]
      exact List.eraseP_sublist.countP_le
  · have other : k' ≠ k := by
      rintro rfl
      exact separate.either _ _ member removed
    have new := separate.other k' v k none member removed (Ne.symm other)
    rw [if_neg other, update]
    split
    · exact countP_replaceFirst_le new
    · simp [new]

/-- Every removal of a key takes one element that holds it, if there is one. -/
theorem countP_replay_le [DecidableEq K] (separate : Separate holds updates) {k : K}
    (removed : (k, none) ∈ updates) {rest : List (Update α K)}
    (within : ∀ next ∈ rest, next ∈ updates) :
    (replay holds l rest).countP (holds k) ≤ l.countP (holds k) - (rest.map Prod.fst).count k := by
  induction rest generalizing l with
  | nil => exact Nat.le_refl _
  | cons next rest ih =>
    obtain ⟨first, others⟩ := List.forall_mem_cons.mp within
    have here := countP_update_le (l := l) separate removed first
    have later := ih (l := update holds l next) others
    rw [List.map_cons, List.count_cons]
    simp only [beq_iff_eq]
    show (replay holds (update holds l next) rest).countP (holds k) ≤ _
    omega

/-- Separate updates with a removal for every element that holds a removed key can be
replayed without effect. -/
theorem replay_replay [DecidableEq K] (separate : Separate holds updates)
    (removals : ∀ k, (k, none) ∈ updates → l.countP (holds k) ≤ (updates.map Prod.fst).count k) :
    replay holds (replay holds l updates) updates = replay holds l updates := by
  have within : ∀ next ∈ updates, next ∈ updates := fun _ member => member
  have latest := latest_replay separate within l
  refine replay_settled separate within ⟨?_, ?_⟩ latest
  · intro k v member
    obtain ⟨v', before, after, same, absent⟩ := exists_last member
    have last : (k, v') ∈ updates := by simp [same]
    cases v' with
    | none => exact absurd last (separate.either k v member)
    | some u =>
      exact ⟨u, latest k u before after same absent,
        fun k' v' member' other => separate.other k u k' v' last member' other⟩
  · intro k removed
    have few := countP_replay_le (l := l) separate removed within
    have enough := removals k removed
    exact List.countP_eq_zero.mp (by omega)

/-- Where the first element with each key is the new one and no removed key is held, nothing
is left to do. -/
theorem replay_done (latest : ∀ k v, (k, some v) ∈ updates → l.find? (holds k) = some v)
    (absent : ∀ k, (k, none) ∈ updates → ∀ x ∈ l, ¬ holds k x) : replay holds l updates = l := by
  induction updates with
  | nil => rfl
  | cons next rest ih =>
    have tail := ih (fun k v member => latest k v (List.mem_cons_of_mem _ member))
      fun k member => absent k (List.mem_cons_of_mem _ member)
    show replay holds (update holds l next) rest = l
    obtain ⟨k, _ | v⟩ := next
    · have unchanged : update holds l (k, none) = l :=
        List.eraseP_of_forall_not (absent k List.mem_cons_self)
      rw [unchanged, tail]
    · have found := latest k v List.mem_cons_self
      have present : l.any (holds k) :=
        List.any_eq_true.mpr ⟨v, List.mem_of_find?_eq_some found, List.find?_some found⟩
      have unchanged : update holds l (k, some v) = l := by
        rw [update, if_pos present, replaceFirst_found found]
      rw [unchanged, tail]

end Replay

end KeyedList
