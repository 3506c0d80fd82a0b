import Coreconf.ScannerProgress

set_option autoImplicit false

/- The queue of events in coreconf_server.c: an array whose newest event is in front, and
the two ways in which a response is filled from it. -/
namespace Coreconf

open Fuel (Returns Monotone Extends)

/-- `g_stream_events` and `g_stream_event_count`. -/
structure StreamQueue where
  slots : List (List UInt8)
  count : Nat
  slots_length : slots.length = STREAM_MAX_EVENTS
  count_le : count ≤ STREAM_MAX_EVENTS

/-- Each slot from this one down to the second takes the event of the slot before it. -/
def shiftEvents (slots : List (List UInt8)) : Nat → List (List UInt8)
  | 0 => slots
  | i + 1 => shiftEvents (slots.set (i + 1) (slots.getD i [])) i

theorem shiftEvents_eq {slots : List (List UInt8)} {i : Nat} (bound : i < slots.length) :
    shiftEvents slots i = slots.take 1 ++ (slots.take i ++ slots.drop (i + 1)) := by
  induction i generalizing slots with
  | zero => exact (List.take_append_drop 1 slots).symm
  | succ i ih =>
      have before : i < slots.length := Nat.lt_of_succ_lt bound
      have moved : (slots.set (i + 1) (slots.getD i [])).drop (i + 1) = slots.getD i [] :: slots.drop (i + 2) := by
        rw [List.drop_eq_getElem_cons (by rwa [List.length_set]), List.getElem_set_self,
          List.drop_set_of_lt (Nat.lt_succ_self _)]
      have kept : slots.take (i + 1) = slots.take i ++ [slots.getD i []] := by
        rw [List.take_add_one, List.getElem?_eq_getElem before, List.getD_eq_getElem _ _ before]
        rfl
      rw [shiftEvents, ih (by rwa [List.length_set]), moved, List.take_set_of_le (by omega),
        List.take_set_of_le (by omega), kept, List.append_assoc]
      rfl

@[simp] theorem shiftEvents_length (slots : List (List UInt8)) (i : Nat) :
    (shiftEvents slots i).length = slots.length := by
  induction i generalizing slots with
  | zero => rfl
  | succ i ih => rw [shiftEvents, ih, List.length_set]

namespace StreamQueue

def empty : StreamQueue where
  slots := List.replicate STREAM_MAX_EVENTS []
  count := 0
  slots_length := List.length_replicate
  count_le := Nat.zero_le _

/-- The events, the newest first. -/
def events (q : StreamQueue) : List (List UInt8) := q.slots.take q.count

theorem events_length (q : StreamQueue) : q.events.length = q.count := by
  rw [events, List.length_take, q.slots_length, Nat.min_eq_left q.count_le]

/-- How many events are left when the oldest has made room. -/
def kept (q : StreamQueue) : Nat := if q.count = STREAM_MAX_EVENTS then q.count - 1 else q.count

theorem kept_lt (q : StreamQueue) : q.kept < STREAM_MAX_EVENTS := by
  have bound := q.count_le
  rw [kept]
  split
  · have positive : 0 < STREAM_MAX_EVENTS := by decide
    omega
  · omega

/-- stream_push_event on the slots. -/
def push (q : StreamQueue) (data : List UInt8) : StreamQueue :=
  if data = [] then q
  else
    { slots := (shiftEvents q.slots q.kept).set 0 data
      count := q.kept + 1
      slots_length := by rw [List.length_set, shiftEvents_length, q.slots_length]
      count_le := q.kept_lt }

/-- The slots move as a list would that drops its oldest event. -/
theorem push_events (q : StreamQueue) (data : List UInt8) : (q.push data).events = streamPushEvent data q.events := by
  rw [push, streamPushEvent]
  split
  · rfl
  · have bound : q.kept < q.slots.length := q.slots_length ▸ q.kept_lt
    have placed : (shiftEvents q.slots q.kept).set 0 data =
        data :: (q.slots.take q.kept ++ q.slots.drop (q.kept + 1)) := by
      rw [shiftEvents_eq bound]
      cases slots : q.slots with
      | nil => rw [slots] at bound; cases bound
      | cons first rest => rfl
    have left : (q.slots.take q.kept).length = q.kept := by
      rw [List.length_take, Nat.min_eq_left bound.le]
    change ((shiftEvents q.slots q.kept).set 0 data).take (q.kept + 1) = _
    rw [placed, List.take_succ_cons, List.take_left' left, events_length, kept]
    split
    next full =>
        rw [List.dropLast_eq_take, events_length, events, List.take_take, Nat.min_eq_left (Nat.sub_le _ _)]
    next => rfl

end StreamQueue

theorem take_streamPushEvent {data : List UInt8} (nonempty : data ≠ []) (events : List (List UInt8)) :
    streamPushEvent data (events.take STREAM_MAX_EVENTS) = (data :: events).take STREAM_MAX_EVENTS := by
  rw [streamPushEvent, if_neg nonempty, show STREAM_MAX_EVENTS = 15 + 1 from rfl, List.take_succ_cons]
  congr 1
  by_cases full : 15 + 1 ≤ events.length
  · rw [if_pos (by rw [List.length_take, Nat.min_eq_left full]), List.dropLast_eq_take, List.length_take,
      Nat.min_eq_left full, List.take_take]
    rfl
  · rw [if_neg (by rw [List.length_take]; omega), List.take_of_length_le (by omega),
      List.take_of_length_le (by omega)]

/-- Whatever is pushed, the queue holds the newest sixteen of it. -/
theorem pushAll_events {pushes : List (List UInt8)} (nonempty : ∀ data ∈ pushes, data ≠ [])
    {q : StreamQueue} {before : List (List UInt8)} (held : q.events = before.take STREAM_MAX_EVENTS) :
    (pushes.foldl StreamQueue.push q).events = (pushes.reverse ++ before).take STREAM_MAX_EVENTS := by
  induction pushes generalizing q before with
  | nil => exact held
  | cons data rest ih =>
      obtain ⟨first, others⟩ := List.forall_mem_cons.mp nonempty
      have pushed : (q.push data).events = (data :: before).take STREAM_MAX_EVENTS := by
        rw [q.push_events, held, take_streamPushEvent first]
      rw [List.foldl_cons, ih others pushed, List.reverse_cons, List.append_assoc]
      rfl

/-- The loop of stream_encode_sequence, with the bytes it has used. -/
def encodeEvents (outSz : Nat) : Nat → List (List UInt8) → List UInt8
  | _, [] => []
  | used, event :: rest =>
      if event = [] then encodeEvents outSz used rest
      else if used + event.length > outSz then []
      else event ++ encodeEvents outSz (used + event.length) rest

/-- No limit, or one beyond the queue, is the whole queue. -/
def StreamQueue.clamp (q : StreamQueue) (maxItems : Nat) : Nat :=
  if maxItems = 0 ∨ maxItems > q.count then q.count else maxItems

def streamEncodeSequence (outSz maxItems : Nat) (q : StreamQueue) : List UInt8 :=
  if outSz = 0 ∨ q.count = 0 then []
  else encodeEvents outSz 0 (q.slots.take (q.clamp maxItems))

/-- The loop of stream_encode_sequence_filtered, which counts what it has written. -/
def encodeMatches (filterSids : List UInt64) (outSz maxItems n : Nat) :
    Nat → Nat → List (List UInt8) → Option (List UInt8)
  | _, _, [] => some []
  | used, written, event :: rest =>
      if written < maxItems then
        (streamEventMatchesFilter filterSids n event).bind fun found =>
          if !found then encodeMatches filterSids outSz maxItems n used written rest
          else if event = [] then encodeMatches filterSids outSz maxItems n used written rest
          else if used + event.length > outSz then some []
          else
            (encodeMatches filterSids outSz maxItems n (used + event.length) (written + 1) rest).map (event ++ ·)
      else some []

def streamEncodeSequenceFiltered (outSz maxItems : Nat) (filterSids : List UInt64) (n : Nat) (q : StreamQueue) :
    Option (List UInt8) :=
  if outSz = 0 ∨ q.count = 0 then some []
  else if filterSids = [] then some (streamEncodeSequence outSz maxItems q)
  else encodeMatches filterSids outSz (q.clamp maxItems) n 0 0 (q.slots.take q.count)

/-- The longest prefix of some byte strings whose bytes fit. -/
structure LongestFitting (room : Nat) (all taken : List (List UInt8)) : Prop where
  isPrefix : taken <+: all
  fits : taken.flatten.length ≤ room
  longest : ∀ more, more <+: all → more.flatten.length ≤ room → more <+: taken

/-- The same taken from the front as long as it fits. -/
def fitting (room : Nat) : List (List UInt8) → List (List UInt8)
  | [] => []
  | event :: rest => if event.length ≤ room then event :: fitting (room - event.length) rest else []

theorem fitting_longest (room : Nat) (all : List (List UInt8)) : LongestFitting room all (fitting room all) := by
  induction all generalizing room with
  | nil => exact ⟨List.prefix_rfl, Nat.zero_le _, fun more isPrefix _ => isPrefix⟩
  | cons event rest ih =>
      rw [fitting]
      split
      next small =>
          obtain ⟨isPrefix, fits, longest⟩ := ih (room - event.length)
          refine ⟨List.prefix_cons_iff.mpr (Or.inr ⟨_, rfl, isPrefix⟩), ?_, fun more front size => ?_⟩
          · rw [List.flatten_cons, List.length_append]
            omega
          · obtain rfl | ⟨later, rfl, behind⟩ := List.prefix_cons_iff.mp front
            · exact List.nil_prefix
            · rw [List.flatten_cons, List.length_append] at size
              exact List.prefix_cons_iff.mpr (Or.inr ⟨_, rfl, longest later behind (by omega)⟩)
      next large =>
          refine ⟨List.nil_prefix, Nat.zero_le _, fun more front size => ?_⟩
          obtain rfl | ⟨later, rfl, -⟩ := List.prefix_cons_iff.mp front
          · exact List.nil_prefix
          · rw [List.flatten_cons, List.length_append] at size
            omega

theorem encodeEvents_eq {outSz used : Nat} (within : used ≤ outSz) {events : List (List UInt8)}
    (nonempty : ∀ event ∈ events, event ≠ []) :
    encodeEvents outSz used events = (fitting (outSz - used) events).flatten := by
  induction events generalizing used with
  | nil => rfl
  | cons event rest ih =>
      obtain ⟨first, others⟩ := List.forall_mem_cons.mp nonempty
      rw [encodeEvents, if_neg first, fitting]
      by_cases large : used + event.length > outSz
      · rw [if_pos large, if_neg (by omega)]
        rfl
      · rw [if_neg large, if_pos (by omega), ih (by omega) others, Nat.sub_add_eq, List.flatten_cons]

open Classical in
/-- The matcher returns 1 on the event. -/
noncomputable def matched (filterSids : List UInt64) (event : List UInt8) : Bool :=
  decide (Returns matchesFilter (filterSids, event) true)

open Classical in
/-- With enough fuel the matcher comes back with this answer. -/
theorem matchesFilter_matched (filterSids : List UInt64) (event : List UInt8) :
    Returns matchesFilter (filterSids, event) (matched filterSids event) := by
  obtain ⟨found, ran⟩ := matchesFilter_terminates filterSids event
  cases found with
  | true =>
      rw [show matched filterSids event = true from decide_eq_true ran]
      exact ran
  | false =>
      have other : ¬ Returns matchesFilter (filterSids, event) true := fun yes =>
        Bool.noConfusion (ran.unique matchesFilter_monotone yes)
      rw [show matched filterSids event = false from decide_eq_false other]
      exact ran

def matchesEncoded (filterSids : List UInt64) (outSz maxItems used written n : Nat)
    (events : List (List UInt8)) : Option (List UInt8) :=
  encodeMatches filterSids outSz maxItems n used written events

theorem matchesEncoded_monotone (filterSids : List UInt64) (outSz maxItems used written : Nat) :
    Monotone (matchesEncoded filterSids outSz maxItems used written) := by
  refine Monotone.of_extends fun m n events le => ?_
  induction events generalizing used written with
  | nil => exact .refl _
  | cons event rest ih =>
      simp only [matchesEncoded, encodeMatches]
      refine .ite ((matchesFilter_monotone.extends le (filterSids, event)).bind fun found => ?_) (.refl _)
      exact .ite (ih used written) (.ite (ih used written) (.ite (.refl _) ((ih _ _).map _)))

/-- The filtered loop writes the matching events that fit, by induction over the queue. -/
theorem encodeMatches_eq (filterSids : List UInt64) {outSz maxItems used written : Nat} (within : used ≤ outSz)
    {events : List (List UInt8)} (nonempty : ∀ event ∈ events, event ≠ []) :
    Returns (matchesEncoded filterSids outSz maxItems used written) events
      (fitting (outSz - used) ((events.filter (matched filterSids)).take (maxItems - written))).flatten := by
  induction events generalizing used written with
  | nil => exact ⟨0, by simp [matchesEncoded, encodeMatches, fitting]⟩
  | cons event rest ih =>
      obtain ⟨first, others⟩ := List.forall_mem_cons.mp nonempty
      by_cases more : written < maxItems
      · have answer := matchesFilter_matched filterSids event
        cases found : matched filterSids event with
        | false =>
            obtain ⟨n, answer, later⟩ := Returns.both matchesFilter_monotone
              (matchesEncoded_monotone filterSids outSz maxItems used written) (found ▸ answer) (ih within others)
            refine ⟨n, ?_⟩
            rw [List.filter_cons_of_neg (by simp [found]), matchesEncoded, encodeMatches, if_pos more,
              show streamEventMatchesFilter filterSids n event = _ from answer, Option.bind_some]
            exact later
        | true =>
            by_cases large : used + event.length > outSz
            · obtain ⟨n, answer⟩ := answer
              refine ⟨n, ?_⟩
              obtain ⟨left, rest_left⟩ : ∃ k, maxItems - written = k + 1 := ⟨maxItems - written - 1, by omega⟩
              rw [matchesEncoded, encodeMatches, if_pos more,
                show streamEventMatchesFilter filterSids n event = _ from answer, Option.bind_some, found,
                if_neg (by decide), if_neg first, if_pos large, List.filter_cons_of_pos found, rest_left,
                List.take_succ_cons, fitting, if_neg (by omega)]
              rfl
            · obtain ⟨n, answer, later⟩ := Returns.both matchesFilter_monotone
                (matchesEncoded_monotone filterSids outSz maxItems (used + event.length) (written + 1))
                answer (ih (by omega) others)
              refine ⟨n, ?_⟩
              have left : maxItems - written = maxItems - (written + 1) + 1 := by omega
              rw [matchesEncoded, encodeMatches, if_pos more,
                show streamEventMatchesFilter filterSids n event = _ from answer, Option.bind_some, found,
                if_neg (by decide), if_neg first, if_neg large,
                show encodeMatches filterSids outSz maxItems n _ _ rest = _ from later,
                Option.map_some, List.filter_cons_of_pos found, left, List.take_succ_cons, fitting,
                if_pos (by omega), Nat.sub_add_eq, List.flatten_cons]
      · refine ⟨0, ?_⟩
        rw [matchesEncoded, encodeMatches, if_neg more, show maxItems - written = 0 by omega, List.take_zero]
        rfl

/-- The first of some events, or all of them where no number is given. -/
def firstEvents (maxItems : Nat) (events : List (List UInt8)) : List (List UInt8) :=
  if maxItems = 0 then events else events.take maxItems

theorem take_clamp (q : StreamQueue) (maxItems : Nat) {events : List (List UInt8)}
    (few : events.length ≤ q.count) : events.take (q.clamp maxItems) = firstEvents maxItems events := by
  rw [StreamQueue.clamp, firstEvents]
  by_cases all : maxItems = 0
  · rw [if_pos (Or.inl all), if_pos all, List.take_of_length_le few]
  · rw [if_neg all]
    split
    next many =>
        have beyond := many.resolve_left all
        rw [List.take_of_length_le few, List.take_of_length_le (by omega)]
    next => rfl

theorem clamp_le (q : StreamQueue) (maxItems : Nat) : q.clamp maxItems ≤ q.count := by
  rw [StreamQueue.clamp]
  split <;> omega

theorem mem_firstEvents {maxItems : Nat} {events : List (List UInt8)} {event : List UInt8}
    (member : event ∈ firstEvents maxItems events) : event ∈ events := by
  rw [firstEvents] at member
  split at member
  · exact member
  · exact List.mem_of_mem_take member

/-- Into no room goes nothing, as no event is empty. -/
theorem fitting_nothing {room : Nat} {events : List (List UInt8)} (nonempty : ∀ event ∈ events, event ≠ [])
    (nothing : room = 0 ∨ events = []) : fitting room events = [] := by
  cases events with
  | nil => rfl
  | cons event rest =>
      have none_fits := nothing.resolve_right (List.cons_ne_nil event rest)
      have positive := List.length_pos_iff.mpr (nonempty event List.mem_cons_self)
      rw [fitting, if_neg (by omega)]

section Encode

variable {q : StreamQueue} (nonempty : ∀ event ∈ q.events, event ≠ [])

theorem events_eq_nil : q.count = 0 ↔ q.events = [] := by
  rw [← q.events_length, List.length_eq_zero_iff]

include nonempty

/-- A response without a filter is as many of the first events as fit. -/
theorem streamEncodeSequence_eq (outSz maxItems : Nat) :
    streamEncodeSequence outSz maxItems q = (fitting outSz (firstEvents maxItems q.events)).flatten := by
  have inside : ∀ event ∈ firstEvents maxItems q.events, event ≠ [] :=
    fun event member => nonempty event (mem_firstEvents member)
  rw [streamEncodeSequence]
  split
  next nothing =>
      rw [fitting_nothing inside (nothing.imp_right fun empty => ?_)]
      · rfl
      · rw [events_eq_nil.mp empty, firstEvents, List.take_nil, ite_self]
  next =>
      have taken : q.slots.take (q.clamp maxItems) = firstEvents maxItems q.events := by
        rw [← take_clamp q maxItems q.events_length.le, StreamQueue.events, List.take_take,
          Nat.min_eq_left (clamp_le q maxItems)]
      rw [taken, encodeEvents_eq (Nat.zero_le _) inside, Nat.sub_zero]

/-- One with a filter is as many of the first that match. -/
theorem streamEncodeSequenceFiltered_returns (outSz maxItems : Nat) {filterSids : List UInt64}
    (filtered : filterSids ≠ []) :
    Returns (streamEncodeSequenceFiltered outSz maxItems filterSids) q
      (fitting outSz (firstEvents maxItems (q.events.filter (matched filterSids)))).flatten := by
  by_cases nothing : outSz = 0 ∨ q.count = 0
  · refine ⟨0, ?_⟩
    rw [streamEncodeSequenceFiltered, if_pos nothing, fitting_nothing ?_ (nothing.imp_right fun empty => ?_)]
    · rfl
    · exact fun event member => nonempty event (List.mem_of_mem_filter (mem_firstEvents member))
    · rw [events_eq_nil.mp empty, List.filter_nil, firstEvents, List.take_nil, ite_self]
  · obtain ⟨n, ran⟩ := @encodeMatches_eq filterSids outSz (q.clamp maxItems) 0 0 (Nat.zero_le _) q.events
      nonempty
    have few : (q.events.filter (matched filterSids)).length ≤ q.count :=
      (List.length_filter_le _ _).trans q.events_length.le
    rw [Nat.sub_zero, Nat.sub_zero, take_clamp q maxItems few] at ran
    refine ⟨n, ?_⟩
    rw [streamEncodeSequenceFiltered, if_neg nothing, if_neg filtered]
    exact ran

end Encode

/-- The queue after these calls of stream_push_event. -/
def queueOf (pushes : List (List UInt8)) : StreamQueue := pushes.foldl StreamQueue.push .empty

/-- The queue is the newest sixteen events that were pushed, newest first, and a response the
longest prefix that fits of as many of them as are asked for, or of those that match. -/
theorem newest_events_encoded {pushes : List (List UInt8)} (nonempty : ∀ data ∈ pushes, data ≠ []) :
    (queueOf pushes).events = pushes.reverse.take STREAM_MAX_EVENTS ∧
    ∀ outSz maxItems,
      (∃ taken, LongestFitting outSz (firstEvents maxItems (queueOf pushes).events) taken ∧
        streamEncodeSequence outSz maxItems (queueOf pushes) = taken.flatten) ∧
      ∀ filterSids ≠ [], ∃ taken,
        LongestFitting outSz (firstEvents maxItems ((queueOf pushes).events.filter (matched filterSids))) taken ∧
        Returns (streamEncodeSequenceFiltered outSz maxItems filterSids) (queueOf pushes) taken.flatten := by
  have held : (queueOf pushes).events = pushes.reverse.take STREAM_MAX_EVENTS := by
    have all := @pushAll_events pushes nonempty .empty [] rfl
    rwa [List.append_nil] at all
  have inside : ∀ event ∈ (queueOf pushes).events, event ≠ [] := by
    intro event member
    rw [held] at member
    exact nonempty event (List.mem_reverse.mp (List.mem_of_mem_take member))
  refine ⟨held, fun outSz maxItems => ⟨⟨_, fitting_longest _ _, streamEncodeSequence_eq inside outSz maxItems⟩,
    fun filterSids filtered => ⟨_, fitting_longest _ _, ?_⟩⟩⟩
  exact streamEncodeSequenceFiltered_returns inside outSz maxItems filtered

/-- Seventeen events of one byte: the first of them is lost. -/
theorem seventeen_events_encoded :
    (queueOf ((List.range 17).map fun i => [UInt8.ofNat i])).events.length = 16 ∧
    ∃ taken, LongestFitting 3 (firstEvents 0 (queueOf ((List.range 17).map fun i => [UInt8.ofNat i])).events) taken ∧
      streamEncodeSequence 3 0 (queueOf ((List.range 17).map fun i => [UInt8.ofNat i])) = taken.flatten := by
  obtain ⟨held, responses⟩ := @newest_events_encoded
    ((List.range 17).map fun i => [UInt8.ofNat i]) (by decide)
  refine ⟨?_, (responses 3 0).1⟩
  rw [held]
  decide

end Coreconf
