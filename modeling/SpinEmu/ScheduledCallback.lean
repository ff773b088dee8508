import SpinEmu.SelectionOrder
import Mathlib.Data.Set.Finite.Basic

/-! Callbacks that an application schedules. `spin1_schedule_callback` borrows the queue of
the user event, and the priority that it is given goes nowhere. -/
namespace SpinEmu
open Lib Lib.Machine

def userEvent : EventId := 4

/-- `spin1_schedule_callback`: what it returns, and the scheduler after it; `ev` is as in
`queue_event`. -/
def spin1ScheduleCallback (cback : Callback) (arg0 arg1 _priority : BitVec 32) (ev : Nat)
    (s : Scheduler) : Option (BitVec 32 × Scheduler) :=
  (s.queueEvent userEvent arg0 arg1 cback ev).map fun t => (1, t)

/-- A callback that has been scheduled: its event, the priority that was asked for, and how
many events had gone into each queue before. -/
structure Ticket where
  event : QEvent
  priority : BitVec 32
  old : EventId → Nat

namespace Ticket
variable (k : Ticket)

def number : Int := k.priority.toNat

/-- The events before it in its queue, and it itself, have not all been called. -/
def Pending (t : Scheduler) : Prop := (t.dispatched userEvent).length ≤ k.old userEvent

/-- It is the first of its queue. -/
def First (t : Scheduler) : Prop := (t.dispatched userEvent).length = k.old userEvent

/-- While it is pending nothing with a larger number is about to be taken before it, and it
is not about to be taken before an older event with a smaller number. -/
structure InTurn (t : Scheduler) : Prop where
  larger : ∀ e, t.worker = .selected e → k.Pending t → ¬ (e = userEvent ∧ k.First t) →
    (t.priority e).toInt ≤ k.number
  smaller : t.worker = .selected userEvent → k.First t → ∀ e, t.cback e ≠ none →
    (t.dispatched e).length < k.old e → k.number ≤ (t.priority e).toInt

/-- It is called in the end, and the loop by itself comes to it. -/
structure Honoured (t : Scheduler) : Prop extends k.InTurn t where
  called : ¬ k.Pending t → (t.dispatched userEvent)[k.old userEvent]? = some k.event
  reached : ∃ u, Run Scheduler.step Scheduler.Loops t u ∧ ¬ k.Pending u

/-- What keeps it in its place: its type is registered, and comes neither behind a type
with a larger number nor before one with older events and a smaller number. -/
structure Favoured (t : Scheduler) : Prop extends k.InTurn t where
  registered : t.cback userEvent ≠ none
  ahead : (t.dispatched userEvent).length < k.old userEvent →
    (t.priority userEvent).toInt ≤ k.number
  others : ∀ e, e ≠ userEvent → t.cback e ≠ none → t.Prefers e userEvent →
    (t.priority e).toInt ≤ k.number
  older : ∀ e, e ≠ userEvent → t.cback e ≠ none →
    (t.dispatched e).length + (if t.worker = .selected e then 1 else 0) < k.old e →
    (t.priority e).toInt < k.number → t.Prefers e userEvent

/-- What can happen after the call while nobody changes a registration. -/
def Continues (s : Scheduler) : Scheduler.Action → Prop
  | .queueEvent _ _ _ _ ev => s.heap ev = none
  | .callbackOn _ _ _ => False
  | .callbackOff _ => False
  | .select => s.worker = .selecting
  | .dequeue => s.worker ≠ .selecting

/-- The same with changes of registrations that leave the callback favoured. -/
def Keeps (s : Scheduler) : Scheduler.Action → Prop
  | .callbackOn event cback priority => k.Pending s → k.Favoured (s.callbackOn event cback priority)
  | .callbackOff event => k.Pending s → k.Favoured (s.callbackOff event)
  | a => Continues s a

end Ticket

/-- The ticket of a call. -/
def ticket (cback : Callback) (arg0 arg1 priority : BitVec 32) (s : Scheduler) : Ticket :=
  ⟨⟨arg0, arg1, cback⟩, priority, fun e => (s.appended e).length⟩

/-- The call returns 1 and leaves one new event, in the queue; in every continuation that
the guard allows it is honoured. -/
def ReallyScheduled (ok : Scheduler → Scheduler.Action → Prop) (cback : Callback)
    (arg0 arg1 priority : BitVec 32) (ev : Nat) (s : Scheduler) : Prop :=
  ∃ t, spin1ScheduleCallback cback arg0 arg1 priority ev s = some (1, t) ∧
    t.direct = s.direct ∧ t.dispatched = s.dispatched ∧
    t.appended = Function.update s.appended userEvent
      (s.appended userEvent ++ [⟨arg0, arg1, cback⟩]) ∧
    ∀ u, Run Scheduler.step ok t u → (ticket cback arg0 arg1 priority s).Honoured u

/-- The user event is registered with a positive number; nothing with a larger number than
the requested one is selected, before it in its queue, or preferred by the loop; and the
loop prefers what has a smaller number and is waiting. -/
structure Suits (priority : BitVec 32) (s : Scheduler) : Prop where
  registered : s.cback userEvent ≠ none
  positive : 0 < (s.priority userEvent).toInt
  selected : ∀ e, s.worker = .selected e → (s.priority e).toInt ≤ priority.toNat
  ahead : s.queue userEvent ≠ none → (s.priority userEvent).toInt ≤ priority.toNat
  others : ∀ e, e ≠ userEvent → s.cback e ≠ none → s.Prefers e userEvent →
    (s.priority e).toInt ≤ priority.toNat
  older : ∀ e, e ≠ userEvent → s.cback e ≠ none →
    (s.dispatched e).length + (if s.worker = .selected e then 1 else 0) < (s.appended e).length →
    (s.priority e).toInt < priority.toNat → s.Prefers e userEvent

namespace Scheduler
open Lib.Heap
variable {s t : Scheduler} {event : EventId} {arg1 arg2 : BitVec 32} {cbacktoq : Callback}
  {ev : Nat}

theorem prefix_update (f : EventId → List QEvent) (event e : EventId) (x : QEvent) :
    f e <+: Function.update f event (f event ++ [x]) e := by
  by_cases here : e = event
  · subst here
    rw [Function.update_self]
    exact List.prefix_append _ _
  · rw [Function.update_of_ne here]

/-- What `queue_event` leaves alone, and that it only appends. -/
theorem queueEvent_fields (result : s.queueEvent event arg1 arg2 cbacktoq ev = some t) :
    t.cback = s.cback ∧ t.priority = s.priority ∧ t.dispatched = s.dispatched ∧
      t.worker = s.worker ∧ ∀ e, s.appended e <+: t.appended e := by
  obtain ⟨-, rfl⟩ | ⟨-, -, rfl⟩ | ⟨-, -, appended⟩ := queueEvent_cases result
  · exact ⟨rfl, rfl, rfl, rfl, fun _ => List.prefix_rfl⟩
  · exact ⟨rfl, rfl, rfl, rfl, fun _ => List.prefix_rfl⟩
  · obtain ⟨heap, queue, rfl⟩ := append_eq appended
    exact ⟨rfl, rfl, rfl, rfl, fun e => prefix_update s.appended event e _⟩

theorem appended_append {e : QEvent} (result : s.append event e ev = some t) :
    t.appended = Function.update s.appended event (s.appended event ++ [e]) := by
  obtain ⟨heap, queue, rfl⟩ := append_eq result
  rfl

/-- Memory that is not in use stays so, apart from the new event. -/
theorem append_heap {e : QEvent} {a : Nat} (result : s.append event e ev = some t)
    (apart : a ≠ ev) (free : s.heap a = none) : t.heap a = none := by
  have still : Function.update s.heap ev (some ⟨none, e⟩) a = none := by
    rwa [Function.update_of_ne apart]
  obtain ⟨-, rfl⟩ | ⟨-, tail, heap, linked, rfl⟩ := append_cases result
  · exact still
  · obtain ⟨node, used, rfl⟩ := Option.map_eq_some_iff.mp linked
    have other : a ≠ tail := by
      rintro rfl
      rw [still] at used
      cases used
    exact (Function.update_of_ne other _ _).trans still

/-- The records of what was appended and called only grow. -/
theorem step_grows {a : Action} (taken : s.step a = some t) (e : EventId) :
    s.appended e <+: t.appended e ∧ s.dispatched e <+: t.dispatched e := by
  cases a with
  | queueEvent event arg1 arg2 cbacktoq ev =>
    obtain ⟨-, -, dispatched, -, longer⟩ := queueEvent_fields taken
    exact ⟨longer e, dispatched ▸ List.prefix_rfl⟩
  | callbackOn | callbackOff | select =>
    cases taken
    exact ⟨List.prefix_rfl, List.prefix_rfl⟩
  | dequeue =>
    obtain ⟨minev, node, -, rfl⟩ := dequeue_cases taken
    exact ⟨List.prefix_rfl, prefix_update s.dispatched minev e node.val⟩

/-- The event that the worker has selected, if it has, is removed. -/
theorem exists_idle {l : EventId → List Nat} (consistent : s.Consistent l) :
    ∃ t l', Run step Loops s t ∧ t.Consistent l' ∧ t.worker = .selecting ∧ t.cback = s.cback ∧
      t.priority = s.priority ∧ t.heap = s.heap ∧ t.appended = s.appended ∧
      ∀ e, (t.dispatched e).length =
        (s.dispatched e).length + if s.worker = .selected e then 1 else 0 := by
  cases place : s.worker with
  | selecting => exact ⟨s, l, .refl, consistent, place, rfl, rfl, rfl, rfl, fun e => by simp⟩
  | selected chosen =>
    obtain ⟨t, l', x, taken, kept, idle, cback, priority, heap, appended, dispatched⟩ :=
      consistent.dequeue place
    refine ⟨t, l', .tail .refl (loops_dequeue place) taken, kept, idle, cback, priority, heap,
      appended, fun e => ?_⟩
    rw [dispatched, length_dispatched]

end Scheduler

namespace Ticket
open Scheduler
variable {k : Ticket} {s t : Scheduler}

/-- The queues are in order, and the scheduled event stands behind the older ones. -/
structure Held (k : Ticket) (t : Scheduler) : Prop where
  consistent : ∃ l, t.Consistent l
  old_le : ∀ e, k.old e ≤ (t.appended e).length
  placed : (t.appended userEvent)[k.old userEvent]? = some k.event

theorem Held.old_lt (held : k.Held t) : k.old userEvent < (t.appended userEvent).length :=
  (List.getElem?_eq_some_iff.mp held.placed).1

theorem Held.step {a : Scheduler.Action} (held : k.Held s) (enabled : s.Enabled a)
    (taken : s.step a = some t) : k.Held t := by
  obtain ⟨l, consistent⟩ := held.consistent
  obtain ⟨t', l', result, kept⟩ := step_consistent consistent enabled
  rw [taken] at result
  cases result
  refine ⟨⟨l', kept⟩, fun e => ?_, ?_⟩
  · exact (held.old_le e).trans (step_grows taken e).1.length_le
  · obtain ⟨new, longer⟩ := (step_grows taken userEvent).1
    rw [← longer, List.getElem?_append_left held.old_lt, held.placed]

theorem enabled_of_loops {a : Scheduler.Action} (loops : s.Loops a) : s.Enabled a := by
  cases a with
  | queueEvent | callbackOn | callbackOff => exact loops.elim
  | select | dequeue => exact loops

theorem Held.run (held : k.Held s) (run : Run Scheduler.step Loops s t) : k.Held t :=
  run.invariant (fun held loops taken => held.step (enabled_of_loops loops) taken) held

/-- When it is no longer pending it has been called. -/
theorem Held.called (held : k.Held t) (done : ¬ k.Pending t) :
    (t.dispatched userEvent)[k.old userEvent]? = some k.event := by
  obtain ⟨l, consistent⟩ := held.consistent
  have placed := held.placed
  rwa [consistent.history userEvent, List.getElem?_append_left (not_le.mp done)] at placed

theorem Held.ready (held : k.Held t) (registered : t.cback userEvent ≠ none)
    (pending : k.Pending t) : t.Ready userEvent := by
  obtain ⟨l, consistent⟩ := held.consistent
  exact ⟨registered, consistent.queue_ne_none.mpr (lt_of_le_of_lt pending held.old_lt)⟩

/-- The loop by itself comes to the scheduled event, and does not touch the types that come
behind its own. -/
theorem Held.exists_first (held : k.Held s) (registered : s.cback userEvent ≠ none)
    (idle : s.worker = .selecting) (pending : k.Pending s) :
    ∃ t, Run Scheduler.step Loops s t ∧ t.worker = .selected userEvent ∧ k.First t ∧
      t.cback = s.cback ∧ t.priority = s.priority ∧
      ∀ e, s.Prefers userEvent e → t.dispatched e = s.dispatched e := by
  -- by induction on the events before it in its queue
  induction before : k.old userEvent - (s.dispatched userEvent).length generalizing s with
  | zero =>
    obtain ⟨l, consistent⟩ := held.consistent
    obtain ⟨t, l', run, -, chosen, advanced⟩ :=
      exists_selected consistent idle (held.ready registered pending)
    refine ⟨t, run, chosen, ?_, advanced.cback, advanced.priority,
      fun e behind => advanced.dispatched e (.inr behind)⟩
    unfold First
    unfold Pending at pending
    rw [advanced.dispatched userEvent (.inl rfl)]
    omega
  | succ n ih =>
    obtain ⟨l, consistent⟩ := held.consistent
    obtain ⟨t, l', run, kept, chosen, advanced⟩ :=
      exists_selected consistent idle (held.ready registered pending)
    obtain ⟨u, l'', x, taken, -, resting, cback, priority, -, -, dispatched⟩ := kept.dequeue chosen
    have path : Run Scheduler.step Loops s u := run.tail (loops_dequeue chosen) taken
    have grown : (u.dispatched userEvent).length = (s.dispatched userEvent).length + 1 := by
      rw [dispatched, Function.update_self, List.length_append, List.length_singleton,
        advanced.dispatched userEvent (.inl rfl)]
    have still : k.Pending u := by
      unfold Pending
      omega
    have here : k.Held u := held.run path
    have same : u.cback = s.cback := cback.trans advanced.cback
    have numbers : u.priority = s.priority := priority.trans advanced.priority
    obtain ⟨v, rest, final, first, cback', priority', others⟩ :=
      ih here (same ▸ registered) resting still (by omega)
    refine ⟨v, path.trans rest, final, first, cback'.trans same,
      priority'.trans numbers, fun e behind => ?_⟩
    have apart : e ≠ userEvent := by
      rintro rfl
      exact behind.asymm behind
    rw [others e (by rwa [Scheduler.Prefers, numbers]), dispatched, Function.update_of_ne apart,
      advanced.dispatched e (.inr behind)]

theorem Held.reached (held : k.Held s) (registered : s.cback userEvent ≠ none) :
    ∃ u, Run Scheduler.step Loops s u ∧ ¬ k.Pending u := by
  obtain ⟨l, consistent⟩ := held.consistent
  obtain ⟨t, l', front, kept, idle, cback, -, -, -, -⟩ := exists_idle consistent
  by_cases pending : k.Pending t
  · have here : k.Held t := held.run front
    obtain ⟨u, run, chosen, first, -, -, -⟩ :=
      here.exists_first (cback ▸ registered) idle pending
    obtain ⟨m, sorted⟩ := (here.run run).consistent
    obtain ⟨v, m', x, taken, -, -, -, -, -, -, dispatched⟩ := sorted.dequeue chosen
    refine ⟨v, (front.trans run).tail (loops_dequeue chosen) taken, ?_⟩
    unfold First at first
    unfold Pending
    rw [dispatched, Function.update_self, List.length_append, List.length_singleton]
    omega
  · exact ⟨t, front, pending⟩

theorem Favoured.honoured (favoured : k.Favoured t) (held : k.Held t) : k.Honoured t :=
  ⟨favoured.toInTurn, held.called, held.reached favoured.registered⟩

theorem honoured_of_called (held : k.Held t) (done : ¬ k.Pending t) : k.Honoured t :=
  ⟨⟨fun _ _ pending => absurd pending done, fun _ first => absurd first.le done⟩, held.called,
    t, .refl, done⟩

/-- Only the registrations, the worker's place and what has been called matter. -/
theorem Favoured.congr (favoured : k.Favoured s) (cback : t.cback = s.cback)
    (priority : t.priority = s.priority) (dispatched : t.dispatched = s.dispatched)
    (worker : t.worker = s.worker) : k.Favoured t := by
  obtain ⟨heap, priority', cback', queue, tail, worker', appended, dispatched', direct⟩ := t
  simp only at cback priority dispatched worker
  subst cback priority dispatched worker
  exact ⟨⟨favoured.larger, favoured.smaller⟩, favoured.registered, favoured.ahead,
    favoured.others, favoured.older⟩

/-- The loop selects nothing that it should not. -/
theorem Favoured.select (favoured : k.Favoured s) (held : k.Held s) (pending : k.Pending s)
    (idle : s.worker = .selecting) : k.Favoured s.select := by
  obtain ⟨l, consistent⟩ := held.consistent
  obtain ⟨e, selected, -, preferred⟩ := selectEvent_of_ready (held.ready favoured.registered pending)
  have place : s.select.worker = .selected e := by
    rw [Scheduler.select, selected]
    rfl
  refine ⟨⟨fun i chosen _ other => ?_, fun chosen first i registered waiting => ?_⟩,
    favoured.registered, favoured.ahead, favoured.others,
    fun i other registered waiting smaller => ?_⟩
  · rw [place] at chosen
    cases chosen
    rcases preferred with rfl | before
    · exact favoured.ahead (lt_of_le_of_ne pending fun first => other ⟨rfl, first⟩)
    · have apart : e ≠ userEvent := by
        rintro rfl
        exact before.asymm before
      exact favoured.others e apart (selectEvent_some selected).1.1 before
  · rw [place] at chosen
    cases chosen
    by_contra smaller
    have apart : i ≠ userEvent := by
      rintro rfl
      exact absurd first (Nat.ne_of_lt waiting)
    have before : s.Prefers i userEvent := by
      refine favoured.older i apart registered ?_ (not_le.mp smaller)
      rw [idle, if_neg WorkerPlace.noConfusion]
      exact waiting
    have ready : s.Ready i :=
      ⟨registered, consistent.queue_ne_none.mpr (waiting.trans_le (held.old_le i))⟩
    exact before.asymm (selectEvent_prefers selected ready apart)
  · refine favoured.older i other registered ?_ smaller
    rw [idle, if_neg WorkerPlace.noConfusion]
    exact lt_of_le_of_lt (Nat.le_add_right _ _) waiting

/-- Removing the selected event keeps the others in their places. -/
theorem Favoured.dequeue {l : EventId → List Nat} (favoured : k.Favoured s)
    (consistent : s.Consistent l) (taken : s.step .dequeue = some t) : k.Favoured t := by
  cases place : s.worker with
  | selecting =>
    rw [Scheduler.step, place] at taken
    cases taken
  | selected e =>
    obtain ⟨t', l', x, result, -, idle, cback, priority, -, -, dispatched⟩ :=
      consistent.dequeue place
    rw [taken] at result
    cases result
    have grown (i : EventId) : (t.dispatched i).length =
        (s.dispatched i).length + if s.worker = .selected i then 1 else 0 := by
      rw [dispatched, place, length_dispatched]
    have same (i j : EventId) : t.Prefers i j ↔ s.Prefers i j := by
      rw [Scheduler.Prefers, Scheduler.Prefers, priority]
    refine ⟨⟨fun i chosen => ?_, fun chosen => ?_⟩, cback ▸ favoured.registered,
      fun waiting => ?_, fun i other registered before => ?_,
      fun i other registered waiting smaller => ?_⟩
    · rw [idle] at chosen
      cases chosen
    · rw [idle] at chosen
      cases chosen
    · rw [grown] at waiting
      rw [priority]
      exact favoured.ahead (lt_of_le_of_lt (Nat.le_add_right _ _) waiting)
    · rw [priority]
      exact favoured.others i other (cback ▸ registered) ((same i userEvent).mp before)
    · rw [idle, if_neg WorkerPlace.noConfusion, grown] at waiting
      exact (same i userEvent).mpr
        (favoured.older i other (cback ▸ registered) waiting (priority ▸ smaller))

theorem enabled_of_keeps {a : Scheduler.Action} (keeps : k.Keeps s a) : s.Enabled a := by
  cases a with
  | callbackOn | callbackOff => exact trivial
  | queueEvent | select | dequeue => exact keeps

theorem Favoured.step {a : Scheduler.Action} (favoured : k.Favoured s) (held : k.Held s)
    (pending : k.Pending s) (keeps : k.Keeps s a) (taken : s.step a = some t) : k.Favoured t := by
  cases a with
  | queueEvent event arg1 arg2 cbacktoq ev =>
    obtain ⟨cback, priority, dispatched, worker, -⟩ := queueEvent_fields taken
    exact favoured.congr cback priority dispatched worker
  | callbackOn | callbackOff =>
    cases taken
    exact keeps pending
  | select =>
    cases taken
    exact favoured.select held pending keeps
  | dequeue =>
    obtain ⟨l, consistent⟩ := held.consistent
    exact favoured.dequeue consistent taken

/-- A favoured callback is honoured for as long as it is pending, and afterwards. -/
theorem Favoured.run (favoured : k.Favoured s) (held : k.Held s)
    (run : Run Scheduler.step k.Keeps s t) : k.Honoured t := by
  have kept : k.Held t ∧ (k.Pending t → k.Favoured t) := by
    refine run.invariant (I := fun t => k.Held t ∧ (k.Pending t → k.Favoured t)) ?_
      ⟨held, fun _ => favoured⟩
    rintro t a u ⟨held, favoured⟩ keeps taken
    have enabled := enabled_of_keeps keeps
    refine ⟨held.step enabled taken, fun pending => ?_⟩
    have before : k.Pending t := (step_grows taken userEvent).2.length_le.trans pending
    exact (favoured before).step held before keeps taken
  by_cases pending : k.Pending t
  · exact (kept.2 pending).honoured kept.1
  · exact honoured_of_called kept.1 pending

theorem continues_of_loops {a : Scheduler.Action} (loops : s.Loops a) : Continues s a := by
  cases a with
  | queueEvent | callbackOn | callbackOff => exact loops.elim
  | select | dequeue => exact loops

theorem keeps_of_continues {a : Scheduler.Action} (continues : Continues s a) : k.Keeps s a := by
  cases a with
  | callbackOn | callbackOff => exact continues.elim
  | queueEvent | select | dequeue => exact continues

section Necessary
variable (held : k.Held s) (pending : k.Pending s)
  (waits : ¬ (s.worker = .selected userEvent ∧ k.First s))
  (honoured : ∀ t, Run Scheduler.step Continues s t → k.Honoured t)
include held pending waits

/-- When the worker has removed what it has selected, the callback is still pending. -/
theorem exists_idle_pending : ∃ t, Run Scheduler.step Loops s t ∧ k.Held t ∧ k.Pending t ∧
    t.worker = .selecting ∧ t.cback = s.cback ∧ t.priority = s.priority ∧ t.heap = s.heap ∧
      ∀ e, (t.dispatched e).length =
        (s.dispatched e).length + if s.worker = .selected e then 1 else 0 := by
  obtain ⟨l, consistent⟩ := held.consistent
  obtain ⟨t, l', run, -, idle, cback, priority, heap, -, grown⟩ := exists_idle consistent
  refine ⟨t, run, held.run run, ?_, idle, cback, priority, heap, grown⟩
  unfold Pending at *
  rw [grown]
  split
  · rename_i chosen
    have behind : (s.dispatched userEvent).length ≠ k.old userEvent :=
      fun first => waits ⟨chosen, first⟩
    omega
  · exact pending

include honoured

/-- Older events in its queue have no larger number. -/
theorem ahead_of_honoured (registered : s.cback userEvent ≠ none)
    (waiting : (s.dispatched userEvent).length < k.old userEvent) :
    (s.priority userEvent).toInt ≤ k.number := by
  have later : ¬ (userEvent = userEvent ∧ k.First s) := fun first => waiting.ne first.2
  by_cases chosen : s.worker = .selected userEvent
  · exact (honoured s .refl).larger userEvent chosen pending later
  · obtain ⟨t, front, here, still, idle, cback, priority, -, grown⟩ :=
      exists_idle_pending held pending waits
    obtain ⟨l, consistent⟩ := here.consistent
    obtain ⟨u, -, run, -, chosen', advanced⟩ :=
      exists_selected consistent idle (here.ready (cback ▸ registered) still)
    have same : (u.dispatched userEvent).length = (s.dispatched userEvent).length := by
      rw [advanced.dispatched userEvent (.inl rfl), grown, if_neg chosen, Nat.add_zero]
    have turn := honoured u ((front.trans run).weaken fun _ _ => continues_of_loops)
    rw [← priority, ← advanced.priority]
    exact turn.larger userEvent chosen' (same.le.trans pending)
      fun first => waiting.ne (same.symm.trans first.2)

/-- Neither has a type that the loop prefers, because an event of it may come. -/
theorem others_of_honoured {a : Nat} (spare : s.heap a = none) {e : EventId}
    (other : e ≠ userEvent) (registered : s.cback e ≠ none) (before : s.Prefers e userEvent) :
    (s.priority e).toInt ≤ k.number := by
  by_contra larger
  obtain ⟨t, front, here, still, idle, cback, priority, heap, grown⟩ :=
    exists_idle_pending held pending waits
  obtain ⟨l, consistent⟩ := here.consistent
  have free : t.heap a = none := by rwa [heap]
  obtain ⟨u, result, sorted, place⟩ : ∃ u, t.append e ⟨0, 0, none⟩ a = some u ∧
      u.Consistent (Heap.pushed l e a) ∧ u.worker = t.worker :=
    append_consistent consistent ⟨0, 0, none⟩ free
  have positive : ¬ (t.priority e).toInt ≤ 0 := by
    rw [priority]
    unfold number at larger
    omega
  have taken : t.step (.queueEvent e 0 0 none a) = some u := by
    rw [Scheduler.step, Scheduler.queueEvent, if_neg (cback ▸ registered), if_neg positive, result]
  have arrives : Continues t (.queueEvent e 0 0 none a) := free
  obtain ⟨cback', priority', dispatched, -, -⟩ := queueEvent_fields taken
  have ready : u.Ready e := by
    refine ⟨cback'.trans cback ▸ registered, sorted.queue_ne_none.mpr ?_⟩
    have longer : (t.dispatched e).length ≤ (t.appended e).length := consistent.dispatched_le e
    rw [dispatched, appended_append result, Function.update_self, List.length_append,
      List.length_singleton]
    omega
  obtain ⟨v, -, run, -, chosen, advanced⟩ := exists_selected sorted (place.trans idle) ready
  have preferred : u.Prefers e userEvent := by
    rwa [Scheduler.Prefers, priority', priority]
  have same : v.dispatched userEvent = t.dispatched userEvent :=
    (advanced.dispatched userEvent (.inr preferred)).trans (by rw [dispatched])
  have path : Run Scheduler.step Continues s v :=
    ((front.weaken fun _ _ => continues_of_loops).tail arrives taken).trans
      (run.weaken fun _ _ => continues_of_loops)
  have bound := (honoured v path).larger e chosen (by rw [Pending, same]; exact still)
    fun first => other first.1
  rw [advanced.priority, priority', priority] at bound
  exact larger bound

/-- The loop prefers what has a smaller number and is waiting. -/
theorem older_of_honoured (scheduled : s.cback userEvent ≠ none) {e : EventId}
    (other : e ≠ userEvent) (registered : s.cback e ≠ none)
    (waiting : (s.dispatched e).length + (if s.worker = .selected e then 1 else 0) < k.old e)
    (smaller : (s.priority e).toInt < k.number) : s.Prefers e userEvent := by
  refine (prefers_total other).resolve_right fun before => ?_
  obtain ⟨t, front, here, still, idle, cback, priority, -, grown⟩ :=
    exists_idle_pending held pending waits
  obtain ⟨u, run, chosen, first, cback', priority', others⟩ :=
    here.exists_first (cback ▸ scheduled) idle still
  have behind : t.Prefers userEvent e := by
    rwa [Scheduler.Prefers, priority]
  have turn := honoured u ((front.trans run).weaken fun _ _ => continues_of_loops)
  have bound := turn.smaller chosen first e (cback'.trans cback ▸ registered) (by
    rw [others e behind, grown]
    exact waiting)
  rw [priority', priority] at bound
  omega

/-- A callback that is honoured in every continuation is favoured. -/
theorem favoured_of_honoured (registered : s.cback userEvent ≠ none) {a : Nat}
    (spare : s.heap a = none) : k.Favoured s where
  toInTurn := (honoured s .refl).toInTurn
  registered := registered
  ahead := ahead_of_honoured held pending waits honoured registered
  others _ := others_of_honoured held pending waits honoured spare
  older _ := older_of_honoured held pending waits honoured registered

end Necessary
end Ticket

section Call
open Scheduler Ticket
variable {s : Scheduler} {l : EventId → List Nat} {cback : Callback}
  {arg0 arg1 priority : BitVec 32} {ev : Nat}

/-- When the user event is registered with a positive number, the call leaves one event in
the queue. -/
theorem exists_scheduled (cback : Callback) (arg0 arg1 priority : BitVec 32)
    (consistent : s.Consistent l) (fresh : s.heap ev = none)
    (registered : s.cback userEvent ≠ none) (positive : 0 < (s.priority userEvent).toInt) :
    ∃ t, spin1ScheduleCallback cback arg0 arg1 priority ev s = some (1, t) ∧
      s.append userEvent ⟨arg0, arg1, cback⟩ ev = some t ∧
      (ticket cback arg0 arg1 priority s).Held t ∧ t.worker = s.worker := by
  obtain ⟨t, result, sorted, worker⟩ : ∃ t, s.append userEvent ⟨arg0, arg1, cback⟩ ev = some t ∧
      t.Consistent (Heap.pushed l userEvent ev) ∧ t.worker = s.worker :=
    append_consistent consistent _ fresh
  have queued : s.queueEvent userEvent arg0 arg1 cback ev = some t := by
    rw [queueEvent, if_neg registered, if_neg (not_le.mpr positive), result]
  refine ⟨t, by rw [spin1ScheduleCallback, queued]; rfl, result, ⟨⟨_, sorted⟩, fun e => ?_, ?_⟩,
    worker⟩
  · exact ((queueEvent_fields queued).2.2.2.2 e).length_le
  · rw [appended_append result, Function.update_self]
    exact List.getElem?_concat_length

/-- Otherwise nothing goes into the queue. -/
theorem registered_of_scheduled {ok : Scheduler → Scheduler.Action → Prop}
    (scheduled : ReallyScheduled ok cback arg0 arg1 priority ev s) :
    s.cback userEvent ≠ none ∧ 0 < (s.priority userEvent).toInt := by
  obtain ⟨t, result, -, -, appended, -⟩ := scheduled
  have longer : (t.appended userEvent).length ≠ (s.appended userEvent).length := by
    rw [appended, Function.update_self, List.length_append, List.length_singleton]
    omega
  obtain ⟨u, queued, same⟩ := Option.map_eq_some_iff.mp result
  cases same
  obtain ⟨-, rfl⟩ | ⟨-, -, rfl⟩ | ⟨registered, positive, -⟩ := queueEvent_cases queued
  · exact absurd rfl longer
  · exact absurd rfl longer
  · exact ⟨registered, positive⟩

theorem not_first (cback : Callback) (arg0 arg1 priority : BitVec 32)
    (consistent : s.Consistent l) :
    ¬ (s.worker = .selected userEvent ∧ (ticket cback arg0 arg1 priority s).First s) := by
  rintro ⟨chosen, first⟩
  exact (consistent.queue_ne_none.mp (consistent.selected userEvent chosen)).ne first

theorem suits_iff (cback : Callback) (arg0 arg1 : BitVec 32) (consistent : s.Consistent l) :
    Suits priority s ↔ 0 < (s.priority userEvent).toInt ∧
      (ticket cback arg0 arg1 priority s).Favoured s := by
  have waits := not_first cback arg0 arg1 priority consistent
  constructor
  · intro suits
    exact ⟨suits.positive, ⟨fun e chosen _ _ => suits.selected e chosen,
      fun chosen first => absurd ⟨chosen, first⟩ waits⟩, suits.registered,
      fun waiting => suits.ahead (consistent.queue_ne_none.mpr waiting), suits.others, suits.older⟩
  · rintro ⟨positive, favoured⟩
    refine ⟨favoured.registered, positive, fun e chosen => ?_,
      fun waiting => favoured.ahead (consistent.queue_ne_none.mp waiting), favoured.others,
      favoured.older⟩
    have pending : (ticket cback arg0 arg1 priority s).Pending s :=
      consistent.dispatched_le userEvent
    refine favoured.larger e chosen pending fun first => waits ⟨?_, first.2⟩
    rw [chosen, first.1]

/-- A call leaves one new event, which in every continuation is called in its turn, if and
only if the user event suits the priority that was asked for; the turn is kept under changes
of registrations too, while these leave the callback favoured. -/
theorem reallyScheduled_iff (cback : Callback) (arg0 arg1 priority : BitVec 32)
    (consistent : s.Consistent l) (fresh : s.heap ev = none)
    (finite : {a | s.heap a ≠ none}.Finite) :
    (ReallyScheduled Continues cback arg0 arg1 priority ev s ↔ Suits priority s) ∧
      (Suits priority s → ReallyScheduled (ticket cback arg0 arg1 priority s).Keeps
        cback arg0 arg1 priority ev s) := by
  have sufficient (suits : Suits priority s) : ReallyScheduled
      (ticket cback arg0 arg1 priority s).Keeps cback arg0 arg1 priority ev s := by
    obtain ⟨t, result, appended, held, worker⟩ := exists_scheduled cback arg0 arg1 priority
      consistent fresh suits.registered suits.positive
    obtain ⟨heap, queue, rfl⟩ := append_eq appended
    refine ⟨_, result, rfl, rfl, rfl, fun u run => ?_⟩
    have favoured := ((suits_iff cback arg0 arg1 consistent).mp suits).2
    exact (favoured.congr (t := s.withLast _ _ _ heap queue) rfl rfl rfl rfl).run held run
  refine ⟨⟨fun scheduled => ?_, fun suits => ?_⟩, sufficient⟩
  · obtain ⟨registered, positive⟩ := registered_of_scheduled scheduled
    obtain ⟨t, result, -, -, -, honoured⟩ := scheduled
    obtain ⟨t', result', appended, held, worker⟩ := exists_scheduled cback arg0 arg1 priority
      consistent fresh registered positive
    rw [result] at result'
    cases result'
    obtain ⟨a, unused⟩ := (finite.union (Set.finite_singleton ev)).exists_notMem
    have apart : a ≠ ev := fun here => unused (.inr here)
    have free : s.heap a = none := not_not.mp fun used => unused (.inl used)
    have spare := append_heap appended apart free
    obtain ⟨heap, queue, rfl⟩ := append_eq appended
    have favoured := favoured_of_honoured held (consistent.dispatched_le userEvent)
      (not_first cback arg0 arg1 priority consistent) honoured registered spare
    exact (suits_iff cback arg0 arg1 consistent).mpr ⟨positive, favoured.congr rfl rfl rfl rfl⟩
  · obtain ⟨t, result, direct, dispatched, appended, honoured⟩ := sufficient suits
    refine ⟨t, result, direct, dispatched, appended, fun u run => honoured u ?_⟩
    exact run.weaken fun _ a continues => keeps_of_continues continues

/-- A packet is waiting, of a type that the loop prefers to the user event. -/
theorem user_event_suits : ∃ t : Scheduler, t.queue 0 ≠ none ∧
    ReallyScheduled Continues (some 7) 1 2 3 101 t := by
  have first : Run Scheduler.step Scheduler.Enabled (initial fun _ => none) _ :=
    .tail .refl (show Scheduler.Enabled _ (.callbackOn userEvent (some 7) 3) from trivial) rfl
  have second := first.tail (show Scheduler.Enabled _ (.callbackOn 0 (some 8) 1) from trivial) rfl
  have third := second.tail (show Scheduler.Enabled _ (.queueEvent 0 5 6 (some 8) 100) from rfl) rfl
  obtain ⟨l, consistent⟩ := consistent_of_run third
  refine ⟨_, ?_, (reallyScheduled_iff (some 7) 1 2 3 consistent rfl ?_).1.mpr ?_⟩
  · decide
  · refine (Set.finite_singleton 100).subset fun a used => ?_
    by_contra other
    exact used (Function.update_of_ne other _ _)
  · exact ⟨by decide, by decide, fun _ => WorkerPlace.noConfusion, by decide, by decide, by decide⟩

/-- Without a registration of the user event the call returns 1 and does nothing. -/
theorem discarded_scheduled :
    spin1ScheduleCallback (some 7) 1 2 3 0 (initial fun _ => none) =
        some (1, initial fun _ => none) ∧
      ¬ ReallyScheduled Continues (some 7) 1 2 3 0 (initial fun _ => none) :=
  ⟨rfl, fun scheduled => (registered_of_scheduled scheduled).1 rfl⟩

end Call
end SpinEmu
