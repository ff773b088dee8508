import SpinEmu.Lib.Chain
import SpinEmu.Lib.Machine
import SpinEmu.Basic
import Mathlib.Data.List.Induction
import Mathlib.Algebra.GroupWithZero.Nat

/-! The event queues of a core: what `queue_event`, the callback registration and the
loop of `spin1_start` do under the lock. Any thread can take it between the two
sections of an iteration. -/
namespace SpinEmu
open Lib Lib.Heap

abbrev numEvents : Nat := 8
abbrev EventId : Type := Fin numEvents

instance : NeZero numEvents := ⟨by decide⟩

/-- A function pointer of an application. -/
abbrev Callback : Type := Pointer

/-- `struct qevent` without its link. -/
structure QEvent where
  arg1 : BitVec 32
  arg2 : BitVec 32
  cback : Callback
  deriving DecidableEq, Repr

/-- Where the worker is in its loop: before the selection, or between selecting a type
and removing an event of it. -/
inductive WorkerPlace where
  | selecting
  | selected (ev : EventId)
  deriving DecidableEq, Repr

/-- `evinfo` and the heap of its events. -/
structure Scheduler where
  heap : Heap QEvent
  priority : EventId → BitVec 32
  cback : EventId → Callback
  queue : EventId → Pointer
  queueTail : EventId → Pointer
  worker : WorkerPlace
  /-- What `queue_event` has put into each queue and the worker has called from it. The
  source keeps no such record. -/
  appended : EventId → List QEvent
  dispatched : EventId → List QEvent
  /-- The events that `queue_event` has called directly. -/
  direct : List QEvent

namespace Scheduler

/-- `evinfo` as the program starts. -/
def initial (heap : Heap QEvent) : Scheduler where
  heap := heap
  priority _ := 0
  cback _ := none
  queue _ := none
  queueTail _ := none
  worker := .selecting
  appended _ := []
  dispatched _ := []
  direct := []

/-- The event `ev` as the last one, behind the given links. -/
def withLast (event : EventId) (e : QEvent) (ev : Nat) (heap : Heap QEvent)
    (queue : EventId → Pointer) (s : Scheduler) : Scheduler :=
  { s with
    heap, queue
    queueTail := Function.update s.queueTail event (some ev)
    appended := Function.update s.appended event (s.appended event ++ [e]) }

/-- The branch of `queue_event` that appends the new event `ev`. -/
def append (event : EventId) (e : QEvent) (ev : Nat) (s : Scheduler) : Option Scheduler :=
  let heap := Function.update s.heap ev (some ⟨none, e⟩)
  let linked : Option (Heap QEvent × (EventId → Pointer)) :=
    if s.queue event = none then some (heap, Function.update s.queue event (some ev))
    else do
      let tail ← s.queueTail event
      let heap ← setNext heap tail (some ev)
      return (heap, s.queue)
  linked.map fun r => s.withLast event e ev r.1 r.2

/-- `queue_event`; `ev` is the address that `xmalloc` returns. -/
def queueEvent (event : EventId) (arg1 arg2 : BitVec 32) (cbacktoq : Callback) (ev : Nat)
    (s : Scheduler) : Option Scheduler :=
  if s.cback event = none then some s
  else if (s.priority event).toInt ≤ 0 then
    some { s with direct := s.direct ++ [⟨arg1, arg2, cbacktoq⟩] }
  else s.append event ⟨arg1, arg2, cbacktoq⟩ ev

def callbackOn (event : EventId) (cback : Callback) (priority : BitVec 32) (s : Scheduler) :
    Scheduler :=
  { s with
    priority := Function.update s.priority event priority
    cback := Function.update s.cback event cback }

def callbackOff (event : EventId) (s : Scheduler) : Scheduler :=
  { s with
    priority := Function.update s.priority event 0
    cback := Function.update s.cback event none }

/-- One turn of the loop over the event types: `minprio` and `minev`. -/
def scanEvent (s : Scheduler) (best : Int × Option EventId) (i : EventId) : Int × Option EventId :=
  if s.cback i = none ∨ s.queue i = none then best
  else if (s.priority i).toInt > best.1 then best
  else ((s.priority i).toInt, some i)

def selectEvent (s : Scheduler) : Option EventId :=
  ((List.finRange numEvents).foldl s.scanEvent (intMax, none)).2

/-- The first section of an iteration. -/
def select (s : Scheduler) : Scheduler :=
  { s with worker := s.selectEvent.elim .selecting .selected }

/-- The queue goes on at the next node, and the callback has been called. -/
def withoutFirst (minev : EventId) (node : Node QEvent) (s : Scheduler) : Scheduler :=
  { s with
    queue := Function.update s.queue minev node.next
    queueTail := Function.update s.queueTail minev
      (if node.next = none then none else s.queueTail minev)
    worker := .selecting
    dispatched := Function.update s.dispatched minev (s.dispatched minev ++ [node.val]) }

/-- The second section and the call of the callback. -/
def dequeue (minev : EventId) (s : Scheduler) : Option Scheduler := do
  let ev ← s.queue minev
  let node ← s.heap ev
  return s.withoutFirst minev node

inductive Action where
  | queueEvent (event : EventId) (arg1 arg2 : BitVec 32) (cbacktoq : Callback) (ev : Nat)
  | callbackOn (event : EventId) (cback : Callback) (priority : BitVec 32)
  | callbackOff (event : EventId)
  | select
  | dequeue

def step (s : Scheduler) : Action → Option Scheduler
  | .queueEvent event arg1 arg2 cbacktoq ev => s.queueEvent event arg1 arg2 cbacktoq ev
  | .callbackOn event cback priority => some (s.callbackOn event cback priority)
  | .callbackOff event => some (s.callbackOff event)
  | .select => some s.select
  | .dequeue => match s.worker with
    | .selecting => none
    | .selected ev => s.dequeue ev

/-- The actions that can come next: `xmalloc` returns memory that is not in use, and
the worker alternates between its sections. -/
def Enabled (s : Scheduler) : Action → Prop
  | .queueEvent _ _ _ _ ev => s.heap ev = none
  | .callbackOn _ _ _ => True
  | .callbackOff _ => True
  | .select => s.worker = .selecting
  | .dequeue => s.worker ≠ .selecting

/-- Registered, and with an event in the queue. -/
def Ready (s : Scheduler) (e : EventId) : Prop := s.cback e ≠ none ∧ s.queue e ≠ none

instance (s : Scheduler) (e : EventId) : Decidable (s.Ready e) :=
  inferInstanceAs (Decidable (_ ∧ _))

/-- The queues are lists, each holds what was appended and not yet dispatched in that
order, and the selected queue has not become empty. -/
structure Consistent (s : Scheduler) (l : EventId → List Nat) : Prop where
  queues : Queues s.heap s.queue s.queueTail l
  history : ∀ e, s.appended e = s.dispatched e ++ values s.heap (l e)
  selected : ∀ e, s.worker = .selected e → s.queue e ≠ none

section Selection
variable {s : Scheduler} {e : EventId}

/-- What the loop has found among the types of the list. -/
def Best (s : Scheduler) (l : List EventId) (minprio : Int) : Option EventId → Prop
  | none => minprio = intMax ∧ ∀ i ∈ l, ¬ s.Ready i
  | some e => minprio = (s.priority e).toInt ∧ s.Ready e ∧
      ∀ i ∈ l, s.Ready i → (s.priority e).toInt ≤ (s.priority i).toInt

theorem scanEvent_best {l : List EventId} {best : Int × Option EventId}
    (found : s.Best l best.1 best.2) (i : EventId) :
    s.Best (l ++ [i]) (s.scanEvent best i).1 (s.scanEvent best i).2 := by
  have small : (s.priority i).toInt ≤ intMax := by
    have := BitVec.toInt_lt (x := s.priority i)
    simp only [intMax]
    omega
  by_cases ready : s.Ready i
  · have skip : ¬ (s.cback i = none ∨ s.queue i = none) := not_or.mpr ready
    rw [scanEvent, if_neg skip]
    obtain ⟨minprio, minev⟩ := best
    cases minev with
    | none =>
      obtain ⟨top, before⟩ := found
      simp only at top
      rw [if_neg (by simp only; omega)]
      refine ⟨rfl, ready, fun j member readyJ => ?_⟩
      rcases List.mem_append.mp member with earlier | last
      · exact absurd readyJ (before j earlier)
      · exact Int.le_of_eq (by rw [List.mem_singleton.mp last])
    | some e =>
      obtain ⟨prio, readyE, least⟩ := found
      simp only at prio
      split
      · rename_i higher
        refine ⟨prio, readyE, fun j member readyJ => ?_⟩
        rcases List.mem_append.mp member with earlier | last
        · exact least j earlier readyJ
        · rw [List.mem_singleton.mp last]
          simp only [prio] at higher
          omega
      · rename_i lower
        refine ⟨rfl, ready, fun j member readyJ => ?_⟩
        rcases List.mem_append.mp member with earlier | last
        · have := least j earlier readyJ
          simp only [prio] at lower
          omega
        · exact Int.le_of_eq (by rw [List.mem_singleton.mp last])
  · have skip : s.cback i = none ∨ s.queue i = none := by
      by_contra other
      exact ready (not_or.mp other)
    rw [scanEvent, if_pos skip]
    obtain ⟨minprio, minev⟩ := best
    cases minev with
    | none =>
      refine ⟨found.1, fun j member => ?_⟩
      rcases List.mem_append.mp member with earlier | last
      · exact found.2 j earlier
      · rwa [List.mem_singleton.mp last]
    | some e =>
      refine ⟨found.1, found.2.1, fun j member readyJ => ?_⟩
      rcases List.mem_append.mp member with earlier | last
      · exact found.2.2 j earlier readyJ
      · rw [List.mem_singleton.mp last] at readyJ
        exact absurd readyJ ready

theorem scan_best (s : Scheduler) (l : List EventId) :
    s.Best l (l.foldl s.scanEvent (intMax, none)).1 (l.foldl s.scanEvent (intMax, none)).2 := by
  induction l using List.reverseRecOn with
  | nil => exact ⟨rfl, fun _ none => absurd none List.not_mem_nil⟩
  | append_singleton l i ih =>
    rw [List.foldl_append]
    exact scanEvent_best ih i

/-- The selected type is ready, and no ready type has a lower priority number. -/
theorem selectEvent_some (selected : s.selectEvent = some e) :
    s.Ready e ∧ ∀ i, s.Ready i → (s.priority e).toInt ≤ (s.priority i).toInt := by
  have best : s.Best _ _ s.selectEvent := s.scan_best (List.finRange numEvents)
  rw [selected] at best
  exact ⟨best.2.1, fun i => best.2.2 i (List.mem_finRange i)⟩

/-- Nothing is selected exactly when no type is ready. -/
theorem selectEvent_none : s.selectEvent = none ↔ ∀ i, ¬ s.Ready i := by
  constructor
  · intro nothing i
    have best : s.Best _ _ s.selectEvent := s.scan_best (List.finRange numEvents)
    rw [nothing] at best
    exact best.2 i (List.mem_finRange i)
  · intro idle
    cases selected : s.selectEvent with
    | none => rfl
    | some e => exact absurd (selectEvent_some selected).1 (idle e)

end Selection

section Steps
variable {s t : Scheduler} {l : EventId → List Nat} {event : EventId}

theorem initial_consistent (heap : Heap QEvent) : (initial heap).Consistent fun _ => [] :=
  ⟨queues_empty heap, fun _ => rfl, fun _ here => by cases here⟩

/-- The new event begins an empty queue, or the last node of its queue is linked to it. -/
theorem append_cases {e : QEvent} {ev : Nat} (result : s.append event e ev = some t) :
    s.queue event = none ∧ t = s.withLast event e ev (Function.update s.heap ev (some ⟨none, e⟩))
        (Function.update s.queue event (some ev)) ∨
      s.queue event ≠ none ∧ ∃ tail heap,
        setNext (Function.update s.heap ev (some ⟨none, e⟩)) tail (some ev) = some heap ∧
          t = s.withLast event e ev heap s.queue := by
  obtain ⟨r, linked, rfl⟩ := Option.map_eq_some_iff.mp result
  split at linked
  · rename_i empty
    cases linked
    exact .inl ⟨empty, rfl⟩
  · rename_i filled
    obtain ⟨tail, _, linked⟩ := Option.bind_eq_some_iff.mp linked
    obtain ⟨heap, found, linked⟩ := Option.bind_eq_some_iff.mp linked
    cases linked
    exact .inr ⟨filled, tail, heap, found, rfl⟩

theorem append_eq {e : QEvent} {ev : Nat} (result : s.append event e ev = some t) :
    ∃ heap queue, t = s.withLast event e ev heap queue := by
  obtain ⟨_, same⟩ | ⟨_, _, heap, _, same⟩ := append_cases result
  · exact ⟨_, _, same⟩
  · exact ⟨heap, _, same⟩

/-- `queue_event` ignores the event, calls the callback or appends the event. -/
theorem queueEvent_cases {arg1 arg2 : BitVec 32} {cbacktoq : Callback} {ev : Nat}
    (result : s.queueEvent event arg1 arg2 cbacktoq ev = some t) :
    s.cback event = none ∧ t = s ∨
      s.cback event ≠ none ∧ (s.priority event).toInt ≤ 0 ∧
        t = { s with direct := s.direct ++ [⟨arg1, arg2, cbacktoq⟩] } ∨
      s.cback event ≠ none ∧ 0 < (s.priority event).toInt ∧
        s.append event ⟨arg1, arg2, cbacktoq⟩ ev = some t := by
  rw [queueEvent] at result
  split at result
  · rename_i free
    exact .inl ⟨free, (Option.some.inj result).symm⟩
  · rename_i registered
    split at result
    · rename_i low
      exact .inr (.inl ⟨registered, low, (Option.some.inj result).symm⟩)
    · rename_i positive
      exact .inr (.inr ⟨registered, Int.not_le.mp positive, result⟩)

/-- The worker removes the first event of the type that it has selected. -/
theorem dequeue_cases (taken : s.step .dequeue = some t) :
    ∃ minev node, s.worker = .selected minev ∧ t = s.withoutFirst minev node := by
  rw [step] at taken
  split at taken
  · cases taken
  · rename_i minev selected
    obtain ⟨_, _, taken⟩ := Option.bind_eq_some_iff.mp taken
    obtain ⟨node, _, taken⟩ := Option.bind_eq_some_iff.mp taken
    exact ⟨minev, node, selected, (Option.some.inj taken).symm⟩

/-- An event goes to the end of its queue; no other queue changes. -/
theorem append_consistent (consistent : s.Consistent l) {ev : Nat} (e : QEvent)
    (fresh : s.heap ev = none) :
    ∃ t, s.append event e ev = some t ∧ t.Consistent (pushed l event ev) ∧
      t.worker = s.worker := by
  obtain ⟨queues, held⟩ := consistent.queues.alloc fresh ⟨none, e⟩
  have unused := consistent.queues.unused fresh
  have new : Function.update s.heap ev (some ⟨none, e⟩) ev = some ⟨none, e⟩ :=
    Function.update_self ..
  have recorded {heap' : Heap QEvent}
      (appended : Appended (Function.update s.heap ev (some ⟨none, e⟩)) heap' l event ev e)
      (k : EventId) : Function.update s.appended event (s.appended event ++ [e]) k =
        s.dispatched k ++ values heap' (pushed l event ev k) := by
    rw [appended k, held]
    by_cases here : k = event
    · subst here
      rw [Function.update_self, if_pos rfl, consistent.history, List.append_assoc]
    · rw [Function.update_of_ne here, if_neg here, consistent.history]
  by_cases empty : s.queue event = none
  · have noTail := consistent.queues.head_eq_none.mp empty
    obtain ⟨queues, appended⟩ := queues.push_first noTail new unused
    refine ⟨s.withLast event e ev (Function.update s.heap ev (some ⟨none, e⟩))
        (Function.update s.queue event (some ev)),
      by simp only [append, if_pos empty, Option.map_some],
      ⟨queues, recorded appended, fun k here => ?_⟩, rfl⟩
    have before := consistent.selected k here
    by_cases same : k = event
    · subst same
      exact absurd empty before
    · show Function.update s.queue event (some ev) k ≠ none
      rwa [Function.update_of_ne same]
  · obtain ⟨tail, last⟩ := Option.ne_none_iff_exists'.mp fun noTail =>
      empty (consistent.queues.head_eq_none.mpr noTail)
    obtain ⟨heap', linked, queues, appended, _⟩ := queues.push_behind last new unused
    refine ⟨s.withLast event e ev heap' s.queue, by simp only [append, if_neg empty, last,
      Option.bind_eq_bind, Option.bind_some, linked, Option.pure_def, Option.map_some],
      ⟨queues, recorded appended, consistent.selected⟩, rfl⟩

/-- The worker finds the event it has selected, which is the oldest of its type. -/
theorem dequeue_consistent (consistent : s.Consistent l) (selected : s.worker = .selected event) :
    ∃ t l', s.dequeue event = some t ∧ t.Consistent l' := by
  have found := consistent.selected event selected
  cases shape : l event with
  | nil => exact absurd ((consistent.queues.chain event).eq_none_iff.mpr shape) found
  | cons ev rest =>
    obtain ⟨node, first, allocated, queues⟩ := consistent.queues.pop shape
    refine ⟨s.withoutFirst event node, Function.update l event rest, by
      simp only [dequeue, first, Option.bind_eq_bind, Option.bind_some, allocated, Option.pure_def],
      ⟨queues, fun k => ?_, fun k here => ?_⟩⟩
    · show s.appended k = Function.update s.dispatched event (s.dispatched event ++ [node.val]) k ++
        values s.heap (Function.update l event rest k)
      by_cases here : k = event
      · subst here
        rw [Function.update_self, Function.update_self, List.append_assoc, consistent.history,
          shape]
        simp [values, allocated]
      · rw [Function.update_of_ne here, Function.update_of_ne here]
        exact consistent.history k
    · cases here

/-- Every enabled action succeeds and keeps the queues consistent. -/
theorem step_consistent (consistent : s.Consistent l) {a : Action} (enabled : s.Enabled a) :
    ∃ t l', s.step a = some t ∧ t.Consistent l' := by
  cases a with
  | queueEvent event arg1 arg2 cbacktoq ev =>
    rw [step, queueEvent]
    split
    · exact ⟨s, l, rfl, consistent⟩
    · split
      · exact ⟨_, l, rfl, consistent.queues, consistent.history, consistent.selected⟩
      · obtain ⟨t, result, kept, _⟩ := append_consistent consistent ⟨arg1, arg2, cbacktoq⟩ enabled
        exact ⟨t, _, result, kept⟩
  | callbackOn event cback priority =>
    exact ⟨_, l, rfl, consistent.queues, consistent.history, consistent.selected⟩
  | callbackOff event =>
    exact ⟨_, l, rfl, consistent.queues, consistent.history, consistent.selected⟩
  | select =>
    refine ⟨_, l, rfl, consistent.queues, consistent.history, fun e here => ?_⟩
    cases found : s.selectEvent with
    | none =>
      rw [select, found] at here
      cases here
    | some chosen =>
      rw [select, found] at here
      cases here
      exact (selectEvent_some found).1.2
  | dequeue =>
    cases place : s.worker with
    | selecting => exact absurd place enabled
    | selected event =>
      obtain ⟨t, l', result, kept⟩ := dequeue_consistent consistent place
      exact ⟨t, l', by rw [step, place]; exact result, kept⟩

end Steps

open Lib.Machine in
theorem consistent_of_run {heap : Heap QEvent} {s : Scheduler}
    (run : Run step Enabled (initial heap) s) : ∃ l, s.Consistent l := by
  refine run.invariant (I := fun s => ∃ l, s.Consistent l) ?_ ⟨_, initial_consistent heap⟩
  rintro t a u ⟨l, consistent⟩ enabled taken
  obtain ⟨u', l', result, kept⟩ := step_consistent consistent enabled
  rw [taken] at result
  cases result
  exact ⟨l', kept⟩

section History

/-- What the actions of a run have registered for each type, and what they have put into
its queue, in order. -/
structure History where
  registered : EventId → Callback × BitVec 32
  queued : EventId → List QEvent

/-- An event is queued if its type is registered with a positive priority. -/
def History.add (h : History) : Action → History
  | .queueEvent event arg1 arg2 cbacktoq _ =>
    if (h.registered event).1 ≠ none ∧ 0 < (h.registered event).2.toInt then
      { h with queued :=
        Function.update h.queued event (h.queued event ++ [⟨arg1, arg2, cbacktoq⟩]) }
    else h
  | .callbackOn event cback priority =>
    { h with registered := Function.update h.registered event (cback, priority) }
  | .callbackOff event => { h with registered := Function.update h.registered event (none, 0) }
  | .select => h
  | .dequeue => h

def history (as : List Action) : History := as.foldl History.add ⟨fun _ => (none, 0), fun _ => []⟩

/-- The registrations and the records agree with the actions. -/
structure Recorded (s : Scheduler) (h : History) : Prop where
  cback : ∀ e, s.cback e = (h.registered e).1
  priority : ∀ e, s.priority e = (h.registered e).2
  appended : s.appended = h.queued

variable {s t : Scheduler} {h : History} {a : Action}

theorem initial_recorded (heap : Heap QEvent) : (initial heap).Recorded (history []) :=
  ⟨fun _ => rfl, fun _ => rfl, rfl⟩

theorem Recorded.update {event : EventId} {cback : Callback} {priority : BitVec 32}
    (recorded : s.Recorded h) (e : EventId) :
    Function.update s.cback event cback e =
        (Function.update h.registered event (cback, priority) e).1 ∧
      Function.update s.priority event priority e =
        (Function.update h.registered event (cback, priority) e).2 := by
  by_cases here : e = event
  · subst here
    simp only [Function.update_self, and_self]
  · simpa only [Function.update_of_ne here] using ⟨recorded.cback e, recorded.priority e⟩

theorem Recorded.step (recorded : s.Recorded h) (taken : s.step a = some t) :
    t.Recorded (h.add a) := by
  cases a with
  | queueEvent event arg1 arg2 cbacktoq ev =>
    simp only [History.add, ← recorded.cback, ← recorded.priority]
    obtain ⟨free, rfl⟩ | ⟨_, low, rfl⟩ | ⟨registered, positive, appended⟩ := queueEvent_cases taken
    · rw [if_neg fun both => both.1 free]
      exact recorded
    · rw [if_neg fun both => Int.not_lt.mpr low both.2]
      exact ⟨recorded.cback, recorded.priority, recorded.appended⟩
    · rw [if_pos ⟨registered, positive⟩, ← recorded.appended]
      obtain ⟨_, _, rfl⟩ := append_eq appended
      exact ⟨recorded.cback, recorded.priority, rfl⟩
  | callbackOn event cback priority =>
    cases taken
    exact ⟨fun e => (recorded.update e).1, fun e => (recorded.update e).2, recorded.appended⟩
  | callbackOff event =>
    cases taken
    exact ⟨fun e => (recorded.update e).1, fun e => (recorded.update e).2, recorded.appended⟩
  | select =>
    cases taken
    exact ⟨recorded.cback, recorded.priority, recorded.appended⟩
  | dequeue =>
    obtain ⟨_, _, _, rfl⟩ := dequeue_cases taken
    exact ⟨recorded.cback, recorded.priority, recorded.appended⟩

open Lib.Machine in
theorem recorded_of_trace {heap : Heap QEvent} {as : List Action}
    (run : Trace Scheduler.step Enabled (initial heap) as s) : s.Recorded (history as) := by
  refine run.invariant (I := fun as s => s.Recorded (history as)) ?_ (initial_recorded heap)
  intro as s a t recorded _ taken
  rw [history, List.foldl_append]
  exact recorded.step taken

end History

section Effects
variable {s t : Scheduler} {l : EventId → List Nat} {e : EventId} {a : Action}

/-- The first section stores the choice of the loop. -/
theorem select_worker (taken : s.step .select = some t) :
    (∀ e, t.worker = .selected e → s.Ready e ∧
      ∀ i, s.Ready i → (s.priority e).toInt ≤ (s.priority i).toInt) ∧
    (t.worker = .selecting ↔ ∀ e, ¬ s.Ready e) := by
  cases taken
  rw [← selectEvent_none]
  cases chosen : s.selectEvent with
  | none => exact ⟨fun e here => by simp [select, chosen] at here, by simp [select, chosen]⟩
  | some i =>
    refine ⟨fun e here => ?_, by simp [select, chosen]⟩
    obtain rfl : i = e := by simpa [select, chosen] using here
    exact selectEvent_some chosen

/-- The second section takes the first node off the selected queue and calls its callback. -/
theorem Consistent.takes (consistent : s.Consistent l) (selected : s.worker = .selected e) :
    ∃ ev node t, s.queue e = some ev ∧ s.heap ev = some node ∧ s.step .dequeue = some t ∧
      t.queue = Function.update s.queue e node.next ∧ t.worker = .selecting ∧
      t.dispatched = Function.update s.dispatched e (s.dispatched e ++ [node.val]) ∧
      (s.appended e)[(s.dispatched e).length]? = some node.val := by
  have found := consistent.selected e selected
  cases shape : l e with
  | nil => exact absurd ((consistent.queues.chain e).eq_none_iff.mpr shape) found
  | cons ev rest =>
    obtain ⟨node, first, allocated, _⟩ := consistent.queues.pop shape
    refine ⟨ev, node, s.withoutFirst e node, first, allocated, ?_, rfl, rfl, rfl, ?_⟩
    · simp only [step, selected, dequeue, first, Option.bind_eq_bind, Option.bind_some, allocated,
        Option.pure_def]
    · rw [consistent.history e, shape]
      simp [values, allocated]

/-- The other actions neither call an event of a queue nor change the worker's place. -/
theorem step_other (taken : s.step a = some t) (other : a ≠ .dequeue) :
    t.dispatched = s.dispatched ∧ (a ≠ .select → t.worker = s.worker) := by
  cases a with
  | queueEvent event arg1 arg2 cbacktoq ev =>
    obtain ⟨_, rfl⟩ | ⟨_, _, rfl⟩ | ⟨_, _, appended⟩ := queueEvent_cases taken
    · exact ⟨rfl, fun _ => rfl⟩
    · exact ⟨rfl, fun _ => rfl⟩
    · obtain ⟨_, _, rfl⟩ := append_eq appended
      exact ⟨rfl, fun _ => rfl⟩
  | callbackOn | callbackOff =>
    cases taken
    exact ⟨rfl, fun _ => rfl⟩
  | select =>
    cases taken
    exact ⟨rfl, fun another => absurd rfl another⟩
  | dequeue => exact absurd rfl other

end Effects

open Lib.Machine in
/-- After any interleaving of the actions: the queues are lists with their tails at the
last node, and what was called from each and then what it holds is what the actions have
queued; a selection stores a ready type of least priority number if there is one; the
removal that follows finds a first event, which is the next of those queued, takes it off
and calls it, and nothing else does. -/
theorem scheduler_correct (heap : Heap QEvent) (as : List Action) (s : Scheduler)
    (run : Trace step Enabled (initial heap) as s) :
    (∃ l, Queues s.heap s.queue s.queueTail l ∧
      ∀ e, s.dispatched e ++ values s.heap (l e) = (history as).queued e) ∧
    (∀ e, s.cback e = ((history as).registered e).1 ∧
      s.priority e = ((history as).registered e).2) ∧
    (∀ t, s.step .select = some t →
      (∀ e, t.worker = .selected e → s.Ready e ∧
        ∀ i, s.Ready i → (s.priority e).toInt ≤ (s.priority i).toInt) ∧
      (t.worker = .selecting ↔ ∀ e, ¬ s.Ready e)) ∧
    (∀ e, s.worker = .selected e →
      ∃ ev node t, s.queue e = some ev ∧ s.heap ev = some node ∧ s.step .dequeue = some t ∧
        t.queue = Function.update s.queue e node.next ∧ t.worker = .selecting ∧
        t.dispatched = Function.update s.dispatched e (s.dispatched e ++ [node.val]) ∧
        ((history as).queued e)[(s.dispatched e).length]? = some node.val) ∧
    (∀ a t, s.step a = some t → a ≠ .dequeue →
      t.dispatched = s.dispatched ∧ (a ≠ .select → t.worker = s.worker)) ∧
    ∀ a, s.Enabled a → ∃ t, s.step a = some t := by
  obtain ⟨l, consistent⟩ := consistent_of_run run.run
  have recorded := recorded_of_trace run
  refine ⟨⟨l, consistent.queues, fun e => ?_⟩, fun e => ⟨recorded.cback e, recorded.priority e⟩,
    fun t taken => select_worker taken, fun e selected => ?_,
    fun a t taken other => step_other taken other, fun a enabled => ?_⟩
  · rw [← recorded.appended, consistent.history e]
  · rw [← recorded.appended]
    exact consistent.takes selected
  · obtain ⟨t, _, result, _⟩ := step_consistent consistent enabled
    exact ⟨t, result⟩

instance (s : Scheduler) : (a : Action) → Decidable (s.Enabled a)
  | .queueEvent _ _ _ _ ev => inferInstanceAs (Decidable (s.heap ev = none))
  | .callbackOn _ _ _ => inferInstanceAs (Decidable True)
  | .callbackOff _ => inferInstanceAs (Decidable True)
  | .select => inferInstanceAs (Decidable (s.worker = .selecting))
  | .dequeue => inferInstanceAs (Decidable (s.worker ≠ .selecting))

/-- Two events of type 0 and one of type 1, which has the lower number and is called
first; the second event of type 0 comes between a selection and its removal. -/
def threeEvents : List Action :=
  [.callbackOn 0 (some 7) 2, .callbackOn 1 (some 8) 1, .queueEvent 0 1 2 (some 7) 100,
    .queueEvent 1 3 4 (some 8) 101, .select, .queueEvent 0 5 6 (some 9) 102, .dequeue, .select,
    .dequeue, .select]

open Lib.Machine in
theorem scheduler_correct_threeEvents :
    ∃ s t, Trace step Enabled (initial fun _ => none) threeEvents s ∧
      s.dispatched 1 = [⟨3, 4, some 8⟩] ∧ s.dispatched 0 = [⟨1, 2, some 7⟩] ∧
      s.step .dequeue = some t ∧ t.dispatched 0 = [⟨1, 2, some 7⟩, ⟨5, 6, some 9⟩] := by
  obtain ⟨s, run, passes⟩ := exists_trace step (fun s a => decide (s.Enabled a))
    (initial fun _ => none) threeEvents (fun s => s.worker == .selected 0 &&
      (s.dispatched 1 == [⟨3, 4, some 8⟩] && s.dispatched 0 == [⟨1, 2, some 7⟩])) (by decide +kernel)
  simp only [Bool.and_eq_true, beq_iff_eq] at passes
  obtain ⟨selected, one, zero⟩ := passes
  have run := run.weaken fun s a enabled => of_decide_eq_true enabled
  obtain ⟨_, node, t, _, _, taken, _, _, called, next⟩ :=
    (scheduler_correct _ _ _ run).2.2.2.1 0 selected
  refine ⟨s, t, run, one, zero, taken, ?_⟩
  have last : (history threeEvents).queued 0 = [⟨1, 2, some 7⟩, ⟨5, 6, some 9⟩] := by decide
  rw [zero, last] at next
  rw [called, Function.update_self, zero, ← Option.some.inj next]
  rfl

end Scheduler
end SpinEmu
