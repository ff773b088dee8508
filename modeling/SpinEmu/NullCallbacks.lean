import SpinEmu.BarrierSetup
import SpinEmu.SdpDelivery

/-! Packets that arrive while the application changes its callbacks. The controller reads
the callback before it takes the lock, and `queue_event` tests the registration under it. -/
namespace SpinEmu
open Lib

def mcPacketReceived : EventId := 0

/-- The controller is between packets, or in a call of `queue_event` whose arguments it
has evaluated. -/
inductive ControllerPlace where
  | idle
  | calling (event : EventId) (arg1 arg2 : BitVec 32) (cbacktoq : Callback)
  deriving DecidableEq, Repr

structure CallbackThreads where
  scheduler : Scheduler
  controller : ControllerPlace

namespace CallbackThreads

/-- `read_mc`, up to the call of `queue_event`. -/
def readMc (key : BitVec 32) (payload : Option (BitVec 32)) (s : CallbackThreads) :
    ControllerPlace :=
  if key = rdygoKey ∨ key = goKey ∨ key = rdy1Key ∨ key = rdy2Key then .idle
  else .calling mcPacketReceived key (payload.getD 0) (s.scheduler.cback mcPacketReceived)

/-- `read_sdp` for a message at the address `msg`, up to the call of `queue_event`. -/
def readSdp (msg : BitVec 32) (m : SdpMsg) (s : CallbackThreads) : ControllerPlace :=
  if m.cmdRc ∈ CoreProcess.controlCommands then .idle
  else .calling sdpPacketRx msg ((m.destPort >>> 5).setWidth 32) (s.scheduler.cback sdpPacketRx)

inductive Action where
  | readMc (key : BitVec 32) (payload : Option (BitVec 32))
  | readSdp (msg : BitVec 32) (m : SdpMsg)
  /-- The section of `queue_event`; `ev` is the address that `xmalloc` returns. -/
  | queueEvent (ev : Nat)
  | callbackOn (event : EventId) (cback : Nat) (priority : BitVec 32)
  | callbackOff (event : EventId)
  | select
  | dequeue

/-- A step of the worker in its code or its loop. -/
def work (a : Scheduler.Action) (s : CallbackThreads) : Option CallbackThreads :=
  (s.scheduler.step a).map fun scheduler => { s with scheduler }

def step (s : CallbackThreads) : Action → Option CallbackThreads
  | .readMc key payload =>
    if s.controller = .idle then some { s with controller := s.readMc key payload } else none
  | .readSdp msg m =>
    if s.controller = .idle then some { s with controller := s.readSdp msg m } else none
  | .queueEvent ev =>
    match s.controller with
    | .idle => none
    | .calling event arg1 arg2 cbacktoq =>
      (s.scheduler.queueEvent event arg1 arg2 cbacktoq ev).map fun scheduler => ⟨scheduler, .idle⟩
  | .callbackOn event cback priority =>
    if s.scheduler.worker = .selecting then s.work (.callbackOn event (some cback) priority)
    else none
  | .callbackOff event =>
    if s.scheduler.worker = .selecting then s.work (.callbackOff event) else none
  | .select => if s.scheduler.worker = .selecting then s.work .select else none
  | .dequeue => s.work .dequeue

/-- `xmalloc` returns memory that is not in use. -/
def Enabled (s : CallbackThreads) : Action → Prop
  | .queueEvent ev => s.scheduler.heap ev = none
  | _ => True

/-- The event type of a call with a `NULL` callback is not registered when the call takes
the lock. -/
def Unraced (s : CallbackThreads) : Action → Prop
  | .queueEvent _ => ∀ event arg1 arg2, s.controller = .calling event arg1 arg2 none →
      s.scheduler.cback event = none
  | _ => True

/-- What has been queued, called directly or called by the loop has a callback. -/
structure NonNull (s : CallbackThreads) : Prop where
  appended : ∀ event, ∀ e ∈ s.scheduler.appended event, e.cback ≠ none
  direct : ∀ e ∈ s.scheduler.direct, e.cback ≠ none
  dispatched : ∀ event, ∀ e ∈ s.scheduler.dispatched event, e.cback ≠ none

def initial (heap : Heap QEvent) : CallbackThreads := ⟨.initial heap, .idle⟩

section Steps
variable {s t : CallbackThreads} {l : EventId → List Nat}

theorem initial_nonNull (heap : Heap QEvent) : (initial heap).NonNull := by
  refine ⟨fun event e member => ?_, fun e member => ?_, fun event e member => ?_⟩ <;> cases member

/-- What the loop has called it has taken from a queue. -/
theorem nonNull_of_consistent (consistent : s.scheduler.Consistent l)
    (appended : ∀ event, ∀ e ∈ s.scheduler.appended event, e.cback ≠ none)
    (direct : ∀ e ∈ s.scheduler.direct, e.cback ≠ none) : s.NonNull := by
  refine ⟨appended, direct, fun event e member => appended event e ?_⟩
  rw [consistent.history event]
  exact List.mem_append_left _ member

/-- The worker's own steps queue nothing and call nothing directly. -/
theorem step_records {a : Scheduler.Action} {u v : Scheduler} (taken : u.step a = some v)
    (own : ∀ event arg1 arg2 cbacktoq ev, a ≠ .queueEvent event arg1 arg2 cbacktoq ev) :
    v.appended = u.appended ∧ v.direct = u.direct := by
  cases a with
  | queueEvent event arg1 arg2 cbacktoq ev => exact absurd rfl (own event arg1 arg2 cbacktoq ev)
  | callbackOn | callbackOff | select =>
    cases taken
    exact ⟨rfl, rfl⟩
  | dequeue =>
    obtain ⟨_, _, _, rfl⟩ := Scheduler.dequeue_cases taken
    exact ⟨rfl, rfl⟩

theorem work_kept {a : Scheduler.Action} (consistent : s.scheduler.Consistent l)
    (nonNull : s.NonNull) (enabled : s.scheduler.Enabled a)
    (own : ∀ event arg1 arg2 cbacktoq ev, a ≠ .queueEvent event arg1 arg2 cbacktoq ev)
    (taken : s.work a = some t) : (∃ l, t.scheduler.Consistent l) ∧ t.NonNull := by
  obtain ⟨u, stepped, rfl⟩ := Option.map_eq_some_iff.mp taken
  obtain ⟨v, l', result, kept⟩ := Scheduler.step_consistent consistent enabled
  rw [stepped] at result
  cases result
  obtain ⟨appended, direct⟩ := step_records stepped own
  refine ⟨⟨l', kept⟩, nonNull_of_consistent kept ?_ ?_⟩
  · rw [appended]
    exact nonNull.appended
  · rw [direct]
    exact nonNull.direct

/-- A call leaves no `NULL` behind if and only if it has none or is not registered. -/
theorem queueEvent_nonNull {event : EventId} {arg1 arg2 : BitVec 32} {cbacktoq : Callback}
    {ev : Nat} (consistent : s.scheduler.Consistent l) (nonNull : s.NonNull)
    (fresh : s.scheduler.heap ev = none)
    (calling : s.controller = .calling event arg1 arg2 cbacktoq) :
    ∃ t, s.step (.queueEvent ev) = some t ∧ (∃ l, t.scheduler.Consistent l) ∧
      (t.NonNull ↔ cbacktoq ≠ none ∨ s.scheduler.cback event = none) := by
  obtain ⟨u, l', result, kept⟩ := Scheduler.step_consistent consistent
    (show s.scheduler.Enabled (.queueEvent event arg1 arg2 cbacktoq ev) from fresh)
  rw [Scheduler.step] at result
  refine ⟨⟨u, .idle⟩, by simp only [step, calling, result, Option.map_some], ⟨l', kept⟩, ?_⟩
  obtain ⟨free, rfl⟩ | ⟨registered, -, rfl⟩ | ⟨registered, -, appended⟩ :=
    Scheduler.queueEvent_cases result
  · exact iff_of_true ⟨nonNull.appended, nonNull.direct, nonNull.dispatched⟩ (.inr free)
  · constructor
    · intro safe
      exact .inl (safe.direct _ (List.mem_append_right _ (List.mem_singleton_self _)))
    · intro either
      refine nonNull_of_consistent kept nonNull.appended fun e member => ?_
      rcases List.mem_append.mp member with earlier | last
      · exact nonNull.direct e earlier
      · rw [List.mem_singleton.mp last]
        exact either.resolve_right registered
  · obtain ⟨heap, queue, rfl⟩ := Scheduler.append_eq appended
    constructor
    · intro safe
      refine .inl (safe.appended event ⟨arg1, arg2, cbacktoq⟩ ?_)
      simp [Scheduler.withLast]
    · intro either
      refine nonNull_of_consistent kept (fun k e member => ?_) nonNull.direct
      simp only [Scheduler.withLast, Function.update_apply] at member
      split at member
      · rename_i here
        subst here
        rcases List.mem_append.mp member with earlier | last
        · exact nonNull.appended k e earlier
        · rw [List.mem_singleton.mp last]
          exact either.resolve_right registered
      · exact nonNull.appended k e member

/-- A step that keeps to the guard leaves no `NULL` behind. -/
theorem step_nonNull {a : Action} (kept : (∃ l, s.scheduler.Consistent l) ∧ s.NonNull)
    (enabled : s.Enabled a) (unraced : s.Unraced a) (taken : s.step a = some t) :
    (∃ l, t.scheduler.Consistent l) ∧ t.NonNull := by
  obtain ⟨⟨l, consistent⟩, nonNull⟩ := kept
  cases a with
  | readMc | readSdp =>
    rw [step] at taken
    split at taken
    · cases taken
      exact ⟨⟨l, consistent⟩, nonNull.appended, nonNull.direct, nonNull.dispatched⟩
    · cases taken
  | queueEvent ev =>
    cases here : s.controller with
    | idle =>
      simp only [step, here] at taken
      cases taken
    | calling event arg1 arg2 cbacktoq =>
      obtain ⟨u, result, sorted, safe⟩ := queueEvent_nonNull consistent nonNull enabled here
      rw [taken] at result
      cases result
      refine ⟨sorted, safe.mpr ?_⟩
      cases cbacktoq with
      | none => exact .inr (unraced event arg1 arg2 here)
      | some cback => exact .inl (Option.some_ne_none cback)
  | callbackOn | callbackOff | select =>
    rw [step] at taken
    split at taken
    · rename_i selecting
      refine work_kept consistent nonNull ?_ (fun _ _ _ _ _ other => by cases other) taken
      first
      | exact selecting
      | exact trivial
    · cases taken
  | dequeue =>
    have selected : s.scheduler.Enabled .dequeue := by
      intro idle
      simp only [step, work, Scheduler.step, idle] at taken
      cases taken
    exact work_kept consistent nonNull selected (fun _ _ _ _ _ other => by cases other) taken

end Steps

open Lib.Machine in
/-- While no registration comes between the read of a `NULL` callback and the section that
it is for, no `NULL` callback is ever queued or called; the first section with such a
registration before it queues one or calls it. -/
theorem callbacks_nonNull (heap : Heap QEvent) (t : CallbackThreads)
    (run : Run step (fun s a => s.Enabled a ∧ s.Unraced a) (initial heap) t) :
    t.NonNull ∧ ∀ a, t.Enabled a → ¬ t.Unraced a → ∃ u, t.step a = some u ∧ ¬ u.NonNull := by
  have kept : (∃ l, t.scheduler.Consistent l) ∧ t.NonNull :=
    run.invariant (I := fun s => (∃ l, s.scheduler.Consistent l) ∧ s.NonNull)
      (fun kept allowed taken => step_nonNull kept allowed.1 allowed.2 taken)
      ⟨⟨_, Scheduler.initial_consistent heap⟩, initial_nonNull heap⟩
  obtain ⟨⟨l, consistent⟩, nonNull⟩ := kept
  refine ⟨nonNull, fun a enabled raced => ?_⟩
  cases a with
  | queueEvent ev =>
    simp only [Unraced, not_forall] at raced
    obtain ⟨event, arg1, arg2, calling, registered⟩ := raced
    obtain ⟨u, taken, -, safe⟩ := queueEvent_nonNull consistent nonNull enabled calling
    refine ⟨u, taken, fun nonNull => ?_⟩
    rcases safe.mp nonNull with some | none
    · exact some rfl
    · exact registered none
  | readMc | readSdp | callbackOn | callbackOff | select | dequeue => exact absurd trivial raced

open Lib.Machine in
/-- A packet that comes before any registration is ignored. -/
theorem early_packet_ignored : NonNull ⟨.initial fun _ => none, .idle⟩ := by
  have run : Run step (fun s a => s.Enabled a ∧ s.Unraced a) (initial fun _ => none)
      ⟨.initial fun _ => none, .idle⟩ :=
    .tail (.tail .refl (show Enabled _ (.readMc 5 none) ∧ Unraced _ (.readMc 5 none) from
      ⟨trivial, trivial⟩) rfl)
      (show Enabled _ (.queueEvent 100) ∧ Unraced _ (.queueEvent 100) from
        ⟨rfl, fun _ _ _ here => by cases here; rfl⟩) rfl
  exact (callbacks_nonNull _ _ run).1

open Lib.Machine in
/-- A packet is read before the application registers a callback for packets, and its
section comes after it. -/
theorem null_queued : ∃ t, Run step Enabled (initial fun _ => none) t ∧ ¬ t.NonNull := by
  obtain ⟨t, run, raced⟩ := exists_checkedRun step
    (fun s a => match a with | .queueEvent ev => (s.scheduler.heap ev).isNone | _ => true)
    (initial fun _ => none)
    [.readMc 5 none, .callbackOn mcPacketReceived 7 1, .queueEvent 100]
    (fun t => (t.scheduler.appended mcPacketReceived).any fun e => e.cback.isNone)
    (by decide +kernel)
  refine ⟨t, run.weaken fun s a allowed => ?_, fun nonNull => ?_⟩
  · cases a with
    | queueEvent ev => exact Option.isNone_iff_eq_none.mp allowed
    | _ => trivial
  · obtain ⟨e, member, null⟩ := List.any_eq_true.mp raced
    exact nonNull.appended _ e member (Option.isNone_iff_eq_none.mp null)

end CallbackThreads
end SpinEmu
