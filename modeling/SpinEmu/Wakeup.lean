import SpinEmu.Scheduler
import Mathlib.Data.Fintype.Basic

/-! The worker thread that suspends when it finds no event, and the controller thread
that queues events for it. No thread sends `SIGUSR1`; only the alarm of the timer wakes
the worker. Both signals are blocked outside `sigsuspend`. -/
namespace SpinEmu
open Lib

def timerTick : EventId := 2

/-- The worker runs its loop or a callback, has found no event and is about to call
`sigsuspend`, or waits in it. -/
inductive SuspendPlace where
  | awake
  | emptied
  | suspended
  deriving DecidableEq, Repr

structure CoreThreads where
  scheduler : Scheduler
  place : SuspendPlace
  /-- A `SIGALRM` has come while the worker's mask blocks it. -/
  alarmPending : Bool
  /-- An event of the type has been appended since a signal was last sent to the worker.
  The source does not record this. -/
  unsignalled : EventId → Bool

namespace CoreThreads

/-- `queue_event` will append: there is a callback, and it is not to be called at
once. -/
def Appends (s : CoreThreads) (event : EventId) : Prop :=
  s.scheduler.cback event ≠ none ∧ 0 < (s.scheduler.priority event).toInt

instance (s : CoreThreads) (event : EventId) : Decidable (s.Appends event) :=
  inferInstanceAs (Decidable (_ ∧ _))

/-- `queue_event` in any thread. -/
def queueEvent (event : EventId) (arg1 arg2 : BitVec 32) (cbacktoq : Callback) (ev : Nat)
    (s : CoreThreads) : Option CoreThreads :=
  (s.scheduler.queueEvent event arg1 arg2 cbacktoq ev).map fun scheduler => { s with
    scheduler
    unsignalled :=
      if s.Appends event then Function.update s.unsignalled event true else s.unsignalled }

/-- `handle_timer_tick`, which ends a `sigsuspend`. -/
def handleTimerTick (simTime : BitVec 32) (ev : Nat) (s : CoreThreads) : Option CoreThreads :=
  { s with place := .awake, alarmPending := false }.queueEvent timerTick simTime 0
    (s.scheduler.cback timerTick) ev

inductive Action where
  /-- `queue_event` in the controller thread or in a callback that it calls directly, or
  in a handler that runs outside `sigsuspend` because a callback has changed the mask. -/
  | controller (event : EventId) (arg1 arg2 : BitVec 32) (cbacktoq : Callback) (ev : Nat)
  /-- `spin1_callback_on` and `spin1_callback_off` in such a callback. -/
  | controllerOn (event : EventId) (cback : Callback) (priority : BitVec 32)
  | controllerOff (event : EventId)
  /-- A thread that unblocks `SIGALRM` takes the pending alarm from the worker. -/
  | alarmTaken
  /-- `queue_event` in a callback that the worker runs. -/
  | callback (event : EventId) (arg1 arg2 : BitVec 32) (cbacktoq : Callback) (ev : Nat)
  | callbackOn (event : EventId) (cback : Callback) (priority : BitVec 32)
  | callbackOff (event : EventId)
  | select
  | dequeue
  /-- The entry of `sigsuspend`, and the handler if an alarm is pending. -/
  | suspend (simTime : BitVec 32) (ev : Nat)
  /-- The timer runs out. -/
  | alarm (simTime : BitVec 32) (ev : Nat)

def callbackOn (event : EventId) (cback : Callback) (priority : BitVec 32) (s : CoreThreads) :
    CoreThreads :=
  { s with scheduler := s.scheduler.callbackOn event cback priority }

def callbackOff (event : EventId) (s : CoreThreads) : CoreThreads :=
  { s with scheduler := s.scheduler.callbackOff event }

def step (s : CoreThreads) : Action → Option CoreThreads
  | .controller event arg1 arg2 cbacktoq ev => s.queueEvent event arg1 arg2 cbacktoq ev
  | .controllerOn event cback priority => some (s.callbackOn event cback priority)
  | .controllerOff event => some (s.callbackOff event)
  | .alarmTaken => some { s with alarmPending := false }
  | .callback event arg1 arg2 cbacktoq ev =>
    if s.place = .awake then s.queueEvent event arg1 arg2 cbacktoq ev else none
  | .callbackOn event cback priority =>
    if s.place = .awake then some (s.callbackOn event cback priority) else none
  | .callbackOff event => if s.place = .awake then some (s.callbackOff event) else none
  | .select =>
    if s.place = .awake ∧ s.scheduler.worker = .selecting then
      some { s with
        scheduler := s.scheduler.select
        place := if s.scheduler.selectEvent = none then .emptied else .awake }
    else none
  | .dequeue =>
    if s.place = .awake then
      (s.scheduler.step .dequeue).map fun scheduler => { s with scheduler }
    else none
  | .suspend simTime ev =>
    if s.place = .emptied then
      if s.alarmPending then s.handleTimerTick simTime ev else some { s with place := .suspended }
    else none
  | .alarm simTime ev =>
    let s := { s with unsignalled := fun _ => false }
    if s.place = .suspended then s.handleTimerTick simTime ev
    else some { s with alarmPending := true }

/-- The worker is suspended although an event of a registered type is queued, and no
signal has been sent to it since. -/
def LostWakeup (s : CoreThreads) : Prop :=
  s.place = .suspended ∧ ∃ e, s.scheduler.Ready e ∧ s.unsignalled e = true

instance (s : CoreThreads) : Decidable s.LostWakeup := inferInstanceAs (Decidable (_ ∧ _))

/-- The worker is suspended, or has found no event and no alarm is to end the `sigsuspend`
that comes. -/
def Drowsy (s : CoreThreads) : Prop :=
  s.place = .suspended ∨ s.place = .emptied ∧ s.alarmPending = false

instance (s : CoreThreads) : Decidable s.Drowsy := inferInstanceAs (Decidable (_ ∨ _))

/-- While the worker is drowsy nothing outside it appends an event or registers a type
that has an event waiting, and the alarm that keeps it from being drowsy stays pending
while there is such an event. -/
def Guarded (s : CoreThreads) : Action → Prop
  | .controller event _ _ _ _ => s.Drowsy → ¬ s.Appends event
  | .controllerOn event cback _ => s.Drowsy →
    cback = none ∨ s.scheduler.queue event = none ∨ s.unsignalled event = false
  | .alarmTaken => s.place = .emptied → ∀ e, s.scheduler.Ready e → s.unsignalled e = false
  | _ => True

/-- A drowsy worker has left no event behind that came without a signal. -/
def Covered (s : CoreThreads) : Prop :=
  s.Drowsy → ∀ e, s.scheduler.Ready e → s.unsignalled e = false

section Steps
variable {s t : CoreThreads} {event : EventId} {arg1 arg2 : BitVec 32} {cbacktoq : Callback}
  {ev : Nat}

theorem not_drowsy_of_awake (awake : s.place = .awake) : ¬ s.Drowsy := by
  rintro (suspended | ⟨emptied, _⟩)
  · rw [awake] at suspended
    cases suspended
  · rw [awake] at emptied
    cases emptied

theorem covered_of_awake (awake : s.place = .awake) : s.Covered :=
  fun drowsy => absurd drowsy (not_drowsy_of_awake awake)

theorem queueEvent_place (result : s.queueEvent event arg1 arg2 cbacktoq ev = some t) :
    t.place = s.place ∧ t.alarmPending = s.alarmPending := by
  obtain ⟨scheduler, _, rfl⟩ := Option.map_eq_some_iff.mp result
  exact ⟨rfl, rfl⟩

theorem queueEvent_drowsy (result : s.queueEvent event arg1 arg2 cbacktoq ev = some t) :
    t.Drowsy ↔ s.Drowsy := by
  obtain ⟨place, pending⟩ := queueEvent_place result
  rw [Drowsy, Drowsy, place, pending]

/-- Without appending, `queue_event` leaves the ready types alone. -/
theorem queueEvent_ready (result : s.queueEvent event arg1 arg2 cbacktoq ev = some t)
    (quiet : ¬ s.Appends event) :
    t.unsignalled = s.unsignalled ∧ ∀ e, t.scheduler.Ready e ↔ s.scheduler.Ready e := by
  obtain ⟨scheduler, queued, rfl⟩ := Option.map_eq_some_iff.mp result
  refine ⟨if_neg quiet, fun e => ?_⟩
  obtain ⟨_, rfl⟩ | ⟨_, _, rfl⟩ | ⟨registered, positive, _⟩ := Scheduler.queueEvent_cases queued
  · rfl
  · rfl
  · exact absurd ⟨registered, positive⟩ quiet

/-- An appended event makes its type ready. -/
theorem queueEvent_appends (result : s.queueEvent event arg1 arg2 cbacktoq ev = some t)
    (appends : s.Appends event) : t.scheduler.Ready event ∧ t.unsignalled event = true := by
  obtain ⟨scheduler, queued, rfl⟩ := Option.map_eq_some_iff.mp result
  refine ⟨?_, by simp only [if_pos appends, Function.update_self]⟩
  obtain ⟨free, _⟩ | ⟨_, low, _⟩ | ⟨registered, _, appended⟩ := Scheduler.queueEvent_cases queued
  · exact absurd free appends.1
  · exact absurd low (not_le.mpr appends.2)
  · obtain ⟨_, rfl⟩ | ⟨filled, _, _, _, rfl⟩ := Scheduler.append_cases appended
    · exact ⟨registered, by simp [Scheduler.withLast]⟩
    · exact ⟨registered, filled⟩

theorem handleTimerTick_place {simTime : BitVec 32}
    (result : s.handleTimerTick simTime ev = some t) : t.place = .awake := (queueEvent_place result).1

/-- Outside the worker, `queue_event` keeps a drowsy worker covered if it appends nothing. -/
theorem covered_controller (covered : s.Covered)
    (taken : s.queueEvent event arg1 arg2 cbacktoq ev = some t) :
    t.Covered ↔ (s.Drowsy → ¬ s.Appends event) := by
  rw [Covered, queueEvent_drowsy taken]
  refine forall_congr' fun drowsy => ⟨fun kept appends => ?_, fun quiet e ready => ?_⟩
  · obtain ⟨ready, unsignalled⟩ := queueEvent_appends taken appends
    rw [kept event ready] at unsignalled
    cases unsignalled
  · obtain ⟨same, readies⟩ := queueEvent_ready taken quiet
    rw [same]
    exact covered drowsy e ((readies e).mp ready)

theorem callbackOn_ready (cback : Callback) (priority : BitVec 32) (e : EventId) :
    (s.callbackOn event cback priority).scheduler.Ready e ↔
      if e = event then cback ≠ none ∧ s.scheduler.queue event ≠ none else s.scheduler.Ready e := by
  by_cases here : e = event
  · subst here
    simp [callbackOn, Scheduler.callbackOn, Scheduler.Ready]
  · simp [callbackOn, Scheduler.callbackOn, Scheduler.Ready, here]

/-- Outside the worker, a registration keeps a drowsy worker covered if no unsignalled
event of the type waits. -/
theorem covered_controllerOn (covered : s.Covered) (cback : Callback) (priority : BitVec 32) :
    (s.callbackOn event cback priority).Covered ↔ (s.Drowsy →
      cback = none ∨ s.scheduler.queue event = none ∨ s.unsignalled event = false) := by
  refine forall_congr' fun drowsy => ⟨fun kept => ?_, fun quiet e ready => ?_⟩
  · by_cases free : cback = none
    · exact .inl free
    · by_cases empty : s.scheduler.queue event = none
      · exact .inr (.inl empty)
      · exact .inr (.inr (kept event ((callbackOn_ready ..).mpr (by simp [free, empty]))))
  · rw [callbackOn_ready] at ready
    split at ready
    · rename_i here
      subst here
      exact (quiet.resolve_left ready.1).resolve_left ready.2
    · exact covered drowsy e ready

theorem callbackOff_ready {e : EventId} (ready : (s.callbackOff event).scheduler.Ready e) :
    s.scheduler.Ready e := by
  obtain ⟨registered, filled⟩ := ready
  refine ⟨fun free => registered ?_, filled⟩
  by_cases here : e = event
  · subst here
    simp [callbackOff, Scheduler.callbackOff]
  · simpa [callbackOff, Scheduler.callbackOff, here] using free

/-- A step keeps the worker covered exactly when it keeps to the guard. -/
theorem covered_iff {a : Action} (covered : s.Covered) (taken : s.step a = some t) :
    t.Covered ↔ s.Guarded a := by
  cases a with
  | controller event arg1 arg2 cbacktoq ev => exact covered_controller covered taken
  | controllerOn event cback priority =>
    cases taken
    exact covered_controllerOn covered cback priority
  | controllerOff event =>
    cases taken
    exact iff_of_true (fun drowsy e ready => covered drowsy e (callbackOff_ready ready)) trivial
  | alarmTaken =>
    cases taken
    refine ⟨fun kept emptied => kept (.inr ⟨emptied, rfl⟩), fun quiet drowsy => ?_⟩
    rcases drowsy with suspended | ⟨emptied, _⟩
    · exact covered (.inl suspended)
    · exact quiet emptied
  | callback event arg1 arg2 cbacktoq ev =>
    rw [step] at taken
    split at taken
    · rename_i awake
      exact iff_of_true (covered_of_awake ((queueEvent_place taken).1.trans awake)) trivial
    · cases taken
  | callbackOn | callbackOff =>
    rw [step] at taken
    split at taken
    · rename_i awake
      cases taken
      exact iff_of_true (covered_of_awake awake) trivial
    · cases taken
  | select =>
    rw [step] at taken
    split at taken
    · rename_i awake
      cases taken
      refine iff_of_true (fun drowsy e ready => ?_) trivial
      cases chosen : s.scheduler.selectEvent with
      | none => exact absurd ready (Scheduler.selectEvent_none.mp chosen e)
      | some i => exact absurd drowsy (not_drowsy_of_awake (by simp [chosen]))
    · cases taken
  | dequeue =>
    rw [step] at taken
    split at taken
    · rename_i awake
      obtain ⟨scheduler, _, rfl⟩ := Option.map_eq_some_iff.mp taken
      exact iff_of_true (covered_of_awake awake) trivial
    · cases taken
  | suspend simTime ev =>
    rw [step] at taken
    split at taken
    · rename_i emptied
      split at taken
      · exact iff_of_true (covered_of_awake (handleTimerTick_place taken)) trivial
      · rename_i none
        cases taken
        exact iff_of_true (fun _ => covered (.inr ⟨emptied, Bool.eq_false_iff.mpr none⟩)) trivial
    · cases taken
  | alarm simTime ev =>
    rw [step] at taken
    simp only at taken
    split at taken
    · exact iff_of_true (covered_of_awake (handleTimerTick_place taken)) trivial
    · rename_i other
      cases taken
      refine iff_of_true (fun drowsy => ?_) trivial
      rcases drowsy with suspended | ⟨_, none⟩
      · exact absurd suspended other
      · cases none

/-- A worker that is not covered has lost a wake-up or loses it when it suspends. -/
theorem lost_of_uncovered (uncovered : ¬ s.Covered) :
    s.LostWakeup ∨ ∀ simTime ev, ∃ t, s.step (.suspend simTime ev) = some t ∧ t.LostWakeup := by
  simp only [Covered, not_forall, Bool.not_eq_false] at uncovered
  obtain ⟨suspended | ⟨emptied, none⟩, e, ready, unsignalled⟩ := uncovered
  · exact .inl ⟨suspended, e, ready, unsignalled⟩
  · refine .inr fun simTime ev => ⟨{ s with place := .suspended }, ?_, rfl, e, ready, unsignalled⟩
    rw [step, if_pos emptied, none, if_neg (by decide)]

end Steps

open Lib.Machine in
/-- From a worker in its loop, while nothing outside a drowsy worker appends an event,
registers a type with one or takes its alarm away, no wake-up is lost; the first step
that does so loses one, at once or when the worker suspends. -/
theorem no_lost_wakeup (start t : CoreThreads) (awake : start.place = .awake)
    (run : Run step Guarded start t) :
    ¬ t.LostWakeup ∧ ∀ a u, ¬ t.Guarded a → t.step a = some u →
      u.LostWakeup ∨ ∀ simTime ev, ∃ v, u.step (.suspend simTime ev) = some v ∧ v.LostWakeup := by
  have covered : t.Covered := run.invariant (fun covered guarded taken =>
    (covered_iff covered taken).mpr guarded) (covered_of_awake awake)
  refine ⟨?_, fun a u unguarded taken =>
    lost_of_uncovered fun kept => unguarded ((covered_iff covered taken).mp kept)⟩
  rintro ⟨suspended, e, ready, unsignalled⟩
  rw [covered (.inl suspended) e ready] at unsignalled
  cases unsignalled

instance (s : CoreThreads) : (a : Action) → Decidable (s.Guarded a)
  | .controller event _ _ _ _ => inferInstanceAs (Decidable (s.Drowsy → ¬ s.Appends event))
  | .controllerOn event cback _ => inferInstanceAs (Decidable (s.Drowsy →
    cback = none ∨ s.scheduler.queue event = none ∨ s.unsignalled event = false))
  | .alarmTaken => inferInstanceAs (Decidable (s.place = .emptied →
    ∀ e, s.scheduler.Ready e → s.unsignalled e = false))
  | .controllerOff _ | .callback _ _ _ _ _ | .callbackOn _ _ _ | .callbackOff _ | .select
  | .dequeue | .suspend _ _ | .alarm _ _ => inferInstanceAs (Decidable True)

/-- A core with a callback for multicast packets, as it enters its loop. -/
def waiting : CoreThreads where
  scheduler := (Scheduler.initial fun _ => none).callbackOn 0 (some 7) 1
  place := .awake
  alarmPending := false
  unsignalled _ := false

/-- A packet arrives while the worker is in its loop, another one between an empty
selection and the suspension, after an alarm. A callback of the controller registers a
type without events while the worker waits. -/
def guardedActions : List Action :=
  [.controller 0 5 6 (some 7) 100, .select, .dequeue, .select, .alarm 0 200,
    .controller 0 7 8 (some 7) 101, .suspend 1 201, .select, .dequeue, .select, .suspend 2 202,
    .controllerOn 1 (some 8) 1]

open Lib.Machine in
theorem no_lost_wakeup_guarded : ∃ t, Run step Guarded waiting t ∧ t.place = .suspended ∧
    t.scheduler.dispatched 0 = [⟨5, 6, some 7⟩, ⟨7, 8, some 7⟩] ∧ ¬ t.LostWakeup := by
  obtain ⟨t, run, passes⟩ := exists_checkedRun step (fun s a => decide (s.Guarded a)) waiting
    guardedActions (fun t => t.place == .suspended &&
      t.scheduler.dispatched 0 == [⟨5, 6, some 7⟩, ⟨7, 8, some 7⟩]) (by decide +kernel)
  obtain ⟨suspended, called⟩ := Bool.and_eq_true_iff.mp passes
  have run := run.weaken fun s a guarded => of_decide_eq_true guarded
  exact ⟨t, run, eq_of_beq suspended, eq_of_beq called, (no_lost_wakeup waiting t rfl run).1⟩

open Lib.Machine in
/-- A packet arrives after the worker has found no event and before it suspends. No
timer is armed, so nothing will wake it. -/
theorem packet_waits : ∃ t, Run step (fun _ _ => True) waiting t ∧ t.LostWakeup := by
  obtain ⟨t, run, lost⟩ := exists_run step (fun _ _ => True) waiting
    [.select, .controller 0 5 6 (some 7) 100, .suspend 0 200] (fun t => decide t.LostWakeup)
    (fun _ _ _ => trivial) (by decide +kernel)
  exact ⟨t, run, of_decide_eq_true lost⟩

end CoreThreads
end SpinEmu
