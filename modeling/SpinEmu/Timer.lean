import SpinEmu.Launch
import SpinEmu.Wakeup

/-! The timer of a core: `spin1_set_timer_tick` starts it, and `handle_timer_tick` queues an
event at every tick and starts it again. The handler is in two steps, as a callback that it
calls directly can change the timer in between. -/
namespace SpinEmu
open Lib Lib.Machine

/-- `timer_tick*SLOW_DOWN_TIMER`, a `uint` times an `int`. -/
def tickMicros (timerTick : BitVec 32) (slowDownTimer : Int) : BitVec 32 :=
  timerTick * BitVec.ofInt 32 slowDownTimer

/-- `setitimer` with the seconds and microseconds of a time; no time stops the timer. -/
def setitimer (micros : BitVec 32) : Option (BitVec 32 × BitVec 32) :=
  let sec := micros / 1000000
  let usec := micros % 1000000
  if sec = 0 ∧ usec = 0 then none else some (sec, usec)

/-- The scheduler with the variables of the timer. -/
structure TimedCore where
  scheduler : Scheduler
  simTime : BitVec 32
  timerTick : BitVec 32
  slowDownTimer : Int
  quit : Bool
  /-- What the timer has been set to, while it runs. -/
  itimer : Option (BitVec 32 × BitVec 32)
  /-- A `SIGALRM` has come and is not handled yet. -/
  alarmPending : Bool
  /-- The handler has called `queue_event` and not yet set the timer. -/
  handling : Bool
  /-- How often the handler has been called. The source has no such counter. -/
  alarms : Nat

namespace TimedCore

inductive Action where
  | setTimerTick (time : BitVec 32)
  /-- The timer runs out. -/
  | expire
  /-- The handler up to `queue_event`; `ev` is the address that `xmalloc` returns. -/
  | alarm (ev : Nat)
  | rearm
  /-- `spin1_stop` or `spin1_kill`. -/
  | stop
  /-- Any other thread or callback; only the handler queues ticks. -/
  | work (a : Scheduler.Action)

def queuesTick : Scheduler.Action → Bool
  | .queueEvent event _ _ _ _ => event = SpinEmu.timerTick
  | _ => false

def step (s : TimedCore) : Action → Option TimedCore
  | .setTimerTick time =>
    some { s with timerTick := time, itimer := setitimer (tickMicros time s.slowDownTimer) }
  | .expire =>
    if s.itimer.isSome then some { s with itimer := none, alarmPending := true } else none
  | .alarm ev =>
    if s.alarmPending && !s.handling then
      let simTime := s.simTime + 1
      let cback := s.scheduler.cback SpinEmu.timerTick
      (s.scheduler.queueEvent SpinEmu.timerTick simTime 0 cback ev).map fun scheduler =>
        { s with
          scheduler, simTime
          alarmPending := false
          handling := true
          alarms := s.alarms + 1 }
    else none
  | .rearm =>
    if s.handling then
      some { s with
        handling := false
        itimer := if s.quit then s.itimer else setitimer (tickMicros s.timerTick s.slowDownTimer) }
    else none
  | .stop => some { s with quit := true }
  | .work a =>
    if queuesTick a then none
    else (s.scheduler.step a).map fun scheduler => { s with scheduler }

/-- The variables of a process that has not called the interface yet. -/
def initial (slowDownTimer : Int) (heap : Heap QEvent) : TimedCore where
  scheduler := .initial heap
  simTime := 0
  timerTick := 0
  slowDownTimer := slowDownTimer
  quit := false
  itimer := none
  alarmPending := false
  handling := false
  alarms := 0

/-- As in the scheduler, of which each action is one or none. -/
def Enabled (s : TimedCore) : Action → Prop
  | .alarm ev => s.scheduler.heap ev = none
  | .work a => s.scheduler.Enabled a
  | _ => True

/-- The same while the registration for ticks stays. -/
def Steady (s : TimedCore) : Action → Prop
  | .work (.callbackOn event _ _) => event ≠ SpinEmu.timerTick
  | .work (.callbackOff event) => event ≠ SpinEmu.timerTick
  | a => s.Enabled a

/-- The time between two ticks, of which none is no ticks at all. -/
def micros (s : TimedCore) : BitVec 32 := tickMicros s.timerTick s.slowDownTimer

/-- The event of tick `n`. -/
def tickEvent (cback : Callback) (n : Nat) : QEvent := ⟨BitVec.ofNat 32 n, 0, cback⟩

/-- What the events that have been queued for ticks are. -/
def ticks (s : TimedCore) : List QEvent := s.scheduler.appended SpinEmu.timerTick

theorem setitimer_isSome (time : BitVec 32) : (setitimer time).isSome = true ↔ time ≠ 0 := by
  unfold setitimer
  dsimp only
  have zero : (time / 1000000 = 0 ∧ time % 1000000 = 0) ↔ time = 0 := by
    have million : (1000000 : BitVec 32).toNat = 1000000 := rfl
    have none : (0 : BitVec 32).toNat = 0 := rfl
    simp only [← BitVec.toNat_inj, BitVec.toNat_udiv, BitVec.toNat_umod, million, none]
    omega
  by_cases none : time = 0
  · rw [if_pos (zero.mpr none)]
    exact iff_of_false Bool.false_ne_true (not_not.mpr none)
  · rw [if_neg (mt zero.mp none)]
    exact iff_of_true rfl none

variable {s t : TimedCore} {a : Action} {heap : Heap QEvent} {slow : Int}

/-- What holds in every run. -/
structure Kept (s : TimedCore) : Prop where
  consistent : ∃ l, s.scheduler.Consistent l
  simTime : s.simTime = BitVec.ofNat 32 s.alarms
  numbers : ∃ ns : List Nat, ns.Pairwise (· < ·) ∧ (∀ n ∈ ns, 1 ≤ n ∧ n ≤ s.alarms) ∧
    s.ticks.map QEvent.arg1 = ns.map (BitVec.ofNat 32)
  going : s.itimer.isSome = true → s.micros ≠ 0
  lasting : s.micros ≠ 0 → s.quit = false → s.itimer.isSome ∨ s.alarmPending ∨ s.handling

theorem ticks_work {b : Scheduler.Action} {u : Scheduler} (other : queuesTick b ≠ true)
    (taken : s.scheduler.step b = some u) :
    u.appended SpinEmu.timerTick = s.scheduler.appended SpinEmu.timerTick := by
  cases b with
  | queueEvent event arg1 arg2 cback ev =>
    have apart : SpinEmu.timerTick ≠ event := fun same => other (decide_eq_true same.symm)
    obtain ⟨-, rfl⟩ | ⟨-, -, rfl⟩ | ⟨-, -, appended⟩ := Scheduler.queueEvent_cases taken
    · rfl
    · rfl
    · obtain ⟨_, _, rfl⟩ := Scheduler.append_eq appended
      exact Function.update_of_ne apart _ _
  | callbackOn | callbackOff | select =>
    cases taken
    rfl
  | dequeue =>
    obtain ⟨_, _, -, rfl⟩ := Scheduler.dequeue_cases taken
    rfl

/-- What the handler does until `queue_event` has returned. -/
structure Alarmed (ev : Nat) (s t : TimedCore) : Prop where
  alarms : t.alarms = s.alarms + 1
  simTime : t.simTime = s.simTime + 1
  handling : t.handling = true
  itimer : t.itimer = s.itimer
  micros : t.micros = s.micros
  cback : t.scheduler.cback = s.scheduler.cback
  priority : t.scheduler.priority = s.scheduler.priority
  queued : s.scheduler.step (.queueEvent SpinEmu.timerTick (s.simTime + 1) 0
    (s.scheduler.cback SpinEmu.timerTick) ev) = some t.scheduler
  ticks : t.ticks = if s.scheduler.cback SpinEmu.timerTick ≠ none ∧
      0 < (s.scheduler.priority SpinEmu.timerTick).toInt then
    s.ticks ++ [⟨s.simTime + 1, 0, s.scheduler.cback SpinEmu.timerTick⟩] else s.ticks

theorem alarmed_of_step {ev : Nat} (taken : s.step (.alarm ev) = some t) : Alarmed ev s t := by
  simp only [step] at taken
  split at taken
  · obtain ⟨u, queued, rfl⟩ := Option.map_eq_some_iff.mp taken
    have same : s.scheduler.step (.queueEvent SpinEmu.timerTick (s.simTime + 1) 0
        (s.scheduler.cback SpinEmu.timerTick) ev) = some u := queued
    obtain ⟨off, rfl⟩ | ⟨on, low, rfl⟩ | ⟨on, high, appended⟩ := Scheduler.queueEvent_cases queued
    · refine ⟨rfl, rfl, rfl, rfl, rfl, rfl, rfl, same, ?_⟩
      rw [if_neg fun both => both.1 off]
      rfl
    · refine ⟨rfl, rfl, rfl, rfl, rfl, rfl, rfl, same, ?_⟩
      rw [if_neg fun both => absurd both.2 (Int.not_lt.mpr low)]
      rfl
    · obtain ⟨_, _, rfl⟩ := Scheduler.append_eq appended
      refine ⟨rfl, rfl, rfl, rfl, rfl, rfl, rfl, same, ?_⟩
      rw [if_pos ⟨on, high⟩]
      simp only [ticks, Scheduler.withLast, Function.update_self]
  · cases taken

theorem consistent_next {b : Scheduler.Action} {u : Scheduler}
    (consistent : ∃ l, s.scheduler.Consistent l) (enabled : s.scheduler.Enabled b)
    (taken : s.scheduler.step b = some u) : ∃ l, u.Consistent l := by
  obtain ⟨l, consistent⟩ := consistent
  obtain ⟨u', l', result, kept⟩ := Scheduler.step_consistent consistent enabled
  cases Option.some.inj (taken.symm.trans result)
  exact ⟨l', kept⟩

theorem kept_initial (slow : Int) (heap : Heap QEvent) : (initial slow heap).Kept where
  consistent := ⟨_, Scheduler.initial_consistent heap⟩
  simTime := rfl
  numbers := ⟨[], .nil, nofun, rfl⟩
  going := nofun
  lasting some _ := absurd (BitVec.zero_mul) some

/-- The tick of an alarm has a number greater than those before. -/
theorem Kept.numbers_alarm {ev : Nat} (kept : s.Kept) (alarmed : Alarmed ev s t) :
    ∃ ns : List Nat, ns.Pairwise (· < ·) ∧ (∀ n ∈ ns, 1 ≤ n ∧ n ≤ t.alarms) ∧
      t.ticks.map QEvent.arg1 = ns.map (BitVec.ofNat 32) := by
  obtain ⟨ns, sorted, bounds, same⟩ := kept.numbers
  have bounds' : ∀ n ∈ ns, 1 ≤ n ∧ n ≤ s.alarms + 1 := fun n member =>
    ⟨(bounds n member).1, Nat.le_succ_of_le (bounds n member).2⟩
  rw [alarmed.ticks, alarmed.alarms]
  split
  · refine ⟨ns ++ [s.alarms + 1], ?_, ?_, ?_⟩
    · refine List.pairwise_append.mpr ⟨sorted, List.pairwise_singleton _ _, ?_⟩
      intro n member m last
      rw [List.mem_singleton.mp last]
      exact Nat.lt_succ_of_le (bounds n member).2
    · refine List.forall_mem_append.mpr ⟨bounds', ?_⟩
      exact List.forall_mem_singleton.mpr ⟨Nat.le_add_left _ _, Nat.le_refl _⟩
    · rw [List.map_append, same, List.map_append, List.map_singleton, List.map_singleton,
        kept.simTime]
      refine congrArg (fun n => _ ++ [n]) ?_
      exact (BitVec.ofNat_add _ _).symm
  · exact ⟨ns, sorted, bounds', same⟩

theorem Kept.step (kept : s.Kept) (enabled : s.Enabled a) (taken : s.step a = some t) : t.Kept := by
  have before := kept
  obtain ⟨consistent, simTime, numbers, going, lasting⟩ := kept
  cases a with
  | setTimerTick time =>
    cases taken
    exact ⟨consistent, simTime, numbers, (setitimer_isSome _).mp,
      fun some _ => .inl ((setitimer_isSome _).mpr some)⟩
  | expire =>
    simp only [TimedCore.step] at taken
    split at taken
    · cases taken
      exact ⟨consistent, simTime, numbers, nofun, fun _ _ => .inr (.inl rfl)⟩
    · cases taken
  | alarm ev =>
    have alarmed := alarmed_of_step taken
    have free : s.scheduler.Enabled (.queueEvent SpinEmu.timerTick (s.simTime + 1) 0
      (s.scheduler.cback SpinEmu.timerTick) ev) := enabled
    refine ⟨consistent_next consistent free alarmed.queued, ?_, before.numbers_alarm alarmed, ?_,
      fun _ _ => .inr (.inr alarmed.handling)⟩
    · rw [alarmed.simTime, alarmed.alarms, simTime]
      exact (BitVec.ofNat_add _ _).symm
    · rw [alarmed.itimer, alarmed.micros]
      exact going
  | rearm =>
    simp only [TimedCore.step] at taken
    split at taken
    · cases taken
      refine ⟨consistent, simTime, numbers, ?_, fun some going => ?_⟩
      · dsimp only
        split
        · exact going
        · exact (setitimer_isSome _).mp
      · left
        have going : s.quit = false := going
        simp only [going]
        exact (setitimer_isSome _).mpr some
    · cases taken
  | stop =>
    cases taken
    exact ⟨consistent, simTime, numbers, going, fun _ => nofun⟩
  | work b =>
    simp only [TimedCore.step] at taken
    split at taken
    · cases taken
    · rename_i other
      obtain ⟨u, stepped, rfl⟩ := Option.map_eq_some_iff.mp taken
      refine ⟨consistent_next consistent enabled stepped, simTime, ?_, going, lasting⟩
      rw [TimedCore.ticks, ticks_work other stepped]
      exact numbers

theorem run_kept (run : Run TimedCore.step Enabled (initial slow heap) t) : t.Kept :=
  run.invariant (fun kept enabled taken => kept.step enabled taken) (kept_initial slow heap)

theorem enabled_of_steady (steady : s.Steady a) : s.Enabled a := by
  cases a with
  | work b => cases b <;> first | exact steady | trivial
  | _ => exact steady

/-- The ticks since a given state, while its registration stays. -/
structure Since (s t : TimedCore) : Prop where
  kept : t.Kept
  cback : t.scheduler.cback SpinEmu.timerTick = s.scheduler.cback SpinEmu.timerTick
  priority : t.scheduler.priority SpinEmu.timerTick = s.scheduler.priority SpinEmu.timerTick
  alarms : s.alarms ≤ t.alarms
  ticks : t.ticks = s.ticks ++ (List.range' (s.alarms + 1) (t.alarms - s.alarms)).map
    (tickEvent (s.scheduler.cback SpinEmu.timerTick))

/-- Other work leaves the registration for ticks alone. -/
theorem registration_work {b : Scheduler.Action} {u : Scheduler} (steady : s.Steady (.work b))
    (taken : s.scheduler.step b = some u) :
    u.cback SpinEmu.timerTick = s.scheduler.cback SpinEmu.timerTick ∧
      u.priority SpinEmu.timerTick = s.scheduler.priority SpinEmu.timerTick := by
  cases b with
  | queueEvent event arg1 arg2 cback ev =>
    obtain ⟨-, rfl⟩ | ⟨-, -, rfl⟩ | ⟨-, -, appended⟩ := Scheduler.queueEvent_cases taken
    · exact ⟨rfl, rfl⟩
    · exact ⟨rfl, rfl⟩
    · obtain ⟨_, _, rfl⟩ := Scheduler.append_eq appended
      exact ⟨rfl, rfl⟩
  | callbackOn | callbackOff =>
    cases taken
    exact ⟨Function.update_of_ne (Ne.symm steady) _ _, Function.update_of_ne (Ne.symm steady) _ _⟩
  | select =>
    cases taken
    exact ⟨rfl, rfl⟩
  | dequeue =>
    obtain ⟨_, _, -, rfl⟩ := Scheduler.dequeue_cases taken
    exact ⟨rfl, rfl⟩

theorem Since.step {u : TimedCore} (registered : s.scheduler.cback SpinEmu.timerTick ≠ none)
    (positive : 0 < (s.scheduler.priority SpinEmu.timerTick).toInt) (since : Since s t)
    (steady : t.Steady a) (taken : t.step a = some u) : Since s u := by
  have after := since.kept.step (enabled_of_steady steady) taken
  obtain ⟨kept, cback, priority, alarms, ticks⟩ := since
  cases a with
  | setTimerTick | stop =>
    cases taken
    exact ⟨after, cback, priority, alarms, ticks⟩
  | expire | rearm =>
    simp only [TimedCore.step] at taken
    split at taken
    · cases taken
      exact ⟨after, cback, priority, alarms, ticks⟩
    · cases taken
  | alarm ev =>
    have alarmed := alarmed_of_step taken
    have ticks' := alarmed.ticks
    rw [cback, priority, if_pos ⟨registered, positive⟩] at ticks'
    refine ⟨after, by rw [alarmed.cback, cback], by rw [alarmed.priority, priority],
      alarms.trans (Nat.le_of_lt (alarmed.alarms ▸ Nat.lt_succ_self _)), ?_⟩
    have more : t.alarms + 1 - s.alarms = (t.alarms - s.alarms) + 1 := by omega
    have last : s.alarms + 1 + (t.alarms - s.alarms) = t.alarms + 1 := by omega
    rw [ticks', ticks, alarmed.alarms, more, List.range'_1_concat, List.map_append, List.append_assoc, last,
      kept.simTime]
    refine congrArg (fun n => _ ++ (_ ++ [QEvent.mk n 0 _])) ?_
    exact (BitVec.ofNat_add _ _).symm
  | work b =>
    simp only [TimedCore.step] at taken
    split at taken
    · cases taken
    · rename_i other
      obtain ⟨v, stepped, rfl⟩ := Option.map_eq_some_iff.mp taken
      obtain ⟨cback', priority'⟩ := registration_work steady stepped
      exact ⟨after, cback'.trans cback, priority'.trans priority, alarms,
        (ticks_work other stepped).trans ticks⟩

/-- In every run the ticks are numbered upwards. From a state with a registered callback on,
as long as its registration stays, each alarm queues the tick of its number, and the callback
is called with these numbers in that order. -/
theorem ticks_numbered (start : Run TimedCore.step Enabled (initial slow heap) s) :
    (∃ ns : List Nat, ns.Pairwise (· < ·) ∧ (∀ n ∈ ns, 1 ≤ n ∧ n ≤ s.alarms) ∧
      s.ticks.map QEvent.arg1 = ns.map (BitVec.ofNat 32)) ∧
    (s.scheduler.cback SpinEmu.timerTick ≠ none →
      0 < (s.scheduler.priority SpinEmu.timerTick).toInt → ∀ t, Run TimedCore.step Steady s t →
        t.ticks = s.ticks ++ (List.range' (s.alarms + 1) (t.alarms - s.alarms)).map
          (tickEvent (s.scheduler.cback SpinEmu.timerTick)) ∧
        t.scheduler.dispatched SpinEmu.timerTick <+: t.ticks) := by
  refine ⟨(run_kept start).numbers, fun registered positive t run => ?_⟩
  have none : s.ticks = s.ticks ++ (List.range' (s.alarms + 1) (s.alarms - s.alarms)).map
      (tickEvent (s.scheduler.cback SpinEmu.timerTick)) := by
    rw [Nat.sub_self, List.range'_zero, List.map_nil, List.append_nil]
  have since : Since s t := run.invariant
    (fun since steady taken => since.step registered positive steady taken)
    ⟨run_kept start, rfl, rfl, Nat.le_refl _, none⟩
  obtain ⟨l, consistent⟩ := since.kept.consistent
  refine ⟨since.ticks, ?_⟩
  rw [ticks, consistent.history]
  exact List.prefix_append _ _

/-- A core whose application has registered a callback. -/
def registered : TimedCore :=
  { initial 1 fun _ => none with
    scheduler := (Scheduler.initial fun _ => none).callbackOn SpinEmu.timerTick (some 7) 1 }

theorem registered_run : Run TimedCore.step Enabled (initial 1 fun _ => none) registered :=
  .tail .refl (show Enabled _ (.work (.callbackOn SpinEmu.timerTick (some 7) 1)) from trivial) rfl

/-- The timer is started, and three alarms come. -/
def threeTicks : List Action :=
  [.setTimerTick 1000, .expire, .alarm 100, .rearm, .expire, .alarm 101, .rearm, .expire, .alarm 102]

theorem threeTicks_run : ∃ t, Run TimedCore.step Steady registered t ∧ t.alarms = 3 ∧
    t.micros ≠ 0 ∧ t.quit = false := by
  obtain ⟨t, run, passes⟩ := exists_checkedRun TimedCore.step
    (fun s a => match a with
      | .alarm ev => (s.scheduler.heap ev).isNone
      | .work _ => false
      | _ => true)
    registered threeTicks (fun t => t.alarms == 3 && (t.micros != 0 && !t.quit)) (by decide +kernel)
  simp only [Bool.and_eq_true, beq_iff_eq, bne_iff_ne, Bool.not_eq_true'] at passes
  refine ⟨t, run.weaken fun s a allowed => ?_, passes⟩
  cases a with
  | alarm ev => exact Option.isNone_iff_eq_none.mp allowed
  | work b => cases allowed
  | _ => trivial

theorem ticks_numbered_three : ∃ t : TimedCore,
    t.ticks = [tickEvent (some 7) 1, tickEvent (some 7) 2, tickEvent (some 7) 3] := by
  obtain ⟨t, run, three, _⟩ := threeTicks_run
  have ticks := ((ticks_numbered registered_run).2 (by decide) (by decide) t run).1
  rw [three] at ticks
  exact ⟨t, ticks⟩

/-- A core with a factor of no time, which no alarm can reach. -/
structure Silent (s : TimedCore) : Prop where
  slowDownTimer : s.slowDownTimer = 0
  itimer : s.itimer = none
  alarmPending : s.alarmPending = false
  alarms : s.alarms = 0
  ticks : s.ticks = []

theorem setitimer_silent (time : BitVec 32) : setitimer (tickMicros time 0) = none := by
  have none : tickMicros time 0 = 0 := BitVec.mul_zero
  rw [none]
  rfl

theorem Silent.step (silent : s.Silent) (taken : s.step a = some t) : t.Silent := by
  obtain ⟨slow, itimer, pending, alarms, ticks⟩ := silent
  cases a with
  | setTimerTick time =>
    cases taken
    exact ⟨slow, slow ▸ setitimer_silent time, pending, alarms, ticks⟩
  | expire =>
    simp only [TimedCore.step, itimer] at taken
    cases taken
  | alarm ev =>
    simp only [TimedCore.step, pending] at taken
    cases taken
  | rearm =>
    simp only [TimedCore.step, slow, setitimer_silent, itimer, ite_self] at taken
    split at taken
    · cases taken
      exact ⟨rfl, rfl, pending, alarms, ticks⟩
    · cases taken
  | stop =>
    cases taken
    exact ⟨slow, itimer, pending, alarms, ticks⟩
  | work b =>
    simp only [TimedCore.step] at taken
    split at taken
    · cases taken
    · rename_i other
      obtain ⟨u, stepped, rfl⟩ := Option.map_eq_some_iff.mp taken
      exact ⟨slow, itimer, pending, alarms, (ticks_work other stepped).trans ticks⟩

/-- The timer goes on until the application ends, if the factor leaves any time between two
ticks; if not it does not run at all. So it never does in an application that was started. -/
theorem timer_going (run : Run TimedCore.step Enabled (initial slow heap) t) :
    (t.micros = 0 → t.itimer = none) ∧
    (t.micros ≠ 0 → t.quit = false → t.itimer.isSome ∨ t.alarmPending ∨ t.handling) ∧
    ∀ l : LaunchingCore, slow = l.started.2.slowDownTimer →
      t.alarms = 0 ∧ t.ticks = [] ∧ t.scheduler.dispatched SpinEmu.timerTick = [] := by
  have kept := run_kept run
  refine ⟨fun none => ?_, kept.lasting, fun l same => ?_⟩
  · by_contra going
    exact kept.going (Option.isSome_iff_ne_none.mpr going) none
  · have silent : t.Silent := run.invariant (fun silent _ taken => silent.step taken)
      ⟨by rw [initial, same, l.started_eq]; rfl, rfl, rfl, rfl, rfl⟩
    obtain ⟨m, consistent⟩ := kept.consistent
    have empty := (consistent.history SpinEmu.timerTick).symm.trans silent.ticks
    exact ⟨silent.alarms, silent.ticks, (List.append_eq_nil_iff.mp empty).1⟩

/-- The application sets a tick of a millisecond, and none comes; with a factor the third
alarm is not the last. -/
theorem timer_going_firstCore : (∃ t : TimedCore, t.timerTick = 1000 ∧ t.alarms = 0) ∧
    ∃ t : TimedCore, t.alarms = 3 ∧ (t.itimer.isSome ∨ t.alarmPending ∨ t.handling) := by
  constructor
  · have run : Run TimedCore.step Enabled (initial 0 fun _ => none)
        { initial 0 fun _ => none with timerTick := 1000 } :=
      .tail .refl (show Enabled _ (.setTimerTick 1000) from trivial) rfl
    have factor : 0 = firstCore.started.2.slowDownTimer := by rw [firstCore.started_eq]; rfl
    exact ⟨_, rfl, ((timer_going run).2.2 firstCore factor).1⟩
  · obtain ⟨t, run, three, some, going⟩ := threeTicks_run
    have whole := registered_run.trans (run.weaken fun _ _ => enabled_of_steady)
    exact ⟨t, three, (timer_going whole).2.1 some going⟩

end TimedCore
end SpinEmu
