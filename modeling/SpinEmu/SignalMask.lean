import SpinEmu.Wakeup

/-! The signal mask of the worker thread. `spin1_start` sets it, `set_interrupt_mode`
computes another one from a mode, and the timer's handler interrupts whatever it does not
protect. The handler takes the lock of `evinfo`, as the code that it interrupts may. -/
namespace SpinEmu
open Lib

/-- The signals that can be blocked. -/
inductive Signal where
  | usr1
  | alrm
  | other (n : Nat)
  deriving DecidableEq, Repr

/-- Whether a signal is blocked. -/
abbrev SignalMask : Type := Signal → Bool

/-- The set `blocked` of `spin1_start`. -/
def startMask : SignalMask := fun sig => sig = .usr1 || sig = .alrm

/-- The set `unblocked` of `spin1_start`, which `sigsuspend` waits with. -/
def suspendMask : SignalMask := fun _ => false

/-- The set of `set_interrupt_mode`. -/
def modeMask (mode : BitVec 32) : SignalMask := fun sig =>
  !(mode = 0 && (sig = .usr1 || sig = .alrm))

/-- The loop of `spin1_start` with its callbacks, or a run of the timer's handler with a
callback that it calls. -/
structure Activation where
  mask : SignalMask
  /-- It waits in `sigsuspend`. -/
  suspended : Bool
  /-- The section of `evinfo_mutex` that it is in. -/
  held : Option Scheduler.Action
  /-- The time that the handler has still to queue. -/
  tick : Option (BitVec 32)
  /-- The calls that disable interrupts and have not been undone, the last one first: what
  each has returned, and the mask before it, which the source does not record. -/
  modes : List (BitVec 32 × SignalMask)

/-- The worker with the activations that a handler has interrupted, the last one first, and
the controller. The interrupt mode belongs to the process. -/
structure SignalThreads where
  scheduler : Scheduler
  interruptMode : BitVec 32
  simTime : BitVec 32
  current : Activation
  interrupted : List Activation
  alarmPending : Bool
  /-- The controller's section, and what the disabling calls of its callbacks have returned. -/
  controller : Option Scheduler.Action
  controllerModes : List (BitVec 32)

namespace SignalThreads

/-- Nobody holds `evinfo_mutex`. -/
def free (s : SignalThreads) : Bool :=
  s.controller.isNone && (s.current :: s.interrupted).all (·.held.isNone)

/-- The worker runs code of its loop or of a callback. -/
def running (s : SignalThreads) : Bool :=
  !s.current.suspended && s.current.held.isNone && s.current.tick.isNone

/-- `set_interrupt_mode` in the worker: the old mode and the new state. -/
def setInterruptMode (mode : BitVec 32) (s : SignalThreads) : BitVec 32 × SignalThreads :=
  (s.interruptMode,
    { s with interruptMode := mode, current := { s.current with mask := modeMask mode } })

inductive Action where
  /-- The worker takes the lock, for a step of its loop or a call of the library. -/
  | lock (a : Scheduler.Action)
  /-- The handler takes it in `queue_event`; `ev` is the address that `xmalloc` returns. -/
  | lockTick (ev : Nat)
  | unlock
  | controllerLock (a : Scheduler.Action)
  | controllerUnlock
  /-- `spin1_irq_disable`, `spin1_fiq_disable` or `spin1_int_disable`. -/
  | disable
  /-- `spin1_mode_restore` with the result of the last call that it can undo. -/
  | restore
  /-- The same in a callback that the controller calls directly. -/
  | controllerDisable
  | controllerRestore
  | suspend
  /-- The timer runs out. -/
  | alarm
  /-- The handler starts. -/
  | deliver
  | handlerReturn

def step (s : SignalThreads) : Action → Option SignalThreads
  | .lock a =>
    if s.running && s.free then some { s with current := { s.current with held := some a } }
    else none
  | .lockTick ev =>
    match s.current.tick with
    | none => none
    | some simTime =>
      if s.free then
        let a := .queueEvent timerTick simTime 0 (s.scheduler.cback timerTick) ev
        some { s with current := { s.current with held := some a, tick := none } }
      else none
  | .unlock =>
    match s.current.held with
    | none => none
    | some a => (s.scheduler.step a).map fun scheduler =>
      { s with scheduler, current := { s.current with held := none } }
  | .controllerLock a => if s.free then some { s with controller := some a } else none
  | .controllerUnlock =>
    match s.controller with
    | none => none
    | some a => (s.scheduler.step a).map fun scheduler => { s with scheduler, controller := none }
  | .disable =>
    if s.running then
      let (old, t) := s.setInterruptMode 1
      some { t with current := { t.current with modes := (old, s.current.mask) :: s.current.modes } }
    else none
  | .restore =>
    match s.current.modes with
    | [] => none
    | (sr, _) :: rest =>
      if s.running then
        let (_, t) := s.setInterruptMode sr
        some { t with current := { t.current with modes := rest } }
      else none
  | .controllerDisable =>
    some { s with interruptMode := 1, controllerModes := s.interruptMode :: s.controllerModes }
  | .controllerRestore =>
    match s.controllerModes with
    | [] => none
    | sr :: rest => some { s with interruptMode := sr, controllerModes := rest }
  | .suspend =>
    if s.running && s.interrupted.isEmpty then
      some { s with current := { s.current with suspended := true } }
    else none
  | .alarm => some { s with alarmPending := true }
  | .deliver =>
    let mask := if s.current.suspended then suspendMask else s.current.mask
    if s.alarmPending && !mask .alrm then
      some { s with
        simTime := s.simTime + 1
        alarmPending := false
        current := ⟨fun sig => mask sig || sig = .alrm, false, none, some (s.simTime + 1), []⟩
        interrupted := s.current :: s.interrupted }
    else none
  | .handlerReturn =>
    match s.interrupted with
    | [] => none
    | before :: rest =>
      if s.running then
        some { s with current := { before with suspended := false }, interrupted := rest }
      else none

/-- The worker as it enters the loop of `spin1_start`. -/
def entering (scheduler : Scheduler) (mode : BitVec 32) : SignalThreads where
  scheduler := scheduler
  interruptMode := mode
  simTime := 0
  current := ⟨startMask, false, none, none, []⟩
  interrupted := []
  alarmPending := false
  controller := none
  controllerModes := []

/-- Outside `sigsuspend` the alarm is blocked, and no handler has interrupted a holder of
the lock. -/
structure Shielded (s : SignalThreads) : Prop where
  blocked : s.current.suspended = false → s.current.mask .alrm = true
  unheld : ∀ f ∈ s.interrupted, f.held = none

/-- The mask is again what it was before the disabling call that has been undone. -/
def RestoredTo (s t : SignalThreads) : Prop :=
  ∀ sr mask rest, s.current.modes = (sr, mask) :: rest → t.current.mask = mask

/-- A restore undoes a call that was made inside another one, of the same activation, and
that has not returned zero. -/
def Inner (s : SignalThreads) : Action → Prop
  | .restore => ∀ sr mask rest, s.current.modes = (sr, mask) :: rest → rest ≠ [] ∧ sr ≠ 0
  | _ => True

/-- The calls that disable interrupts, in an activation that began with the mask `entry`,
and the mask after them. All but the first were made with everything blocked. -/
inductive Nested (entry : SignalMask) : List (BitVec 32 × SignalMask) → SignalMask → Prop where
  | none : Nested entry [] entry
  | outer (sr : BitVec 32) : Nested entry [(sr, entry)] (modeMask 1)
  | inner {x rest} (sr : BitVec 32) : Nested entry (x :: rest) (modeMask 1) →
      Nested entry ((sr, modeMask 1) :: x :: rest) (modeMask 1)

/-- The activation has begun with the alarm blocked and other signals open. -/
def Entered (f : Activation) : Prop :=
  ∃ entry : SignalMask, entry .alrm = true ∧ entry (.other 0) = false ∧
    Nested entry f.modes f.mask

/-- Interrupted activations are waiting, so that they hold nothing. -/
structure Sheltered (s : SignalThreads) : Prop where
  current : Entered s.current
  interrupted : ∀ f ∈ s.interrupted, Entered f ∧ f.held = none
  waiting : s.current.suspended = true → s.current.held = none ∧ s.current.tick = none

section Masks
variable {entry mask : SignalMask} {modes rest : List (BitVec 32 × SignalMask)} {sr : BitVec 32}

theorem modeMask_of_ne_zero (on : sr ≠ 0) : modeMask sr = modeMask 1 := by
  funext sig
  simp only [modeMask, decide_eq_false on, Bool.false_and]
  rfl

theorem modeMask_other (sr : BitVec 32) : modeMask sr (.other 0) = true := by
  simp [modeMask]

theorem Nested.alrm (nested : Nested entry modes mask) (blocked : entry .alrm = true) :
    mask .alrm = true := by
  cases nested with
  | none => exact blocked
  | outer | inner => rfl

theorem Nested.push (nested : Nested entry modes mask) (sr : BitVec 32) :
    Nested entry ((sr, mask) :: modes) (modeMask 1) := by
  cases nested with
  | none => exact .outer sr
  | outer old => exact .inner sr (.outer old)
  | inner old below => exact .inner sr (.inner old below)

theorem Nested.pop {now : SignalMask} (nested : Nested entry ((sr, mask) :: rest) now)
    (inner : rest ≠ []) : Nested entry rest (modeMask 1) := by
  cases nested with
  | outer => exact absurd rfl inner
  | inner _ below => exact below

/-- The mask that the last call has found. -/
theorem Nested.found {now : SignalMask} (nested : Nested entry ((sr, mask) :: rest) now) :
    rest = [] ∧ mask = entry ∨ rest ≠ [] ∧ mask = modeMask 1 := by
  cases nested with
  | outer => exact .inl ⟨rfl, rfl⟩
  | inner => exact .inr ⟨List.cons_ne_nil _ _, rfl⟩

end Masks

section Steps
variable {s t : SignalThreads}

theorem entering_sheltered (scheduler : Scheduler) (mode : BitVec 32) :
    (entering scheduler mode).Sheltered := by
  refine ⟨⟨startMask, rfl, rfl, .none⟩, fun f member => ?_, fun _ => ⟨rfl, rfl⟩⟩
  cases member

theorem Sheltered.shielded (sheltered : s.Sheltered) : s.Shielded := by
  obtain ⟨entry, blocked, -, nested⟩ := sheltered.current
  exact ⟨fun _ => nested.alrm blocked, fun f member => (sheltered.interrupted f member).2⟩

theorem running_iff : s.running = true ↔
    s.current.suspended = false ∧ s.current.held = none ∧ s.current.tick = none := by
  simp [running, and_assoc]

/-- An undone call leaves the mask of the mode that it has returned. -/
theorem restore_eq (taken : s.step .restore = some t) : ∃ sr mask rest,
    s.current.modes = (sr, mask) :: rest ∧ s.running = true ∧
      t = { s with
        interruptMode := sr
        current := { s.current with mask := modeMask sr, modes := rest } } := by
  rw [step] at taken
  split at taken
  · cases taken
  · rename_i sr mask rest shape
    split at taken
    · rename_i running
      cases taken
      exact ⟨sr, mask, rest, shape, running, rfl⟩
    · cases taken

/-- A handler starts over the mask that is in force, which leaves the alarm open. -/
theorem deliver_eq (taken : s.step .deliver = some t) : ∃ mask : SignalMask,
    mask = (if s.current.suspended then suspendMask else s.current.mask) ∧ mask .alrm = false ∧
      t = { s with
        simTime := s.simTime + 1
        alarmPending := false
        current := ⟨fun sig => mask sig || sig = .alrm, false, none, some (s.simTime + 1), []⟩
        interrupted := s.current :: s.interrupted } := by
  obtain ⟨mask, inForce⟩ : ∃ mask : SignalMask,
    mask = if s.current.suspended then suspendMask else s.current.mask := ⟨_, rfl⟩
  rw [step] at taken
  simp only [← inForce] at taken
  split at taken
  · rename_i opened
    cases taken
    exact ⟨mask, inForce, by simpa using (Bool.and_eq_true_iff.mp opened).2, rfl⟩
  · cases taken

/-- A restore brings the mask back if and only if it undoes an inner call. -/
theorem restoredTo_iff (sheltered : s.Sheltered) (taken : s.step .restore = some t) :
    s.RestoredTo t ↔ s.Inner .restore := by
  obtain ⟨sr, mask, rest, shape, -, rfl⟩ := restore_eq taken
  obtain ⟨entry, -, unblocked, nested⟩ := sheltered.current
  rw [shape] at nested
  constructor
  · intro restored sr' mask' rest' shape'
    rw [shape] at shape'
    cases shape'
    have same : modeMask sr = mask := restored sr mask rest shape
    rcases nested.found with ⟨-, first⟩ | ⟨inside, full⟩
    · have other := congrFun (same.trans first) (.other 0)
      rw [modeMask_other, unblocked] at other
      cases other
    · refine ⟨inside, fun zero => ?_⟩
      have alarm := congrFun (same.trans full) .alrm
      rw [zero] at alarm
      cases alarm
  · intro inner sr' mask' rest' shape'
    rw [shape] at shape'
    cases shape'
    obtain ⟨inside, on⟩ := inner sr mask rest shape
    rcases nested.found with ⟨first, -⟩ | ⟨-, full⟩
    · exact absurd first inside
    · exact (modeMask_of_ne_zero on).trans full.symm

/-- An inner call that is undone leaves the mask of the one around it. -/
theorem Sheltered.restore (sheltered : s.Sheltered) (inner : s.Inner .restore)
    (taken : s.step .restore = some t) : t.Sheltered := by
  obtain ⟨sr, mask, rest, shape, running, rfl⟩ := restore_eq taken
  obtain ⟨-, idle⟩ := running_iff.mp running
  obtain ⟨inside, on⟩ := inner sr mask rest shape
  obtain ⟨entry, blocked, unblocked, nested⟩ := sheltered.current
  rw [shape] at nested
  refine ⟨⟨entry, blocked, unblocked, ?_⟩, sheltered.interrupted, fun _ => idle⟩
  rw [modeMask_of_ne_zero on]
  exact nested.pop inside

/-- A handler can start only while the worker waits. -/
theorem Sheltered.deliver (sheltered : s.Sheltered) (taken : s.step .deliver = some t) :
    t.Sheltered := by
  obtain ⟨mask, inForce, opened, rfl⟩ := deliver_eq taken
  cases place : s.current.suspended with
  | false =>
    rw [place, if_neg (by decide)] at inForce
    rw [inForce, sheltered.shielded.blocked place] at opened
    cases opened
  | true =>
    rw [place, if_pos rfl] at inForce
    subst inForce
    refine ⟨⟨_, rfl, rfl, .none⟩, fun f member => ?_, fun waiting => by cases waiting⟩
    rcases List.mem_cons.mp member with rfl | earlier
    · exact ⟨sheltered.current, (sheltered.waiting place).1⟩
    · exact sheltered.interrupted f earlier

/-- Without outer restores the steps of all threads keep the alarm away from the lock. -/
theorem step_sheltered {a : Action} (sheltered : s.Sheltered) (inner : s.Inner a)
    (taken : s.step a = some t) : t.Sheltered := by
  cases a with
  | lock a =>
    rw [step] at taken
    split at taken
    · rename_i ready
      obtain ⟨running, -⟩ := Bool.and_eq_true_iff.mp ready
      obtain ⟨awake, -⟩ := running_iff.mp running
      cases taken
      refine ⟨sheltered.current, sheltered.interrupted, fun waiting => ?_⟩
      rw [awake] at waiting
      cases waiting
    · cases taken
  | lockTick ev =>
    rw [step] at taken
    split at taken
    · cases taken
    · rename_i simTime due
      split at taken
      · cases taken
        refine ⟨sheltered.current, sheltered.interrupted, fun waiting => ?_⟩
        rw [(sheltered.waiting waiting).2] at due
        cases due
      · cases taken
  | unlock =>
    rw [step] at taken
    split at taken
    · cases taken
    · obtain ⟨scheduler, -, rfl⟩ := Option.map_eq_some_iff.mp taken
      exact ⟨sheltered.current, sheltered.interrupted, fun waiting =>
        ⟨rfl, (sheltered.waiting waiting).2⟩⟩
  | controllerLock a =>
    rw [step] at taken
    split at taken
    · cases taken
      exact ⟨sheltered.current, sheltered.interrupted, sheltered.waiting⟩
    · cases taken
  | controllerUnlock =>
    rw [step] at taken
    split at taken
    · cases taken
    · obtain ⟨scheduler, -, rfl⟩ := Option.map_eq_some_iff.mp taken
      exact ⟨sheltered.current, sheltered.interrupted, sheltered.waiting⟩
  | disable =>
    rw [step] at taken
    split at taken
    · rename_i running
      obtain ⟨-, idle⟩ := running_iff.mp running
      obtain ⟨entry, blocked, unblocked, nested⟩ := sheltered.current
      cases taken
      exact ⟨⟨entry, blocked, unblocked, nested.push _⟩, sheltered.interrupted, fun _ => idle⟩
    · cases taken
  | restore => exact sheltered.restore inner taken
  | controllerDisable =>
    cases taken
    exact ⟨sheltered.current, sheltered.interrupted, sheltered.waiting⟩
  | controllerRestore =>
    rw [step] at taken
    split at taken
    · cases taken
    · cases taken
      exact ⟨sheltered.current, sheltered.interrupted, sheltered.waiting⟩
  | suspend =>
    rw [step] at taken
    split at taken
    · rename_i ready
      obtain ⟨running, -⟩ := Bool.and_eq_true_iff.mp ready
      obtain ⟨-, idle⟩ := running_iff.mp running
      cases taken
      exact ⟨sheltered.current, sheltered.interrupted, fun _ => idle⟩
    · cases taken
  | alarm =>
    cases taken
    exact ⟨sheltered.current, sheltered.interrupted, sheltered.waiting⟩
  | deliver => exact sheltered.deliver taken
  | handlerReturn =>
    rw [step] at taken
    split at taken
    · cases taken
    · rename_i before rest shape
      split at taken
      · cases taken
        have all := sheltered.interrupted
        rw [shape] at all
        obtain ⟨entered, -⟩ := all before List.mem_cons_self
        exact ⟨entered, fun f member => all f (List.mem_cons_of_mem _ member),
          fun waiting => by cases waiting⟩
      · cases taken

end Steps

section Runs
open Lib.Machine
variable {scheduler : Scheduler} {mode : BitVec 32} {t : SignalThreads}

theorem sheltered_of_run (run : Run step Inner (entering scheduler mode) t) : t.Sheltered :=
  run.invariant (fun sheltered inner taken => step_sheltered sheltered inner taken)
    (entering_sheltered scheduler mode)

/-- Whatever the threads and the handlers do, the sections of the lock come one after the
other. -/
theorem scheduler_run {s : SignalThreads} {ok : SignalThreads → Action → Prop}
    (run : Run step ok s t) : Run Scheduler.step (fun _ _ => True) s.scheduler t.scheduler := by
  induction run with
  | refl => exact .refl
  | @tail t a u _ _ taken ih =>
    cases a with
    | unlock | controllerUnlock =>
      rw [step] at taken
      split at taken
      · cases taken
      · obtain ⟨scheduler, stepped, rfl⟩ := Option.map_eq_some_iff.mp taken
        exact ih.tail trivial stepped
    | restore =>
      obtain ⟨sr, mask, rest, -, -, rfl⟩ := restore_eq taken
      exact ih
    | controllerDisable | alarm =>
      cases taken
      exact ih
    | lock | controllerLock | disable | suspend =>
      rw [step] at taken
      split at taken
      · cases taken
        exact ih
      · cases taken
    | lockTick | handlerReturn =>
      rw [step] at taken
      split at taken
      · cases taken
      · split at taken
        · cases taken
          exact ih
        · cases taken
    | controllerRestore =>
      rw [step] at taken
      split at taken
      · cases taken
      · cases taken
        exact ih
    | deliver =>
      obtain ⟨mask, -, -, rfl⟩ := deliver_eq taken
      exact ih

end Runs

open Lib.Machine in
/-- While every restore undoes an inner call, the alarm is blocked outside `sigsuspend`, no
handler interrupts a holder of the lock, and the masks are restored; the first restore that
does not undo an inner call leaves another mask. -/
theorem alarms_shielded (scheduler : Scheduler) (mode : BitVec 32) (t : SignalThreads)
    (run : Run step Inner (entering scheduler mode) t) :
    t.Shielded ∧ ∀ u, t.step .restore = some u → (t.RestoredTo u ↔ t.Inner .restore) := by
  have sheltered := sheltered_of_run run
  exact ⟨sheltered.shielded, fun u taken => restoredTo_iff sheltered taken⟩

theorem inner_restore {s : SignalThreads} {x y : BitVec 32 × SignalMask}
    {rest : List (BitVec 32 × SignalMask)} (nested : s.current.modes = x :: y :: rest)
    (some : x.1 ≠ 0) : s.Inner .restore := by
  intro sr mask outer modes
  rw [nested] at modes
  cases modes
  exact ⟨List.cons_ne_nil _ _, some⟩

open Lib.Machine in
/-- A callback disables the interrupts twice and undoes the second call. The alarm that comes
while the worker has the lock is handled when it waits. -/
theorem waiting_shielded : ∃ t, Run step Inner (entering (.initial fun _ => none) 0) t ∧
    t.interrupted ≠ [] ∧ t.Shielded := by
  have outer : Run step Inner (entering (.initial fun _ => none) 0) _ :=
    .tail .refl (show Inner _ .disable from trivial) rfl
  have inner := outer.tail (show Inner _ .disable from trivial) rfl
  have restored := inner.tail (inner_restore rfl (by decide)) rfl
  have locked := restored.tail (show Inner _ (.lock .select) from trivial) rfl
  have pending := locked.tail (show Inner _ .alarm from trivial) rfl
  have unlocked := pending.tail (show Inner _ .unlock from trivial) rfl
  have waiting := unlocked.tail (show Inner _ .suspend from trivial) rfl
  have handled := waiting.tail (show Inner _ .deliver from trivial) rfl
  exact ⟨_, handled, List.cons_ne_nil _ _, (alarms_shielded _ _ _ handled).1⟩

open Lib.Machine in
/-- A callback disables the interrupts and restores them; the alarm comes when the loop next
has the lock. -/
theorem holder_interrupted : ∃ t, Run step (fun _ _ => True)
    (entering (.initial fun _ => none) 0) t ∧ ¬ t.Shielded := by
  obtain ⟨t, run, stuck⟩ := exists_run step (fun _ _ => True)
    (entering (.initial fun _ => none) 0) [.disable, .restore, .lock .select, .alarm, .deliver]
    (fun t => t.interrupted.any (·.held.isSome)) (fun _ _ _ => trivial) (by decide +kernel)
  refine ⟨t, run, fun shielded => ?_⟩
  obtain ⟨f, member, holds⟩ := List.any_eq_true.mp stuck
  rw [shielded.unheld f member] at holds
  cases holds

end SignalThreads
end SpinEmu
