import SpinEmu.Lib.Block
import SpinEmu.Lib.Chain
import SpinEmu.Router

/-! The arrays that `cmd_p2pc` allocates for a board, and which of them it writes.
The blocks that `malloc` returns are not cleared. -/
namespace SpinEmu
open Lib

/-- What the memory of a two-level array held before it was allocated. -/
structure Unwritten (α : Type) where
  pointers : Nat → Block α
  cells : Nat → Nat → α

abbrev Rows (α : Type) : Type := Block (Block α)

structure BoardArrays (F : Type → Type) where
  spinEmuSocketDispatch : F Int
  spinEmuSocketCore : F Int
  spinEmuRoutes : F SpinEmuRoute
  channelTargets : F Int
  mcQueue : F (SpinEmuMcQueue SpinEmuMc)
  spinEmuRunning : F Int
  sdpQueue : F Pointer
  sdpQueueTail : F Pointer
  spinEmuChildPid : F Int

def Unwritten.malloc (mem : Unwritten α) (n width : Nat) : Option (Rows α) :=
  Block.allocate n width mem.pointers mem.cells

namespace BoardArrays

/-- `cmd_p2pc`. The operating system chooses the sockets and the process numbers. The
loop that allocates the rows of all arrays is one loop for each array here. -/
def cmdP2pc (b : Board) (fd : Nat → Nat → Int × Int) (pid : Nat → Nat → Int)
    (mem : BoardArrays Unwritten) : Option (BoardArrays Rows) := do
  let socketDispatch ← mem.spinEmuSocketDispatch.malloc b.numChips numCpus
  let socketCore ← mem.spinEmuSocketCore.malloc b.numChips numCpus
  let routes ← mem.spinEmuRoutes.malloc b.numChips numRoutes
  let targets ← mem.channelTargets.malloc b.numChips numLinks
  let mcQueue ← mem.mcQueue.malloc b.numChips numCpus
  let running ← mem.spinEmuRunning.malloc b.numChips numCpus
  let sdpQueue ← mem.sdpQueue.malloc b.numChips numCpus
  let sdpQueueTail ← mem.sdpQueueTail.malloc b.numChips numCpus
  let childPid ← mem.spinEmuChildPid.malloc b.numChips numCpus
  -- spin_emu_setup_channels
  let socketDispatch ← socketDispatch.fill b.numChips numCpus fun c i => (fd c i).1
  let socketCore ← socketCore.fill b.numChips numCpus fun c i => (fd c i).2
  let routes ← routes.fill b.numChips numRoutes fun _ _ => initialRoute
  let targets ← targets.fill b.numChips numLinks (SpinEmu.channelTargets b)
  -- spin_emu_spawn_cores
  let childPid ← childPid.fill b.numChips numCpus pid
  return {
    spinEmuSocketDispatch := socketDispatch
    spinEmuSocketCore := socketCore
    spinEmuRoutes := routes
    channelTargets := targets
    mcQueue
    spinEmuRunning := running
    sdpQueue
    sdpQueueTail
    spinEmuChildPid := childPid }

/-- The state that the handling of the first message relies on. -/
structure Initialised (b : Board) (a : BoardArrays Rows) : Prop where
  mcQueue : ∀ c < b.numChips, ∀ i < numCpus,
    ∃ q, a.mcQueue.read₂ c i = some q ∧ q.pos = 0 ∧ q.len = 0
  sdpQueue : ∀ c < b.numChips, ∀ i < numCpus, a.sdpQueue.read₂ c i = some none
  sdpQueueTail : ∀ c < b.numChips, ∀ i < numCpus, a.sdpQueueTail.read₂ c i = some none
  spinEmuRunning : ∀ c < b.numChips, ∀ i < numCpus, a.spinEmuRunning.read₂ c i = some 0
  spinEmuRoutes : ∀ c < b.numChips, ∀ i < numRoutes,
    ∃ r, a.spinEmuRoutes.read₂ c i = some r ∧ ∀ key, r.matches key = false

/-- The blocks happen to hold zeros where they are not written. -/
structure Zeroed (b : Board) (mem : BoardArrays Unwritten) : Prop where
  mcQueue : ∀ c < b.numChips, ∀ i < numCpus,
    (mem.mcQueue.cells c i).pos = 0 ∧ (mem.mcQueue.cells c i).len = 0
  sdpQueue : ∀ c < b.numChips, ∀ i < numCpus, mem.sdpQueue.cells c i = none
  sdpQueueTail : ∀ c < b.numChips, ∀ i < numCpus, mem.sdpQueueTail.cells c i = none
  spinEmuRunning : ∀ c < b.numChips, ∀ i < numCpus, mem.spinEmuRunning.cells c i = 0

/-- An array of the board with the given contents. -/
def Holds (n width : Nat) (a : Rows α) (f : Nat → Nat → α) : Prop :=
  ∀ c < n, ∀ i < width, a.read₂ c i = some (f c i)

/-- What every array holds after the setup. -/
structure Prepared (b : Board) (fd : Nat → Nat → Int × Int) (pid : Nat → Nat → Int)
    (mem : BoardArrays Unwritten) (a : BoardArrays Rows) : Prop where
  spinEmuSocketDispatch :
    Holds b.numChips numCpus a.spinEmuSocketDispatch fun c i => (fd c i).1
  spinEmuSocketCore : Holds b.numChips numCpus a.spinEmuSocketCore fun c i => (fd c i).2
  spinEmuRoutes : Holds b.numChips numRoutes a.spinEmuRoutes fun _ _ => initialRoute
  channelTargets : Holds b.numChips numLinks a.channelTargets (SpinEmu.channelTargets b)
  mcQueue : Holds b.numChips numCpus a.mcQueue mem.mcQueue.cells
  spinEmuRunning : Holds b.numChips numCpus a.spinEmuRunning mem.spinEmuRunning.cells
  sdpQueue : Holds b.numChips numCpus a.sdpQueue mem.sdpQueue.cells
  sdpQueueTail : Holds b.numChips numCpus a.sdpQueueTail mem.sdpQueueTail.cells
  spinEmuChildPid : Holds b.numChips numCpus a.spinEmuChildPid pid

section Setup
variable {n width : Nat} {b : Board} {fd : Nat → Nat → Int × Int} {pid : Nat → Nat → Int}
  {mem : BoardArrays Unwritten} {a : BoardArrays Rows}

theorem malloc_holds (n width : Nat) (mem : Unwritten α) : ∃ a, mem.malloc n width = some a ∧
    Block.Shaped n width a ∧ Holds n width a mem.cells := by
  obtain ⟨a, result, shaped, cells⟩ := Block.allocate_spec mem.pointers mem.cells
  refine ⟨a, result, shaped, fun c hc i hi => ?_⟩
  rw [shaped.read₂ hc hi, cells c hc]

theorem fill_holds {a : Rows α} (shaped : Block.Shaped n width a) (f : Nat → Nat → α) :
    ∃ a', a.fill n width f = some a' ∧ Holds n width a' f := by
  obtain ⟨a', result, shaped, cells⟩ := Block.fill_spec f shaped
  refine ⟨a', result, fun c hc i hi => ?_⟩
  rw [shaped.read₂ hc hi, cells c hc i hi]

/-- The setup goes through on every board, and leaves the queues and the running
flags as `malloc` returned them. -/
theorem cmdP2pc_prepared (b : Board) (fd : Nat → Nat → Int × Int) (pid : Nat → Nat → Int)
    (mem : BoardArrays Unwritten) :
    ∃ a, cmdP2pc b fd pid mem = some a ∧ Prepared b fd pid mem a := by
  obtain ⟨dispatch, dispatchRows, dispatchShape, _⟩ :=
    malloc_holds b.numChips numCpus mem.spinEmuSocketDispatch
  obtain ⟨core, coreRows, coreShape, _⟩ :=
    malloc_holds b.numChips numCpus mem.spinEmuSocketCore
  obtain ⟨routes, routesRows, routesShape, _⟩ :=
    malloc_holds b.numChips numRoutes mem.spinEmuRoutes
  obtain ⟨targets, targetsRows, targetsShape, _⟩ :=
    malloc_holds b.numChips numLinks mem.channelTargets
  obtain ⟨mcQueue, mcQueueRows, _, mcQueueHolds⟩ :=
    malloc_holds b.numChips numCpus mem.mcQueue
  obtain ⟨running, runningRows, _, runningHolds⟩ :=
    malloc_holds b.numChips numCpus mem.spinEmuRunning
  obtain ⟨sdpQueue, sdpQueueRows, _, sdpQueueHolds⟩ :=
    malloc_holds b.numChips numCpus mem.sdpQueue
  obtain ⟨sdpTail, sdpTailRows, _, sdpTailHolds⟩ :=
    malloc_holds b.numChips numCpus mem.sdpQueueTail
  obtain ⟨child, childRows, childShape, _⟩ :=
    malloc_holds b.numChips numCpus mem.spinEmuChildPid
  obtain ⟨dispatch', dispatchFilled, dispatchHolds⟩ :=
    fill_holds dispatchShape (fun c i => (fd c i).1)
  obtain ⟨core', coreFilled, coreHolds⟩ :=
    fill_holds coreShape (fun c i => (fd c i).2)
  obtain ⟨routes', routesFilled, routesHolds⟩ :=
    fill_holds routesShape (fun _ _ => initialRoute)
  obtain ⟨targets', targetsFilled, targetsHolds⟩ :=
    fill_holds targetsShape (SpinEmu.channelTargets b)
  obtain ⟨child', childFilled, childHolds⟩ :=
    fill_holds childShape pid
  refine ⟨⟨dispatch', core', routes', targets', mcQueue, running, sdpQueue, sdpTail, child'⟩, ?_,
    dispatchHolds, coreHolds, routesHolds, targetsHolds, mcQueueHolds, runningHolds,
    sdpQueueHolds, sdpTailHolds, childHolds⟩
  simp only [cmdP2pc, dispatchRows, coreRows, routesRows, targetsRows, mcQueueRows, runningRows,
    sdpQueueRows, sdpTailRows, childRows, dispatchFilled, coreFilled, routesFilled, targetsFilled,
    childFilled, Option.bind_eq_bind, Option.bind_some, Option.pure_def]

theorem Holds.forall_eq_some {a : Rows α} {f : Nat → Nat → α} (holds : Holds n width a f) (x : α) :
    (∀ c < n, ∀ i < width, a.read₂ c i = some x) ↔ ∀ c < n, ∀ i < width, f c i = x := by
  constructor
  · intro all c hc i hi
    exact Option.some.inj ((holds c hc i hi).symm.trans (all c hc i hi))
  · intro all c hc i hi
    rw [holds c hc i hi, all c hc i hi]

theorem Prepared.initialised_iff (prepared : Prepared b fd pid mem a) :
    a.Initialised b ↔ mem.Zeroed b := by
  constructor
  · intro all
    refine ⟨fun c hc i hi => ?_, (prepared.sdpQueue.forall_eq_some none).mp all.sdpQueue,
      (prepared.sdpQueueTail.forall_eq_some none).mp all.sdpQueueTail,
      (prepared.spinEmuRunning.forall_eq_some 0).mp all.spinEmuRunning⟩
    obtain ⟨q, found, pos, len⟩ := all.mcQueue c hc i hi
    rw [prepared.mcQueue c hc i hi] at found
    cases found
    exact ⟨pos, len⟩
  · intro zero
    refine ⟨fun c hc i hi => ⟨_, prepared.mcQueue c hc i hi, zero.mcQueue c hc i hi⟩,
      (prepared.sdpQueue.forall_eq_some none).mpr zero.sdpQueue,
      (prepared.sdpQueueTail.forall_eq_some none).mpr zero.sdpQueueTail,
      (prepared.spinEmuRunning.forall_eq_some 0).mpr zero.spinEmuRunning,
      fun c hc i hi => ⟨_, prepared.spinEmuRoutes c hc i hi, initialRoute_matches⟩⟩

/-- The invariant that the setup is to establish is the one that the drain loops
need: each queue is a valid buffer with nothing in it. -/
theorem Initialised.mcQueue_empty (ready : a.Initialised b) {c i : Nat} (hc : c < b.numChips)
    (hi : i < numCpus) : ∃ q, a.mcQueue.read₂ c i = some q ∧ q.Valid ∧ q.contents = [] := by
  obtain ⟨q, found, pos, len⟩ := ready.mcQueue c hc i hi
  have bound : (0 : Int) ≤ intMax ∧ 0 ≤ spinEmuMcQueueSize := by decide
  have valid : q.Valid := ⟨by omega, by omega, by omega, by omega⟩
  exact ⟨q, found, valid, (SpinEmuMcQueue.contents_eq_nil valid).mpr len⟩

end Setup

/-- The setup of a board establishes the dispatcher's invariant if and only if the
memory it gets for the queues, for their tails and for the running flags is
already zero. -/
theorem cmdP2pc_initialised_iff (b : Board) (fd : Nat → Nat → Int × Int) (pid : Nat → Nat → Int)
    (mem : BoardArrays Unwritten) :
    ∃ a, cmdP2pc b fd pid mem = some a ∧ (a.Initialised b ↔ mem.Zeroed b) := by
  obtain ⟨a, result, prepared⟩ := cmdP2pc_prepared b fd pid mem
  exact ⟨a, result, prepared.initialised_iff⟩

/-- Memory whose cells hold a value each, and pointers to nothing. -/
def usedMemory : BoardArrays Unwritten where
  spinEmuSocketDispatch := ⟨fun _ => ⟨0, fun _ => 0⟩, fun _ _ => 1⟩
  spinEmuSocketCore := ⟨fun _ => ⟨0, fun _ => 0⟩, fun _ _ => 1⟩
  spinEmuRoutes := ⟨fun _ => ⟨0, fun _ => initialRoute⟩, fun _ _ => ⟨1, 1, 1⟩⟩
  channelTargets := ⟨fun _ => ⟨0, fun _ => 0⟩, fun _ _ => 1⟩
  mcQueue :=
    ⟨fun _ => ⟨0, fun _ => ⟨0, 0, fun _ => ⟨0, 0, 0⟩⟩⟩, fun _ _ => ⟨1, 1, fun _ => ⟨1, 1, 1⟩⟩⟩
  spinEmuRunning := ⟨fun _ => ⟨0, fun _ => 0⟩, fun _ _ => 1⟩
  sdpQueue := ⟨fun _ => ⟨0, fun _ => none⟩, fun _ _ => some 1⟩
  sdpQueueTail := ⟨fun _ => ⟨0, fun _ => none⟩, fun _ _ => some 1⟩
  spinEmuChildPid := ⟨fun _ => ⟨0, fun _ => 0⟩, fun _ _ => 1⟩

/-- On a board with one chip, the first queue starts with one packet in it. -/
theorem usedMemory_not_initialised :
    ∃ a : BoardArrays Rows,
      cmdP2pc ⟨1, 1⟩ (fun _ _ => (3, 4)) (fun _ _ => 100) usedMemory = some a ∧
        ¬ a.Initialised ⟨1, 1⟩ := by
  obtain ⟨a, result, prepared⟩ :=
    cmdP2pc_prepared ⟨1, 1⟩ (fun _ _ => (3, 4)) (fun _ _ => 100) usedMemory
  refine ⟨a, result, fun ready => ?_⟩
  obtain ⟨q, found, _, len⟩ := ready.mcQueue 0 (by decide) 0 (by decide)
  rw [prepared.mcQueue 0 (by decide) 0 (by decide)] at found
  cases found
  cases len

end BoardArrays
end SpinEmu
