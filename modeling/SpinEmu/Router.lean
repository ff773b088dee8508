import SpinEmu.Lib.Program
import SpinEmu.Lib.LinkRouting
import SpinEmu.McQueue
import SpinEmu.Topology

/-! The multicast side of the dispatcher: routing tables, packet queues and the
flush that carries every queued packet over the board. The trace records the
calls of `queue_mc` and `spin_emu_send_mc` in order; the source has no such
variable. -/
namespace SpinEmu
open Lib Lib.Forwarding Lib.Program

/-- An accepted or refused `queue_mc` for a chip, or a `spin_emu_send_mc` on the
socket of a core. -/
abbrev McEvent (π : Type) := Event Nat π Nat

structure Dispatcher (π : Type) where
  spinEmuRoutes : Nat → Nat → SpinEmuRoute
  mcQueue : Nat → Nat → SpinEmuMcQueue π
  mcPending : Bool
  trace : List (McEvent π)

/-- What `cmd_p2pc` leaves in every routing table entry. -/
def initialRoute : SpinEmuRoute := ⟨0xFFFFFFFF, 0, 0⟩

def SpinEmuRoute.matches (r : SpinEmuRoute) (key : BitVec 32) : Bool := r.key == (key &&& r.mask)

/-- The entry that the scan of a routing table stops at. -/
def firstMatch (table : Nat → SpinEmuRoute) (key : BitVec 32) : Option SpinEmuRoute :=
  ((List.range numRoutes).find? fun i => (table i).matches key).map table

theorem firstMatch_eq_none {table : Nat → SpinEmuRoute} {key : BitVec 32} :
    firstMatch table key = none ↔ ∀ i < numRoutes, (table i).matches key = false := by
  simp [firstMatch]

/-- The lowest matching index decides, whatever stands behind it. -/
theorem firstMatch_of_first {table : Nat → SpinEmuRoute} {key : BitVec 32} {i : Nat}
    (hi : i < numRoutes) (here : (table i).matches key = true)
    (before : ∀ k < i, (table k).matches key = false) : firstMatch table key = some (table i) := by
  rw [firstMatch, List.find?_range_eq_some.mpr ⟨here, List.mem_range.mpr hi, ?_⟩, Option.map_some]
  intro k hk
  simp [before k hk]

theorem firstMatch_some {table : Nat → SpinEmuRoute} {key : BitVec 32} {r : SpinEmuRoute}
    (found : firstMatch table key = some r) : r.matches key = true ∧ ∃ i, table i = r := by
  rw [firstMatch, Option.map_eq_some_iff] at found
  obtain ⟨i, hit, same⟩ := found
  have matching := List.find?_some hit
  exact ⟨same ▸ matching, i, same⟩

-- The elaborator must not run the scan over all entries.
attribute [irreducible] firstMatch

theorem initialRoute_matches (key : BitVec 32) : initialRoute.matches key = false := by
  simp [initialRoute, SpinEmuRoute.matches]

namespace Dispatcher
variable {π ρ : Type}

def setQueue (d : Dispatcher π) (chip core : Nat) (q : SpinEmuMcQueue π) : Dispatcher π :=
  { d with mcQueue := Function.update d.mcQueue chip (Function.update (d.mcQueue chip) core q) }

theorem setQueue_mcQueue (d : Dispatcher π) (chip core : Nat) (q : SpinEmuMcQueue π) (c i : Nat) :
    (d.setQueue chip core q).mcQueue c i =
      if (c, i) = (chip, core) then q else d.mcQueue c i :=
  update_table d.mcQueue chip core q c i

def record (d : Dispatcher π) (e : McEvent π) : Dispatcher π := { d with trace := d.trace ++ [e] }

def queueMc (chip core : Nat) (m : π) (d : Dispatcher π) : Except Fault (Dispatcher π) :=
  let q := d.mcQueue chip core
  if q.len ≥ spinEmuMcQueueSize then return d.record (.full chip m)
  else do
    let q ← q.push m
    return { (d.setQueue chip core q).record (.queued chip m) with mcPending := true }

def spinEmuSendMc (chip core : Nat) (m : π) (d : Dispatcher π) : Dispatcher π :=
  d.record (.sent chip core m)

section Routing
variable [McPacket π] (b : Board)

/-- The iteration of `route_mc` for link `j`. -/
def routeLink (chip : Nat) (r : SpinEmuRoute) (m : π) (d : Dispatcher π) (j : Fin numLinks) :
    Except Fault (Dispatcher π) :=
  if !testBit r.route j then return d
  else
    let t := channelTargets b chip j
    if t < 0 then return d
    else d.queueMc t.toNat 0 m

/-- The iteration of `route_mc` for core `j`. -/
def routeCore (chip : Nat) (r : SpinEmuRoute) (m : π) (d : Dispatcher π) (j : Nat) :
    Dispatcher π :=
  if !testBit r.route (j + numLinks) then d else d.spinEmuSendMc chip j m

def routeMc (chip : Nat) (m : π) (d : Dispatcher π) : Except Fault (Dispatcher π) :=
  match firstMatch (d.spinEmuRoutes chip) (McPacket.key m) with
  | none => return d
  | some r => do
    let d ← (List.finRange numLinks).foldlM (routeLink b chip r m) d
    return (List.range numCpus).foldl (routeCore chip r m) d

/-- The body of `route_one_mc_queue`: the front packet is routed before it is
removed. -/
def routeFront (chip : Nat) (d : Dispatcher π) : Except Fault (Dispatcher π) := do
  let d ← routeMc b chip (d.mcQueue chip 0).front d
  let q ← (d.mcQueue chip 0).advance
  return d.setQueue chip 0 q

def routeOneMcQueue (chip : Nat) : Program Fault (Dispatcher π) :=
  .whileDo (fun d => (d.mcQueue chip 0).len != 0) (.act (routeFront b chip))

end Routing

/-- The body of `flush_one_mc_queue`. -/
def sendFront (chip core : Nat) (d : Dispatcher π) : Except Fault (Dispatcher π) := do
  let d := d.spinEmuSendMc chip core (d.mcQueue chip core).front
  let q ← (d.mcQueue chip core).advance
  return d.setQueue chip core q

def flushOneMcQueue (chip core : Nat) : Program Fault (Dispatcher π) :=
  .whileDo (fun d => (d.mcQueue chip core).len != 0) (.act (sendFront chip core))

/-- One pass of the loop in `flush_mc_queues`. -/
def flushPass [McPacket π] (b : Board) : Program Fault (Dispatcher π) :=
  .seq (.act fun d => .ok { d with mcPending := false }) <|
  .seq (.forRange b.numChips fun c => routeOneMcQueue b c) <|
    .forRange b.numChips fun c => .forRange (numCpus - 1) fun i => flushOneMcQueue c (i + 1)

def flushMcQueues [McPacket π] (b : Board) : Program Fault (Dispatcher π) :=
  .whileDo mcPending (flushPass b)

/-- `dispatch_mc`, which `do_dispatch` always calls with core 0. -/
def dispatchMc (chip : Nat) (m : π) (d : Dispatcher π) : Except Fault (Dispatcher π) :=
  d.queueMc chip 0 m

def setRoute (d : Dispatcher π) (chip index : Nat) (entry : SpinEmuRoute) : Dispatcher π :=
  let table := Function.update (d.spinEmuRoutes chip) index entry
  { d with spinEmuRoutes := Function.update d.spinEmuRoutes chip table }

/-- `store_route` on a received index and entry. Past the table its assertion
fails; a negative index, which no caller sends, writes outside the table. -/
def storeRoute (chip : Nat) (index : Int) (entry : SpinEmuRoute) (d : Dispatcher π) :
    Option (Dispatcher π) :=
  if 0 ≤ index ∧ index < numRoutes then some (d.setRoute chip index.toNat entry) else none

theorem storeRoute_ok {chip : Nat} {index : Int} {entry : SpinEmuRoute} {d d' : Dispatcher π}
    (stored : d.storeRoute chip index entry = some d') :
    0 ≤ index ∧ index < numRoutes ∧ d' = d.setRoute chip index.toNat entry := by
  unfold storeRoute at stored
  split at stored
  · rename_i range
    exact ⟨range.1, range.2, (Option.some.inj stored).symm⟩
  · cases stored

theorem setRoute_routes (d : Dispatcher π) (chip index : Nat) (entry : SpinEmuRoute) (c i : Nat) :
    (d.setRoute chip index entry).spinEmuRoutes c i =
      if c = chip ∧ i = index then entry else d.spinEmuRoutes c i := by
  simp only [setRoute, update_table, Prod.mk.injEq]

end Dispatcher

/-- Empty queues and the tables that `cmd_p2pc` leaves. -/
def idleDispatcher : Dispatcher SpinEmuMc where
  spinEmuRoutes _ _ := initialRoute
  mcQueue _ _ := ⟨0, 0, fun _ => ⟨0, 0, 0⟩⟩
  mcPending := false
  trace := []

end SpinEmu
