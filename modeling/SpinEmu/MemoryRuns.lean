import SpinEmu.EmuMain
import SpinEmu.RemoteMemory
import SpinEmu.SdpGrowth

/-! The memory of the cores while hosts and applications use it. The cores handle their
messages at the same time, and the loops of `cmd_write` and `cmd_read` make one access to
the memory in each turn. -/
namespace SpinEmu
open Lib.Machine

/-- A byte of the files that `spin_emu_mmap_core_mem` maps. -/
inductive Location where
  | dtcm (id c : Nat) (a : BitVec 32)
  | shared (id : Nat) (a : BitVec 32)
  deriving DecidableEq

/-- What a core has at an address. -/
def locate (v : Nat × Nat) (a : BitVec 32) : Option Location :=
  if isDtcm a then some (.dtcm v.1 v.2 a) else if isShared a then some (.shared v.1 a) else none

theorem locate_inj {v : Nat × Nat} {a b : BitVec 32} {l : Location} (first : locate v a = some l)
    (second : locate v b = some l) : a = b := by
  unfold locate at first second
  split at first
  · cases first
    split at second
    · cases second
      rfl
    · split at second <;> cases second
  · split at first
    · cases first
      split at second
      · cases second
      · split at second <;> cases second
        rfl
    · cases first

namespace SdpMsg

/-- The bytes of one turn of the loops. -/
def unit (m : SdpMsg) : Nat := if m.arg3 = 0 then 1 else if m.arg3 = 1 then 2 else 4

/-- How many bytes a core copies for the message, in whole turns. -/
def toCopy (m : SdpMsg) : Nat :=
  if (m.cmdRc = spinEmuPacketWrite ∨ m.cmdRc = spinEmuPacketRead) ∧ writeAccepted m = true then
    copiedBytes m
  else 0

end SdpMsg

/-- A message that `read_sdp` is handling, and the bytes that its loop has copied. -/
structure CoreJob where
  msg : SdpMsg
  copied : List Byte

/-- What the loop of `cmd_read` has found in the memory. -/
def CoreJob.source (j : CoreJob) (a : BitVec 32) : Byte :=
  j.copied.getD (a - writeAddress j.msg).toNat 0

/-- The dispatcher, the sockets of the cores, what their controller threads are at and the
mapped files. The two histories are not in the source: the messages queued for each core,
and those it has handled, with the replies. -/
structure MemorySystem where
  dispatcher : SdpDispatcher
  down : Nat × Nat → List SdpMsg
  up : Nat × Nat → List SdpMsg
  job : Nat × Nat → Option CoreJob
  memory : Location → Byte
  arrived : Nat × Nat → List SdpMsg
  answered : Nat × Nat → List (SdpMsg × Option SdpMsg)

/-- A datagram arrives, the queue of a core is flushed, a core takes a message, makes a turn
of a loop, or is done and sends its reply, which a full socket may refuse; a reply is
forwarded; an application changes a byte. -/
inductive MemoryAction where
  | request (stale : Nat → Byte) (g : EtherDatagram)
  | flush (v : Nat × Nat)
  | take (v : Nat × Nat)
  | turn (v : Nat × Nat)
  | finish (v : Nat × Nat) (rawtime : BitVec 32) (refused : Bool)
  | forward (v : Nat × Nat)
  | store (v : Nat × Nat) (a : BitVec 32) (x : Byte)

namespace MemorySystem

/-- The dispatcher goes on, and what it queues is entered in the histories. -/
def note (s : MemorySystem) (d : SdpDispatcher) : MemorySystem :=
  { s with
    dispatcher := d
    arrived := fun v =>
      s.arrived v ++ (d.sdpQueue v.1 v.2).drop (s.dispatcher.sdpQueue v.1 v.2).length }

/-- One byte. Where nothing is mapped the process ends: the core does nothing any more. -/
def copyByte (v : Nat × Nat) (s : MemorySystem) : Option MemorySystem := do
  let j ← s.job v
  let n := j.copied.length
  let l ← locate v (writeAddress j.msg + BitVec.ofNat 32 n)
  if j.msg.toCopy ≤ n then none
  else if j.msg.cmdRc = spinEmuPacketWrite then
    let x := j.msg.payload (n + 12)
    return { s with
      memory := Function.update s.memory l x
      job := Function.update s.job v (some { j with copied := j.copied ++ [x] }) }
  else
    return { s with
      job := Function.update s.job v (some { j with copied := j.copied ++ [s.memory l] }) }

def copyBytes (v : Nat × Nat) : Nat → MemorySystem → Option MemorySystem
  | 0, s => some s
  | n + 1, s => (s.copyByte v).bind (copyBytes v n)

def step (s : MemorySystem) : MemoryAction → Option MemorySystem
  | .request stale g => (s.dispatcher.receiveMsgFromEther stale g).map s.note
  | .flush v =>
    let (msgs, d) := s.dispatcher.flushSdpQueue v.1 v.2
    some { s with dispatcher := d, down := Function.update s.down v (s.down v ++ msgs) }
  | .take v =>
    match s.job v, s.down v with
    | none, m :: rest =>
      some { s with
        down := Function.update s.down v rest
        job := Function.update s.job v (some ⟨m, []⟩) }
    | _, _ => none
  | .turn v => do copyBytes v (← s.job v).msg.unit s
  | .finish v rawtime refused => do
    let j ← s.job v
    let chipID ← spin1GetChipId s.dispatcher.board v.1
    let reply := readSdp j.source rawtime chipID v.2 j.msg
    if j.copied.length = j.msg.toCopy then
      return { s with
        job := Function.update s.job v none
        up := if refused then s.up else Function.update s.up v (s.up v ++ reply.toList)
        answered := Function.update s.answered v (s.answered v ++ [(j.msg, reply)]) }
    else none
  | .forward v =>
    match s.up v with
    | [] => none
    | m :: rest =>
      (s.dispatcher.dispatchSdpOne m).map { s with up := Function.update s.up v rest }.note
  | .store v a x => (locate v a).map fun l => { s with memory := Function.update s.memory l x }

/-- No message is under way yet; the files hold what they held. -/
def start (d : SdpDispatcher) (memory : Location → Byte) : MemorySystem where
  dispatcher := { d with sdpQueue := fun _ _ => [] }
  down _ := []
  up _ := []
  job _ := none
  memory := memory
  arrived _ := []
  answered _ := []

/-- What a step can do. -/
inductive Acts (s : MemorySystem) : MemoryAction → MemorySystem → Prop where
  | request {stale g d} : s.dispatcher.receiveMsgFromEther stale g = some d →
      Acts s (.request stale g) (s.note d)
  | flush {v} : Acts s (.flush v) { s with
      dispatcher := (s.dispatcher.flushSdpQueue v.1 v.2).2
      down := Function.update s.down v (s.down v ++ (s.dispatcher.flushSdpQueue v.1 v.2).1) }
  | take {v m rest} : s.job v = none → s.down v = m :: rest → Acts s (.take v) { s with
      down := Function.update s.down v rest
      job := Function.update s.job v (some ⟨m, []⟩) }
  | turn {v j t} : s.job v = some j → copyBytes v j.msg.unit s = some t → Acts s (.turn v) t
  | finish {v rawtime refused j chipID} : s.job v = some j →
      spin1GetChipId s.dispatcher.board v.1 = some chipID → j.copied.length = j.msg.toCopy →
      Acts s (.finish v rawtime refused) { s with
        job := Function.update s.job v none
        up := if refused then s.up else Function.update s.up v
          (s.up v ++ (readSdp j.source rawtime chipID v.2 j.msg).toList)
        answered := Function.update s.answered v
          (s.answered v ++ [(j.msg, readSdp j.source rawtime chipID v.2 j.msg)]) }
  | forward {v m rest d} : s.up v = m :: rest → s.dispatcher.dispatchSdpOne m = some d →
      Acts s (.forward v) ({ s with up := Function.update s.up v rest }.note d)
  | store {v a x l} : locate v a = some l →
      Acts s (.store v a x) { s with memory := Function.update s.memory l x }

theorem step_acts {s t : MemorySystem} {a : MemoryAction} (step : s.step a = some t) :
    Acts s a t := by
  cases a with
  | request stale g =>
    obtain ⟨d, received, rfl⟩ := Option.map_eq_some_iff.mp step
    exact .request received
  | flush v => exact Option.some.inj step ▸ .flush
  | take v =>
    simp only [MemorySystem.step] at step
    split at step
    · rename_i idle waiting
      exact Option.some.inj step ▸ .take idle waiting
    · cases step
  | turn v =>
    obtain ⟨j, job, copied⟩ := Option.bind_eq_some_iff.mp step
    exact .turn job copied
  | finish v rawtime refused =>
    simp only [MemorySystem.step, Option.bind_eq_bind, Option.bind_eq_some_iff] at step
    obtain ⟨j, job, chipID, chip, step⟩ := step
    split at step
    · rename_i done
      exact Option.some.inj step ▸ .finish job chip done
    · cases step
  | forward v =>
    simp only [MemorySystem.step] at step
    split at step
    · cases step
    · rename_i waiting
      obtain ⟨d, dispatched, rfl⟩ := Option.map_eq_some_iff.mp step
      exact .forward waiting dispatched
  | store v addr x =>
    obtain ⟨l, found, rfl⟩ := Option.map_eq_some_iff.mp step
    exact .store found

end MemorySystem
end SpinEmu
