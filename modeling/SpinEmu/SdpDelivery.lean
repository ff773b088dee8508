import SpinEmu.RemoteMemory
import SpinEmu.Scheduler
import SpinEmu.SdpLists

/-! An SDP message from one core to another: the dispatcher copies it, and the core
that reads it looks at the command field first. -/
namespace SpinEmu
open Lib Lib.Heap

def sdpPacketRx : EventId := 3

/-- The bytes that the loop of `cmd_write` stores, in order. -/
def cmdWriteStores (msg : SdpMsg) : List (BitVec 32 × Byte) :=
  if writeAccepted msg then
    (List.range (copiedBytes msg)).map fun i =>
      (writeAddress msg + BitVec.ofNat 32 i, msg.payload (i + 12))
  else []

/-- The process of a core: its events, its memory, the messages it has read, by their
address, and what it has done on behalf of control messages. -/
structure CoreProcess where
  scheduler : Scheduler
  memory : CoreMemory
  messages : Heap SdpBlock
  written : List (BitVec 32 × Byte)
  replies : List SdpMsg
  started : List SdpMsg

namespace CoreProcess

/-- `read_sdp` for a message that is read into memory at `msg`; `ev` is the address of
the event that it may queue, `chipID` what `spin1_get_chip_id` returns. An access where
nothing is mapped and an assertion that fails end the process. -/
def readSdp (rawtime : BitVec 32) (chipID : Option (BitVec 32)) (core : Nat)
    (node : Node SdpBlock) (msg ev : Nat) (p : CoreProcess) : Option CoreProcess :=
  let holding (m : SdpMsg) :=
    Function.update p.messages msg (some { node with val := { node.val with msg := m } })
  let dport := (node.val.msg.destPort >>> 5).setWidth 32
  let type := node.val.msg.cmdRc
  if type = spinEmuPacketWrite then
    let out := cmdWriteMemory p.memory node.val.msg
    if out.survived then
      some { p with
        memory := out.memory
        messages := holding out.msg
        written := p.written ++ cmdWriteStores node.val.msg }
    else none
  else if type = spinEmuPacketRead then do
    let handled ← cmdReadMapped p.memory node.val.msg
    let reply := replyTo (← chipID) core handled
    some { p with messages := holding reply, replies := p.replies ++ [reply] }
  else if type = spinEmuPacketVer then do
    let chipID ← chipID
    let reply := replyTo chipID core (cmdVersion chipID core rawtime node.val.msg)
    some { p with messages := holding reply, replies := p.replies ++ [reply] }
  else if type = spinEmuPacketAs then
    some { p with messages := holding node.val.msg, started := p.started ++ [node.val.msg] }
  else
    (p.scheduler.queueEvent sdpPacketRx (BitVec.ofNat 32 msg) dport (p.scheduler.cback sdpPacketRx)
      ev).map fun scheduler => { p with scheduler, messages := holding node.val.msg }

/-- The commands that `read_sdp` keeps for itself. -/
def controlCommands : List (BitVec 16) :=
  [spinEmuPacketWrite, spinEmuPacketRead, spinEmuPacketVer, spinEmuPacketAs]

/-- A write that `cmd_write` rejects, or of less than a unit. -/
def StoresNothing (m : SdpMsg) : Prop := writeAccepted m = true → copiedBytes m = 0

/-- The command is not one of the emulator's own, or there is no callback to tell and
`cmd_write` has nothing to do. -/
def PassesOn (m : SdpMsg) (p : CoreProcess) : Prop :=
  m.cmdRc ∉ controlCommands ∨
    p.scheduler.cback sdpPacketRx = none ∧ m.cmdRc = spinEmuPacketWrite ∧ StoresNothing m

/-- Reading the block has stored nothing, answered nothing and started nothing. It has
raised one event for the message at `msg`, queued or called at once, if there is a
callback; the message is the block, its link aside. -/
structure Transparent (block : SdpBlock) (msg : Nat) (p q : CoreProcess) : Prop where
  written : q.written = p.written
  memory : q.memory = p.memory
  replies : q.replies = p.replies
  started : q.started = p.started
  contents : p.scheduler.cback sdpPacketRx ≠ none → ∃ next, q.messages msg = some ⟨next, block⟩
  event : ∃ queued called,
    q.scheduler.appended = Function.update p.scheduler.appended sdpPacketRx
      (p.scheduler.appended sdpPacketRx ++ queued) ∧
    q.scheduler.direct = p.scheduler.direct ++ called ∧
    queued ++ called = if p.scheduler.cback sdpPacketRx = none then [] else
      [⟨BitVec.ofNat 32 msg, (block.msg.destPort >>> 5).setWidth 32, p.scheduler.cback sdpPacketRx⟩]

section Reading
variable {rawtime : BitVec 32} {chipID : Option (BitVec 32)} {core : Nat} {node : Node SdpBlock}
  {msg ev : Nat} {p q : CoreProcess} {l : EventId → List Nat}

/-- `queue_event` records its event once: in the queue, or as a direct call. -/
theorem queueEvent_raises {s : Scheduler} (consistent : s.Consistent l) (fresh : s.heap ev = none)
    (event : EventId) (arg1 arg2 : BitVec 32) (cback : Callback) :
    ∃ t queued called, s.queueEvent event arg1 arg2 cback ev = some t ∧
      t.appended = Function.update s.appended event (s.appended event ++ queued) ∧
      t.direct = s.direct ++ called ∧
      queued ++ called = if s.cback event = none then [] else [⟨arg1, arg2, cback⟩] := by
  rw [Scheduler.queueEvent]
  split
  · exact ⟨s, [], [], rfl, by simp, by simp, rfl⟩
  · split
    · exact ⟨_, [], [⟨arg1, arg2, cback⟩], rfl, by simp, rfl, rfl⟩
    · obtain ⟨t, result, _⟩ : ∃ t, s.append event ⟨arg1, arg2, cback⟩ ev = some t ∧
          t.Consistent (pushed l event ev) ∧ t.worker = s.worker :=
        Scheduler.append_consistent consistent ⟨arg1, arg2, cback⟩ fresh
      obtain ⟨heap, queue, rfl⟩ := Scheduler.append_eq result
      exact ⟨_, [⟨arg1, arg2, cback⟩], [], result, rfl, by simp [Scheduler.withLast], rfl⟩

/-- The stores are those of the loop, one after the other. -/
theorem cmdWriteStores_foldlM (mem : CoreMemory) (m : SdpMsg) :
    (cmdWriteStores m).foldlM (fun mem x => mem.store x.1 x.2) mem =
      if (cmdWriteMemory mem m).survived then some (cmdWriteMemory mem m).memory else none := by
  unfold cmdWriteStores cmdWriteMemory
  by_cases accepted : writeAccepted m = true
  · simp only [accepted, if_true]
    exact CoreMemory.storeBytes_foldlM (copiedBytes m)
  · simp only [Bool.eq_false_iff.mpr accepted, Bool.false_eq_true, if_false, if_true]
    rfl

theorem cmdWriteStores_eq_nil_iff (m : SdpMsg) : cmdWriteStores m = [] ↔ StoresNothing m := by
  unfold cmdWriteStores StoresNothing
  split
  · rename_i accepted
    rw [List.map_eq_nil_iff, List.range_eq_nil]
    exact ⟨fun none _ => none, fun nothing => nothing accepted⟩
  · rename_i rejected
    exact iff_of_true rfl fun accepted => absurd accepted rejected

/-- A write is passed over if there is nothing to store and no one to tell. -/
theorem readSdp_write_transparent (write : node.val.msg.cmdRc = spinEmuPacketWrite) :
    (∃ q, p.readSdp rawtime chipID core node msg ev = some q ∧ Transparent node.val msg p q) ↔
      p.scheduler.cback sdpPacketRx = none ∧ StoresNothing node.val.msg := by
  have stores := cmdWriteStores_foldlM p.memory node.val.msg
  simp only [readSdp, if_pos write]
  constructor
  · rintro ⟨q, taken, same⟩
    split at taken
    · cases taken
      obtain ⟨queued, called, appended, direct, one⟩ := same.event
      have noneQueued : queued = [] := by
        have here := congrFun appended sdpPacketRx
        rw [Function.update_self] at here
        exact List.append_cancel_left (here.symm.trans (List.append_nil _).symm)
      have noneCalled : called = [] :=
        List.append_cancel_left (direct.symm.trans (List.append_nil _).symm)
      have noneStored : cmdWriteStores node.val.msg = [] :=
        List.append_cancel_left (same.written.trans (List.append_nil _).symm)
      refine ⟨?_, (cmdWriteStores_eq_nil_iff _).mp noneStored⟩
      by_contra listening
      rw [noneQueued, noneCalled, if_neg listening] at one
      cases one
    · cases taken
  · rintro ⟨deaf, nothing⟩
    have none := (cmdWriteStores_eq_nil_iff _).mpr nothing
    rw [none] at stores
    split at stores
    · rename_i survived
      refine ⟨_, if_pos survived, ?_, (Option.some.inj stores).symm, rfl, rfl,
        fun listening => absurd deaf listening, [], [], ?_, (List.append_nil _).symm,
        (if_pos deaf).symm⟩
      · simp only [none, List.append_nil]
      · simp only [List.append_nil, Function.update_eq_self]
    · cases stores

/-- Reading is transparent exactly for what the core has no part in. -/
theorem readSdp_transparent (consistent : p.scheduler.Consistent l)
    (fresh : p.scheduler.heap ev = none) :
    (∃ q, p.readSdp rawtime chipID core node msg ev = some q ∧ Transparent node.val msg p q) ↔
      p.PassesOn node.val.msg := by
  have grown {l : List SdpMsg} {m : SdpMsg} : l ++ [m] ≠ l := by simp
  by_cases write : node.val.msg.cmdRc = spinEmuPacketWrite
  · rw [readSdp_write_transparent write, PassesOn]
    have own : node.val.msg.cmdRc ∈ controlCommands := write ▸ List.mem_cons_self
    exact ⟨fun ⟨deaf, nothing⟩ => .inr ⟨deaf, write, nothing⟩,
      fun passes => (passes.resolve_left fun other => other own).imp_right And.right⟩
  have answered (own : node.val.msg.cmdRc ∈ controlCommands) : ¬ p.PassesOn node.val.msg :=
    fun passes => passes.elim (fun other => other own) fun here => write here.2.1
  simp only [readSdp, if_neg write]
  split
  · rename_i type
    refine iff_of_false ?_ (answered (by simp [controlCommands, type]))
    rintro ⟨q, taken, same⟩
    obtain ⟨handled, _, taken⟩ := Option.bind_eq_some_iff.mp taken
    obtain ⟨id, _, taken⟩ := Option.bind_eq_some_iff.mp taken
    cases taken
    exact grown same.replies
  split
  · rename_i type
    refine iff_of_false ?_ (answered (by simp [controlCommands, type]))
    rintro ⟨q, taken, same⟩
    obtain ⟨id, _, taken⟩ := Option.bind_eq_some_iff.mp taken
    cases taken
    exact grown same.replies
  split
  · rename_i type
    refine iff_of_false ?_ (answered (by simp [controlCommands, type]))
    rintro ⟨q, taken, same⟩
    cases taken
    exact grown same.started
  · rename_i notRead notVer notAs
    obtain ⟨t, queued, called, result, appended, direct, one⟩ :=
      queueEvent_raises consistent fresh sdpPacketRx (BitVec.ofNat 32 msg)
        ((node.val.msg.destPort >>> 5).setWidth 32) (p.scheduler.cback sdpPacketRx)
    let read : CoreProcess :=
      { p with scheduler := t, messages := Function.update p.messages msg (some node) }
    have same : Transparent node.val msg p read := ⟨rfl, rfl, rfl, rfl,
      fun _ => ⟨node.next, Function.update_self ..⟩, queued, called, appended, direct, one⟩
    refine iff_of_true ⟨read, by rw [result, Option.map_some], same⟩ (.inl ?_)
    simp only [controlCommands, List.mem_cons, List.not_mem_nil, or_false, not_or]
    exact ⟨write, notRead, notVer, notAs⟩

end Reading
end CoreProcess

namespace SdpLists

section Forwarding
variable {b : Board} {heap : Heap SdpBlock} {s : SdpLists} {front later : List Action}
  {v : Nat × Nat} {a : Nat} {next : Pointer} {block : SdpBlock}

theorem upToFlush_append (front : List Action) {later : List Action} (flushed : .flush ∈ later) :
    ∃ middle, upToFlush (front ++ later) = front ++ middle := by
  induction later using List.reverseRecOn with
  | nil => cases flushed
  | append_singleton later action ih =>
    rw [← List.append_assoc, upToFlush]
    cases action with
    | enqueue how msg node =>
      rw [List.rdropWhile_concat_pos _ _ _ rfl]
      rcases List.mem_append.mp flushed with earlier | last
      · exact ih earlier
      · cases List.mem_singleton.mp last
    | flush =>
      rw [List.rdropWhile_concat_neg _ _ _ (by simp [Action.isEnqueue]), List.append_assoc]
      exact ⟨_, rfl⟩

/-- In any run, a message that was enqueued for a core before a flush is sent to that
core, unchanged and once, behind the messages enqueued before it. -/
theorem Runs.forwarded
    (run : Runs b (initial heap) (front ++ [.enqueue .dispatchSdpOne a ⟨next, block⟩] ++ later) s)
    (found : address b block.msg = some v) (flushed : .flush ∈ later) :
    ∃ before node after, s.sent v = before ++ node :: after ∧ node.val = block ∧
      before.map Node.val = enqueued b front v := by
  obtain ⟨l, faithful⟩ := run.faithful
  obtain ⟨middle, flushedPart⟩ :=
    upToFlush_append (front ++ [.enqueue .dispatchSdpOne a ⟨next, block⟩]) flushed
  have target : Enqueue.dispatchSdpOne.target b block.msg = some v := found
  have inside := target_inside target
  have here : (Action.enqueue .dispatchSdpOne a ⟨next, block⟩).message b v = some block :=
    if_pos target
  have sent : (s.sent v).map Node.val =
      enqueued b front v ++ block :: middle.filterMap (Action.message b v) := by
    rw [faithful.sent v inside, flushedPart, enqueued, List.filterMap_append, List.filterMap_append,
      List.append_assoc, List.filterMap_cons, here]
    rfl
  obtain ⟨before, rest, split, first, others⟩ := List.map_eq_append_iff.mp sent
  obtain ⟨node, after, shape, val, _⟩ := List.map_eq_cons_iff.mp others
  exact ⟨before, node, after, shape ▸ split, val, first⟩

end Forwarding
end SdpLists

open SdpLists CoreProcess Lib.Machine in
/-- A message that a core has sent to an existing core, and that has been flushed,
arrives there as it was sent. The receiving core lives on and treats it as a message,
and as nothing else, if and only if its command is not one of the emulator's own, or it
is a write of nothing that no callback waits for. -/
theorem delivered_transparent_iff (b : Board) (heap : Heap SdpBlock)
    (front later : List SdpLists.Action) (s : SdpLists) (v : Nat × Nat) (a : Nat)
    (next : Pointer) (block : SdpBlock)
    (run : Runs b (initial heap) (front ++ [.enqueue .dispatchSdpOne a ⟨next, block⟩] ++ later) s)
    (found : address b block.msg = some v) (flushed : .flush ∈ later)
    (events : Heap QEvent) (p : CoreProcess)
    (core : Run Scheduler.step Scheduler.Enabled (Scheduler.initial events) p.scheduler)
    (rawtime : BitVec 32) (chipID : Option (BitVec 32)) (id msg ev : Nat)
    (fresh : p.scheduler.heap ev = none) :
    ∃ before node after, s.sent v = before ++ node :: after ∧
      before.map Node.val = enqueued b front v ∧
      ((∃ q, p.readSdp rawtime chipID id node msg ev = some q ∧ Transparent block msg p q) ↔
        p.PassesOn block.msg) := by
  obtain ⟨before, node, after, sent, rfl, first⟩ := run.forwarded found flushed
  obtain ⟨l, consistent⟩ := Scheduler.consistent_of_run core
  exact ⟨before, node, after, sent, first, readSdp_transparent consistent fresh⟩

/-- A core with a callback for messages, before it has read one. -/
def listening : CoreProcess where
  scheduler := (Scheduler.initial fun _ => none).callbackOn sdpPacketRx (some 7) 1
  memory := zeroedMemory
  messages _ := none
  written := []
  replies := []
  started := []

/-- A core without a callback. -/
def deaf : CoreProcess := { listening with scheduler := Scheduler.initial fun _ => none }

namespace SdpLists

theorem exists_sent (block : SdpBlock) (found : address ⟨1, 1⟩ block.msg = some (0, 1)) :
    ∃ s, Runs ⟨1, 1⟩ (initial fun _ => none)
      ([] ++ [.enqueue .dispatchSdpOne 100 ⟨none, block⟩] ++ [.flush]) s := by
  have empty : Faithful ⟨1, 1⟩ [] (initial fun _ => none) fun _ => [] :=
    ⟨queues_empty _, fun _ _ => rfl, fun _ _ => rfl⟩
  have target : Enqueue.dispatchSdpOne.target ⟨1, 1⟩ block.msg = some (0, 1) := found
  obtain ⟨s, enqueued⟩ : ∃ s, Step ⟨1, 1⟩ (initial fun _ => none)
      (.enqueue .dispatchSdpOne 100 ⟨none, block⟩) s := empty.exists_enqueue rfl target
  have run := Runs.snoc .nil enqueued
  obtain ⟨l, faithful⟩ := run.faithful
  obtain ⟨t, flushed⟩ := faithful.exists_flush ⟨1, 1⟩
  exact ⟨t, run.snoc flushed⟩

end SdpLists

/-- A write to a core without a callback, of more bytes than the buffer has. -/
def oversizedWrite : SdpBlock :=
  ⟨0, { SdpMsg.cleared with destPort := 1, cmdRc := spinEmuPacketWrite }.setArg2 257⟩

open SdpLists CoreProcess in
theorem delivered_transparent_toCoreOne :
    (∃ node q, listening.readSdp 0 (some 0) 1 node 200 300 = some q ∧
      Transparent toCoreOne 200 listening q) ∧
    ∃ node q, deaf.readSdp 0 none 1 node 200 300 = some q ∧
      Transparent oversizedWrite 200 deaf q := by
  constructor
  · obtain ⟨s, run⟩ := exists_sent toCoreOne (by decide)
    have ready : Lib.Machine.Run Scheduler.step Scheduler.Enabled
        (Scheduler.initial fun _ => none) listening.scheduler :=
      .tail .refl (show Scheduler.Enabled _ (.callbackOn sdpPacketRx (some 7) 1) from trivial) rfl
    obtain ⟨_, node, _, _, _, transparent⟩ := delivered_transparent_iff ⟨1, 1⟩
      (fun _ => none) [] [.flush] s (0, 1) 100 none toCoreOne run (by decide) (by simp)
      (fun _ => none) listening ready 0 (some 0) 1 200 300 rfl
    exact ⟨node, transparent.mpr (.inl (by decide))⟩
  · obtain ⟨s, run⟩ := exists_sent oversizedWrite (by decide)
    obtain ⟨_, node, _, _, _, transparent⟩ := delivered_transparent_iff ⟨1, 1⟩
      (fun _ => none) [] [.flush] s (0, 1) 100 none oversizedWrite run (by decide) (by simp)
      (fun _ => none) deaf .refl 0 none 1 200 300 rfl
    exact ⟨node, transparent.mpr (.inr ⟨rfl, rfl, fun accepted => absurd accepted (by decide)⟩)⟩

/-- A message whose command happens to be `SPIN_EMU_PACKET_VER`. -/
def lookingLikeVersion : SdpBlock :=
  ⟨0, { SdpMsg.cleared with destPort := 1, cmdRc := spinEmuPacketVer }⟩

open SdpLists CoreProcess in
/-- The core answers it instead of delivering it. -/
theorem lookingLikeVersion_answered : ∃ s node,
    Runs ⟨1, 1⟩ (initial fun _ => none)
      [.enqueue .dispatchSdpOne 100 ⟨none, lookingLikeVersion⟩, .flush] s ∧
    node ∈ s.sent (0, 1) ∧ node.val = lookingLikeVersion ∧
    ∃ q, listening.readSdp 0 (some 0) 1 node 200 300 = some q ∧ q.replies ≠ [] ∧
      ¬ Transparent lookingLikeVersion 200 listening q := by
  have found : address ⟨1, 1⟩ lookingLikeVersion.msg = some (0, 1) := by decide
  obtain ⟨s, run⟩ := exists_sent lookingLikeVersion found
  obtain ⟨before, node, after, sent, same, _⟩ := run.forwarded found (by simp)
  have member : node ∈ s.sent (0, 1) := sent ▸ List.mem_append_right _ List.mem_cons_self
  cases node with
  | mk next val =>
    cases same
    exact ⟨s, _, run, member, rfl, _, rfl, List.cons_ne_nil _ _,
      fun holds => absurd holds.replies (List.cons_ne_nil _ _)⟩

end SpinEmu
