import SpinEmu.CoreMemory
import SpinEmu.Requesters
import SpinEmu.CoreStarts

/-! A flood-fill session with the processes of the cores. The dispatcher sends the
blocks to core 1 of every chip and the start command to the cores of the mask, each
over the core's own socket; the sockets are first-in first-out, and nothing orders
one against another. -/
namespace SpinEmu
open Lib.Machine

/-- The write message that a block becomes. -/
def floodWrite (block : SdpMsg) : SdpMsg :=
  ((SdpMsg.setArg1 { block with cmdRc := spinEmuPacketWrite } block.arg3).setArg2
    ((((block.arg2 >>> 8) &&& 255) + 1) * 4)).setArg3 0

/-- A block of at most 256 bytes for the memory that a chip's cores share. -/
structure FloodBlock where
  msg : SdpMsg
  command : ntohs msg.cmdRc = cmdFfd
  short : (floodWrite msg).arg2.toNat ≤ bufSize
  shared : ∀ i < (floodWrite msg).arg2.toNat, isShared (msg.arg3 + BitVec.ofNat 32 i) = true

/-- The base is set, the blocks follow, and the end carries the mask of the cores. -/
structure FloodSession where
  ffs : SdpMsg
  blocks : List FloodBlock
  ffe : SdpMsg
  ffs_command : ntohs ffs.cmdRc = cmdNnp ∧ ffs.arg1 >>> 24 = 6
  ffe_command : ntohs ffe.cmdRc = cmdNnp ∧ ffe.arg1 >>> 24 = 15

def FloodSession.messages (session : FloodSession) : List SdpMsg :=
  session.ffs :: (session.blocks.map FloodBlock.msg ++ [session.ffe])

/-- A write that a core has done to its end, and a start message that it takes up. -/
inductive CoreEvent where
  | wrote (id c : Nat) (msg : SdpMsg)
  | started (id c : Nat) (msg : SdpMsg)

/-- The dispatcher with the messages that it is still to receive and the place that a
flush in progress has reached, the sockets to the cores, and their memory. The log is
not in the source. -/
structure FloodSystem where
  dispatcher : SdpDispatcher
  inbox : List SdpMsg
  flushing : Option Nat
  down : Nat → Nat → List SdpMsg
  dtcm : Nat → Nat → BitVec 32 → Byte
  shared : Nat → BitVec 32 → Byte
  alive : Nat → Nat → Bool
  log : List CoreEvent

/-- The dispatcher receives a message, begins `flush_sdp_queues` or carries it on by
one queue; a core takes a message from its socket. -/
inductive FloodAction where
  | receive
  | beginFlush
  | flushNext
  | take (id c : Nat)

namespace FloodSystem

/-- `read_sdp` for the two messages of a session; the others write no memory and
start nothing. -/
def readSdp (id c : Nat) (msg : SdpMsg) (s : FloodSystem) : FloodSystem :=
  if msg.cmdRc = spinEmuPacketWrite then
    let w := cmdWriteMemory ⟨s.dtcm id c, s.shared id⟩ msg
    { s with
      dtcm := Function.update s.dtcm id (Function.update (s.dtcm id) c w.memory.dtcm)
      shared := Function.update s.shared id w.memory.shared
      alive := Function.update s.alive id (Function.update (s.alive id) c w.survived)
      log := if writeAccepted msg && w.survived then s.log ++ [.wrote id c msg] else s.log }
  else if msg.cmdRc = spinEmuPacketAs then { s with log := s.log ++ [.started id c msg] }
  else s

def step (s : FloodSystem) : FloodAction → Option FloodSystem
  | .receive =>
    match s.flushing, s.inbox with
    | none, msg :: rest =>
      (s.dispatcher.processMessage msg).map fun d => { s with dispatcher := d, inbox := rest }
    | _, _ => none
  | .beginFlush =>
    match s.flushing with
    | none => some { s with flushing := some 0 }
    | some _ => none
  | .flushNext =>
    match s.flushing with
    | none => none
    | some k =>
      if k < s.dispatcher.board.numChips * numCpus then
        let id := k / numCpus
        let c := k % numCpus
        let (msgs, d) := s.dispatcher.flushSdpQueue id c
        some { s with
          dispatcher := d, flushing := some (k + 1)
          down := setAt s.down id c (s.down id c ++ msgs) }
      else some { s with flushing := none }
  | .take id c =>
    match s.down id c with
    | [] => none
    | msg :: rest =>
      if s.alive id c then
        some (FloodSystem.readSdp id c msg { s with down := setAt s.down id c rest })
      else none

/-- No message of the session has been received, and none is under way. -/
structure Starts (session : FloodSession) (s : FloodSystem) : Prop where
  inbox : s.inbox = session.messages
  flushing : s.flushing = none
  queue : ∀ id c, s.dispatcher.sdpQueue id c = []
  down : ∀ id c, s.down id c = []
  alive : ∀ id c, s.alive id c = true
  log : s.log = []

end FloodSystem

/-- The writes that cores of a chip have done, oldest first. -/
def writesOn (id : Nat) (log : List CoreEvent) : List SdpMsg :=
  log.filterMap fun
    | .wrote id' _ msg => if id' = id then some msg else none
    | .started _ _ _ => none

def writes (blocks : List FloodBlock) : List SdpMsg :=
  blocks.map fun block => floodWrite block.msg

/-- When a core takes up a start message, all blocks have been written on its chip. -/
def DataFirst (session : FloodSession) (log : List CoreEvent) : Prop :=
  ∀ (k id c : Nat) (msg : SdpMsg), log[k]? = some (.started id c msg) →
    (writes session.blocks).Sublist (writesOn id (log.take k))

theorem DataFirst.snoc {session : FloodSession} {log : List CoreEvent} {e : CoreEvent}
    (inv : DataFirst session log)
    (last : ∀ id c msg, e = .started id c msg →
      (writes session.blocks).Sublist (writesOn id log)) :
    DataFirst session (log ++ [e]) := by
  intro k id c msg found
  rcases Nat.lt_or_ge k log.length with earlier | later
  · rw [List.getElem?_append_left earlier] at found
    rw [List.take_append_of_le_length earlier.le]
    exact inv k id c msg found
  · rw [List.getElem?_append_right later] at found
    have here : k = log.length := by
      have := (List.getElem?_eq_some_iff.mp found).1
      simp only [List.length_singleton] at this
      omega
    subst here
    rw [Nat.sub_self, List.getElem?_cons_zero, Option.some.injEq] at found
    rw [List.take_left]
    exact last id c msg found

section Messages
variable {d : SdpDispatcher} {session : FloodSession}

theorem floodWrite_fields (block : SdpMsg) :
    (floodWrite block).cmdRc = spinEmuPacketWrite ∧ (floodWrite block).arg1 = block.arg3 ∧
      (floodWrite block).arg2 = (((block.arg2 >>> 8) &&& 255) + 1) * 4 ∧
      (floodWrite block).arg3 = 0 := by
  refine ⟨rfl, ?_, ?_, word_putWord _ _ _⟩
  · refine (word_putWord_of_ne _ _ (.inl (by decide))).trans ?_
    exact (word_putWord_of_ne _ _ (.inl (by decide))).trans (word_putWord _ _ _)
  · exact (word_putWord_of_ne _ _ (.inl (by decide))).trans (word_putWord _ _ _)

theorem FloodBlock.accepted (block : FloodBlock) : writeAccepted (floodWrite block.msg) = true := by
  rw [writeAccepted, (floodWrite_fields block.msg).2.2.2]
  simpa using block.short

theorem processMessage_ffs :
    d.processMessage session.ffs = some { d with floodfill := session.ffs.arg2 } := by
  obtain ⟨type, cmd⟩ := session.ffs_command
  rw [SdpDispatcher.processMessage, type]
  simp only [cmd]
  rfl

theorem processMessage_ffe : d.processMessage session.ffe = some (d.floodAs session.ffe) := by
  obtain ⟨type, cmd⟩ := session.ffe_command
  rw [SdpDispatcher.processMessage, type]
  simp only [cmd]
  rfl

theorem processMessage_block (block : FloodBlock) :
    d.processMessage block.msg = some (d.cmdFloodfill block.msg) := by
  rw [SdpDispatcher.processMessage, block.command]
  rfl

end Messages

namespace FloodSystem
variable {session : FloodSession} {s t : FloodSystem}

/-- What is on its way to a core: on the socket, and behind that in the queue. -/
def pending (s : FloodSystem) (id c : Nat) : List SdpMsg :=
  s.down id c ++ s.dispatcher.sdpQueue id c

section Steps

theorem step_receive (h : s.step .receive = some t) :
    ∃ msg rest d, s.inbox = msg :: rest ∧ s.dispatcher.processMessage msg = some d ∧
      t = { s with dispatcher := d, inbox := rest } := by
  simp only [step] at h
  split at h
  · rename_i msg rest _ inbox
    obtain ⟨d, processed, rfl⟩ := Option.map_eq_some_iff.mp h
    exact ⟨msg, rest, d, inbox, processed, rfl⟩
  · cases h

theorem step_receive_of {msg : SdpMsg} {rest : List SdpMsg} {d : SdpDispatcher}
    (ready : s.flushing = none) (inbox : s.inbox = msg :: rest)
    (processed : s.dispatcher.processMessage msg = some d) :
    s.step .receive = some { s with dispatcher := d, inbox := rest } := by
  simp only [step, ready, inbox, processed, Option.map_some]

theorem step_flushNext_of {k : Nat} (at_k : s.flushing = some k)
    (more : k < s.dispatcher.board.numChips * numCpus) :
    ∃ t, s.step .flushNext = some t ∧ t.flushing = some (k + 1) ∧
      t.dispatcher.sdpQueue (k / numCpus) (k % numCpus) = [] := by
  simp only [step, at_k, if_pos more]
  exact ⟨_, rfl, rfl, by simp [SdpDispatcher.flushSdpQueue]⟩

/-- A step of the flush moves messages along, in their order. -/
structure Moves (s t : FloodSystem) : Prop where
  pending : t.pending = s.pending
  board : t.dispatcher.board = s.dispatcher.board
  inbox : t.inbox = s.inbox
  alive : t.alive = s.alive
  log : t.log = s.log

theorem step_beginFlush (h : s.step .beginFlush = some t) : Moves s t := by
  simp only [step] at h
  split at h
  · cases h
    exact ⟨rfl, rfl, rfl, rfl, rfl⟩
  · cases h

theorem step_flushNext (h : s.step .flushNext = some t) : Moves s t := by
  simp only [step] at h
  split at h
  · cases h
  · rename_i k _
    split at h
    · cases h
      refine ⟨?_, rfl, rfl, rfl, rfl⟩
      funext id c
      simp only [pending, SdpDispatcher.flushSdpQueue, setAt_apply, update_table]
      split
      · rename_i here
        obtain ⟨rfl, rfl⟩ := Prod.mk.inj here
        exact List.append_nil _
      · rfl
    · cases h
      exact ⟨rfl, rfl, rfl, rfl, rfl⟩

theorem step_take {id c : Nat} (h : s.step (.take id c) = some t) :
    ∃ msg rest, s.down id c = msg :: rest ∧ s.alive id c = true ∧
      t = readSdp id c msg { s with down := setAt s.down id c rest } := by
  simp only [step] at h
  split at h
  · cases h
  · rename_i msg rest down
    split at h
    · rename_i alive
      exact ⟨msg, rest, down, alive, (Option.some.inj h).symm⟩
    · cases h

/-- Reading a message moves no other. -/
theorem readSdp_kept (id c : Nat) (msg : SdpMsg) (s : FloodSystem) :
    (readSdp id c msg s).down = s.down ∧ (readSdp id c msg s).dispatcher = s.dispatcher ∧
      (readSdp id c msg s).inbox = s.inbox := by
  unfold readSdp
  split
  · exact ⟨rfl, rfl, rfl⟩
  · split <;> exact ⟨rfl, rfl, rfl⟩

theorem pending_taken {id c : Nat} {msg : SdpMsg} {rest : List SdpMsg}
    (down : s.down id c = msg :: rest) (id' c' : Nat) :
    s.pending id' c' = (if (id', c') = (id, c) then [msg] else []) ++
      (readSdp id c msg { s with down := setAt s.down id c rest }).pending id' c' := by
  obtain ⟨socket, queues, _⟩ := readSdp_kept id c msg { s with down := setAt s.down id c rest }
  simp only [pending, socket, queues, setAt_apply]
  split
  · rename_i here
    obtain ⟨rfl, rfl⟩ := Prod.mk.inj here
    rw [down]
    rfl
  · rfl

/-- An accepted write is logged, unless it has ended the process. -/
theorem readSdp_write (id c : Nat) {msg : SdpMsg} (type : msg.cmdRc = spinEmuPacketWrite)
    (accepted : writeAccepted msg = true) (s : FloodSystem) :
    ((readSdp id c msg s).log = s.log ++ [.wrote id c msg] ∨
        (readSdp id c msg s).log = s.log ∧ (readSdp id c msg s).alive id c = false) ∧
      ∀ id', id' ≠ id → (readSdp id c msg s).alive id' = s.alive id' := by
  simp only [readSdp, if_pos type, accepted, Bool.true_and, Function.update_self]
  refine ⟨?_, fun id' apart => Function.update_of_ne apart _ _⟩
  cases (cmdWriteMemory ⟨s.dtcm id c, s.shared id⟩ msg).survived with
  | true => exact .inl rfl
  | false => exact .inr ⟨rfl, rfl⟩

/-- A write that is logged is in the memory of the chip. -/
theorem readSdp_wrote {id c : Nat} {msg : SdpMsg} (type : msg.cmdRc = spinEmuPacketWrite)
    (byte : msg.arg3 = 0) (logged : (readSdp id c msg s).log ≠ s.log) :
    ∀ k < msg.arg2.toNat, isShared (writeAddress msg + BitVec.ofNat 32 k) = true →
      (readSdp id c msg s).shared id (writeAddress msg + BitVec.ofNat 32 k) =
        msg.payload (k + 12) := by
  intro k hk shared
  simp only [readSdp, type, if_true] at logged ⊢
  split at logged
  · rename_i done
    obtain ⟨accepted, survived⟩ := Bool.and_eq_true_iff.mp done
    simp only [cmdWriteMemory, accepted, byte, if_true, Function.update_self] at survived ⊢
    have loaded := CoreMemory.load_storeBytes_inside msg.arg2.isLt.le (Prod.ext rfl survived) hk
    rw [CoreMemory.load_of_isShared _ shared] at loaded
    exact Option.some.inj loaded
  · exact absurd rfl logged

end Steps

section Order

/-- The dispatcher has received the blocks of `done`, and the end if the inbox is empty. -/
def Received (session : FloodSession) (done : List FloodBlock) (inbox : List SdpMsg) : Prop :=
  (done = [] ∧ inbox = session.messages) ∨
  (∃ todo, session.blocks = done ++ todo ∧ inbox = todo.map FloodBlock.msg ++ [session.ffe]) ∨
  (done = session.blocks ∧ inbox = [])

theorem Received.all {done : List FloodBlock} (received : Received session done []) :
    done = session.blocks := by
  rcases received with ⟨_, inbox⟩ | ⟨todo, _, inbox⟩ | ⟨all, _⟩
  · cases inbox
  · exact absurd inbox.symm (by simp)
  · exact all

/-- What is written on a chip and on its way to core 1 of it: first the writes of the
blocks, and behind them at most start messages. -/
structure Ordered (session : FloodSession) (done : List FloodBlock) (inbox written waiting :
    List SdpMsg) : Prop where
  split : ∃ unwritten starts, written ++ unwritten = writes done ∧
    waiting = unwritten ++ starts ∧ (∀ m ∈ starts, m.cmdRc = spinEmuPacketAs) ∧
      (starts ≠ [] → inbox = [])

/-- While only cores 1 are started, no other core has anything to do. -/
structure Fed (session : FloodSession) (b : Board) (done : List FloodBlock) (s : FloodSystem) :
    Prop where
  board : s.dispatcher.board = b
  received : Received session done s.inbox
  idle : ∀ id c, c ≠ 1 ∨ b.numChips ≤ id → s.pending id c = []
  ordered : ∀ id < b.numChips, s.alive id 1 = true →
    Ordered session done s.inbox (writesOn id s.log) (s.pending id 1)
  first : DataFirst session s.log

variable {b : Board} {done : List FloodBlock}

theorem Fed.moves (fed : Fed session b done s) (moves : Moves s t) : Fed session b done t where
  board := moves.board.trans fed.board
  received := moves.inbox ▸ fed.received
  idle id c away := moves.pending ▸ fed.idle id c away
  ordered id inside alive := by
    rw [moves.pending, moves.inbox, moves.log]
    exact fed.ordered id inside (moves.alive ▸ alive)
  first := moves.log ▸ fed.first

/-- The mask of the session selects no core of a chip of the board but core 1. -/
def OnlyFirst (session : FloodSession) (b : Board) : Prop :=
  ∀ id < b.numChips, ∀ c < numCpus, testBit session.ffe.arg2 c = true → c = 1

/-- While messages are still to come, what waits is writes. -/
theorem Ordered.unended {inbox rest written waiting : List SdpMsg} {msg : SdpMsg}
    (ordered : Ordered session done inbox written waiting) (more : inbox = msg :: rest) :
    written ++ waiting = writes done := by
  obtain ⟨unwritten, starts, whole, rfl, _, ended⟩ := ordered.split
  have none : starts = [] := by
    by_contra some
    rw [more] at ended
    cases ended some
  rw [none, List.append_nil]
  exact whole

theorem Ordered.of_writes {inbox written waiting : List SdpMsg}
    (whole : written ++ waiting = writes done) : Ordered session done inbox written waiting :=
  ⟨waiting, [], whole, (List.append_nil _).symm, nofun, nofun⟩

theorem Fed.receive (only : OnlyFirst session b) (fed : Fed session b done s)
    (h : s.step .receive = some t) : ∃ done', Fed session b done' t := by
  obtain ⟨msg, rest, d, inbox, processed, rfl⟩ := step_receive h
  have received := fed.received
  rw [inbox] at received
  have unended (id : Nat) (inside : id < b.numChips) (alive : s.alive id 1 = true) :=
    (fed.ordered id inside alive).unended inbox
  rcases received with ⟨rfl, same⟩ | ⟨todo, split, same⟩ | ⟨_, none⟩
  · -- the base is set
    obtain ⟨rfl, rfl⟩ := List.cons.inj same
    rw [processMessage_ffs] at processed
    cases processed
    exact ⟨[], fed.board, .inr (.inl ⟨session.blocks, rfl, rfl⟩), fed.idle,
      fun id inside alive => .of_writes (unended id inside alive), fed.first⟩
  · cases todo with
    | nil =>
      -- the end starts the cores of the mask
      obtain ⟨rfl, rfl⟩ := List.cons.inj same
      rw [processMessage_ffe] at processed
      cases processed
      rw [List.append_nil] at split
      let start := SdpMsg.setArg1 { session.ffe with cmdRc := spinEmuPacketAs }
        s.dispatcher.floodfill
      have starts : SdpDispatcher.Starts start _ s.dispatcher (s.dispatcher.floodAs session.ffe) :=
        SdpDispatcher.floodAs_starts
      refine ⟨done, starts.board.trans fed.board, .inr (.inr ⟨split.symm, rfl⟩), ?_, ?_, fed.first⟩
      · intro id c away
        have unselected : (id, c) ∉ SdpDispatcher.startedEverywhere s.dispatcher.board
            session.ffe.arg2 := by
          intro member
          obtain ⟨inside, high, bit⟩ := SdpDispatcher.mem_startedEverywhere.mp member
          rw [fed.board] at inside
          rcases away with other | outside
          · exact other (only id inside c high bit)
          · exact absurd inside (by simpa using outside)
        simp only [pending, starts.queue, if_neg unselected]
        exact fed.idle id c away
      · intro id inside alive
        have whole := unended id inside alive
        simp only [pending, starts.queue]
        split
        · refine ⟨s.pending id 1, [start], whole, (List.append_assoc _ _ _).symm, ?_, fun _ => rfl⟩
          intro m hm
          rw [List.mem_singleton.mp hm]
          rfl
        · exact .of_writes whole
    | cons block todo =>
      -- a block goes to core 1 of every chip
      obtain ⟨rfl, rfl⟩ := List.cons.inj same
      rw [processMessage_block] at processed
      cases processed
      refine ⟨done ++ [block], SdpDispatcher.cmdFloodfill_board.trans fed.board,
        .inr (.inl ⟨todo, by rw [split, List.append_assoc]; rfl, rfl⟩), ?_, ?_, fed.first⟩
      · intro id c away
        have unwritten : ¬ (id < s.dispatcher.board.numChips ∧ c = 1) := by
          rw [fed.board]
          omega
        simp only [pending, SdpDispatcher.cmdFloodfill_queue, if_neg unwritten]
        exact fed.idle id c away
      · intro id inside alive
        have selected : id < s.dispatcher.board.numChips ∧ 1 = 1 := ⟨fed.board ▸ inside, rfl⟩
        have whole := unended id inside alive
        have grown : (s.dispatcher.cmdFloodfill block.msg).sdpQueue id 1 =
            s.dispatcher.sdpQueue id 1 ++ [floodWrite block.msg] :=
          (SdpDispatcher.cmdFloodfill_queue id 1).trans (if_pos selected)
        apply Ordered.of_writes
        simp only [pending, grown]
        rw [writes, List.map_append, ← writes, ← whole, pending, List.append_assoc,
          List.append_assoc]
        rfl
  · cases none

@[simp] theorem writesOn_snoc_wrote (id id' c : Nat) (msg : SdpMsg) (log : List CoreEvent) :
    writesOn id (log ++ [.wrote id' c msg]) =
      writesOn id log ++ if id' = id then [msg] else [] := by
  by_cases same : id' = id <;> simp [writesOn, same]

@[simp] theorem writesOn_snoc_started (id id' c : Nat) (msg : SdpMsg) (log : List CoreEvent) :
    writesOn id (log ++ [.started id' c msg]) = writesOn id log := by
  simp [writesOn]

/-- What is left to show when core 1 of a chip has read a message. -/
theorem Fed.read (fed : Fed session b done s) {id : Nat} {msg : SdpMsg} {rest : List SdpMsg}
    (down : s.down id 1 = msg :: rest)
    (eq : t = readSdp id 1 msg { s with down := setAt s.down id 1 rest })
    (others : ∀ id', id' ≠ id →
      writesOn id' t.log = writesOn id' s.log ∧ t.alive id' = s.alive id')
    (own : t.alive id 1 = true → Ordered session done s.inbox (writesOn id t.log) (t.pending id 1))
    (first : DataFirst session t.log) : Fed session b done t := by
  obtain ⟨_, dispatcher, inbox⟩ := readSdp_kept id 1 msg { s with down := setAt s.down id 1 rest }
  rw [← eq] at dispatcher inbox
  have taken (id' c' : Nat) : s.pending id' c' =
      (if (id', c') = (id, 1) then [msg] else []) ++ t.pending id' c' :=
    eq ▸ pending_taken down id' c'
  refine ⟨dispatcher ▸ fed.board, inbox ▸ fed.received, fun id' c' away => ?_,
    fun id' inside alive => ?_, first⟩
  · exact (List.append_eq_nil_iff.mp ((taken id' c').symm.trans (fed.idle id' c' away))).2
  · by_cases here : id' = id
    · subst here
      exact inbox ▸ own alive
    · obtain ⟨written, living⟩ := others id' here
      have same : s.pending id' 1 = t.pending id' 1 := by
        rw [taken, if_neg fun pair => here (congrArg Prod.fst pair), List.nil_append]
      rw [inbox, written, ← same]
      exact fed.ordered id' inside (living ▸ alive)

theorem Fed.take (fed : Fed session b done s) {id c : Nat} (h : s.step (.take id c) = some t) :
    Fed session b done t := by
  obtain ⟨msg, rest, down, alive, eq⟩ := step_take h
  have busy : s.pending id c ≠ [] := by simp [pending, down]
  have inside : id < b.numChips := by
    by_contra outside
    exact busy (fed.idle id c (.inr (Nat.le_of_not_lt outside)))
  have core : c = 1 := by
    by_contra other
    exact busy (fed.idle id c (.inl other))
  subst core
  obtain ⟨unwritten, starts, whole, waiting, codes, ended⟩ := (fed.ordered id inside alive).split
  have taken := pending_taken down id 1
  rw [if_pos rfl, ← eq, waiting] at taken
  cases unwritten with
  | nil =>
    -- a start message, behind all the writes
    have head : starts = msg :: t.pending id 1 := taken
    have type := codes msg (head ▸ List.mem_cons_self)
    have finished : s.inbox = [] := ended (head ▸ List.cons_ne_nil _ _)
    have received := fed.received
    rw [finished] at received
    have log : t.log = s.log ++ [.started id 1 msg] ∧ t.alive = s.alive := by
      rw [eq, readSdp, if_neg (by rw [type]; decide), if_pos type]
      exact ⟨rfl, rfl⟩
    rw [List.append_nil] at whole
    refine fed.read down eq (fun id' _ => by rw [log.1, log.2]; exact ⟨by simp, rfl⟩)
      (fun _ => ⟨[], t.pending id 1, ?_, rfl, ?_, fun _ => finished⟩) ?_
    · rw [log.1, writesOn_snoc_started, List.append_nil, whole]
    · exact fun m member => codes m (head ▸ List.mem_cons_of_mem _ member)
    · rw [log.1]
      refine fed.first.snoc fun id' c' msg' same => ?_
      cases same
      rw [whole, received.all]
  | cons msg' unwritten =>
    obtain ⟨rfl, later⟩ := List.cons.inj taken
    -- a write of one of the blocks
    have member : msg' ∈ writes done := whole ▸ List.mem_append_right _ List.mem_cons_self
    obtain ⟨block, _, isBlock⟩ := List.mem_map.mp member
    have type : msg'.cmdRc = spinEmuPacketWrite := isBlock ▸ (floodWrite_fields block.msg).1
    have accepted : writeAccepted msg' = true := isBlock ▸ block.accepted
    obtain ⟨outcome, survivors⟩ := eq ▸ readSdp_write id 1 type accepted
      { s with down := setAt s.down id 1 rest }
    rcases outcome with log | ⟨log, dead⟩
    · refine fed.read down eq (fun id' apart => ⟨?_, survivors id' apart⟩)
        (fun _ => ⟨unwritten, starts, ?_, later.symm, codes, ended⟩) ?_
      · rw [log, writesOn_snoc_wrote, if_neg (Ne.symm apart), List.append_nil]
      · rw [log, writesOn_snoc_wrote, if_pos rfl, List.append_assoc]
        exact whole
      · rw [log]
        exact fed.first.snoc fun id' c' m same => by cases same
    · exact fed.read down eq (fun id' apart => ⟨by rw [log], survivors id' apart⟩)
        (fun living => absurd (dead.symm.trans living) (by decide)) (log ▸ fed.first)

/-- Every run keeps the data before the starts, if only cores 1 are started. -/
theorem Fed.run (only : OnlyFirst session b) (fed : Fed session b done s)
    (run : Run step (fun _ _ => True) s t) : ∃ done', Fed session b done' t := by
  refine run.invariant (I := fun s => ∃ done, Fed session b done s) ?_ ⟨done, fed⟩
  intro s a t inv _ h
  obtain ⟨done, fed⟩ := inv
  cases a with
  | receive => exact fed.receive only h
  | beginFlush => exact ⟨done, fed.moves (step_beginFlush h)⟩
  | flushNext => exact ⟨done, fed.moves (step_flushNext h)⟩
  | take id c => exact ⟨done, fed.take h⟩

theorem Starts.fed (start : Starts session s) :
    Fed session s.dispatcher.board [] s where
  board := rfl
  received := .inl ⟨rfl, start.inbox⟩
  idle id c _ := by rw [pending, start.down, start.queue]; rfl
  ordered id _ _ := .of_writes (by rw [pending, start.down, start.queue, start.log]; rfl)
  first := by
    rw [start.log]
    intro k id c msg found
    cases found

end Order

section Early

/-- A run from `s` to `t`. -/
abbrev Leads (s t : FloodSystem) : Prop := Run step (fun _ _ => True) s t

theorem Leads.one {a : FloodAction} (h : s.step a = some t) : Leads s t := .tail .refl trivial h

/-- What the messages of a session leave alone on their way to core `c` of chip 0. -/
structure Calm (c : Nat) (s t : FloodSystem) : Prop where
  board : t.dispatcher.board = s.dispatcher.board
  pending : t.pending 0 c = s.pending 0 c
  alive : t.alive = s.alive
  log : t.log = s.log

theorem Calm.trans {c : Nat} {u : FloodSystem} (first : Calm c s t) (second : Calm c t u) :
    Calm c s u :=
  ⟨second.board.trans first.board, second.pending.trans first.pending,
    second.alive.trans first.alive, second.log.trans first.log⟩

theorem Moves.calm (moves : Moves s t) (c : Nat) : Calm c s t :=
  ⟨moves.board, congrFun (congrFun moves.pending 0) c, moves.alive, moves.log⟩

/-- The dispatcher can receive all blocks before it flushes any. -/
theorem receive_blocks {c : Nat} (other : c ≠ 1) (blocks : List FloodBlock) {rest : List SdpMsg}
    (ready : s.flushing = none) (inbox : s.inbox = blocks.map FloodBlock.msg ++ rest) :
    ∃ t, Leads s t ∧ Calm c s t ∧ t.flushing = none ∧ t.inbox = rest := by
  induction blocks generalizing s with
  | nil => exact ⟨s, .refl, ⟨rfl, rfl, rfl, rfl⟩, ready, inbox⟩
  | cons block blocks ih =>
    let u : FloodSystem := { s with
      dispatcher := s.dispatcher.cmdFloodfill block.msg
      inbox := blocks.map FloodBlock.msg ++ rest }
    have received : s.step .receive = some u :=
      step_receive_of ready inbox (processMessage_block block)
    have calm : Calm c s u := by
      refine ⟨SdpDispatcher.cmdFloodfill_board, ?_, rfl, rfl⟩
      simp only [pending, u, SdpDispatcher.cmdFloodfill_queue]
      rw [if_neg fun selected => other selected.2]
    obtain ⟨t, run, later, idle, left⟩ := ih (s := u) ready rfl
    exact ⟨t, (Leads.one received).trans run, calm.trans later, idle, left⟩

/-- The whole session can be received before a flush. -/
theorem receive_session {c : Nat} (other : c ≠ 1) (high : c < numCpus)
    (chips : s.dispatcher.board.numChips ≠ 0) (selected : testBit session.ffe.arg2 c = true)
    (start : Starts session s) :
    ∃ t start, Leads s t ∧ t.flushing = none ∧ t.dispatcher.board = s.dispatcher.board ∧
      t.pending 0 c = [start] ∧ start.cmdRc = spinEmuPacketAs ∧ t.alive = s.alive ∧ t.log = [] := by
  let u : FloodSystem := { s with
    dispatcher := { s.dispatcher with floodfill := session.ffs.arg2 }
    inbox := session.blocks.map FloodBlock.msg ++ [session.ffe] }
  have first : s.step .receive = some u :=
    step_receive_of start.flushing start.inbox processMessage_ffs
  obtain ⟨v, run, calm, ready, left⟩ :=
    receive_blocks (s := u) other session.blocks start.flushing rfl
  let w : FloodSystem := { v with
    dispatcher := v.dispatcher.floodAs session.ffe
    inbox := [] }
  have last : v.step .receive = some w := step_receive_of ready left processMessage_ffe
  have starts : SdpDispatcher.Starts _ _ v.dispatcher (v.dispatcher.floodAs session.ffe) :=
    SdpDispatcher.floodAs_starts
  have board : v.dispatcher.board = s.dispatcher.board := calm.board
  have member : (0, c) ∈ SdpDispatcher.startedEverywhere v.dispatcher.board session.ffe.arg2 := by
    rw [SdpDispatcher.mem_startedEverywhere, board]
    exact ⟨Nat.pos_of_ne_zero chips, high, selected⟩
  have none : v.pending 0 c = [] := by
    rw [calm.pending, pending, start.down, List.nil_append]
    exact start.queue 0 c
  have one : w.pending 0 c = [SdpMsg.setArg1 { session.ffe with cmdRc := spinEmuPacketAs }
      v.dispatcher.floodfill] := by
    simp only [pending, w, starts.queue, if_pos member]
    rw [← List.append_assoc, ← pending, none, List.nil_append]
  exact ⟨w, _, (Leads.one first).trans (run.trans (Leads.one last)), ready,
    starts.board.trans board, one, rfl, calm.alive, calm.log.trans start.log⟩

/-- The flush comes to core `c` of chip 0 and sends what waits there. -/
theorem flush_to {c k : Nat} (high : c < numCpus) (chips : s.dispatcher.board.numChips ≠ 0)
    (at_k : s.flushing = some k) (before : k ≤ c) :
    ∃ t, Leads s t ∧ Calm c s t ∧ t.dispatcher.sdpQueue 0 c = [] := by
  induction left : c - k generalizing s k with
  | zero =>
    have here : k = c := by omega
    subst here
    have more : k < s.dispatcher.board.numChips * numCpus := by
      simp only [numCpus] at high ⊢
      omega
    obtain ⟨t, h, _, empty⟩ := step_flushNext_of at_k more
    rw [Nat.div_eq_of_lt high, Nat.mod_eq_of_lt high] at empty
    exact ⟨t, Leads.one h, (step_flushNext h).calm k, empty⟩
  | succ n ih =>
    have more : k < s.dispatcher.board.numChips * numCpus := by
      simp only [numCpus] at high ⊢
      omega
    obtain ⟨t, h, at_next, _⟩ := step_flushNext_of at_k more
    have calm := (step_flushNext h).calm c
    obtain ⟨u, run, later, empty⟩ := ih (s := t) (by rwa [calm.board]) at_next (by omega) (by omega)
    exact ⟨u, (Leads.one h).trans run, calm.trans later, empty⟩

/-- A selected core other than core 1 can start before anything is written. -/
theorem starts_early {c : Nat} (other : c ≠ 1) (high : c < numCpus)
    (chips : s.dispatcher.board.numChips ≠ 0) (selected : testBit session.ffe.arg2 c = true)
    (start : Starts session s) : ∃ t msg, Leads s t ∧ t.log = [.started 0 c msg] := by
  obtain ⟨t, msg, received, ready, board, waiting, type, alive, log⟩ :=
    receive_session other high chips selected start
  have begun : t.step .beginFlush = some { t with flushing := some 0 } := by
    simp only [step, ready]
  obtain ⟨u, flushed, calm, empty⟩ := flush_to (s := { t with flushing := some 0 }) high
    (board ▸ chips) rfl (Nat.zero_le c)
  have down : u.down 0 c = [msg] := by
    have same : u.pending 0 c = [msg] := calm.pending.trans waiting
    rwa [pending, empty, List.append_nil] at same
  have living : u.alive 0 c = true := by
    rw [calm.alive]
    exact (congrFun (congrFun alive 0) c).trans (start.alive 0 c)
  have read : u.step (.take 0 c) =
      some (readSdp 0 c msg { u with down := setAt u.down 0 c [] }) := by
    simp only [step, down, living, if_true]
  refine ⟨_, msg, received.trans ((Leads.one begun).trans (flushed.trans (Leads.one read))), ?_⟩
  rw [readSdp, if_neg (by rw [type]; decide), if_pos type]
  exact congrArg (· ++ [CoreEvent.started 0 c msg]) (calm.log.trans log)

end Early

/-- However the dispatcher and the cores take turns, the data comes first. -/
def KeepsDataFirst (session : FloodSession) (s : FloodSystem) : Prop :=
  ∀ t, Run step (fun _ _ => True) s t → DataFirst session t.log

/-- A session keeps the data before the starts in every run if and only if it has no
blocks, or the board no chips, or the mask selects no core but core 1, which writes
the blocks. -/
theorem dataFirst_iff (start : Starts session s) :
    KeepsDataFirst session s ↔
      session.blocks = [] ∨ s.dispatcher.board.numChips = 0 ∨
        ∀ c < numCpus, testBit session.ffe.arg2 c = true → c = 1 := by
  constructor
  · intro all
    by_contra unsafeSession
    simp only [not_or, not_forall] at unsafeSession
    obtain ⟨blocks, chips, c, high, selected, other⟩ := unsafeSession
    obtain ⟨t, msg, run, log⟩ := starts_early other high chips selected start
    have first := all t run 0 0 c msg (by rw [log]; rfl)
    rw [List.take_zero] at first
    exact blocks (List.map_eq_nil_iff.mp (List.sublist_nil.mp first))
  · rintro (none | none | only) t run
    · intro k id c msg _
      rw [none]
      exact List.nil_sublist _
    · obtain ⟨_, fed⟩ := start.fed.run (fun id inside => by omega) run
      exact fed.first
    · obtain ⟨_, fed⟩ := start.fed.run (fun _ _ => only) run
      exact fed.first

end FloodSystem

/-- Four bytes for the beginning of the SDRAM. -/
def sdramBlock : FloodBlock where
  msg := SdpMsg.setArg3 { SdpMsg.cleared with cmdRc := htons cmdFfd } 0x60000000
  command := by decide
  short := by decide
  shared := by decide

def neighbourMessage (cmd : BitVec 32) : SdpMsg :=
  SdpMsg.setArg1 { SdpMsg.cleared with cmdRc := htons cmdNnp } (cmd <<< 24)

/-- A session of one block for the cores of a mask. -/
def sdramSession (mask : BitVec 32) : FloodSession where
  ffs := (neighbourMessage 6).setArg2 0x60000000
  blocks := [sdramBlock]
  ffe := (neighbourMessage 15).setArg2 mask
  ffs_command := by decide
  ffe_command := ⟨ntohs_htons cmdNnp, by
    rw [SdpMsg.arg1, SdpMsg.setArg2, word_putWord_of_ne _ _ (.inl (by decide))]
    decide⟩

/-- A board of one chip before a session. -/
def oneChipBefore (session : FloodSession) : FloodSystem where
  dispatcher := { remembering 0 with board := ⟨1, 1⟩, initialised := true }
  inbox := session.messages
  flushing := none
  down _ _ := []
  dtcm _ _ _ := 0
  shared _ _ := 0
  alive _ _ := true
  log := []

theorem oneChipBefore_starts (session : FloodSession) :
    FloodSystem.Starts session (oneChipBefore session) :=
  ⟨rfl, rfl, fun _ _ => rfl, fun _ _ => rfl, fun _ _ => rfl, rfl⟩

namespace FloodSystem

theorem dataFirst_coreOne : testBit (sdramSession 2).ffe.arg2 1 = true ∧
    KeepsDataFirst (sdramSession 2) (oneChipBefore (sdramSession 2)) :=
  ⟨by decide, (dataFirst_iff (oneChipBefore_starts (sdramSession 2))).mpr (.inr (.inr (by decide)))⟩

/-- Core 2 starts before core 1 has written the block. -/
theorem dataFirst_coreTwo :
    ¬ KeepsDataFirst (sdramSession 4) (oneChipBefore (sdramSession 4)) := by
  intro all
  obtain ⟨t, msg, run, log⟩ : ∃ t msg, Leads (oneChipBefore (sdramSession 4)) t ∧
      t.log = [.started 0 2 msg] :=
    starts_early (by decide) (by decide) (by decide) (by decide)
      (oneChipBefore_starts (sdramSession 4))
  have first := all t run 0 0 2 msg (by rw [log]; rfl)
  rw [List.take_zero] at first
  cases first

end FloodSystem
end SpinEmu
