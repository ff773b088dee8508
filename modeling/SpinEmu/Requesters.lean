import SpinEmu.EarlyAck
import SpinEmu.SdpCore
import SpinEmu.Lib.Machine
import Mathlib.Data.List.GetD

/-! VER and READ requests of many clients. The dispatcher remembers one requester;
the cores answer in any order. -/
namespace SpinEmu
open Lib.Machine

/-- The dispatcher and the datagrams on the sockets of the cores. -/
structure SdpSystem where
  dispatcher : SdpDispatcher
  down : Nat → Nat → List SdpMsg
  up : Nat → Nat → List SdpMsg

/-- A datagram arrives, the queue of a core is flushed to it, a core reads a
message with its memory and clock as given, a reply of a core is forwarded. -/
inductive SdpAction where
  | request (stale : Nat → Byte) (g : EtherDatagram)
  | flush (id c : Nat)
  | read (id c : Nat) (mem : BitVec 32 → Byte) (rawtime : BitVec 32)
  | forward (id c : Nat)

/-- Replaces the list of one socket or queue. -/
def setAt {α : Type} (lists : Nat → Nat → List α) (id c : Nat) (l : List α) : Nat → Nat → List α :=
  Function.update lists id (Function.update (lists id) c l)

theorem setAt_apply {α : Type} (lists : Nat → Nat → List α) (id c : Nat) (l : List α)
    (id' c' : Nat) : setAt lists id c l id' c' = if (id', c') = (id, c) then l else lists id' c' :=
  update_table lists id c l id' c'

/-- What holds of all members before and of those of the new list holds of all after. -/
theorem forall_setAt {α : Type} {lists : Nat → Nat → List α} {id c : Nat} {l : List α}
    {P : α → Prop} (here : ∀ a ∈ l, P a) (there : ∀ id' c', ∀ a ∈ lists id' c', P a) :
    ∀ id' c', ∀ a ∈ setAt lists id c l id' c', P a := by
  intro id' c'
  rw [setAt_apply]
  split
  · exact here
  · exact there id' c'

namespace SdpSystem

def step (s : SdpSystem) : SdpAction → Option SdpSystem
  | .request stale g => do
    let d ← s.dispatcher.receiveMsgFromEther stale g
    return { s with dispatcher := d }
  | .flush id c =>
    let (msgs, d) := s.dispatcher.flushSdpQueue id c
    some { s with dispatcher := d, down := setAt s.down id c (s.down id c ++ msgs) }
  | .read id c mem rawtime =>
    match s.down id c with
    | [] => none
    | msg :: rest => do
      let chipID ← spin1GetChipId s.dispatcher.board id
      let sent := (readSdp mem rawtime chipID c msg).toList
      return { s with down := setAt s.down id c rest, up := setAt s.up id c (s.up id c ++ sent) }
  | .forward id c =>
    match s.up id c with
    | [] => none
    | msg :: rest => do
      let d ← s.dispatcher.dispatchSdpOne msg
      return { s with dispatcher := d, up := setAt s.up id c rest }

/-- No message is under way yet; any sender may be remembered. -/
def start (d : SdpDispatcher) : SdpSystem where
  dispatcher := { d with sdpQueue := fun _ _ => [], ether := [] }
  down _ _ := []
  up _ _ := []

end SdpSystem

/-- A VER or READ request with a whole header, a tag past the table and source
port 255. -/
structure IsRequest (g : EtherDatagram) : Prop where
  header : 14 ≤ g.bytes.length
  tag : tagTableSize ≤ (g.bytes.getD 3 0).toNat
  srcePort : g.bytes.getD 5 0 = portEth
  command : g.commandBytes = (0, 0) ∨ g.commandBytes = (0, 2)

instance (g : EtherDatagram) : Decidable (IsRequest g) :=
  decidable_of_iff (14 ≤ g.bytes.length ∧ tagTableSize ≤ (g.bytes.getD 3 0).toNat ∧
    g.bytes.getD 5 0 = portEth ∧ (g.commandBytes = (0, 0) ∨ g.commandBytes = (0, 2)))
    ⟨fun ⟨a, b, c, d⟩ => ⟨a, b, c, d⟩, fun ⟨a, b, c, d⟩ => ⟨a, b, c, d⟩⟩

/-- The sequence number that a datagram carries. -/
def EtherDatagram.seq (g : EtherDatagram) : BitVec 16 := half (g.bytes.getD · 0) 12

def EtherDatagram.requester (g : EtherDatagram) : Requester := ⟨g.ip, g.port, g.seq⟩

/-- A sent datagram goes back to the client of its request, with the sequence
number of the request. -/
def Answers (e : EtherDatagram × Requester) : Prop := e.1.requester = e.2

instance (e : EtherDatagram × Requester) : Decidable (Answers e) :=
  inferInstanceAs (Decidable (_ = _))

def SdpDispatcher.sender (s : SdpDispatcher) : Requester :=
  ⟨s.sendersip, s.sendersport, s.senderseq⟩

namespace SdpSystem

/-- The message stands in a queue or on a socket, so its answer is still to come. -/
def Outstanding (s : SdpSystem) (m : SdpMsg) : Prop :=
  ∃ id c, m ∈ s.dispatcher.sdpQueue id c ∨ m ∈ s.down id c ∨ m ∈ s.up id c

/-- All datagrams from the Ethernet socket are requests. -/
def Requests (_ : SdpSystem) : SdpAction → Prop
  | .request _ g => IsRequest g
  | _ => True

/-- A VER request comes while every outstanding request is of the same client and
number; a READ request, which leaves the remembered sender alone, comes while that
is its own. -/
def Apart (s : SdpSystem) : SdpAction → Prop
  | .request _ g => IsRequest g ∧
    (g.commandBytes = (0, 0) → ∀ m, s.Outstanding m → m.request = g.requester) ∧
    (g.commandBytes = (0, 2) → s.dispatcher.sender = g.requester)
  | _ => True

/-- A request on its way to its core. -/
structure Waiting (who : Requester) (m : SdpMsg) : Prop where
  request : m.request = who
  tag : tagTableSize ≤ m.tag.toNat
  srcePort : m.srcePort = portEth

/-- An answer on its way to the dispatcher. -/
structure Replying (who : Requester) (m : SdpMsg) : Prop where
  request : m.request = who
  tag : tagTableSize ≤ m.tag.toNat
  destPort : m.destPort = portEth
  header : 12 ≤ m.length.toNat

/-- Whatever is outstanding belongs to the remembered sender. -/
structure Settled (s : SdpSystem) : Prop where
  replies : ∀ e ∈ s.dispatcher.ether, Answers e
  queued : ∀ id c, ∀ m ∈ s.dispatcher.sdpQueue id c, Waiting s.dispatcher.sender m
  down : ∀ id c, ∀ m ∈ s.down id c, Waiting s.dispatcher.sender m
  up : ∀ id c, ∀ m ∈ s.up id c, Replying s.dispatcher.sender m

end SdpSystem

section Steps
variable {d d' : SdpDispatcher} {msg : SdpMsg} {g : EtherDatagram} {stale : Nat → Byte}

theorem queueSdp_some (queued : d.queueSdp msg = some d') :
    ∃ id c, d' = { d with sdpQueue := setAt d.sdpQueue id c (d.sdpQueue id c ++ [msg]) } := by
  simp only [SdpDispatcher.queueSdp, Option.bind_eq_bind, Option.bind_eq_some_iff] at queued
  obtain ⟨id, _, placed⟩ := queued
  split at placed
  · exact ⟨_, _, (Option.some.inj placed).symm⟩
  · cases placed

/-- A forwarded reply goes to the remembered sender with the remembered number. -/
theorem dispatchSdpOne_reply {who : Requester} (mine : d.sender = who)
    (reply : SdpSystem.Replying who msg) (sent : d.dispatchSdpOne msg = some d') :
    ∃ g, Answers (g, who) ∧ d' = { d with ether := d.ether ++ [(g, who)] } := by
  rw [SdpDispatcher.dispatchSdpOne, if_pos reply.destPort, SdpDispatcher.dispatchSdpToEther] at sent
  split at sent
  · cases sent
  · simp only [if_pos reply.tag] at sent
    refine ⟨_, ?_, by rw [← reply.request]; exact (Option.some.inj sent).symm⟩
    have header := reply.header
    have bytes (i : Nat) (hi : i < 12) : ([1, 0] ++ (List.range msg.length.toNat).map
        ({ msg with seq := d.senderseq } : SdpMsg).byte).getD (i + 2) 0 =
          ({ msg with seq := d.senderseq } : SdpMsg).byte i := by
      rw [List.getD_append_right _ _ _ _ (by simp), List.length_cons, List.length_singleton,
        Nat.add_sub_cancel, List.getD_eq_getElem _ _ (by simp; omega)]
      simp
    have seq : half (([1, 0] ++ (List.range msg.length.toNat).map
        ({ msg with seq := d.senderseq } : SdpMsg).byte).getD · 0) 12 = d.senderseq := by
      rw [half_eq_iff]
      exact ⟨bytes 10 (by decide), bytes 11 (by decide)⟩
    rw [Answers, ← mine]
    simp only [EtherDatagram.requester, EtherDatagram.seq, seq, SdpDispatcher.sender]

variable (request : IsRequest g) (copied : g.message = some msg)
include request copied

/-- What a request's message says. -/
theorem message_request : SdpSystem.Waiting g.requester msg ∧ msg.seq = g.seq := by
  unfold EtherDatagram.message at copied
  split at copied
  · cases copied
    exact ⟨⟨rfl, request.tag, request.srcePort⟩, rfl⟩
  · cases copied

theorem acknowledgement_answers : Answers (g.acknowledgement stale, msg.request) := by
  have header := request.header
  have bytes (i : Nat) (low : 12 ≤ i) (high : i < 14) :
      (g.acknowledgement stale).bytes.getD i 0 = g.bytes.getD i 0 := by
    have apart : i ≠ 10 := by omega
    rw [EtherDatagram.acknowledgement, List.getD_eq_getElem _ _ (by simp; omega),
      List.getD_eq_getElem _ _ (by omega)]
    simp only [List.getElem_map, List.getElem_range, if_neg apart]
    exact List.getD_eq_getElem _ _ (by omega)
  obtain ⟨waiting, _⟩ := message_request request copied
  rw [Answers, waiting.request]
  simp only [EtherDatagram.requester, EtherDatagram.seq, half, bytes 12 (by decide) (by decide),
    bytes 13 (by decide) (by decide)]
  rfl

end Steps
/-- A request is queued for a core. A VER request is remembered; a READ request is
acknowledged at once and not remembered. -/
theorem receive_request {d d' : SdpDispatcher} {g : EtherDatagram} {stale : Nat → Byte}
    (request : IsRequest g) (received : d.receiveMsgFromEther stale g = some d') :
    ∃ id c m, SdpSystem.Waiting g.requester m ∧
      d'.sdpQueue = setAt d.sdpQueue id c (d.sdpQueue id c ++ [m]) ∧
      (g.commandBytes = (0, 0) ∧ d'.sender = g.requester ∧ d'.ether = d.ether ∨
        g.commandBytes = (0, 2) ∧ d'.sender = d.sender ∧
          ∃ e, Answers e ∧ d'.ether = d.ether ++ [e]) := by
  obtain ⟨msg, copied, processed⟩ := Option.bind_eq_some_iff.mp received
  obtain ⟨waiting, seq⟩ := message_request request copied
  have field := message_eq_some copied
  rcases request.command with ver | read
  · have kept : KeptBack msg := (keptBack_iff copied).mpr (.inl ver)
    have type : ntohs msg.cmdRc = cmdVer := by
      rw [field, ntohs_half]
      simp only [EtherDatagram.commandBytes, Prod.mk.injEq] at ver
      rw [ver.1, ver.2]
      rfl
    rw [answerEarly_kept kept, SdpDispatcher.processMessage] at processed
    simp only [if_pos type] at processed
    obtain ⟨id, c, rfl⟩ := queueSdp_some processed
    refine ⟨id, c, { msg with cmdRc := spinEmuPacketVer }, ⟨waiting.request, waiting.tag,
      waiting.srcePort⟩, rfl, .inl ⟨ver, ?_, rfl⟩⟩
    simp only [SdpDispatcher.sender, EtherDatagram.requester, seq]
  · have other : ¬ KeptBack msg := by
      rw [keptBack_iff copied, read]
      decide
    have type : ntohs msg.cmdRc = cmdRead := by
      rw [field, ntohs_half]
      simp only [EtherDatagram.commandBytes, Prod.mk.injEq] at read
      rw [read.1, read.2]
      rfl
    have notVer : ntohs msg.cmdRc ≠ cmdVer := by
      rw [type]
      decide
    rw [answerEarly_acknowledged other, SdpDispatcher.processMessage] at processed
    simp only [if_neg notVer, if_pos type] at processed
    obtain ⟨id, c, rfl⟩ := queueSdp_some processed
    exact ⟨id, c, { msg with cmdRc := spinEmuPacketRead }, ⟨waiting.request, waiting.tag,
      waiting.srcePort⟩, rfl, .inr ⟨read, rfl, _, acknowledgement_answers request copied, rfl⟩⟩

namespace SdpSystem

/-- A request that does not meet older ones of other clients leaves all that is on its way
to its own client. -/
theorem Settled.request {s t : SdpSystem} {stale : Nat → Byte} {g : EtherDatagram}
    (settled : Settled s) (apart : Apart s (.request stale g))
    (step : s.step (.request stale g) = some t) : Settled t := by
  obtain ⟨request, alone, own⟩ := apart
  obtain ⟨d, received, result⟩ := Option.bind_eq_some_iff.mp step
  cases result
  obtain ⟨id, c, m, waiting, queue, cases⟩ := receive_request request received
  have sender : d.sender = g.requester := by
    rcases cases with ⟨_, mine, _⟩ | ⟨read, same, _⟩
    · exact mine
    · rw [same, own read]
  have replies : ∀ e ∈ d.ether, Answers e := by
    intro e he
    rcases cases with ⟨_, _, same⟩ | ⟨_, _, e', answers, more⟩
    · exact settled.replies e (same ▸ he)
    · rw [more] at he
      rcases List.mem_append.mp he with old | new
      · exact settled.replies e old
      · exact List.mem_singleton.mp new ▸ answers
  -- Older messages belong to the requester too.
  have older {m : SdpMsg} (there : s.Outstanding m) (mine : m.request = s.dispatcher.sender) :
      m.request = g.requester := by
    rcases cases with ⟨ver, _, _⟩ | ⟨read, _, _⟩
    · exact alone ver m there
    · exact mine.trans (own read)
  have old : ∀ i j, ∀ m ∈ s.dispatcher.sdpQueue i j, Waiting g.requester m := by
    intro i j m there
    have was := settled.queued i j m there
    exact ⟨older ⟨i, j, .inl there⟩ was.request, was.tag, was.srcePort⟩
  refine ⟨replies, ?_, ?_, ?_⟩
  · simp only [sender, queue]
    have added : ∀ m' ∈ s.dispatcher.sdpQueue id c ++ [m], Waiting g.requester m' :=
      List.forall_mem_append.mpr ⟨old id c, List.forall_mem_singleton.mpr waiting⟩
    exact forall_setAt added old
  · intro id' c' m' hm'
    simp only [sender]
    have was := settled.down id' c' m' hm'
    exact ⟨older ⟨id', c', .inr (.inl hm')⟩ was.request, was.tag, was.srcePort⟩
  · intro id' c' m' hm'
    simp only [sender]
    have was := settled.up id' c' m' hm'
    exact ⟨older ⟨id', c', .inr (.inr hm')⟩ was.request, was.tag, was.destPort, was.header⟩

theorem Settled.step {s t : SdpSystem} {a : SdpAction} (settled : Settled s) (apart : Apart s a)
    (step : s.step a = some t) : Settled t := by
  cases a with
  | request stale g => exact settled.request apart step
  | flush id c =>
    cases step
    have flushed := List.forall_mem_append.mpr ⟨settled.down id c, settled.queued id c⟩
    exact ⟨settled.replies, forall_setAt nofun settled.queued, forall_setAt flushed settled.down,
      settled.up⟩
  | read id c mem rawtime =>
    simp only [SdpSystem.step] at step
    split at step
    · cases step
    · rename_i msg rest waiting
      obtain ⟨chipID, _, result⟩ := Option.bind_eq_some_iff.mp step
      cases result
      obtain ⟨head, tail⟩ := List.forall_mem_cons.mp (waiting ▸ settled.down id c)
      refine ⟨settled.replies, settled.queued, forall_setAt tail settled.down, ?_⟩
      refine forall_setAt (List.forall_mem_append.mpr ⟨settled.up id c, fun m new => ?_⟩) settled.up
      obtain ⟨port, tag, _, request, header, _⟩ := readSdp_reply (Option.mem_toList.mp new)
      exact ⟨request.trans head.request, by rw [tag]; exact head.tag, port.trans head.srcePort,
        header⟩
  | forward id c =>
    simp only [SdpSystem.step] at step
    split at step
    · cases step
    · rename_i msg rest waiting
      obtain ⟨d, sent, result⟩ := Option.bind_eq_some_iff.mp step
      cases result
      obtain ⟨head, tail⟩ := List.forall_mem_cons.mp (waiting ▸ settled.up id c)
      obtain ⟨g, answers, rfl⟩ := dispatchSdpOne_reply rfl head sent
      refine ⟨List.forall_mem_append.mpr ⟨settled.replies, ?_⟩, settled.queued, settled.down,
        forall_setAt tail settled.up⟩
      exact List.forall_mem_singleton.mpr answers

/-- While requests of different clients are never outstanding together, and every
READ finds its own client remembered, everything sent goes back to its client. -/
theorem replies_reach_requester (d : SdpDispatcher) {s : SdpSystem}
    (run : Run SdpSystem.step Apart (start d) s) : ∀ e ∈ s.dispatcher.ether, Answers e := by
  have settled : Settled s := by
    apply run.invariant (I := Settled) fun settled apart step => settled.step apart step
    exact ⟨nofun, nofun, nofun, nofun⟩
  exact settled.replies

end SdpSystem
section Clients
open SdpSystem

/-- A VER request of client `n` for a core of chip `(0, 0)`. -/
def verRequest (n : Nat) (core : Byte) : EtherDatagram where
  ip := BitVec.ofNat 32 n
  port := BitVec.ofNat 16 n
  bytes := [1, 0, 0x87, 0xff, core, 0xff, 0, 0, 0, 0, 0, 0, BitVec.ofNat 8 n, 0]

def oneChipBoard : SdpDispatcher := { remembering 0 with board := ⟨1, 1⟩, initialised := true }

/-- A READ request of the client of `verRequest n`, with the same number. -/
def readOf (n : Nat) (core : Byte) : EtherDatagram :=
  { verRequest n core with
    bytes := [1, 0, 0x87, 0xff, core, 0xff, 0, 0, 0, 0, 0, 2, BitVec.ofNat 8 n, 0] }

/-- A client asks one core for its version and another one for its memory, which is
acknowledged at once; both answers come back to it, the second one first. -/
theorem replies_reach_requester_alone :
    ∃ s, Run SdpSystem.step Apart (start oneChipBoard) s ∧ s.dispatcher.ether.length = 3 ∧
      ∀ e ∈ s.dispatcher.ether, Answers e := by
  obtain ⟨first, requested⟩ : ∃ first, SdpSystem.step (start oneChipBoard)
      (.request (fun _ => 0) (verRequest 1 1)) = some first := ⟨_, rfl⟩
  have apart : Apart (start oneChipBoard) (.request (fun _ => 0) (verRequest 1 1)) := by
    refine ⟨by decide, fun _ m outstanding => ?_, fun read => absurd read (by decide)⟩
    obtain ⟨_, _, none | none | none⟩ := outstanding
    all_goals cases none
  obtain ⟨s, run, answered⟩ := exists_checkedRun SdpSystem.step
    (fun s a => match a with
      | .request _ g => decide (IsRequest g ∧ g.commandBytes = (0, 2)) &&
          decide (s.dispatcher.sender = g.requester)
      | _ => true) first
    [.request (fun _ => 0) (readOf 1 2), .flush 0 1, .flush 0 2, .read 0 1 (fun _ => 0) 0,
      .read 0 2 (fun _ => 0) 0, .forward 0 2, .forward 0 1]
    (fun s => s.dispatcher.ether.length == 3)
    (by
      cases requested
      decide +kernel)
  have whole : Run SdpSystem.step Apart (start oneChipBoard) s := by
    refine (Run.tail .refl apart requested).trans (run.weaken fun s a passes => ?_)
    cases a with
    | request stale g =>
      simp only [Bool.and_eq_true, decide_eq_true_eq] at passes
      obtain ⟨⟨request, read⟩, remembered⟩ := passes
      exact ⟨request, fun ver => absurd (ver.symm.trans read) (by decide), fun _ => remembered⟩
    | _ => trivial
  exact ⟨s, whole, beq_iff_eq.mp answered, replies_reach_requester oneChipBoard whole⟩

/-- Two clients ask two cores before either has answered: the first answer goes to
the second client. -/
theorem reply_reaches_other :
    ¬ ∀ s, Run SdpSystem.step Requests (start oneChipBoard) s →
      ∀ e ∈ s.dispatcher.ether, Answers e := by
  intro all
  obtain ⟨s, run, wrong⟩ := exists_run SdpSystem.step Requests
    (start oneChipBoard)
    ([.request (fun _ => 0) (verRequest 1 1), .request (fun _ => 0) (verRequest 2 2),
      .flush 0 1, .flush 0 2, .read 0 1 (fun _ => 0) 0, .forward 0 1])
    (fun s => s.dispatcher.ether.any fun e => !decide (Answers e))
    (by
      intro t a ha
      simp only [List.mem_cons, List.not_mem_nil, or_false] at ha
      rcases ha with rfl | rfl | rfl | rfl | rfl | rfl
      · exact (by decide : IsRequest (verRequest 1 1))
      · exact (by decide : IsRequest (verRequest 2 2))
      all_goals exact trivial)
    (by decide +kernel)
  obtain ⟨e, he, other⟩ := List.any_eq_true.mp wrong
  simp only [Bool.not_eq_true', decide_eq_false_iff_not] at other
  exact other (all s run e he)

end Clients
end SpinEmu
