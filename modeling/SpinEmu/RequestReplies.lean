import Mathlib.Data.List.GetD
import SpinEmu.EarlyAck
import SpinEmu.RemoteMemory
import SpinEmu.SdpDelivery

/-! The command field of the replies. `cmd_read` and `cmd_iptag` put `RC_ARG` into it
when an argument is out of range, and their callers put `RC_OK` over it. -/
namespace SpinEmu
open Lib

abbrev rcOk : BitVec 16 := 0x80

/-- The command field of a datagram, behind the two bytes of the protocol. -/
def EtherDatagram.cmdRc (g : EtherDatagram) : BitVec 16 := half (fun i => g.bytes.getD i 0) 10

/-- A reply tells what the handler has put into the command field. -/
structure Reports (reply handled : BitVec 16) : Prop where
  ok : reply = rcOk ↔ handled ≠ rcArg
  arg : reply = rcArg ↔ handled = rcArg

/-- The arguments that `cmd_read` accepts. -/
def ReadInRange (msg : SdpMsg) : Prop := msg.arg2.toNat ≤ bufSize ∧ msg.arg3.toNat ≤ 2

/-- The arguments that `cmd_iptag` accepts. -/
def IptagInRange (msg : SdpMsg) : Prop :=
  msg.arg1 >>> 16 ≤ 4 ∧ (msg.arg1 &&& 255).toNat < tagTableSize ∧
    (msg.arg1 >>> 16 = 2 → (msg.arg2 * BitVec.ofNat 32 iptagBytes).toNat ≤ bufSize)

/-- The reply to a read tells whether `cmd_read` has accepted it. A read where nothing is
mapped has no reply; no read is a write. -/
def CoreProcess.ReadReported (rawtime chipID : BitVec 32) (core : Nat)
    (node : Node SdpBlock) (msg ev : Nat) (p : CoreProcess) : Prop :=
  ∀ handled, cmdReadMapped p.memory node.val.msg = some handled →
    ∃ q reply, p.readSdp rawtime (some chipID) core node msg ev = some q ∧
      q.replies = p.replies ++ [reply] ∧ Reports reply.cmdRc handled.2.cmdRc ∧
      q.written = p.written

/-- The reply on the Ethernet tells whether `cmd_iptag` has accepted the request, and
a rejected request leaves the table as it was. -/
def SdpDispatcher.IptagReported (msg : SdpMsg) (s : SdpDispatcher) : Prop :=
  ∀ n handled d t, s.cmdIptag msg = some (n, handled, d) → s.processMessage msg = some t →
    ∃ g, t.ether = s.ether ++ [(g, handled.request)] ∧ Reports g.cmdRc handled.cmdRc ∧
      (handled.cmdRc = rcArg → t.iptags = s.iptags)

section Reply
variable {reply handled : BitVec 16}

/-- A reply that always says that the request was accepted is right about the accepted
ones. -/
theorem reports_ok_iff : Reports rcOk handled ↔ handled ≠ rcArg :=
  ⟨fun reports => reports.ok.mp rfl, fun accepted =>
    ⟨iff_of_true rfl accepted, iff_of_false (by decide) accepted⟩⟩

end Reply

section Read
variable {rawtime chipID : BitVec 32} {core : Nat} {node : Node SdpBlock} {msg ev : Nat}
  {p : CoreProcess}

theorem cmdReadMemory_cmdRc {source : BitVec 32 → Byte} {msg : SdpMsg}
    (read : msg.cmdRc = spinEmuPacketRead) :
    (cmdReadMemory source msg).2.cmdRc ≠ rcArg ↔ ReadInRange msg := by
  unfold cmdReadMemory ReadInRange
  simp only
  split
  · rename_i outside
    exact iff_of_false (fun differs => differs rfl) (by omega)
  · rename_i inside
    refine iff_of_true ?_ (by omega)
    simp only [read]
    decide

namespace CoreProcess

theorem readSdp_of_read {handled : BitVec 32 × SdpMsg}
    (read : node.val.msg.cmdRc = spinEmuPacketRead)
    (ends : cmdReadMapped p.memory node.val.msg = some handled) :
    p.readSdp rawtime (some chipID) core node msg ev = some { p with
      messages := Function.update p.messages msg
        (some { node with val := { node.val with msg := replyTo chipID core handled } })
      replies := p.replies ++ [replyTo chipID core handled] } := by
  have notWrite : node.val.msg.cmdRc ≠ spinEmuPacketWrite := by
    rw [read]
    decide
  simp only [readSdp, if_neg notWrite, if_pos read, ends, Option.bind_eq_bind, Option.bind_some]

theorem readReported_iff (read : node.val.msg.cmdRc = spinEmuPacketRead) :
    p.ReadReported rawtime chipID core node msg ev ↔ ReadInRange node.val.msg := by
  constructor
  · intro reported
    by_contra outside
    have ends : cmdReadMapped p.memory node.val.msg =
        some (cmdReadMemory p.memory.bytes node.val.msg) := by
      refine if_pos ?_
      by_contra stuck
      simp only [not_or, Nat.not_lt] at stuck
      exact outside ⟨stuck.1, stuck.2.1⟩
    obtain ⟨q, reply, taken, replies, reports, _⟩ := reported _ ends
    rw [readSdp_of_read read ends] at taken
    cases taken
    cases List.append_cancel_left replies
    exact outside ((cmdReadMemory_cmdRc read).mp (reports_ok_iff.mp reports))
  · intro inside handled ends
    have same : handled = cmdReadMemory p.memory.bytes node.val.msg := by
      unfold cmdReadMapped at ends
      split at ends
      · exact (Option.some.inj ends).symm
      · cases ends
    have accepted : handled.2.cmdRc ≠ rcArg := same ▸ (cmdReadMemory_cmdRc read).mpr inside
    exact ⟨_, _, readSdp_of_read read ends, rfl, reports_ok_iff.mpr accepted, rfl⟩

end CoreProcess
end Read

namespace SdpDispatcher

section Iptag
variable {s d t : SdpDispatcher} {msg handled : SdpMsg} {n : Nat}

theorem cmdIptag_rejected (outside : ¬ IptagInRange msg) :
    s.cmdIptag msg = some (0, { msg with cmdRc := rcArg }, s) := by
  unfold cmdIptag
  unfold IptagInRange at outside
  generalize msg.arg1 >>> 16 = op at outside ⊢
  generalize msg.arg1 &&& 255 = tag at outside ⊢
  simp only
  split
  · rfl
  · rename_i inside
    simp only [Bool.or_eq_true, decide_eq_true_eq, not_or] at inside
    obtain ⟨get, large⟩ : op = 2 ∧ (msg.arg2 * BitVec.ofNat 32 iptagBytes).toNat > bufSize := by
      by_contra fits
      refine outside ⟨BitVec.not_lt.mp inside.1, Nat.not_le.mp inside.2, fun get => ?_⟩
      exact Nat.not_lt.mp fun large => fits ⟨get, large⟩
    subst get
    exact if_pos large

/-- An accepted request keeps its command, its reply fits into the message, and nothing is
sent yet. -/
theorem cmdIptag_accepted (inside : IptagInRange msg)
    (result : s.cmdIptag msg = some (n, handled, d)) :
    handled.cmdRc = msg.cmdRc ∧ n ≤ bufSize ∧ d.ether = s.ether := by
  unfold IptagInRange at inside
  unfold cmdIptag at result
  generalize msg.arg1 >>> 16 = op at inside result
  generalize msg.arg1 &&& 255 = tag at inside result
  obtain ⟨known, named, size⟩ := inside
  have accepted : (decide (op > 4) || decide (tag.toNat ≥ tagTableSize)) = false := by
    simp only [Bool.or_eq_false_iff, decide_eq_false_iff_not]
    exact ⟨BitVec.not_lt.mpr known, Nat.not_le.mpr named⟩
  simp only [accepted, Bool.false_eq_true, if_false] at result
  split at result
  · cases result
    refine ⟨rfl, by decide, ?_⟩
    split
    · split <;> rfl
    · split <;> rfl
  · split at result
    · rename_i get
      rw [if_neg (Nat.not_lt.mpr (size (beq_iff_eq.mp get)))] at result
      split at result
      · cases result
      · cases result
        exact ⟨rfl, size (beq_iff_eq.mp get), rfl⟩
    · split at result
      · cases result
        refine ⟨rfl, by decide, ?_⟩
        split <;> rfl
      · cases result
        exact ⟨rfl, by decide, rfl⟩

theorem half_cmdRc (msg : SdpMsg) {n : Nat} (long : 10 ≤ n) :
    half (fun i => ([1, 0] ++ (List.range n).map msg.byte).getD i 0) 10 = msg.cmdRc := by
  have byte (i : Nat) (hi : i < n) :
      ([1, 0] ++ (List.range n).map msg.byte).getD (i + 2) 0 = msg.byte i := by
    rw [List.getD_append_right _ _ _ _ (by simp), List.length_cons, List.length_singleton,
      Nat.add_sub_cancel, List.getD_eq_getElem _ _ (by simpa using hi)]
    simp
  exact half_of_bytes (byte 8 (by omega)) (byte 9 (by omega))

/-- What goes to the Ethernet has the command field of the message. -/
theorem dispatchSdpToEther_cmdRc (sent : s.dispatchSdpToEther msg = some t)
    (long : 10 ≤ msg.length.toNat) :
    ∃ g, t.ether = s.ether ++ [(g, msg.request)] ∧ g.cmdRc = msg.cmdRc ∧ t.iptags = s.iptags := by
  unfold dispatchSdpToEther at sent
  split at sent
  · cases sent
  · split at sent
    rename_i out ip port chosen
    obtain ⟨rc, length, request⟩ : out.cmdRc = msg.cmdRc ∧ out.length = msg.length ∧
        out.request = msg.request := by
      split at chosen
      · cases chosen
        exact ⟨rfl, rfl, rfl⟩
      · cases chosen
        exact ⟨rfl, rfl, rfl⟩
    cases sent
    refine ⟨⟨ip, port, [1, 0] ++ (List.range out.length.toNat).map out.byte⟩, ?_, ?_, rfl⟩
    · rw [← request]
    · rw [← rc]
      exact half_cmdRc out (length ▸ long)

theorem processMessage_iptag (iptag : ntohs msg.cmdRc = SpinEmu.cmdIptag) :
    s.processMessage msg = (s.cmdIptag msg).bind fun (len2, msg, s) =>
      s.dispatchSdpToEther { msg with cmdRc := rcOk, length := BitVec.ofNat 16 (len2 + 28) } := by
  unfold processMessage
  simp only [iptag]
  rfl

theorem dispatchSdpToEther_isSome (short : msg.length.toNat ≤ sdpBytes) :
    ∃ t, s.dispatchSdpToEther msg = some t := by
  unfold dispatchSdpToEther
  rw [if_neg (Nat.not_lt.mpr short)]
  exact ⟨_, rfl⟩

theorem iptagReported_iff (iptag : ntohs msg.cmdRc = SpinEmu.cmdIptag) :
    s.IptagReported msg ↔ IptagInRange msg := by
  have length {n : Nat} (short : n ≤ bufSize) : (BitVec.ofNat 16 (n + 28)).toNat = n + 28 := by
    simp only [bufSize] at short
    rw [BitVec.toNat_ofNat]
    omega
  constructor
  · intro reported
    by_contra outside
    have rejected := cmdIptag_rejected (s := s) outside
    let reply : SdpMsg :=
      { msg with cmdRc := rcOk, length := BitVec.ofNat 16 (0 + 28) }
    have size : reply.length.toNat = 28 := length (Nat.zero_le _)
    obtain ⟨t, sent⟩ : ∃ t, s.dispatchSdpToEther reply = some t :=
      dispatchSdpToEther_isSome (by rw [size]; decide)
    have taken : s.processMessage msg = some t := by
      rw [processMessage_iptag iptag, rejected]
      exact sent
    obtain ⟨g, ether, reports, _⟩ := reported _ _ _ _ rejected taken
    obtain ⟨g', ether', rc, _⟩ := dispatchSdpToEther_cmdRc sent (by rw [size]; decide)
    cases List.append_cancel_left (ether.symm.trans ether')
    rw [rc] at reports
    exact reports_ok_iff.mp reports rfl
  · intro inside n handled d t result taken
    obtain ⟨same, short, same_ether⟩ := cmdIptag_accepted inside result
    have accepted : handled.cmdRc ≠ rcArg := by
      rw [same]
      rintro here
      rw [here] at iptag
      exact absurd iptag (by decide)
    rw [processMessage_iptag iptag, result] at taken
    obtain ⟨g, ether, rc, _⟩ := dispatchSdpToEther_cmdRc taken (by rw [length short]; omega)
    refine ⟨g, same_ether ▸ ether, ?_, fun rejected => absurd rejected accepted⟩
    rw [rc]
    exact reports_ok_iff.mpr accepted

end Iptag
end SdpDispatcher

/-- The replies to READ and to IPTAG tell whether the request was accepted exactly when no
argument is out of range. -/
theorem requests_reported_iff (rawtime chipID : BitVec 32) (core : Nat)
    (node : Node SdpBlock) (msg ev : Nat) (p : CoreProcess) (request : SdpMsg)
    (s : SdpDispatcher) :
    (node.val.msg.cmdRc = spinEmuPacketRead →
      (p.ReadReported rawtime chipID core node msg ev ↔ ReadInRange node.val.msg)) ∧
    (ntohs request.cmdRc = cmdIptag → (s.IptagReported request ↔ IptagInRange request)) :=
  ⟨CoreProcess.readReported_iff, SdpDispatcher.iptagReported_iff⟩

/-- A read of one byte too many. -/
def longRead : SdpBlock :=
  ⟨0, { SdpMsg.cleared with cmdRc := spinEmuPacketRead }.setArg2 257⟩

/-- An operation that `cmd_iptag` does not know. -/
def unknownTagRequest : SdpMsg :=
  { SdpMsg.cleared with cmdRc := htons cmdIptag }.setArg1 (5 <<< 16)

/-- Both are rejected, and both are answered with `RC_OK`. -/
theorem rejected_unreported :
    ¬ listening.ReadReported 0 0 1 ⟨none, longRead⟩ 200 300 ∧
      ¬ (remembering 0).IptagReported unknownTagRequest := by
  constructor
  · rw [CoreProcess.readReported_iff rfl]
    exact fun inside => absurd inside.1 (by decide)
  · rw [SdpDispatcher.iptagReported_iff (by decide)]
    exact fun inside => absurd inside.1 (by decide)
end SpinEmu
