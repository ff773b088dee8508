import SpinEmu.SdpDispatcher

/-! The two decodings of a request's command. `receive_msg_from_ether` tests the
field as the client sent it, `process_message` tests it in host order. -/
namespace SpinEmu
namespace EtherDatagram
variable (stale : Nat → Byte) (g : EtherDatagram)

def Recorded (msg : SdpMsg) : Prop :=
  ∀ s : SdpDispatcher, (s.answerEarly stale g msg).sendersip = g.ip ∧
    (s.answerEarly stale g msg).sendersport = g.port ∧
    (s.answerEarly stale g msg).senderseq = msg.seq

/-- The bytes of the command field; a datagram that ends before them has zeros. -/
def commandBytes : Byte × Byte := (g.bytes.getD 10 0, g.bytes.getD 11 0)

end EtherDatagram

open EtherDatagram

section Decoding
variable {stale : Nat → Byte} {g : EtherDatagram} {msg : SdpMsg}

/-- The test of `receive_msg_from_ether`. -/
def KeptBack (msg : SdpMsg) : Prop :=
  msg.cmdRc = cmdVer ∨ msg.cmdRc = cmdRead ∨ msg.cmdRc = cmdIptag

instance : Decidable (KeptBack msg) := inferInstanceAs (Decidable (_ ∨ _ ∨ _))

theorem answerEarly_kept (kept : KeptBack msg) (s : SdpDispatcher) :
    s.answerEarly stale g msg =
      { s with sendersip := g.ip, sendersport := g.port, senderseq := msg.seq } := by
  rw [SdpDispatcher.answerEarly, if_neg]
  unfold KeptBack at kept
  tauto

theorem answerEarly_acknowledged (other : ¬ KeptBack msg) (s : SdpDispatcher) :
    s.answerEarly stale g msg =
      { s with ether := s.ether ++ [(g.acknowledgement stale, msg.request)] } := by
  rw [SdpDispatcher.answerEarly, if_pos]
  unfold KeptBack at other
  tauto

/-- A dispatcher that remembers a given sender. -/
def remembering (ip : BitVec 32) : SdpDispatcher where
  board := ⟨0, 0⟩
  initialised := false
  floodfill := 0
  sendersip := ip
  sendersport := 0
  senderseq := 0
  iptags _ := ⟨0, 0, 0, 0, 0, 0, 0⟩
  tagTto := 9
  sdpQueue _ _ := []
  spinEmuRunning _ _ := false
  spinEmuRunningCount := 0
  ether := []

theorem message_eq_some (copied : g.message = some msg) :
    msg.cmdRc = half (fun i => g.bytes.getD (i + 2) 0) 8 := by
  unfold EtherDatagram.message at copied
  split at copied
  · cases copied
    rfl
  · cases copied

theorem message_isSome_iff :
    (∃ msg, g.message = some msg) ↔ 2 ≤ g.bytes.length ∧ g.bytes.length ≤ 286 := by
  unfold EtherDatagram.message
  simp only [sdpBytes]
  split
  · rename_i fits
    exact iff_of_true ⟨_, rfl⟩ (by omega)
  · rename_i other
    exact iff_of_false (by simp) (by omega)

/-- As bytes, the two tests look at the same field from its two ends. -/
theorem keptBack_iff (copied : g.message = some msg) :
    KeptBack msg ↔ g.commandBytes = (0, 0) ∨ g.commandBytes = (2, 0) ∨ g.commandBytes = (26, 0) := by
  simp only [KeptBack, message_eq_some copied, half_eq_iff, commandBytes, Prod.mk.injEq]
  rfl

end Decoding

end SpinEmu
