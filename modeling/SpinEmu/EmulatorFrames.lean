import SpinEmu.Emulator
import SpinEmu.SdpGrowth
import SpinEmu.BarrierTables

/-! What is on the sockets of the running emulator: only datagrams that the other side
takes, in every state that is reached. -/
namespace SpinEmu
open Dispatcher

namespace Frame

theorem upward_ofMc (m : SpinEmuMc) : (ofMc m).upward = some (.mc m.received) := by
  obtain ⟨buf, sent, read⟩ := Wire.dispatchMcBuf_send m
  simp only [upward, ofMc, sent, if_true, read, Option.map_some]

theorem downward_ofMc (m : SpinEmuMc) : (ofMc m).downward = some (.mc m.received) := by
  obtain ⟨buf, sent, read⟩ := Wire.dispatchMcBuf_send m
  simp only [downward, ofMc, sent, if_true, read, Option.map_some]

theorem upward_ofRoute {p : SpinEmuRoutePacket} (fits : p.Fits) :
    (ofRoute p).upward = some (.route p) := by
  have read := Wire.storeRouteBuf_eq_some.mpr ⟨rfl, fits⟩
  simp only [upward, ofRoute, sendRouteBytes]
  rw [if_neg (by decide), if_neg (by decide), if_pos trivial, read, Option.map_some]

theorem upward_ofFinished : ofFinished.upward = some .finished := rfl

/-- Any message arrives as a clean one. -/
theorem upward_ofSdp (stale : Nat → Byte) (m : SdpMsg) :
    ∃ m', (ofSdp stale m).upward = some (.sdp m') ∧ m'.Clean ∧ (m.Clean → m' = m) := by
  have size : (sendSdpBytes stale m).tail.length = sdpMsgBytes := by
    simp [sendSdpBytes]
  refine ⟨sdpBuf (sendSdpBytes stale m).tail m.request, ?_, sdpBuf_clean size.le, fun clean => ?_⟩
  · simp only [upward, ofSdp, sendSdpBytes]
    rw [if_neg (by decide), if_pos trivial]
    exact if_pos size.le
  · obtain ⟨buf, sent, _, same⟩ := sdpBuf_send stale clean
    rw [sent]
    exact same

theorem downward_ofSdp (stale : Nat → Byte) {m : SdpMsg} (clean : m.Clean) :
    (ofSdp stale m).downward = some (.sdp m) := by
  obtain ⟨buf, sent, size, same⟩ := sdpBuf_send stale clean
  simp only [downward, ofSdp, sent]
  rw [if_neg (by decide), if_pos trivial, if_pos size, same]

/-- What a core sends. -/
inductive Upward : Frame → Prop where
  | mc (m : SpinEmuMc) : Upward (ofMc m)
  | route {p : SpinEmuRoutePacket} : p.Fits → Upward (ofRoute p)
  | sdp (stale : Nat → Byte) (m : SdpMsg) : Upward (ofSdp stale m)
  | finished : Upward ofFinished

/-- What the dispatcher sends. -/
inductive Downward : Frame → Prop where
  | mc (m : SpinEmuMc) : Downward (ofMc m)
  | sdp (stale : Nat → Byte) {m : SdpMsg} : m.Clean → Downward (ofSdp stale m)

/-- The dispatcher does not die of it: the type is known, and the handler's check of the
length passes. -/
theorem Upward.taken {f : Frame} (h : Upward f) : f.upward.isSome := by
  cases h with
  | mc m => rw [upward_ofMc, Option.isSome_some]
  | route fits => rw [upward_ofRoute fits, Option.isSome_some]
  | sdp stale m =>
    obtain ⟨_, read, _⟩ := upward_ofSdp stale m
    rw [read, Option.isSome_some]
  | finished => rw [upward_ofFinished, Option.isSome_some]

theorem Downward.taken {f : Frame} (h : Downward f) : f.downward.isSome := by
  cases h with
  | mc m => rw [downward_ofMc, Option.isSome_some]
  | sdp stale clean => rw [downward_ofSdp stale clean, Option.isSome_some]

/-- A message that is taken out of a datagram is clean. -/
theorem clean_of_upward {f : Frame} {m : SdpMsg} (read : f.upward = some (.sdp m)) : m.Clean := by
  unfold upward at read
  split at read
  · cases read
  split at read
  · simp at read
  split at read
  · split at read
    · rename_i short
      cases read
      exact sdpBuf_clean short
    · cases read
  split at read
  · simp at read
  · split at read <;> cases read

theorem clean_of_downward {f : Frame} {m : SdpMsg} (read : f.downward = some (.sdp m)) :
    m.Clean := by
  unfold downward at read
  split at read
  · cases read
  split at read
  · simp at read
  split at read
  · split at read
    · rename_i size
      cases read
      exact sdpBuf_clean size.le
    · cases read
  · cases read

end Frame

theorem SdpMsg.Clean.rewritten : Rewritten SdpMsg.Clean := by
  have put {m : SdpMsg} (clean : m.Clean) {i : Nat} (w : BitVec 32) (small : i ≤ 8) :
      ∀ j, 272 ≤ j → putWord m.payload i w j = 0 := fun j past =>
    (if_neg (by omega)).trans (clean j past)
  exact ⟨fun _ _ clean => clean, fun _ w clean => put clean w (by decide),
    fun _ w clean => put clean w (by decide), fun _ w clean => put clean w (by decide)⟩

/-- What arrives from the Ethernet is clean. -/
theorem message_clean {g : EtherDatagram} {m : SdpMsg} (copied : g.message = some m) : m.Clean := by
  unfold EtherDatagram.message at copied
  split at copied
  · rename_i fits
    cases copied
    intro i past
    refine List.getD_eq_default _ _ ?_
    simp only [sdpBytes] at fits
    omega
  · cases copied

theorem readSdp_clean {mem : BitVec 32 → Byte} {rawtime chipID : BitVec 32} {core : Nat}
    {msg reply : SdpMsg} (clean : msg.Clean)
    (replied : readSdp mem rawtime chipID core msg = some reply) : reply.Clean := by
  unfold readSdp at replied
  split at replied
  · cases replied
    intro i past
    unfold replyTo cmdReadMemory
    dsimp only
    split
    · exact clean i past
    · rename_i accepted
      dsimp only
      have copied : ¬ i < if msg.arg3 = 0 then msg.arg2.toNat else if msg.arg3 = 1 then
          msg.arg2.toNat / 2 * 2 else msg.arg2.toNat / 4 * 4 := by
        simp only [bufSize] at accepted
        split
        · omega
        · split <;> omega
      rw [if_neg copied]
      exact SdpMsg.Clean.rewritten.arg1 msg _ clean i past
  · split at replied
    · cases replied
      intro i past
      unfold replyTo cmdVersion
      dsimp only
      rw [if_neg (by simp [verStr]; omega)]
      exact SdpMsg.Clean.rewritten.arg3 _ _ (SdpMsg.Clean.rewritten.arg2 _ _
        (SdpMsg.Clean.rewritten.arg1 _ _ clean)) i past
    · cases replied

end SpinEmu
