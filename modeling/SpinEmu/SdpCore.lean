import SpinEmu.BarrierSetup
import SpinEmu.SdpDispatcher

/-! How a core answers the READ and VER messages that the dispatcher forwards. -/
namespace SpinEmu

/-- `cmd_read`: the returned length and the changed message. The bytes go over the
arguments and the data, which follow each other. -/
def cmdReadMemory (mem : BitVec 32 → Byte) (msg : SdpMsg) : BitVec 32 × SdpMsg :=
  let len := msg.arg2
  let type := msg.arg3
  if len.toNat > bufSize ∨ type.toNat > 2 then (0, { msg with cmdRc := rcArg })
  else
    let addr := if msg.arg1 ≥ 0xf5000000 then msg.arg1 - (0xf5000000 - 0x1fff8000) else msg.arg1
    let copied := if type = 0 then len.toNat else if type = 1 then len.toNat / 2 * 2
      else len.toNat / 4 * 4
    let payload i := if i < copied then mem (addr + BitVec.ofNat 32 i)
      else (msg.setArg1 addr).payload i
    (len, { msg with payload := payload })

/-- `VER_STR` with its terminating zero. -/
def verStr : List Byte :=
  [0x53, 0x43, 0x26, 0x4d, 0x50, 0x20, 0x45, 0x6d, 0x75, 0x6c, 0x61, 0x74, 0x6f, 0x72, 0x2f, 0x53,
    0x70, 0x69, 0x4e, 0x4e, 0x61, 0x6b, 0x65, 0x72, 0]

/-- `cmd_ver` at time `rawtime`. The chip's address goes through a `char`. -/
def cmdVersion (chipID : BitVec 32) (core : Nat) (rawtime : BitVec 32) (msg : SdpMsg) :
    BitVec 32 × SdpMsg :=
  let p2pAddr := (chipID.setWidth 8).signExtend 32
  let msg := msg.setArg1 ((p2pAddr <<< 16) + (chipID <<< 8) + BitVec.ofNat 32 core)
  let msg := (msg.setArg2 ((0 <<< 16) + BitVec.ofNat 32 bufSize)).setArg3 rawtime
  let payload i := if 12 ≤ i ∧ i < 12 + verStr.length then verStr.getD (i - 12) 0 else msg.payload i
  (12 + BitVec.ofNat 32 verStr.length, { msg with payload := payload })

/-- The reply that `read_sdp` makes of a handled message. -/
def replyTo (chipID : BitVec 32) (core : Nat) (handled : BitVec 32 × SdpMsg) : SdpMsg :=
  let msg := handled.2
  { msg with
    destPort := msg.srcePort
    destAddr := msg.srceAddr
    srcePort := BitVec.ofNat 8 core
    srceAddr := chipID.setWidth 16
    cmdRc := 0x80
    length := (handled.1 + 12).setWidth 16 }

/-- What `read_sdp` sends. Writes, application starts and the messages of
applications have no reply. -/
def readSdp (mem : BitVec 32 → Byte) (rawtime chipID : BitVec 32) (core : Nat) (msg : SdpMsg) :
    Option SdpMsg :=
  if msg.cmdRc = spinEmuPacketRead then some (replyTo chipID core (cmdReadMemory mem msg))
  else if msg.cmdRc = spinEmuPacketVer then
    some (replyTo chipID core (cmdVersion chipID core rawtime msg))
  else none

section Reply
variable {mem : BitVec 32 → Byte} {rawtime chipID : BitVec 32} {core : Nat} {msg reply : SdpMsg}

/-- The header fields that a handler leaves alone, and its length. -/
structure SameHeader (len : BitVec 32) (msg handled : SdpMsg) : Prop where
  tag : handled.tag = msg.tag
  srcePort : handled.srcePort = msg.srcePort
  seq : handled.seq = msg.seq
  request : handled.request = msg.request
  short : len.toNat ≤ bufSize

theorem cmdReadMemory_header :
    SameHeader (cmdReadMemory mem msg).1 msg (cmdReadMemory mem msg).2 := by
  unfold cmdReadMemory
  simp only
  split
  · exact ⟨rfl, rfl, rfl, rfl, Nat.zero_le _⟩
  · rename_i accepted
    exact ⟨rfl, rfl, rfl, rfl, Nat.le_of_not_lt (not_or.mp accepted).1⟩

theorem cmdVersion_header :
    SameHeader (cmdVersion chipID core rawtime msg).1 msg (cmdVersion chipID core rawtime msg).2 := by
  simp only [cmdVersion, SdpMsg.setArg1, SdpMsg.setArg2, SdpMsg.setArg3]
  exact ⟨rfl, rfl, rfl, rfl, by decide⟩

/-- The length of a reply counts the command and its sequence, and what the handler
returns. -/
theorem replyTo_length (chipID : BitVec 32) (core : Nat) {handled : BitVec 32 × SdpMsg}
    (short : handled.1.toNat ≤ bufSize) :
    (replyTo chipID core handled).length.toNat = handled.1.toNat + 12 := by
  have twelve : (12 : BitVec 32).toNat = 12 := rfl
  simp only [bufSize] at short
  simp only [replyTo, BitVec.toNat_setWidth, BitVec.toNat_add, twelve]
  omega

/-- A reply goes to the port that the request came from, with the request's tag and
sequence number. -/
theorem readSdp_reply (replied : readSdp mem rawtime chipID core msg = some reply) :
    reply.destPort = msg.srcePort ∧ reply.tag = msg.tag ∧ reply.seq = msg.seq ∧
      reply.request = msg.request ∧ 12 ≤ reply.length.toNat ∧ reply.length.toNat ≤ sdpBytes := by
  have done {handled : BitVec 32 × SdpMsg} (same : SameHeader handled.1 msg handled.2)
      (here : replyTo chipID core handled = reply) :
      reply.destPort = msg.srcePort ∧ reply.tag = msg.tag ∧ reply.seq = msg.seq ∧
        reply.request = msg.request ∧ 12 ≤ reply.length.toNat ∧ reply.length.toNat ≤ sdpBytes := by
    have := same.short
    have length := replyTo_length chipID core same.short
    simp only [bufSize] at this
    subst here
    exact ⟨same.srcePort, same.tag, same.seq, same.request, by omega, by
      simp only [sdpBytes]
      omega⟩
  unfold readSdp at replied
  split at replied
  · exact done cmdReadMemory_header (Option.some.inj replied)
  · split at replied
    · exact done cmdVersion_header (Option.some.inj replied)
    · cases replied

end Reply
end SpinEmu
