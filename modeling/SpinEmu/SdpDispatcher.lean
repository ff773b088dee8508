import SpinEmu.Sdp

/-! The SDP side of the dispatcher: requests from the Ethernet socket, the queues
towards the cores, and the replies. A failed assertion and an access outside an
array or a message end the run and are the failures of `Option`. -/
namespace SpinEmu

/-- A datagram with the address and port at its other end. -/
structure EtherDatagram where
  ip : BitVec 32
  port : BitVec 16
  bytes : List Byte
  deriving DecidableEq, Repr

/-- `iptag_t`. The address is its four bytes as a little-endian word. -/
structure IpTag where
  ip : BitVec 32
  mac : BitVec 48
  port : BitVec 16
  timeout : BitVec 16
  flags : BitVec 16
  count : BitVec 32
  pad : BitVec 32

abbrev tagTableSize : Nat := 16
abbrev tagNone : BitVec 32 := 255
abbrev iptagBytes : Nat := 24

/-- The byte at offset `i` of an entry. -/
def IpTag.byte (t : IpTag) (i : Nat) : Byte :=
  (t.pad ++ t.count ++ t.flags ++ t.timeout ++ t.port ++ t.mac ++ t.ip).extractLsb' (8 * i) 8

structure SdpDispatcher where
  board : Board
  initialised : Bool
  floodfill : BitVec 32
  sendersip : BitVec 32
  sendersport : BitVec 16
  senderseq : BitVec 16
  iptags : Nat → IpTag
  tagTto : BitVec 32
  sdpQueue : Nat → Nat → List SdpMsg
  spinEmuRunning : Nat → Nat → Bool
  spinEmuRunningCount : Int
  /-- What has been sent on the Ethernet socket, each with the request it answers. -/
  ether : List (EtherDatagram × Requester)

namespace SdpDispatcher

/-- `queue_sdp_xy`. -/
def queueSdpXy (msg : SdpMsg) (id c : Nat) (s : SdpDispatcher) : SdpDispatcher :=
  let queues := Function.update (s.sdpQueue id) c (s.sdpQueue id c ++ [msg])
  { s with sdpQueue := Function.update s.sdpQueue id queues }

/-- `queue_sdp`: the address names the chip, the low bits of the port the core. -/
def queueSdp (msg : SdpMsg) (s : SdpDispatcher) : Option SdpDispatcher := do
  let x := msg.destAddr >>> 8
  let y := msg.destAddr &&& 0xff
  let c := (msg.destPort &&& 0x1f).toNat
  let id ← chipId s.board x.toNat y.toNat
  if c < numCpus then some (s.queueSdpXy msg id.toNat c) else none

/-- `flush_sdp_queues` for one core: what it sends, and the emptied queue. -/
def flushSdpQueue (id c : Nat) (s : SdpDispatcher) : List SdpMsg × SdpDispatcher :=
  (s.sdpQueue id c,
    { s with sdpQueue := Function.update s.sdpQueue id (Function.update (s.sdpQueue id) c []) })

/-- `dispatch_sdp_to_ether`. Its assertion admits lengths that reach past the
message; reading there is the failure. -/
def dispatchSdpToEther (msg : SdpMsg) (s : SdpDispatcher) : Option SdpDispatcher :=
  if sdpBytes < msg.length.toNat then none
  else
    let (msg, ip, port) :=
      if tagTableSize ≤ msg.tag.toNat then
        ({ msg with seq := s.senderseq }, s.sendersip, s.sendersport)
      else
        let t := s.iptags msg.tag.toNat
        (msg, t.ip, htons t.port)
    let bytes := [1, 0] ++ (List.range msg.length.toNat).map msg.byte
    some { s with ether := s.ether ++ [(⟨ip, port, bytes⟩, msg.request)] }

/-- `dispatch_sdp_one`. -/
def dispatchSdpOne (msg : SdpMsg) (s : SdpDispatcher) : Option SdpDispatcher :=
  if msg.destPort = portEth then s.dispatchSdpToEther msg else s.queueSdp msg

/-- `iptag_new`. -/
def iptagNew (s : SdpDispatcher) : BitVec 32 :=
  ((List.range' 4 12).find? fun i => (s.iptags i).flags == 0).elim tagNone (BitVec.ofNat 32 ·)

def setTag (s : SdpDispatcher) (tag : Nat) (t : IpTag) : SdpDispatcher :=
  { s with iptags := Function.update s.iptags tag t }

/-- `cmd_iptag`: the returned size, the changed message and the changed table. -/
def cmdIptag (msg : SdpMsg) (s : SdpDispatcher) : Option (Nat × SdpMsg × SdpDispatcher) :=
  let op := msg.arg1 >>> 16
  let tag := msg.arg1 &&& 255
  if op > 4 || tag.toNat ≥ tagTableSize then some (0, { msg with cmdRc := rcArg }, s)
  else if op == 0 || op == 1 then
    let tag := if op == 0 then s.iptagNew else tag
    let s := if tag == tagNone then s
      else
        let timeout := (msg.arg2 >>> 16) &&& 15
        let timeout := if timeout == 0 then timeout else 1#32 <<< (timeout - 1).toNat
        s.setTag tag.toNat { s.iptags tag.toNat with
          timeout := timeout.setWidth 16
          port := msg.arg2.setWidth 16
          ip := msg.arg3 }
    some (4, msg.setArg1 tag, s)
  else if op == 2 then
    let size := (msg.arg2 * BitVec.ofNat 32 iptagBytes).toNat
    if size > bufSize then some (0, { msg with cmdRc := rcArg }, s)
    else if tagTableSize * iptagBytes < tag.toNat * iptagBytes + size then none
    else
      let entry i := (s.iptags (tag.toNat + i / iptagBytes)).byte (i % iptagBytes)
      some (size, { msg with payload := fun i => if i < size then entry i else msg.payload i }, s)
  else if op == 4 then
    let reply := msg.setArg1 ((4 <<< 24) + (12 <<< 16) + s.tagTto)
    some (4, reply, if msg.arg2 < 16 then { s with tagTto := msg.arg2 } else s)
  else some (0, msg, s.setTag tag.toNat { s.iptags tag.toNat with flags := 0 })

/-- The body of the loops of `dispatch_as` and `flood_as` for core `i`. -/
def startCore (msg : SdpMsg) (id : Nat) (s : SdpDispatcher) (i : Nat) : SdpDispatcher :=
  let s := s.queueSdpXy msg id i
  let running := Function.update (s.spinEmuRunning id) i true
  { s with
    spinEmuRunning := Function.update s.spinEmuRunning id running
    spinEmuRunningCount := s.spinEmuRunningCount + 1 }

def startCores (msg : SdpMsg) (mask : BitVec 32) (id : Nat) (s : SdpDispatcher) : SdpDispatcher :=
  ((List.range numCpus).filter fun i => testBit mask i).foldl (startCore msg id) s

def dispatchAs (msg : SdpMsg) (s : SdpDispatcher) : Option SdpDispatcher := do
  let mask := ntohl msg.arg2
  let id ← chipId s.board (msg.destAddr >>> 8).toNat (msg.destAddr &&& 0xff).toNat
  return s.startCores { msg with cmdRc := spinEmuPacketAs } mask id.toNat

def floodAs (msg : SdpMsg) (s : SdpDispatcher) : SdpDispatcher :=
  let start := SdpMsg.setArg1 { msg with cmdRc := spinEmuPacketAs } s.floodfill
  (List.range s.board.numChips).foldl (fun s c => s.startCores start msg.arg2 c) s

/-- The block becomes a write message for core 1 of every chip. -/
def cmdFloodfill (msg : SdpMsg) (s : SdpDispatcher) : SdpDispatcher :=
  let bytes := (((msg.arg2 >>> 8) &&& 255) + 1) * 4
  let write := SdpMsg.setArg1 { msg with cmdRc := spinEmuPacketWrite } msg.arg3
  let write := (write.setArg2 bytes).setArg3 0
  (List.range s.board.numChips).foldl (fun s c => s.queueSdpXy write c 1) s

/-- `cmd_p2pc`, as far as SDP is concerned. The arrays it allocates hold what
`malloc` returns. -/
def cmdP2pc (x y : Nat) (s : SdpDispatcher) : SdpDispatcher :=
  if s.initialised then s else { s with initialised := true, board := ⟨x, y⟩ }

def processMessage (msg : SdpMsg) (s : SdpDispatcher) : Option SdpDispatcher :=
  let type := ntohs msg.cmdRc
  if type = cmdVer then s.queueSdp { msg with cmdRc := spinEmuPacketVer }
  else if type = cmdRead then s.queueSdp { msg with cmdRc := spinEmuPacketRead }
  else if type = cmdWrite then s.queueSdp { msg with cmdRc := spinEmuPacketWrite }
  else if type = cmdNnp then
    let cmd := msg.arg1 >>> 24
    if cmd == 6 then some { s with floodfill := msg.arg2 }
    else if cmd == 15 then some (s.floodAs msg)
    else some s
  else if type = SpinEmu.cmdP2pc then
    let size := ntohl msg.arg2
    some (s.cmdP2pc (size &&& 0xff).toNat ((size >>> 8) &&& 0xff).toNat)
  else if type = cmdFfd then some (s.cmdFloodfill msg)
  else if type = cmdAs then s.dispatchAs msg
  else if type = SpinEmu.cmdIptag then do
    let (len2, msg, s) ← s.cmdIptag msg
    s.dispatchSdpToEther { msg with cmdRc := 128, length := BitVec.ofNat 16 (len2 + 28) }
  else s.queueSdp msg

end SdpDispatcher

namespace EtherDatagram

/-- What `receive_msg_from_ether` copies into a cleared message. The copy has no
room for more than the message, and none for a negative length. -/
def message (g : EtherDatagram) : Option SdpMsg :=
  if 2 ≤ g.bytes.length ∧ g.bytes.length - 2 ≤ sdpBytes then
    let msg := SdpMsg.ofBytes (fun i => g.bytes.getD (i + 2) 0) (BitVec.ofNat 16 (g.bytes.length - 2))
      ⟨g.ip, g.port, 0⟩
    some { msg with request := ⟨g.ip, g.port, msg.seq⟩ }
  else none

/-- The immediate answer: two bytes longer than the datagram, out of a buffer whose
further bytes are `stale`. -/
def acknowledgement (stale : Nat → Byte) (g : EtherDatagram) : EtherDatagram :=
  { g with bytes := (List.range (g.bytes.length + 2)).map fun i =>
      if i = 10 then 0x80 else g.bytes.getD i (stale i) }

end EtherDatagram

namespace SdpDispatcher

/-- What the dispatcher does with a datagram before it processes the message. -/
def answerEarly (stale : Nat → Byte) (g : EtherDatagram) (msg : SdpMsg) (s : SdpDispatcher) :
    SdpDispatcher :=
  if msg.cmdRc ≠ cmdVer ∧ msg.cmdRc ≠ cmdRead ∧ msg.cmdRc ≠ SpinEmu.cmdIptag then
    { s with ether := s.ether ++ [(g.acknowledgement stale, msg.request)] }
  else { s with sendersip := g.ip, sendersport := g.port, senderseq := msg.seq }

/-- One turn of the loop of `receive_msg_from_ether`. -/
def receiveMsgFromEther (stale : Nat → Byte) (g : EtherDatagram) (s : SdpDispatcher) :
    Option SdpDispatcher := do
  let msg ← g.message
  (s.answerEarly stale g msg).processMessage msg

end SdpDispatcher
end SpinEmu
