import Mathlib.Data.List.GetD
import SpinEmu.EarlyAck
import SpinEmu.QueueAddress
import SpinEmu.SdpCore

/-! The copies between a datagram and a message, with the bytes that they touch: into
`sdp_msg_t` in `receive_msg_from_ether`, out of it in `dispatch_sdp_to_ether`. -/
namespace SpinEmu

/-- Consecutive bytes of a buffer or of a message. -/
structure Span where
  start : Nat
  count : Nat
  deriving DecidableEq, Repr

def Span.Within (p : Span) (size : Nat) : Prop := p.start + p.count ≤ size

instance (p : Span) (size : Nat) : Decidable (p.Within size) := inferInstanceAs (Decidable (_ ≤ _))

/-- The offset of `flags` in `sdp_msg_t`. -/
abbrev flagsStart : Nat := 8

/-- What a turn of `receive_msg_from_ether` touches and leaves: the bytes of the message
that the copy writes, those of the buffer that it reads, the immediate answer, and the
message that is processed. -/
structure EtherTurn where
  stored : Span
  fetched : Span
  answer : Option (List Byte)
  processed : Option SdpMsg

/-- A turn on a datagram, in a buffer whose further bytes are `stale`. The count is
`len-2` as a `size_t`, and nothing compares it with anything. -/
def etherTurn (stale : Nat → Byte) (g : EtherDatagram) : EtherTurn :=
  let buf i := g.bytes.getD i (stale i)
  let count := (BitVec.ofNat 32 g.bytes.length - 2).toNat
  let msg := SdpMsg.ofBytes (fun i => if i < count then buf (i + 2) else 0)
    (BitVec.ofNat 16 g.bytes.length - 2) ⟨g.ip, g.port, 0⟩
  let msg := { msg with request := ⟨g.ip, g.port, msg.seq⟩ }
  { stored := ⟨flagsStart, count⟩
    fetched := ⟨2, count⟩
    answer := if KeptBack msg then none else some (g.acknowledgement stale).bytes
    processed := some msg }

/-- The pad and the header of the shortest datagram. -/
def headerBytes : Nat := 2 + 8

/-- Neither shorter than a header nor longer than a message. -/
def FitsMessage (g : EtherDatagram) : Prop :=
  headerBytes ≤ g.bytes.length ∧ g.bytes.length ≤ 2 + sdpBytes

/-- Other datagrams are rejected; the bytes after the pad are copied, and the copy stays
inside the message and inside what was received; an answer has the received length and
differs in the command only. -/
structure DecodedWithinBounds (stale : Nat → Byte) (g : EtherDatagram) : Prop where
  rejected : ¬ FitsMessage g → (etherTurn stale g).processed = none
  copied : ∀ msg, (etherTurn stale g).processed = some msg →
    (etherTurn stale g).fetched = ⟨2, g.bytes.length - 2⟩ ∧
      ∀ i < sdpBytes, msg.byte i = g.bytes.getD (i + 2) 0
  stored : (etherTurn stale g).stored.Within sdpMsgSize
  fetched : (etherTurn stale g).fetched.Within g.bytes.length
  answered : ∀ bytes, (etherTurn stale g).answer = some bytes →
    bytes.length = g.bytes.length ∧ ∀ i, i ≠ 10 → i ≠ 11 → bytes[i]? = g.bytes[i]?

theorem byte_request (msg : SdpMsg) (r : Requester) (i : Nat) :
    ({ msg with request := r } : SdpMsg).byte i = msg.byte i := by
  match i with
  | 0 | 1 | 2 | 3 | 4 | 5 | 6 | 7 | 8 | 9 | 10 | 11 | _ + 12 => rfl

section Receive
variable {stale : Nat → Byte} {g : EtherDatagram} {msg : SdpMsg}

/-- The turn on a datagram that a message has room for. -/
theorem etherTurn_eq (copied : g.message = some msg) :
    etherTurn stale g =
      { stored := ⟨flagsStart, g.bytes.length - 2⟩
        fetched := ⟨2, g.bytes.length - 2⟩
        answer := if KeptBack msg then none else some (g.acknowledgement stale).bytes
        processed := some msg } := by
  have room := message_isSome_iff.mp ⟨msg, copied⟩
  have count : (BitVec.ofNat 32 g.bytes.length - 2).toNat = g.bytes.length - 2 := by
    bv_omega
  have length : BitVec.ofNat 16 g.bytes.length - 2 = BitVec.ofNat 16 (g.bytes.length - 2) := by
    bv_omega
  have source : (fun i => if i < g.bytes.length - 2 then g.bytes.getD (i + 2) (stale (i + 2))
      else 0) = fun i => g.bytes.getD (i + 2) 0 := by
    funext i
    split
    · rename_i inside
      rw [List.getD_eq_getElem _ _ (by omega), List.getD_eq_getElem _ _ (by omega)]
    · rw [List.getD_eq_default _ _ (by omega)]
  unfold EtherDatagram.message at copied
  rw [if_pos ⟨room.1, by simp only [sdpBytes]; omega⟩] at copied
  unfold etherTurn
  simp only [count, length, source]
  cases copied
  rfl

theorem processed_isSome (stale : Nat → Byte) (g : EtherDatagram) :
    (etherTurn stale g).processed ≠ none := by
  unfold etherTurn
  exact Option.some_ne_none _

theorem message_of_fits (fits : FitsMessage g) : ∃ msg, g.message = some msg := by
  obtain ⟨long, short⟩ := fits
  simp only [headerBytes, sdpBytes] at long short
  exact message_isSome_iff.mpr ⟨by omega, by omega⟩

theorem byte_message (copied : g.message = some msg) (i : Nat) :
    msg.byte i = g.bytes.getD (i + 2) 0 := by
  unfold EtherDatagram.message at copied
  split at copied
  · cases copied
    exact (byte_request _ _ i).trans (byte_ofBytes _ _ _ i)
  · cases copied

theorem acknowledgement_length : (g.acknowledgement stale).bytes.length = g.bytes.length + 2 := by
  simp [EtherDatagram.acknowledgement]

end Receive

/-- A datagram is decoded within bounds if and only if a message has room for it and it is
not answered at once. -/
theorem decodedWithinBounds_iff (stale : Nat → Byte) (g : EtherDatagram) :
    DecodedWithinBounds stale g ↔ (10 ≤ g.bytes.length ∧ g.bytes.length ≤ 286) ∧
      g.commandBytes ∈ [((0 : Byte), (0 : Byte)), (2, 0), (26, 0)] := by
  constructor
  · intro within
    have fits : FitsMessage g := by
      by_contra other
      exact processed_isSome stale g (within.rejected other)
    obtain ⟨msg, copied⟩ := message_of_fits fits
    have kept : KeptBack msg := by
      by_contra other
      have answer : (etherTurn stale g).answer = some (g.acknowledgement stale).bytes := by
        rw [etherTurn_eq copied]
        exact if_neg other
      have length := (within.answered _ answer).1
      rw [acknowledgement_length] at length
      omega
    rw [keptBack_iff copied] at kept
    exact ⟨fits, by simpa using kept⟩
  · rintro ⟨fits, kept⟩
    obtain ⟨msg, copied⟩ := message_of_fits fits
    have kept : KeptBack msg := (keptBack_iff copied).mpr (by simpa using kept)
    have turn : etherTurn stale g = _ := etherTurn_eq copied
    rw [if_pos kept] at turn
    refine ⟨fun other => absurd fits other, ?_, ?_, ?_, ?_⟩
    · intro processed same
      rw [turn] at same ⊢
      cases same
      exact ⟨rfl, fun i _ => byte_message copied i⟩
    · rw [turn]
      simp only [Span.Within, flagsStart, sdpMsgSize]
      omega
    · rw [turn]
      simp only [Span.Within]
      omega
    · intro bytes answered
      rw [turn] at answered
      cases answered

/-- A write request that ends after its command. -/
def shortWrite : EtherDatagram := ⟨0x0100007f, 0x1234, [1, 0, 0x87, 0xff, 1, 0xff, 0, 0, 0, 0, 0, 3]⟩

/-- It is answered at once, with two bytes that were not received. -/
theorem shortWrite_overread : ¬ DecodedWithinBounds (fun _ => 0) shortWrite := by
  intro within
  obtain ⟨msg, copied⟩ := message_isSome_iff.mpr
    (⟨by decide, by decide⟩ : 2 ≤ shortWrite.bytes.length ∧ shortWrite.bytes.length ≤ 286)
  have other : ¬ KeptBack msg := by
    rw [keptBack_iff copied]
    decide
  have answer : (etherTurn (fun _ => 0) shortWrite).answer =
      some (shortWrite.acknowledgement fun _ => 0).bytes := by
    rw [etherTurn_eq copied]
    exact if_neg other
  have length := (within.answered _ answer).1
  rw [acknowledgement_length] at length
  omega

/-- The memory from `flags` on. Behind the message lies what the heap holds. -/
def etherMemory (heap : Nat → Byte) (msg : SdpMsg) (i : Nat) : Byte :=
  if i < sdpBytes then msg.byte i else heap (i - sdpBytes)

/-- What `dispatch_sdp_to_ether` passes to `sendto`, the message that it is taken from,
and the bytes of the message that the copy reads. -/
structure EtherOutput where
  msg : SdpMsg
  datagram : EtherDatagram
  fetched : Span

/-- The message that is copied, and the address and port that its tag stands for. -/
def etherReceiver (msg : SdpMsg) (s : SdpDispatcher) : SdpMsg × BitVec 32 × BitVec 16 :=
  if tagTableSize ≤ msg.tag.toNat then
    ({ msg with seq := s.senderseq }, s.sendersip, s.sendersport)
  else
    let t := s.iptags msg.tag.toNat
    (msg, t.ip, htons t.port)

/-- `dispatch_sdp_to_ether`, if its assertion passes. -/
def etherOutput (heap : Nat → Byte) (msg : SdpMsg) (s : SdpDispatcher) : Option EtherOutput :=
  if msg.length.toNat ≤ sdpMsgSize - flagsOffset then
    let (msg, ip, port) := etherReceiver msg s
    let bytes := [1, 0] ++ (List.range msg.length.toNat).map (etherMemory heap msg)
    some ⟨msg, ⟨ip, port, bytes⟩, ⟨flagsStart, msg.length.toNat⟩⟩
  else none

/-- If a datagram is sent, it is the pad and the first bytes of the message, and these lie
inside the message. -/
def SentInside (heap : Nat → Byte) (msg : SdpMsg) (s : SdpDispatcher) : Prop :=
  ∀ out, etherOutput heap msg s = some out →
    out.datagram.bytes = [1, 0] ++ (List.range msg.length.toNat).map out.msg.byte ∧
      out.fetched.Within sdpMsgSize

/-- The message that `dispatch_sdp` copies from a packet of a core. -/
def SdpMsg.ofCore (packet : List Byte) : Option SdpMsg :=
  if packet.length ≤ sdpMsgSize then
    some (SdpMsg.ofBytes (fun i => packet.getD (i + flagsStart) 0)
      (half (fun i => packet.getD i 0) 4) ⟨0, 0, 0⟩)
  else none

section Send
variable {heap : Nat → Byte} {msg : SdpMsg} {s : SdpDispatcher} {out : EtherOutput}

theorem etherReceiver_length (msg : SdpMsg) (s : SdpDispatcher) :
    (etherReceiver msg s).1.length = msg.length := by
  unfold etherReceiver
  split <;> rfl

theorem etherOutput_isSome : (etherOutput heap msg s).isSome ↔ msg.length.toNat ≤ 288 := by
  unfold etherOutput
  simp only [sdpMsgSize, flagsOffset]
  split
  · rename_i passes
    exact iff_of_true rfl passes
  · rename_i fails
    exact iff_of_false (by simp) fails

theorem etherOutput_fields (sent : etherOutput heap msg s = some out) :
    out.fetched = ⟨flagsStart, msg.length.toNat⟩ ∧
      out.datagram.bytes =
        [1, 0] ++ (List.range msg.length.toNat).map (etherMemory heap out.msg) := by
  have length := etherReceiver_length msg s
  unfold etherOutput at sent
  generalize etherReceiver msg s = receiver at sent length
  obtain ⟨m, ip, port⟩ := receiver
  split at sent
  · cases sent
    rw [← length]
    exact ⟨rfl, rfl⟩
  · cases sent

/-- Up to the size of a message, what is sent is what the model of the dispatcher sends. -/
theorem dispatchSdpToEther_etherOutput (heap : Nat → Byte) (short : msg.length.toNat ≤ sdpBytes) :
    s.dispatchSdpToEther msg = (etherOutput heap msg s).map fun out =>
      { s with ether := s.ether ++ [(out.datagram, msg.request)] } := by
  have passes : msg.length.toNat ≤ sdpMsgSize - flagsOffset := by
    simp only [sdpBytes, sdpMsgSize, flagsOffset] at *
    omega
  have inside (m : SdpMsg) : (List.range msg.length.toNat).map (etherMemory heap m) =
      (List.range msg.length.toNat).map m.byte := by
    refine List.map_congr_left fun i member => ?_
    rw [etherMemory, if_pos (lt_of_lt_of_le (List.mem_range.mp member) short)]
  unfold etherOutput SdpDispatcher.dispatchSdpToEther
  rw [if_neg (not_lt.mpr short), if_pos passes]
  simp only [etherReceiver_length, Option.map_some, inside]
  unfold etherReceiver
  by_cases tagged : tagTableSize ≤ msg.tag.toNat
  · simp only [if_pos tagged]
  · simp only [if_neg tagged]

theorem sentInside_of_short (short : msg.length.toNat ≤ sdpBytes) : SentInside heap msg s := by
  intro out sent
  obtain ⟨fetched, bytes⟩ := etherOutput_fields sent
  refine ⟨?_, ?_⟩
  · rw [bytes]
    congr 1
    refine List.map_congr_left fun i member => ?_
    rw [etherMemory, if_pos (lt_of_lt_of_le (List.mem_range.mp member) short)]
  · rw [fetched]
    simp only [Span.Within, flagsStart, sdpMsgSize, sdpBytes] at *
    omega

/-- The replies of a core are never longer than a message. -/
theorem readSdp_sentInside {mem : BitVec 32 → Byte} {rawtime chipID : BitVec 32} {core : Nat}
    {request : SdpMsg} (replied : readSdp mem rawtime chipID core request = some msg) :
    SentInside heap msg s := by
  obtain ⟨-, -, -, -, -, short⟩ := readSdp_reply replied
  exact sentInside_of_short short

/-- Nor are the replies to tag requests. -/
theorem cmdIptag_sentInside {n : Nat} {request reply : SdpMsg} {t : SdpDispatcher}
    (handled : s.cmdIptag request = some (n, reply, t)) (heap : Nat → Byte) :
    SentInside heap { reply with cmdRc := 128, length := BitVec.ofNat 16 (n + 28) } t := by
  have small := cmdIptag_size handled
  refine sentInside_of_short ?_
  simp only [BitVec.toNat_ofNat, bufSize, sdpBytes] at *
  omega

end Send

/-- What is sent lies inside the message if and only if the length does not, by up to four
bytes, go past its end. -/
theorem sentInside_iff (heap : Nat → Byte) (msg : SdpMsg) (s : SdpDispatcher) :
    SentInside heap msg s ↔ msg.length.toNat ≤ 284 ∨ 288 < msg.length.toNat := by
  constructor
  · intro inside
    by_contra between
    obtain ⟨long, passes⟩ := not_or.mp between
    have sends : (etherOutput heap msg s).isSome := etherOutput_isSome.mpr (not_lt.mp passes)
    obtain ⟨out, sent⟩ := Option.isSome_iff_exists.mp sends
    have within := (inside out sent).2
    rw [(etherOutput_fields sent).1] at within
    simp only [Span.Within, flagsStart, sdpMsgSize] at within
    omega
  · rintro (short | long) out sent
    · exact sentInside_of_short short out sent
    · have passes := etherOutput_isSome.mp (Option.isSome_of_mem sent)
      omega

/-- A packet of a core for the Ethernet, with 288 in its length field. -/
def longPacket : List Byte := [0, 0, 0, 0, 32, 1, 0, 0, 7, 255, 255, 1]

/-- The dispatcher accepts it and sends four bytes from behind the message. -/
theorem longPacket_overread : ∃ msg, SdpMsg.ofCore longPacket = some msg ∧
    msg.destPort = portEth ∧ ¬ SentInside (fun _ => 0) msg (remembering 0) := by
  refine ⟨_, rfl, rfl, fun inside => ?_⟩
  exact absurd (inside _ rfl).2 (by decide)

end SpinEmu
