import SpinEmu.BarrierSystem
import SpinEmu.SdpDispatcher
import SpinEmu.Lib.Format
import Mathlib.Data.List.GetD

/-! The datagrams between the dispatcher and the cores, byte for byte. What one side
takes out of a datagram is what the other side has put into it. -/
namespace SpinEmu
open Lib

abbrev spinEmuPacketMc : Byte := 0x42
abbrev spinEmuPacketSdp : Byte := 0x43
abbrev spinEmuPacketRoute : Byte := 0x44
abbrev spinEmuPacketFinished : Byte := 0x48

/-- `sizeof(sdp_msg_t)`. -/
abbrev sdpMsgBytes : Nat := 292

/-- `spin_emu_send_mc`. -/
def sendMcBytes (m : SpinEmuMc) : List Byte :=
  let len := if m.hasPayload ≠ 0 then 8 else 4
  spinEmuPacketMc :: (Format.wordBytes m.key ++ Format.wordBytes m.payload).take len

/-- `spin_emu_send_route`. -/
def sendRouteBytes (p : SpinEmuRoutePacket) : List Byte :=
  spinEmuPacketRoute :: (Format.wordBytes (BitVec.ofInt 32 p.index) ++
    (Format.wordBytes p.entry.key ++
      (Format.wordBytes p.entry.mask ++ Format.wordBytes p.entry.route)))

/-- The whole of a message, as `spin1_send_sdp_msg` and `flush_sdp_queues` send it. Its
link and its checksum are what happens to stand there. -/
def sendSdpBytes (stale : Nat → Byte) (m : SdpMsg) : List Byte :=
  spinEmuPacketSdp :: ([stale 0, stale 1, stale 2, stale 3, low m.length, high m.length,
    stale 6, stale 7] ++ (List.range sdpBytes).map m.byte)

def sendFinishedBytes : List Byte := [spinEmuPacketFinished]

def bufWord (buf : List Byte) (i : Nat) : BitVec 32 := word (buf.getD · 0) i

/-- The packet that `dispatch_mc` queues. -/
def dispatchMcBuf (buf : List Byte) : Option SpinEmuMc :=
  if buf.length = 4 then some ⟨bufWord buf 0, 0, 0⟩
  else if buf.length = 8 then some ⟨bufWord buf 0, bufWord buf 4, 1⟩
  else none

/-- The entry that `store_route` stores. -/
def storeRouteBuf (buf : List Byte) : Option SpinEmuRoutePacket :=
  if buf.length = 16 then
    some ⟨(bufWord buf 0).toInt, bufWord buf 4, bufWord buf 8, bufWord buf 12⟩
  else none

/-- The message in a buffer. What the buffer does not reach is zero. -/
def sdpBuf (buf : List Byte) (request : Requester) : SdpMsg :=
  SdpMsg.ofBytes (fun i => buf.getD (i + 8) 0) (half (buf.getD · 0) 4) request

/-- A packet as it comes out of a datagram: a payload that is not sent is zero. -/
def SpinEmuMc.Canonical (m : SpinEmuMc) : Prop :=
  m.hasPayload = 1 ∨ m.hasPayload = 0 ∧ m.payload = 0

instance (m : SpinEmuMc) : Decidable m.Canonical := inferInstanceAs (Decidable (_ ∨ _))

/-- What arrives of a packet. -/
def SpinEmuMc.received (m : SpinEmuMc) : SpinEmuMc :=
  if m.hasPayload ≠ 0 then { m with hasPayload := 1 } else { m with payload := 0 }

theorem SpinEmuMc.received_canonical (m : SpinEmuMc) : m.received.Canonical := by
  unfold received
  split
  · exact .inl rfl
  · rename_i none
    exact .inr ⟨not_not.mp none, rfl⟩

theorem SpinEmuMc.Canonical.received {m : SpinEmuMc} (canonical : m.Canonical) : m.received = m := by
  obtain ⟨key, payload, hasPayload⟩ := m
  rcases canonical with one | ⟨zero, none⟩
  · obtain rfl : hasPayload = 1 := one
    rfl
  · obtain rfl : hasPayload = 0 := zero
    obtain rfl : payload = 0 := none
    rfl

@[simp] theorem SpinEmuMc.received_key (m : SpinEmuMc) : m.received.key = m.key := by
  unfold received
  split <;> rfl

/-- An index that fits its field. -/
def SpinEmuRoutePacket.Fits (p : SpinEmuRoutePacket) : Prop :=
  -2 ^ 31 ≤ p.index ∧ p.index < 2 ^ 31

namespace Wire

/-! The formats of the two kinds that the dispatcher keeps for itself. -/

def wordPair : Format (BitVec 32 × BitVec 32) := Format.word.pair Format.word Format.word_fixed

theorem wordPair_fixed : wordPair.Fixed 8 := Format.word_fixed.pair Format.word_fixed

/-- A key alone, or a key and a payload. -/
def mcContent : BitVec 32 ⊕ BitVec 32 × BitVec 32 ≃ { m : SpinEmuMc // m.Canonical } where
  toFun
    | .inl key => ⟨⟨key, 0, 0⟩, .inr ⟨rfl, rfl⟩⟩
    | .inr (key, payload) => ⟨⟨key, payload, 1⟩, .inl rfl⟩
  invFun m := if m.val.hasPayload = 0 then .inl m.val.key else .inr (m.val.key, m.val.payload)
  left_inv x := by
    cases x <;> rfl
  right_inv m := by
    obtain ⟨⟨key, payload, hasPayload⟩, one | ⟨zero, none⟩⟩ := m
    · obtain rfl : hasPayload = 1 := one
      rfl
    · obtain rfl : hasPayload = 0 := zero
      obtain rfl : payload = 0 := none
      rfl

def mcFormat : Format { m : SpinEmuMc // m.Canonical } :=
  (Format.word.either wordPair
    (Format.apart_of_fixed Format.word_fixed wordPair_fixed (by decide))).iso mcContent

def routeContent : (BitVec 32 × BitVec 32) × BitVec 32 × BitVec 32 ≃
    { p : SpinEmuRoutePacket // p.Fits } where
  toFun x := ⟨⟨x.1.1.toInt, x.1.2, x.2.1, x.2.2⟩, BitVec.le_toInt _, BitVec.toInt_lt⟩
  invFun p := ((BitVec.ofInt 32 p.val.index, p.val.entry.key), p.val.entry.mask, p.val.entry.route)
  left_inv x := Prod.ext (Prod.ext BitVec.ofInt_toInt rfl) rfl
  right_inv p := by
    obtain ⟨⟨index, entry⟩, fits⟩ := p
    have index : (BitVec.ofInt 32 index).toInt = index := by
      simp only [SpinEmuRoutePacket.Fits] at fits
      rw [BitVec.toInt_ofInt, Int.bmod_eq_of_le] <;> omega
    simp only [index]

def routeFormat : Format { p : SpinEmuRoutePacket // p.Fits } :=
  (wordPair.pair wordPair wordPair_fixed).iso routeContent

section Buffers
variable {buf : List Byte} {m : SpinEmuMc} {p : SpinEmuRoutePacket}

theorem decode_word (size : buf.length = 4) :
    Format.word.decode buf = some (bufWord buf 0) := by
  match buf, size with
  | [_, _, _, _], _ => rfl

theorem decode_wordPair (size : buf.length = 8) :
    wordPair.decode buf = some (bufWord buf 0, bufWord buf 4) := by
  match buf, size with
  | [_, _, _, _, _, _, _, _], _ => rfl

theorem dispatchMcBuf_eq (buf : List Byte) :
    dispatchMcBuf buf = (mcFormat.decode buf).map Subtype.val := by
  unfold dispatchMcBuf
  simp only [mcFormat, Format.iso, Format.either]
  split
  · rename_i size
    rw [decode_word size]
    rfl
  · rename_i long
    rw [Format.word_fixed.decode_eq_none long]
    split
    · rename_i size
      rw [decode_wordPair size]
      rfl
    · rename_i longer
      rw [wordPair_fixed.decode_eq_none longer]
      rfl

theorem storeRouteBuf_eq (buf : List Byte) :
    storeRouteBuf buf = (routeFormat.decode buf).map Subtype.val := by
  unfold storeRouteBuf
  split
  · rename_i size
    match buf, size with
    | [_, _, _, _, _, _, _, _, _, _, _, _, _, _, _, _], _ => rfl
  · rename_i other
    have fixed : routeFormat.Fixed (8 + 8) := (wordPair_fixed.pair wordPair_fixed).iso routeContent
    rw [fixed.decode_eq_none other]
    rfl

theorem sendMcBytes_eq (m : SpinEmuMc) : sendMcBytes m =
    (Format.tagged spinEmuPacketMc mcFormat).encode ⟨m.received, m.received_canonical⟩ := by
  unfold sendMcBytes SpinEmuMc.received
  split
  · rfl
  · rename_i none
    simp only [Format.tagged, mcFormat, Format.iso, mcContent, Equiv.coe_fn_symm_mk,
      not_not.mp none, if_true]
    rfl

theorem sendRouteBytes_eq (fits : p.Fits) :
    sendRouteBytes p = (Format.tagged spinEmuPacketRoute routeFormat).encode ⟨p, fits⟩ := by
  simp only [sendRouteBytes, Format.tagged, routeFormat, Format.iso, routeContent, Format.pair,
    wordPair, List.append_assoc]
  rfl

/-- `dispatch_mc` takes exactly what `spin_emu_send_mc` sends. -/
theorem dispatchMcBuf_eq_some : dispatchMcBuf buf = some m ↔
    spinEmuPacketMc :: buf = sendMcBytes m ∧ m.Canonical := by
  rw [dispatchMcBuf_eq, Option.map_eq_some_iff]
  constructor
  · rintro ⟨x, read, rfl⟩
    have same : x = ⟨x.val.received, x.val.received_canonical⟩ :=
      Subtype.ext x.property.received.symm
    rw [sendMcBytes_eq, ← same]
    exact ⟨Format.cons_eq_tagged.mpr read, x.property⟩
  · rintro ⟨sent, canonical⟩
    rw [sendMcBytes_eq] at sent
    exact ⟨_, Format.cons_eq_tagged.mp sent, canonical.received⟩

/-- `store_route` takes exactly what `spin_emu_send_route` sends. -/
theorem storeRouteBuf_eq_some : storeRouteBuf buf = some p ↔
    spinEmuPacketRoute :: buf = sendRouteBytes p ∧ p.Fits := by
  rw [storeRouteBuf_eq, Option.map_eq_some_iff]
  constructor
  · rintro ⟨x, read, rfl⟩
    rw [sendRouteBytes_eq x.property]
    exact ⟨Format.cons_eq_tagged.mpr read, x.property⟩
  · rintro ⟨sent, fits⟩
    rw [sendRouteBytes_eq fits] at sent
    exact ⟨_, Format.cons_eq_tagged.mp sent, rfl⟩

theorem dispatchMcBuf_send (m : SpinEmuMc) : ∃ buf, sendMcBytes m = spinEmuPacketMc :: buf ∧
    dispatchMcBuf buf = some m.received := by
  refine ⟨_, sendMcBytes_eq m, ?_⟩
  rw [dispatchMcBuf_eq, Format.decode_encode]
  rfl

end Buffers

end Wire

/-- A message that says nothing past its data. -/
def SdpMsg.Clean (m : SdpMsg) : Prop := ∀ i, 272 ≤ i → m.payload i = 0

theorem sdpBuf_clean {buf : List Byte} {request : Requester} (short : buf.length ≤ sdpMsgBytes) :
    (sdpBuf buf request).Clean := by
  intro i past
  exact List.getD_eq_default _ _ (by simp only [sdpMsgBytes] at short; omega)

/-- A message is made of its bytes. -/
theorem ofBytes_byte {m : SdpMsg} (clean : m.Clean) {f : Nat → Byte}
    (inside : ∀ i < sdpBytes, f i = m.byte i) (past : ∀ i, sdpBytes ≤ i → f i = 0) :
    SdpMsg.ofBytes f m.length m.request = m := by
  have pair {i : Nat} {w : BitVec 16} (hi : i + 1 < sdpBytes) (here : m.byte i = low w)
      (next : m.byte (i + 1) = high w) : half f i = w :=
    half_of_bytes ((inside i (Nat.lt_of_succ_lt hi)).trans here) ((inside (i + 1) hi).trans next)
  have payload : (fun i => f (i + 12)) = m.payload := by
    funext i
    by_cases data : i < 272
    · exact inside (i + 12) (by simp only [sdpBytes]; omega)
    · rw [clean i (Nat.le_of_not_lt data)]
      exact past (i + 12) (by simp only [sdpBytes]; omega)
  rw [SdpMsg.ofBytes, payload, inside 0 (by decide), inside 1 (by decide), inside 2 (by decide),
    inside 3 (by decide), pair (w := m.destAddr) (i := 4) (by decide) rfl rfl,
    pair (w := m.srceAddr) (i := 6) (by decide) rfl rfl,
    pair (w := m.cmdRc) (i := 8) (by decide) rfl rfl, pair (w := m.seq) (i := 10) (by decide) rfl rfl]
  rfl

/-- A message comes out of its datagram as it was put in. -/
theorem sdpBuf_send (stale : Nat → Byte) {m : SdpMsg} (clean : m.Clean) :
    ∃ buf, sendSdpBytes stale m = spinEmuPacketSdp :: buf ∧ buf.length = sdpMsgBytes ∧
      sdpBuf buf m.request = m := by
  refine ⟨_, rfl, by simp, ?_⟩
  rw [sdpBuf, show half _ 4 = m.length from half_of_bytes rfl rfl]
  apply ofBytes_byte clean
  · intro i hi
    rw [List.getD_append_right _ _ _ _ (by simp), List.getD_eq_getElem _ _ (by simpa using hi)]
    simp
  · intro i hi
    exact List.getD_eq_default _ _ (by simpa using hi)

end SpinEmu
