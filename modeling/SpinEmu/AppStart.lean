import SpinEmu.CoreStarts
import SpinEmu.EarlyAck
import Mathlib.Data.List.GetD

/-! Application-start datagrams, from the encoder of `test/test_as.c` to the queues
of the cores. The encoder puts every field in network order; the decoder converts
the command and the mask, but neither the address nor the start address. -/
namespace SpinEmu

/-- The message that `test_as.c` builds for chip `(x, y)`. Its other fields are
those of `rest`. -/
def asMessage (rest : SdpMsg) (x y : Nat) (start mask : BitVec 32) : SdpMsg :=
  let msg := { rest with
    destAddr := htons (BitVec.ofNat 16 (x <<< 8 ||| y))
    cmdRc := htons cmdAs }
  (msg.setArg1 (htonl start)).setArg2 (htonl mask)

/-- Two bytes of padding and the message from its flags on. -/
def sendMessage (ip : BitVec 32) (port : BitVec 16) (msg : SdpMsg) : EtherDatagram :=
  ⟨ip, port, [0, 0] ++ (List.range sdpBytes).map msg.byte⟩

/-- Each core that the mask selects on chip `(x, y)` has got one start message that
carries the start address as `cmd_as` reads it; no other queue has changed. -/
def AppQueued (x y : Nat) (start mask : BitVec 32) (s t : SdpDispatcher) : Prop :=
  ∀ id c, if id = s.board.chip x y ∧ c < numCpus ∧ testBit mask c = true then
      ∃ m : SdpMsg, m.cmdRc = spinEmuPacketAs ∧ m.arg1 = start ∧
        t.sdpQueue id c = s.sdpQueue id c ++ [m]
    else t.sdpQueue id c = s.sdpQueue id c

/-- The coordinates that `dispatch_as` reads from the address of chip `(x, y)`: on a
board of side up to 256 the two coordinates, exchanged. -/
def readCoordinates (x y : Nat) : Nat × Nat := (y % 256, (x ||| y / 256) % 256)

/-- The datagram is received and starts what it was encoded for. -/
def AppStarted (stale : Nat → Byte) (ip : BitVec 32) (port : BitVec 16) (rest : SdpMsg) (x y : Nat)
    (start mask : BitVec 32) (s : SdpDispatcher) : Prop :=
  ∃ t, s.receiveMsgFromEther stale (sendMessage ip port (asMessage rest x y start mask)) = some t ∧
    AppQueued x y start mask s t

section Decoding
variable {stale : Nat → Byte} {ip : BitVec 32} {port : BitVec 16} {rest msg : SdpMsg} {x y : Nat}
  {start mask : BitVec 32} {s : SdpDispatcher}

/-- The receiver finds the fields as they were sent. -/
theorem sendMessage_message (ip : BitVec 32) (port : BitVec 16) (msg : SdpMsg) :
    ∃ m, (sendMessage ip port msg).message = some m ∧ m.destAddr = msg.destAddr ∧
      m.cmdRc = msg.cmdRc ∧ m.arg1 = msg.arg1 ∧ m.arg2 = msg.arg2 := by
  have size : (sendMessage ip port msg).bytes.length = 286 := by simp [sendMessage, sdpBytes]
  have byte (i : Nat) (hi : i < sdpBytes) :
      (sendMessage ip port msg).bytes.getD (i + 2) 0 = msg.byte i := by
    rw [sendMessage, List.getD_append_right _ _ _ _ (by simp), List.length_cons,
      List.length_singleton, Nat.add_sub_cancel, List.getD_eq_getElem _ _ (by simpa using hi)]
    simp
  generalize sendMessage ip port msg = g at size byte ⊢
  let f : Nat → Byte := fun i => g.bytes.getD (i + 2) 0
  have half_eq {i : Nat} {w : BitVec 16} (fits : i + 1 < sdpBytes) (here : msg.byte i = low w)
      (next : msg.byte (i + 1) = high w) : half f i = w :=
    half_of_bytes ((byte i (by omega)).trans here) ((byte (i + 1) fits).trans next)
  have word_eq (i : Nat) (fits : i + 16 ≤ sdpBytes) :
      word (fun k => f (k + 12)) i = word msg.payload i := by
    have same (k : Nat) (hk : k < i + 4) : f (k + 12) = msg.payload k := byte (k + 12) (by omega)
    simp only [word, half]
    rw [same i (by omega), same (i + 1) (by omega), same (i + 2) (by omega),
      same (i + 2 + 1) (by omega)]
  rw [EtherDatagram.message, if_pos ⟨by omega, by rw [size]⟩]
  exact ⟨_, rfl, half_eq (by decide) rfl rfl, half_eq (by decide) rfl rfl, word_eq 0 (by decide),
    word_eq 4 (by decide)⟩

theorem asMessage_fields (rest : SdpMsg) (x y : Nat) (start mask : BitVec 32) :
    (asMessage rest x y start mask).destAddr =
      htons (BitVec.ofNat 16 (x <<< 8 ||| y)) ∧
    (asMessage rest x y start mask).cmdRc = htons cmdAs ∧
    (asMessage rest x y start mask).arg1 = htonl start ∧
    (asMessage rest x y start mask).arg2 = htonl mask := by
  refine ⟨rfl, rfl, ?_, word_putWord _ _ _⟩
  exact (word_putWord_of_ne _ _ (.inl (by decide))).trans (word_putWord _ _ _)

theorem readCoordinates_eq (x y : Nat) :
    ((htons (BitVec.ofNat 16 (x <<< 8 ||| y)) >>> 8).toNat,
      (htons (BitVec.ofNat 16 (x <<< 8 ||| y)) &&& 0xff).toNat) = readCoordinates x y := by
  have upper : (x <<< 8 ||| y) / 256 = x ||| y / 256 := by
    have := Nat.shiftRight_or_distrib (a := x <<< 8) (b := y) (i := 8)
    rwa [Nat.shiftLeft_shiftRight, Nat.shiftRight_eq_div_pow, Nat.shiftRight_eq_div_pow] at this
  have lower : (x <<< 8 ||| y) % 256 = y % 256 := by
    rw [show 256 = 2 ^ 8 from rfl, Nat.or_mod_two_pow, Nat.shiftLeft_eq, Nat.mul_mod_left,
      Nat.zero_or]
  obtain ⟨first, second⟩ := htons_coordinates (BitVec.ofNat 16 (x <<< 8 ||| y))
  rw [first, second, readCoordinates, BitVec.toNat_ofNat, ← upper, ← lower]
  congr 1 <;> omega

/-- The dispatcher starts the cores of the mask on the chip whose coordinates it
reads, with the start address as it was sent. -/
theorem receive_asMessage (stale : Nat → Byte) (ip : BitVec 32) (port : BitVec 16) (rest : SdpMsg)
    (x y : Nat) (start mask : BitVec 32) (s : SdpDispatcher) :
    ∃ (m : SdpMsg) (t : SdpDispatcher), m.cmdRc = spinEmuPacketAs ∧ m.arg1 = htonl start ∧
      t.sdpQueue = s.sdpQueue ∧
      s.receiveMsgFromEther stale (sendMessage ip port (asMessage rest x y start mask)) =
        (chipId s.board (readCoordinates x y).1 (readCoordinates x y).2).map fun id =>
          t.startCores m mask id.toNat := by
  obtain ⟨sentAddr, sentCmd, sentArg1, sentArg2⟩ :=
    asMessage_fields rest x y start mask
  obtain ⟨m, copied, addr, cmd, arg1, arg2⟩ :=
    sendMessage_message ip port (asMessage rest x y start mask)
  rw [sentAddr] at addr
  rw [sentCmd] at cmd
  generalize sendMessage ip port (asMessage rest x y start mask) = g at copied ⊢
  have early : (s.answerEarly stale g m).sdpQueue = s.sdpQueue ∧
      (s.answerEarly stale g m).board = s.board := by
    unfold SdpDispatcher.answerEarly
    split <;> exact ⟨rfl, rfl⟩
  have type : ntohs m.cmdRc = cmdAs := by rw [cmd, ntohs_htons]
  have same := readCoordinates_eq x y
  refine ⟨{ m with cmdRc := spinEmuPacketAs }, s.answerEarly stale g m, rfl, ?_, early.1, ?_⟩
  · exact arg1.trans sentArg1
  · rw [SdpDispatcher.receiveMsgFromEther, copied, Option.bind_eq_bind, Option.bind_some]
    simp only [SdpDispatcher.processMessage, type, if_true,
      SdpDispatcher.dispatchAs, arg2, sentArg2, ntohl_htonl, addr, early.2, ← same]
    cases chipId s.board _ _ <;> rfl

theorem readCoordinates_same (same : readCoordinates x y = (x, y)) : x = y ∧ y < 256 := by
  simp only [readCoordinates, Prod.mk.injEq] at same
  omega

theorem readCoordinates_diagonal (small : y < 256) : readCoordinates y y = (y, y) := by
  rw [readCoordinates, Nat.div_eq_of_lt small, Nat.or_zero, Nat.mod_eq_of_lt small]

end Decoding

section Decoded
variable (stale : Nat → Byte) (ip : BitVec 32) (port : BitVec 16) (rest : SdpMsg) {x y : Nat}
  (start mask : BitVec 32) {s : SdpDispatcher}

/-- A start datagram for a chip of the board does what it was encoded for if and
only if the board has the chip at the exchanged coordinates and, unless the mask
selects no core, the chip is on the diagonal and the start address reads the same
from both ends. -/
theorem appStarted_iff (hy : y < s.board.numChipsY) :
    AppStarted stale ip port rest x y start mask s ↔
      ((readCoordinates x y).1 < s.board.numChipsX ∧ (readCoordinates x y).2 < s.board.numChipsY) ∧
        ((∀ c < numCpus, testBit mask c = false) ∨ x = y ∧ y < 256 ∧ htonl start = start) := by
  obtain ⟨m, t, code, arg1, queues, received⟩ :=
    receive_asMessage stale ip port rest x y start mask s
  rw [chipId_natCast] at received
  have started (id : Nat) (c : Nat) : (t.startCores m mask id).sdpQueue (s.board.chip x y) c =
      if s.board.chip x y = id ∧ c < numCpus ∧ testBit mask c = true then
        s.sdpQueue (s.board.chip x y) c ++ [m] else s.sdpQueue (s.board.chip x y) c := by
    rw [SdpDispatcher.startCores_starts.queue, queues]
    simp only [SdpDispatcher.mem_startedOn]
  constructor
  · rintro ⟨u, result, queued⟩
    rw [received] at result
    split at result
    · rename_i inside
      refine ⟨inside, ?_⟩
      cases result
      by_cases none : ∀ c < numCpus, testBit mask c = false
      · exact .inl none
      · simp only [not_forall, Bool.not_eq_false] at none
        obtain ⟨c, hc, bit⟩ := none
        have mine := queued (s.board.chip x y) c
        rw [if_pos ⟨rfl, hc, bit⟩] at mine
        obtain ⟨m', _, address, mine⟩ := mine
        simp only [Int.toNat_natCast, started] at mine
        split at mine
        · rename_i here
          obtain ⟨same, _⟩ := here
          obtain ⟨alikeX, alikeY⟩ := chip_inj hy inside.2 same
          obtain ⟨diagonal, small⟩ := readCoordinates_same (Prod.ext alikeX.symm alikeY.symm)
          have same : [m] = [m'] := List.append_cancel_left mine
          rw [List.singleton_inj.mp same, address] at arg1
          exact .inr ⟨diagonal, small, arg1.symm⟩
        · have sizes := congrArg List.length mine
          simp at sizes
    · cases result
  · rintro ⟨inside, fits⟩
    rw [if_pos inside] at received
    refine ⟨_, received, fun id c => ?_⟩
    simp only [Int.toNat_natCast]
    rw [SdpDispatcher.startCores_starts.queue, queues]
    simp only [SdpDispatcher.mem_startedOn]
    rcases fits with none | ⟨rfl, small, same⟩
    · have off : ¬ (c < numCpus ∧ testBit mask c = true) := by
        rintro ⟨hc, bit⟩
        rw [none c hc] at bit
        cases bit
      rw [if_neg fun all => off all.2, if_neg fun all => off all.2]
    · rw [readCoordinates_diagonal small]
      split
      · exact ⟨m, code, arg1.trans same, rfl⟩
      · rfl

end Decoded

/-- The message of `test_as.c` before the fields that `asMessage` sets. -/
def testMessage : SdpMsg :=
  { SdpMsg.cleared with
    length := htons 292, flags := 0x07, destPort := 0x01, srcePort := 0xff
    srceAddr := htons 0x0101 }

def twoByTwo : SdpDispatcher := { remembering 0 with board := ⟨2, 2⟩, initialised := true }

/-- Chip `(1, 1)`, which the test uses, and a start address that is the same in both
byte orders. -/
theorem appStarted_diagonal :
    AppStarted (fun _ => 0) 0x0100007f 0x1234 testMessage 1 1 0x60000060 2 twoByTwo :=
  (appStarted_iff (fun _ => 0) 0x0100007f 0x1234 testMessage 0x60000060 2 (by decide)).mpr
    ⟨by decide, .inr ⟨rfl, by decide, by decide⟩⟩

/-- Core 1 of chip `(0, 1)` gets no message. -/
theorem appStart_lost :
    ¬ AppStarted (fun _ => 0) 0x0100007f 0x1234 testMessage 0 1 0xf5000000 2 twoByTwo := by
  rintro ⟨t, received, queued⟩
  have mine := queued 1 1
  rw [if_pos (by decide)] at mine
  obtain ⟨m, _, _, mine⟩ := mine
  have size : (twoByTwo.receiveMsgFromEther (fun _ => 0) (sendMessage 0x0100007f 0x1234
      (asMessage testMessage 0 1 0xf5000000 2))).map
        (fun t => (t.sdpQueue 1 1).length) = some 0 := by
    decide +kernel
  rw [received, Option.map_some, mine] at size
  simp at size
end SpinEmu
