import SpinEmu.CoreStarts
import SpinEmu.EarlyAck

/-! Which queues the handling of a message touches, and which assertions it meets on
the way. The chip and the core come from the message; only the chip is tested, and
by an assertion. -/
namespace SpinEmu

/-- An assertion with its outcome, or a use of `sdp_queue[id][c]` and
`sdp_queue_tail[id][c]`. -/
inductive Check where
  | assertion (holds : Bool)
  | access (id : Int) (c : Nat)
  deriving DecidableEq

def Check.Passes (b : Board) : Check → Prop
  | assertion holds => holds = true
  | access id c => 0 ≤ id ∧ id < b.numChips ∧ c < numCpus

def chipIdChecks (b : Board) (x y : Int) : List Check :=
  [.assertion (0 ≤ x ∧ x < b.numChipsX), .assertion (0 ≤ y ∧ y < b.numChipsY)]

/-- The checks of `queue_sdp`, which `dispatch_sdp_one` repeats. -/
def queueSdpChecks (b : Board) (msg : SdpMsg) : List Check :=
  let x : Int := (msg.destAddr >>> 8).toNat
  let y : Int := (msg.destAddr &&& 0xff).toNat
  let c := (msg.destPort &&& 0x1f).toNat
  chipIdChecks b x y ++ [.access (x * b.numChipsY + y) c]

/-- `sizeof(sdp_msg_t)`, and the offset of `flags` from `length`. -/
abbrev sdpMsgSize : Nat := 292
abbrev flagsOffset : Nat := 4

def dispatchSdpToEtherChecks (msg : SdpMsg) : List Check :=
  [.assertion (msg.length.toNat ≤ sdpMsgSize - flagsOffset)]

def dispatchSdpOneChecks (b : Board) (msg : SdpMsg) : List Check :=
  if msg.destPort = portEth then dispatchSdpToEtherChecks msg else queueSdpChecks b msg

def startChecks (cores : List (Nat × Nat)) : List Check := cores.map fun v => .access v.1 v.2

def dispatchAsChecks (b : Board) (msg : SdpMsg) : List Check :=
  let mask := ntohl msg.arg2
  let x : Int := (msg.destAddr >>> 8).toNat
  let y : Int := (msg.destAddr &&& 0xff).toNat
  chipIdChecks b x y ++
    ((List.range b.numChips).filter fun c : Nat => (c : Int) = x * b.numChipsY + y).flatMap fun c =>
      startChecks (SdpDispatcher.startedOn mask c)

def floodAsChecks (b : Board) (msg : SdpMsg) : List Check :=
  startChecks (SdpDispatcher.startedEverywhere b msg.arg2)

def cmdFloodfillChecks (b : Board) : List Check :=
  (List.range b.numChips).map fun c : Nat => .access c 1

/-- The chip numbers that the loop over the links of a new board computes. -/
def cmdP2pcChecks (s : SdpDispatcher) (x y : Nat) : List Check :=
  if s.initialised then []
  else (List.range (x * y)).flatMap fun perchip : Nat =>
    (List.range numLinks).map fun perlink : Nat =>
      .assertion (channelTarget ⟨x, y⟩ perchip perlink).isSome

/-- The checks of `process_message`. A table request that reads past the tags meets
none before it does. -/
def processMessageChecks (s : SdpDispatcher) (msg : SdpMsg) : List Check :=
  let type := ntohs msg.cmdRc
  if type = cmdVer then queueSdpChecks s.board { msg with cmdRc := spinEmuPacketVer }
  else if type = cmdRead then queueSdpChecks s.board { msg with cmdRc := spinEmuPacketRead }
  else if type = cmdWrite then queueSdpChecks s.board { msg with cmdRc := spinEmuPacketWrite }
  else if type = cmdNnp then
    let cmd := msg.arg1 >>> 24
    if cmd == 6 then []
    else if cmd == 15 then floodAsChecks s.board msg
    else []
  else if type = SpinEmu.cmdP2pc then
    let size := ntohl msg.arg2
    cmdP2pcChecks s (size &&& 0xff).toNat ((size >>> 8) &&& 0xff).toNat
  else if type = cmdFfd then cmdFloodfillChecks s.board
  else if type = cmdAs then dispatchAsChecks s.board msg
  else if type = SpinEmu.cmdIptag then
    ((s.cmdIptag msg).map fun r => dispatchSdpToEtherChecks
      { r.2.1 with cmdRc := 128, length := BitVec.ofNat 16 (r.1 + 28) }).getD []
  else queueSdpChecks s.board msg

/-- Where a message is to go: to one core, to cores of one chip, or to no core that
its address names. Flood-fill messages are for the whole board. -/
inductive Destination where
  | core (x y c : Nat)
  | chip (x y : Nat)
  | unaddressed

def Destination.Exists (b : Board) : Destination → Prop
  | core x y c => x < b.numChipsX ∧ y < b.numChipsY ∧ c < numCpus
  | chip x y => x < b.numChipsX ∧ y < b.numChipsY
  | unaddressed => True

namespace SdpMsg

def destCore (msg : SdpMsg) : Destination :=
  .core (msg.destAddr >>> 8).toNat (msg.destAddr &&& 0xff).toNat (msg.destPort &&& 0x1f).toNat

def destChip (msg : SdpMsg) : Destination :=
  .chip (msg.destAddr >>> 8).toNat (msg.destAddr &&& 0xff).toNat

end SdpMsg

section Checks
variable {b : Board} {s : SdpDispatcher} {msg : SdpMsg} {x y : Nat}

theorem chipIdChecks_pass : (∀ k ∈ chipIdChecks b x y, k.Passes b) ↔
    x < b.numChipsX ∧ y < b.numChipsY := by
  simp [chipIdChecks, Check.Passes]

theorem access_pass (hx : x < b.numChipsX) (hy : y < b.numChipsY) (c : Nat) :
    (Check.access (x * b.numChipsY + y) c).Passes b ↔ c < numCpus := by
  have inside : ((b.chip x y : Nat) : Int) < b.numChips := Int.ofNat_lt.mpr (Board.chip_lt hx hy)
  have chip : ((b.chip x y : Nat) : Int) = x * b.numChipsY + y := by simp [Board.chip]
  have first := Int.natCast_nonneg (b.chip x y)
  rw [chip] at inside first
  exact ⟨fun pass => pass.2.2, fun core => ⟨first, inside, core⟩⟩

theorem queueSdpChecks_pass :
    (∀ k ∈ queueSdpChecks b msg, k.Passes b) ↔ msg.destCore.Exists b := by
  simp only [queueSdpChecks, List.forall_mem_append, List.forall_mem_singleton, chipIdChecks_pass,
    SdpMsg.destCore, Destination.Exists, and_assoc]
  exact and_congr_right fun hx => and_congr_right fun hy => access_pass hx hy _

/-- The assertions hold and the queue exists exactly when the model queues the
message. -/
theorem queueSdp_isSome :
    (s.queueSdp msg).isSome = true ↔ ∀ k ∈ queueSdpChecks s.board msg, k.Passes s.board := by
  rw [queueSdpChecks_pass, SdpDispatcher.queueSdp, chipId_natCast]
  simp only [SdpMsg.destCore, Destination.Exists]
  split
  · rename_i inside
    simp only [Option.bind_eq_bind, Option.bind_some, inside, true_and]
    split <;> simp_all
  · rename_i outside
    simp only [Option.bind_eq_bind, Option.bind_none, Option.isSome_none, Bool.false_eq_true,
      false_iff]
    exact fun inside => outside ⟨inside.1, inside.2.1⟩

theorem startChecks_pass {cores : List (Nat × Nat)}
    (inside : ∀ v ∈ cores, v.1 < b.numChips ∧ v.2 < numCpus) :
    ∀ k ∈ startChecks cores, k.Passes b := by
  intro k member
  obtain ⟨v, here, rfl⟩ := List.mem_map.mp member
  obtain ⟨chip, core⟩ := inside v here
  exact ⟨Int.natCast_nonneg _, Int.ofNat_lt.mpr chip, core⟩

theorem dispatchAsChecks_pass :
    (∀ k ∈ dispatchAsChecks b msg, k.Passes b) ↔ msg.destChip.Exists b := by
  simp only [dispatchAsChecks, List.forall_mem_append, chipIdChecks_pass, SdpMsg.destChip,
    Destination.Exists, and_iff_left_iff_imp]
  intro _ k member
  obtain ⟨c, here, member⟩ := List.mem_flatMap.mp member
  have chip := List.mem_range.mp (List.mem_filter.mp here).1
  refine startChecks_pass (fun v started => ?_) k member
  obtain ⟨same, core, _⟩ := SdpDispatcher.mem_startedOn.mp started
  exact ⟨same ▸ chip, core⟩

theorem dispatchAs_isSome :
    (s.dispatchAs msg).isSome = true ↔ ∀ k ∈ dispatchAsChecks s.board msg, k.Passes s.board := by
  rw [dispatchAsChecks_pass, SdpDispatcher.dispatchAs, chipId_natCast]
  simp only [SdpMsg.destChip, Destination.Exists]
  split
  · rename_i inside
    simpa using inside
  · rename_i outside
    simpa using outside

theorem floodAsChecks_pass : ∀ k ∈ floodAsChecks b msg, k.Passes b := by
  refine startChecks_pass fun v started => ?_
  obtain ⟨chip, core, _⟩ := SdpDispatcher.mem_startedEverywhere.mp started
  exact ⟨chip, core⟩

theorem cmdFloodfillChecks_pass : ∀ k ∈ cmdFloodfillChecks b, k.Passes b := by
  intro k member
  obtain ⟨c, here, rfl⟩ := List.mem_map.mp member
  exact ⟨Int.natCast_nonneg _, Int.ofNat_lt.mpr (List.mem_range.mp here), by decide⟩

/-- The coordinates of the chips of a new board, and of their neighbours on it, pass
the assertions. -/
theorem cmdP2pcChecks_pass : ∀ k ∈ cmdP2pcChecks s x y, k.Passes b := by
  unfold cmdP2pcChecks
  split
  · simp
  · intro k member
    obtain ⟨perchip, chip, member⟩ := List.mem_flatMap.mp member
    obtain ⟨perlink, link, rfl⟩ := List.mem_map.mp member
    obtain ⟨hx, hy, here⟩ := Board.coordinates (b := ⟨x, y⟩) (List.mem_range.mp chip)
    have target := channelTarget_chip hx hy ⟨perlink, List.mem_range.mp link⟩
    rw [here] at target
    rw [Check.Passes, target]
    split <;> rfl

/-- No reply to a tag request is longer than a message. -/
theorem cmdIptag_size {len2 : Nat} {reply : SdpMsg} {t : SdpDispatcher}
    (result : s.cmdIptag msg = some (len2, reply, t)) : len2 ≤ bufSize := by
  unfold SdpDispatcher.cmdIptag at result
  simp only at result
  split at result
  · cases result
    exact Nat.zero_le _
  · split at result
    · cases result
      decide
    · split at result
      · split at result
        · cases result
          exact Nat.zero_le _
        · rename_i short
          split at result
          · cases result
          · cases result
            exact Nat.le_of_not_lt short
      · split at result
        · cases result
          decide
        · cases result
          exact Nat.zero_le _

/-- The model handles a message exactly when the checks pass, but for a table request,
which can also read past the tags. -/
theorem processMessage_isSome (other : ntohs msg.cmdRc ≠ SpinEmu.cmdIptag) :
    (s.processMessage msg).isSome = true ↔
      ∀ k ∈ processMessageChecks s msg, k.Passes s.board := by
  have always {l : List Check} (pass : ∀ k ∈ l, k.Passes s.board) (t : SdpDispatcher) :
      (some t).isSome = true ↔ ∀ k ∈ l, k.Passes s.board := iff_of_true rfl pass
  unfold processMessageChecks SdpDispatcher.processMessage
  simp only
  iterate 3
    split
    · exact queueSdp_isSome
  by_cases nnp : ntohs msg.cmdRc = cmdNnp
  · rw [if_pos nnp, if_pos nnp]
    split
    · exact always (by simp) _
    · split
      · exact always floodAsChecks_pass _
      · exact always (by simp) _
  rw [if_neg nnp, if_neg nnp]
  split
  · exact always cmdP2pcChecks_pass _
  split
  · exact always cmdFloodfillChecks_pass _
  split
  · exact dispatchAs_isSome
  · exact queueSdp_isSome

theorem dispatchSdpOne_isSome (handled : (s.dispatchSdpOne msg).isSome = true) :
    ∀ k ∈ dispatchSdpOneChecks s.board msg, k.Passes s.board := by
  unfold SdpDispatcher.dispatchSdpOne at handled
  unfold dispatchSdpOneChecks
  split
  · rename_i port
    rw [if_pos port] at handled
    unfold SdpDispatcher.dispatchSdpToEther at handled
    split at handled
    · cases handled
    · rename_i short
      simp only [sdpBytes] at short
      simp only [dispatchSdpToEtherChecks, List.forall_mem_singleton, Check.Passes,
        decide_eq_true_eq, sdpMsgSize, flagsOffset]
      omega
  · rename_i port
    rw [if_neg port] at handled
    exact queueSdp_isSome.mp handled

end Checks

end SpinEmu
