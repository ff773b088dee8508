import SpinEmu.SdpDispatcher

/-! What the application starts leave in the queues of the cores, in the running
flags and in their count. Both start commands are folds over pairs of a chip and a
core. -/
namespace SpinEmu
namespace SdpDispatcher
variable {s : SdpDispatcher} {msg : SdpMsg} {mask : BitVec 32} {id c : Nat}

theorem queueSdpXy_queue (id' c' : Nat) :
    (s.queueSdpXy msg id c).sdpQueue id' c' =
      if (id', c') = (id, c) then s.sdpQueue id' c' ++ [msg] else s.sdpQueue id' c' := by
  simp only [queueSdpXy, update_table]
  split
  · rename_i here
    rw [(Prod.mk.inj here).1, (Prod.mk.inj here).2]
  · rfl

/-- The cores that a mask starts on one chip. -/
def startedOn (mask : BitVec 32) (id : Nat) : List (Nat × Nat) :=
  ((List.range numCpus).filter fun i => testBit mask i).map (id, ·)

/-- The cores that a mask starts on every chip of the board. -/
def startedEverywhere (b : Board) (mask : BitVec 32) : List (Nat × Nat) :=
  (List.range b.numChips).flatMap (startedOn mask)

def startAll (msg : SdpMsg) (l : List (Nat × Nat)) (s : SdpDispatcher) : SdpDispatcher :=
  l.foldl (fun s v => startCore msg v.1 s v.2) s

theorem startCores_eq : s.startCores msg mask id = s.startAll msg (startedOn mask id) := by
  rw [startCores, startAll, startedOn, List.foldl_map]

theorem floodAs_eq : s.floodAs msg =
    s.startAll (SdpMsg.setArg1 { msg with cmdRc := spinEmuPacketAs } s.floodfill)
      (startedEverywhere s.board msg.arg2) := by
  simp only [floodAs, startAll, startedEverywhere, List.foldl_flatMap, startCores_eq]

theorem mem_startedOn {v : Nat × Nat} :
    v ∈ startedOn mask id ↔ v.1 = id ∧ v.2 < numCpus ∧ testBit mask v.2 = true := by
  simp only [startedOn, List.mem_map, List.mem_filter, List.mem_range]
  constructor
  · rintro ⟨i, selected, rfl⟩
    exact ⟨rfl, selected⟩
  · rintro ⟨rfl, selected⟩
    exact ⟨v.2, selected, rfl⟩

theorem mem_startedEverywhere {b : Board} {v : Nat × Nat} :
    v ∈ startedEverywhere b mask ↔
      v.1 < b.numChips ∧ v.2 < numCpus ∧ testBit mask v.2 = true := by
  simp only [startedEverywhere, List.mem_flatMap, List.mem_range, mem_startedOn]
  constructor
  · rintro ⟨id, inside, rfl, selected⟩
    exact ⟨inside, selected⟩
  · rintro ⟨inside, selected⟩
    exact ⟨v.1, inside, rfl, selected⟩

theorem startedOn_nodup : (startedOn mask id).Nodup :=
  (List.nodup_range.filter _).map (Prod.mk_right_injective id)

theorem startedEverywhere_nodup (b : Board) : (startedEverywhere b mask).Nodup := by
  rw [startedEverywhere, List.nodup_flatMap]
  refine ⟨fun id _ => startedOn_nodup, List.nodup_range.imp ?_⟩
  intro id id' apart v here there
  exact apart ((mem_startedOn.mp here).1.symm.trans (mem_startedOn.mp there).1)

/-- What starting each core of a list does. -/
structure Starts (msg : SdpMsg) (l : List (Nat × Nat)) (s t : SdpDispatcher) : Prop where
  queue : ∀ id c, t.sdpQueue id c =
    if (id, c) ∈ l then s.sdpQueue id c ++ [msg] else s.sdpQueue id c
  running : ∀ id c, t.spinEmuRunning id c = (decide ((id, c) ∈ l) || s.spinEmuRunning id c)
  count : t.spinEmuRunningCount = s.spinEmuRunningCount + l.length
  board : t.board = s.board
  floodfill : t.floodfill = s.floodfill

theorem startCore_starts (v : Nat × Nat) : Starts msg [v] s (startCore msg v.1 s v.2) where
  queue id c := by
    simp only [startCore, queueSdpXy_queue, List.mem_singleton]
  running id c := by
    simp only [startCore, update_table, List.mem_singleton]
    by_cases here : (id, c) = v
    · simp [here]
    · simp [here, queueSdpXy]
  count := rfl
  board := rfl
  floodfill := rfl

theorem startAll_starts {l : List (Nat × Nat)} (distinct : l.Nodup) :
    Starts msg l s (s.startAll msg l) := by
  induction l generalizing s with
  | nil => exact ⟨by simp [startAll], by simp [startAll], by simp [startAll], rfl, rfl⟩
  | cons v l ih =>
    obtain ⟨fresh, distinct⟩ := List.nodup_cons.mp distinct
    have first : Starts msg [v] s (startCore msg v.1 s v.2) := startCore_starts v
    have rest : Starts msg l (startCore msg v.1 s v.2) (s.startAll msg (v :: l)) := ih distinct
    refine ⟨fun id c => ?_, fun id c => ?_, ?_, rest.board.trans first.board,
      rest.floodfill.trans first.floodfill⟩
    · rw [rest.queue, first.queue]
      by_cases here : (id, c) = v
      · rw [here]
        simp [fresh]
      · simp [here]
    · rw [rest.running, first.running]
      by_cases here : (id, c) = v <;> simp [here]
    · rw [rest.count, first.count]
      simp only [List.length_cons, List.length_nil]
      omega

theorem startCores_starts : Starts msg (startedOn mask id) s (s.startCores msg mask id) :=
  startCores_eq ▸ startAll_starts startedOn_nodup

theorem floodAs_starts :
    Starts (SdpMsg.setArg1 { msg with cmdRc := spinEmuPacketAs } s.floodfill)
      (startedEverywhere s.board msg.arg2) s (s.floodAs msg) :=
  floodAs_eq ▸ startAll_starts (startedEverywhere_nodup _)

/-- What `cmd_floodfill` does with the message that it has made of a block. -/
theorem queueCoreOnes (write : SdpMsg) (n : Nat) :
    (∀ id c, ((List.range n).foldl (fun s c => s.queueSdpXy write c 1) s).sdpQueue id c =
      if id < n ∧ c = 1 then s.sdpQueue id c ++ [write] else s.sdpQueue id c) ∧
    ((List.range n).foldl (fun s c => s.queueSdpXy write c 1) s).board = s.board := by
  induction n with
  | zero => exact ⟨fun id c => by simp, rfl⟩
  | succ n ih =>
    obtain ⟨queues, board⟩ := ih
    simp only [List.range_succ, List.foldl_append, List.foldl_cons, List.foldl_nil]
    refine ⟨fun id c => ?_, board⟩
    rw [queueSdpXy_queue, queues]
    by_cases core : c = 1
    · by_cases chip : id = n
      · simp [core, chip]
      · have bound : id < n + 1 ↔ id < n := by omega
        simp [core, chip, bound]
    · simp [core]

/-- A block of a flood fill goes to the queue of core 1 of every chip. -/
theorem cmdFloodfill_queue (id c : Nat) :
    (s.cmdFloodfill msg).sdpQueue id c =
      if id < s.board.numChips ∧ c = 1 then s.sdpQueue id c ++
        [((SdpMsg.setArg1 { msg with cmdRc := spinEmuPacketWrite } msg.arg3).setArg2
          ((((msg.arg2 >>> 8) &&& 255) + 1) * 4)).setArg3 0]
      else s.sdpQueue id c :=
  (queueCoreOnes _ _).1 id c

theorem cmdFloodfill_board : (s.cmdFloodfill msg).board = s.board := (queueCoreOnes _ _).2

end SdpDispatcher
end SpinEmu
