import SpinEmu.CoreStarts
import SpinEmu.EarlyAck
import SpinEmu.Lib.Machine
import Mathlib.Data.Finset.Prod

/-! The count of running cores against their flags. Starts set flags and raise the
count, finished cores clear theirs and lower it; neither looks at the flag first. -/
namespace SpinEmu
namespace SdpDispatcher

/-- The branch of `do_dispatch` for `SPIN_EMU_PACKET_FINISHED`. -/
def finished (id c : Nat) (s : SdpDispatcher) : SdpDispatcher :=
  let running := Function.update (s.spinEmuRunning id) c false
  { s with
    spinEmuRunning := Function.update s.spinEmuRunning id running
    spinEmuRunningCount := s.spinEmuRunningCount - 1 }

/-- Everything that changes the flags or the count. -/
inductive RunningAction where
  | dispatchAs (msg : SdpMsg)
  | floodAs (msg : SdpMsg)
  | finished (id c : Nat)

/-- `do_dispatch` serves the sockets of existing cores only. -/
def runningStep (s : SdpDispatcher) : RunningAction → Option SdpDispatcher
  | .dispatchAs msg => s.dispatchAs msg
  | .floodAs msg => some (s.floodAs msg)
  | .finished id c => if id < s.board.numChips ∧ c < numCpus then some (s.finished id c) else none

/-- No flag is set and the count is 0. -/
def stopped (s : SdpDispatcher) : SdpDispatcher :=
  { s with spinEmuRunning := fun _ _ => false, spinEmuRunningCount := 0 }

def runningCores (s : SdpDispatcher) : Finset (Nat × Nat) :=
  (Finset.range s.board.numChips ×ˢ Finset.range numCpus).filter fun v =>
    s.spinEmuRunning v.1 v.2 = true

def CountMatches (s : SdpDispatcher) : Prop :=
  s.spinEmuRunningCount = (s.runningCores.card : Int)

instance (s : SdpDispatcher) : Decidable s.CountMatches := inferInstanceAs (Decidable (_ = _))

/-- Only cores that are not running are started, and only a running core finishes. -/
def Alternates (s : SdpDispatcher) : RunningAction → Prop
  | .dispatchAs msg => ∀ c < numCpus, testBit (ntohl msg.arg2) c = true →
      s.spinEmuRunning (s.board.chip (msg.destAddr >>> 8).toNat (msg.destAddr &&& 0xff).toNat) c =
        false
  | .floodAs msg => ∀ id < s.board.numChips, ∀ c < numCpus, testBit msg.arg2 c = true →
      s.spinEmuRunning id c = false
  | .finished id c => s.spinEmuRunning id c = true

section Steps
variable {s t : SdpDispatcher} {msg : SdpMsg} {l : List (Nat × Nat)} {id c : Nat}

theorem mem_runningCores {v : Nat × Nat} : v ∈ s.runningCores ↔
    (v.1 < s.board.numChips ∧ v.2 < numCpus) ∧ s.spinEmuRunning v.1 v.2 = true := by
  simp [runningCores]

theorem stopped_countMatches : s.stopped.CountMatches := by
  have none : s.stopped.runningCores = ∅ := by
    rw [Finset.eq_empty_iff_forall_notMem]
    intro v member
    cases (mem_runningCores.mp member).2
  rw [CountMatches, none]
  rfl

/-- The count grows with each start, the set of flags with each first one. -/
theorem Starts.countMatches (starts : Starts msg l s t) (distinct : l.Nodup)
    (inside : ∀ v ∈ l, v.1 < s.board.numChips ∧ v.2 < numCpus) (before : s.CountMatches) :
    t.CountMatches ↔ ∀ v ∈ l, s.spinEmuRunning v.1 v.2 = false := by
  have cores : t.runningCores = s.runningCores ∪ l.toFinset := by
    ext v
    simp only [mem_runningCores, Finset.mem_union, List.mem_toFinset, starts.board, starts.running,
      Bool.or_eq_true, decide_eq_true_eq]
    constructor
    · rintro ⟨there, started | running⟩
      · exact .inr started
      · exact .inl ⟨there, running⟩
    · rintro (⟨there, running⟩ | started)
      · exact ⟨there, .inr running⟩
      · exact ⟨inside v started, .inl started⟩
  have total := Finset.card_union_add_card_inter s.runningCores l.toFinset
  rw [List.toFinset_card_of_nodup distinct] at total
  have overlap : (s.runningCores ∩ l.toFinset).card = 0 ↔
      ∀ v ∈ l, s.spinEmuRunning v.1 v.2 = false := by
    rw [Finset.card_eq_zero, Finset.eq_empty_iff_forall_notMem]
    constructor
    · intro none v started
      by_contra running
      rw [Bool.not_eq_false] at running
      exact none v (Finset.mem_inter.mpr
        ⟨mem_runningCores.mpr ⟨inside v started, running⟩, List.mem_toFinset.mpr started⟩)
    · intro off v both
      obtain ⟨running, started⟩ := Finset.mem_inter.mp both
      have := off v (List.mem_toFinset.mp started)
      rw [(mem_runningCores.mp running).2] at this
      cases this
  rw [← overlap, CountMatches, starts.count, before, cores]
  omega

theorem finished_countMatches (there : id < s.board.numChips ∧ c < numCpus)
    (before : s.CountMatches) :
    (s.finished id c).CountMatches ↔ s.spinEmuRunning id c = true := by
  have cores : (s.finished id c).runningCores = s.runningCores.erase (id, c) := by
    ext v
    simp only [mem_runningCores, Finset.mem_erase, finished, update_table]
    by_cases here : v = (id, c)
    · simp [here]
    · simp [here]
  have count : (s.finished id c).spinEmuRunningCount = s.spinEmuRunningCount - 1 := rfl
  rw [CountMatches, count, before, cores]
  by_cases running : (id, c) ∈ s.runningCores
  · have size := Finset.card_erase_add_one running
    exact iff_of_true (by omega) (mem_runningCores.mp running).2
  · rw [Finset.erase_eq_of_notMem running]
    exact iff_of_false (by omega) fun on => running (mem_runningCores.mpr ⟨there, on⟩)

/-- From a state where they agree, a step keeps the count and the flags in agreement
exactly when it alternates. -/
theorem runningStep_countMatches {a : RunningAction} (before : s.CountMatches)
    (step : s.runningStep a = some t) : t.CountMatches ↔ s.Alternates a := by
  cases a with
  | dispatchAs msg =>
    rw [runningStep, dispatchAs, chipId_natCast] at step
    split at step
    · rename_i inside
      cases step
      rw [Int.toNat_natCast, startCores_starts.countMatches startedOn_nodup ?_ before]
      · simp only [mem_startedOn, Alternates]
        constructor
        · intro off c core bit
          exact off (_, c) ⟨rfl, core, bit⟩
        · rintro off ⟨id, c⟩ ⟨rfl, core, bit⟩
          exact off c core bit
      · intro v started
        obtain ⟨chip, core, _⟩ := mem_startedOn.mp started
        exact ⟨chip ▸ Board.chip_lt inside.1 inside.2, core⟩
    · cases step
  | floodAs msg =>
    cases step
    rw [floodAs_starts.countMatches (startedEverywhere_nodup _) ?_ before]
    · simp only [mem_startedEverywhere, Alternates, Prod.forall, and_imp]
      exact ⟨fun off id chip c core bit => off id c chip core bit,
        fun off id c chip core bit => off id chip c core bit⟩
    · intro v started
      obtain ⟨chip, core, _⟩ := mem_startedEverywhere.mp started
      exact ⟨chip, core⟩
  | finished id c =>
    rw [runningStep] at step
    split at step
    · rename_i there
      cases step
      exact finished_countMatches there before
    · cases step

end Steps

open Lib.Machine in
/-- While starts and finishes of each core alternate, the count is the number of
flags that are set; the first step that breaks the alternation breaks the
equality. -/
theorem countMatches_run (s t : SdpDispatcher) (run : Run runningStep Alternates s.stopped t) :
    t.CountMatches ∧ ∀ a u, t.runningStep a = some u → (u.CountMatches ↔ t.Alternates a) := by
  have now : t.CountMatches := run.invariant
    (fun before alternates step => (runningStep_countMatches before step).mpr alternates)
    stopped_countMatches
  exact ⟨now, fun a u step => runningStep_countMatches now step⟩

/-- A request to start core 1 of chip 0. -/
def startRequest : SdpMsg :=
  { SdpMsg.cleared with
    destPort := 1, cmdRc := htons cmdAs, payload := fun i => if i = 7 then 2 else 0 }

open Lib.Machine in
/-- One core of one chip is started and finishes. -/
theorem countMatches_run_once :
    ((((remembering 0).cmdP2pc 1 1).stopped.startCores
      { startRequest with cmdRc := spinEmuPacketAs } 2 0).finished 0 1).CountMatches := by
  have started : Run runningStep Alternates ((remembering 0).cmdP2pc 1 1).stopped
      (((remembering 0).cmdP2pc 1 1).stopped.startCores
        { startRequest with cmdRc := spinEmuPacketAs } 2 0) :=
    .tail .refl (show Alternates _ (.dispatchAs startRequest) from fun _ _ _ => rfl) rfl
  exact (countMatches_run ((remembering 0).cmdP2pc 1 1) _
    (started.tail (show Alternates _ (.finished 0 1) from rfl) rfl)).1

open Lib.Machine in
/-- The request comes twice, and the core is counted twice. -/
theorem started_twice :
    ∃ t, Run runningStep (fun _ _ => True) ((remembering 0).cmdP2pc 1 1).stopped t ∧
      ¬ t.CountMatches := by
  obtain ⟨t, run, differs⟩ := exists_run runningStep (fun _ _ => True)
    ((remembering 0).cmdP2pc 1 1).stopped [.dispatchAs startRequest, .dispatchAs startRequest]
    (fun t => !decide t.CountMatches) (fun _ _ _ => trivial) (by decide +kernel)
  exact ⟨t, run, by simpa using differs⟩

end SdpDispatcher
end SpinEmu
