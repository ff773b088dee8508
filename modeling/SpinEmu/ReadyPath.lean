import SpinEmu.GoTree

/-! RDY2 goes to chip `(0, 0)` one link at a time: south-west while both
coordinates are positive, then west or south along the edge of the board. -/
namespace SpinEmu
open Lib Lib.Forwarding Lib.Program Lib.LinkGraph Dispatcher

variable {k : Nat} {past : Nat → BitVec 32} {coreMap : Nat → BitVec 32} {root : Nat → Nat}
  {routes : Nat → Nat → SpinEmuRoute} {x y : Nat}

/-- The chips that an RDY2 packet from `(x, y)` enters, in order. -/
def readyWay (b : Board) (x y : Nat) : List Nat :=
  (List.range (max x y)).map fun i => b.chip (x - (i + 1)) (y - (i + 1))

@[simp] theorem length_readyWay (b : Board) (x y : Nat) : (readyWay b x y).length = max x y := by
  simp [readyWay]

@[simp] theorem readyWay_root (b : Board) : readyWay b 0 0 = [] := rfl

theorem readyWay_step (b : Board) (other : ¬ (x = 0 ∧ y = 0)) :
    readyWay b x y = b.chip (x - 1) (y - 1) :: readyWay b (x - 1) (y - 1) := by
  obtain ⟨n, hn⟩ : ∃ n, max x y = n + 1 := ⟨max x y - 1, by omega⟩
  have rest : max (x - 1) (y - 1) = n := by omega
  rw [readyWay, readyWay, hn, rest, List.range_succ_eq_map, List.map_cons, List.map_map]
  congr 1
  apply List.map_congr_left
  intro i _
  simp only [Function.comp_apply]
  congr 1 <;> omega

theorem p2pLink_target {b : Board} (hx : x < b.numChipsX) (hy : y < b.numChipsY)
    (other : ¬ (x = 0 ∧ y = 0)) {j : Fin numLinks} (link : p2pLink x y = j) :
    linkTarget b (b.chip x y) j = some (b.chip (x - 1) (y - 1)) := by
  rw [linkTarget_eq_some hx hy]
  refine ⟨x - 1, y - 1, by omega, by omega, rfl, ?_⟩
  unfold p2pLink at link
  split at link
  · obtain rfl : j = 4 := Fin.ext link.symm
    simp only [linkStep]
    omega
  · split at link
    · obtain rfl : j = 3 := Fin.ext link.symm
      simp only [linkStep]
      omega
    · split at link
      · obtain rfl : j = 5 := Fin.ext link.symm
        simp only [linkStep]
        omega
      · omega

theorem p2pLink_lt (x y : Nat) : p2pLink x y < numLinks := by
  unfold p2pLink numLinks
  split_ifs <;> decide

theorem testBit_rdy2Word (past : Nat → BitVec 32) (x y : Nat) {core : Nat}
    (elected : core < numCpus) {j : Nat} (hj : j < 32) :
    testBit (rdy2Word past x y core) j =
      if x = 0 ∧ y = 0 then decide (core + numLinks = j) else decide (p2pLink x y = j) := by
  have link := p2pLink_lt x y
  simp only [numCpus, numLinks] at elected link
  rw [rdy2Word]
  split
  · rw [coreRoute_ofNat (by omega), testBit_shiftOne past (by omega) hj]
  · exact testBit_shiftOne past (by omega) hj

section Ready
variable (hk : k ≤ 8) (elected : ∀ c < (square k).numChips, root c < numCpus)
  (installed : Installed k past coreMap root 4 routes)
include hk elected installed

/-- The links of RDY2. -/
theorem mcLink_rdy2 (hx : x < 2 ^ k) (hy : y < 2 ^ k) {j : Fin numLinks} :
    mcLink (square k) routes rdy2Key ((square k).chip x y) j =
      if ¬ (x = 0 ∧ y = 0) ∧ p2pLink x y = j then some ((square k).chip (x - 1) (y - 1))
      else none := by
  have hj := j.isLt
  have bit := testBit_rdy2Word past x y
    (elected _ (Board.chip_lt (b := square k) hx hy)) (j := j)
    (by simp only [numLinks] at hj; omega)
  rw [mcLink_some (firstMatch_rdy2 hk hx hy installed (by decide))]
  simp only [barrierEntry, bit]
  by_cases start : x = 0 ∧ y = 0
  · have noLink : ¬ root ((square k).chip x y) + numLinks = (j : Nat) := by omega
    rw [if_pos start, decide_eq_false noLink, if_neg Bool.false_ne_true,
      if_neg fun both => both.1 start]
  · rw [if_neg start]
    by_cases link : p2pLink x y = (j : Nat)
    · rw [decide_eq_true link, if_pos rfl, if_pos ⟨start, link⟩]
      exact p2pLink_target hx hy start link
    · rw [decide_eq_false link, if_neg Bool.false_ne_true, if_neg fun both => link both.2]

theorem ready_grounded (c : Nat) : Grounded (mcLink (square k) routes rdy2Key) c := by
  apply grounded_of_rank fun c => c / 2 ^ k + c % 2 ^ k
  rintro v w ⟨j, step⟩
  obtain ⟨x, y, hx, hy, rfl⟩ := mcLink_start step
  rw [mcLink_rdy2 hk elected installed hx hy] at step
  split at step
  · rename_i both
    obtain ⟨other, _⟩ := both
    cases step
    have hy' : y - 1 < 2 ^ k := by omega
    rw [chip_div (b := square k) hy, chip_mod (b := square k) hy,
      chip_div (b := square k) hy', chip_mod (b := square k) hy']
    omega
  · cases step

/-- The only link from a chip other than the root. -/
theorem sum_rdy2 (hx : x < 2 ^ k) (hy : y < 2 ^ k) (g : Nat → Nat) :
    ∑ l, ((mcLink (square k) routes rdy2Key ((square k).chip x y) l).elim 0 g) =
      if x = 0 ∧ y = 0 then 0 else g ((square k).chip (x - 1) (y - 1)) := by
  have each (l : Fin numLinks) := mcLink_rdy2 hk elected installed hx hy (j := l)
  simp only [each]
  by_cases start : x = 0 ∧ y = 0
  · simp [start]
  · rw [if_neg start, Finset.sum_eq_single_of_mem ⟨p2pLink x y, p2pLink_lt x y⟩ (Finset.mem_univ _)]
    · simp [start]
    · intro l _ apart
      rw [if_neg fun both => apart (Fin.ext both.2.symm)]
      rfl

/-- The way to the root is the only path from a chip. -/
theorem ready_pathCount (hx : x < 2 ^ k) (hy : y < 2 ^ k) (v : Nat) :
    pathCount (mcLink (square k) routes rdy2Key) ((square k).chip x y) v =
      ((square k).chip x y :: readyWay (square k) x y).count v := by
  induction size : max x y using Nat.strongRecOn generalizing x y with
  | _ n ih =>
    rw [pathCount_eq (ready_grounded hk elected installed _),
      sum_rdy2 hk elected installed hx hy fun u => pathCount _ u v, List.count_cons]
    by_cases start : x = 0 ∧ y = 0
    · obtain ⟨rfl, rfl⟩ := start
      simp
    · have smaller : max (x - 1) (y - 1) < n := by omega
      rw [if_neg start, readyWay_step _ start,
        ih _ smaller (x := x - 1) (y := y - 1) (by omega) (by omega) rfl, Nat.add_comm]
      simp

/-- RDY2 leaves by the root application core of the root chip and nowhere else. -/
theorem ready_selected {v : Nat} (hv : v < (square k).numChips) (j : Nat) :
    selected routes rdy2Key v j = decide (v = 0 ∧ j = root 0) := by
  obtain ⟨hx, hy, here⟩ := Board.coordinates hv
  have core := elected v hv
  have link := p2pLink_lt (v / (square k).numChipsY) (v % (square k).numChipsY)
  rw [selected, ← here, firstMatch_rdy2 hk hx hy installed (by decide), Option.any_some, here]
  by_cases hj : j < numCpus
  · have bit := testBit_rdy2Word past (v / (square k).numChipsY)
      (v % (square k).numChipsY) core (j := j + numLinks)
      (by simp only [numCpus, numLinks] at hj ⊢; omega)
    rw [decide_eq_true hj, Bool.true_and]
    refine bit.trans ?_
    split
    · rename_i start
      have origin : v = 0 := by rw [← here, start.1, start.2, Board.chip_origin]
      subst origin
      rw [decide_eq_decide]
      omega
    · rename_i other
      have away : v ≠ 0 := by
        rintro rfl
        exact other ⟨Nat.zero_div _, Nat.zero_mod _⟩
      rw [decide_eq_false (by omega), decide_eq_false fun both => away both.1]
  · rw [decide_eq_false hj, Bool.false_and, decide_eq_false]
    rintro ⟨rfl, rfl⟩
    exact hj core

/-- No link that RDY2 takes leads off the board. -/
theorem ready_onBoard {c : Nat} (hc : c < (square k).numChips) {j : Fin numLinks}
    (bit : (firstMatch (routes c) rdy2Key).any (testBit ·.route j) = true) :
    (linkTarget (square k) c j).isSome = true := by
  obtain ⟨hx, hy, here⟩ := Board.coordinates hc
  have hj := j.isLt
  rw [← here, firstMatch_rdy2 hk hx hy installed (by decide), Option.any_some, here] at bit
  have bit : testBit (rdy2Word past (c / (square k).numChipsY) (c % (square k).numChipsY) (root c))
      j = true := bit
  rw [testBit_rdy2Word _ _ _ (elected c hc) (by simp only [numLinks] at hj; omega)] at bit
  split at bit
  · have := of_decide_eq_true bit
    omega
  · rename_i other
    rw [← here, p2pLink_target hx hy other (of_decide_eq_true bit)]
    rfl

end Ready

theorem readyWay_mem_root (hx : x < 2 ^ k) (hy : y < 2 ^ k) :
    0 ∈ (square k).chip x y :: readyWay (square k) x y := by
  induction size : max x y using Nat.strongRecOn generalizing x y with
  | _ n ih =>
    by_cases start : x = 0 ∧ y = 0
    · obtain ⟨rfl, rfl⟩ := start
      simp
    · rw [readyWay_step _ start]
      exact List.mem_cons_of_mem _
        (ih _ (by omega : max (x - 1) (y - 1) < n) (by omega) (by omega) rfl)

theorem readyWay_nodup (hy : y < 2 ^ k) :
    ((square k).chip x y :: readyWay (square k) x y).Nodup := by
  have whole : (square k).chip x y :: readyWay (square k) x y =
      (List.range (max x y + 1)).map fun i => (square k).chip (x - i) (y - i) := by
    rw [List.range_succ_eq_map, List.map_cons, List.map_map]
    rfl
  rw [whole]
  refine List.Nodup.map_on ?_ List.nodup_range
  intro i hi l hl same
  have hi := List.mem_range.mp hi
  have hl := List.mem_range.mp hl
  have low (i : Nat) : y - i < 2 ^ k := Nat.lt_of_le_of_lt (Nat.sub_le _ _) hy
  have := chip_inj (b := square k) (low i) (low l) same
  omega

/-- An RDY2 packet from any chip takes `max x y` links, all on the board, and is
delivered once, to the root application core of the root chip. This holds amid
any traffic that leaves the flush without a full queue; on its own the packet is
always flushed. -/
theorem rdy2_reaches_root (hk : k ≤ 8) (elected : ∀ c < (square k).numChips, root c < numCpus)
    {d : Dispatcher SpinEmuMc} (fresh : d.trace = []) (valid : d.Valid (square k))
    (idle : d.CoresIdle (square k))
    (pending : ∀ c < (square k).numChips, (d.mcQueue c 0).len ≠ 0 → d.mcPending = true)
    (installed : Installed k past coreMap root 4 d.spinEmuRoutes)
    (hx : x < 2 ^ k) (hy : y < 2 ^ k) {p : Marked}
    (queued : p ∈ (d.marked.mcQueue ((square k).chip x y) 0).contents)
    (isRdy2 : p.1.key = rdy2Key) :
    (∀ T, (flushMcQueues (square k)).Ends d.marked (.ok T) →
      (∀ e ∈ T.trace, e.isFull = false) →
      (∀ v j, sendsOf p.2 v j T.trace = if v = 0 ∧ j = root 0 then [.sent v j p] else []) ∧
      (hopsOf p.2 T.trace).Perm ((readyWay (square k) x y).map (.queued · p)) ∧
      (hopsOf p.2 T.trace).length = max x y) ∧
    (∀ c < (square k).numChips, ∀ j : Fin numLinks,
      (firstMatch (d.spinEmuRoutes c) rdy2Key).any (testBit ·.route j) = true →
        (linkTarget (square k) c j).isSome = true) ∧
    (d.Alone (square k) ((square k).chip x y) →
      ¬ (flushMcQueues (square k)).Ends d (.error .intOverflow) →
      ∃ T, (flushMcQueues (square k)).Ends d.marked (.ok T) ∧
        (flushMcQueues (square k)).Ends d (.ok (T.map Prod.fst)) ∧
        ∀ e ∈ T.trace, e.isFull = false) := by
  have start : (square k).chip x y < (square k).numChips := Board.chip_lt (b := square k) hx hy
  have member : p ∈ (d.marked.net (square k)).queue ((square k).chip x y) :=
    mem_net_queue.mpr ⟨start, queued⟩
  have grounded : Grounded (mcLink (square k) d.spinEmuRoutes p.1.key) ((square k).chip x y) :=
    isRdy2 ▸ ready_grounded hk elected installed _
  refine ⟨fun T ends room => ?_, fun c hc j bit => ?_, fun alone noOverflow => ?_⟩
  · obtain ⟨inv, empty, _⟩ := flushMcQueues_run (marked_valid valid)
      (fun clear => quiet_of_pending pending clear) T ends
    have way : (hopsOf p.2 T.trace).Perm ((readyWay (square k) x y).map (.queued · p)) := by
      refine inv.hops valid idle empty room member grounded fun v => ?_
      rw [isRdy2, sum_rdy2 hk elected installed hx hy
        fun u => pathCount (mcLink (square k) d.spinEmuRoutes rdy2Key) u v]
      split
      · rename_i origin
        obtain ⟨rfl, rfl⟩ := origin
        rfl
      · rename_i other
        rw [ready_pathCount hk elected installed (by omega) (by omega), readyWay_step _ other]
    refine ⟨fun v j => ?_, way, by simpa using way.length_eq⟩
    rw [inv.sends valid idle empty room member grounded v j, isRdy2]
    by_cases hv : v < (square k).numChips
    · rw [ready_selected hk elected installed hv, ready_pathCount hk elected installed hx hy]
      by_cases arrived : v = 0 ∧ j = root 0
      · obtain ⟨rfl, rfl⟩ := arrived
        have once := List.count_eq_one_of_mem (readyWay_nodup (x := x) hy) (readyWay_mem_root hx hy)
        simp [once]
      · rw [if_neg arrived, decide_eq_false arrived]
        rfl
    · have away : ¬ (v = 0 ∧ j = root 0) := by
        rintro ⟨rfl, _⟩
        omega
      have other : (square k).chip x y ≠ v := fun same => hv (same ▸ start)
      rw [if_neg away, pathCount_unreached other fun u j step =>
        hv (linkTarget_inside (mcLink_linkTarget step)).2.1, ite_self]
      rfl
  · exact ready_onBoard hk elected installed hc bit
  · apply Alone.flush fresh valid idle pending noOverflow member alone grounded
    intro v
    rw [isRdy2, ready_pathCount hk elected installed hx hy]
    exact List.nodup_iff_count_le_one.mp (readyWay_nodup hy) v

theorem rdy2_reaches_root_fourChips :
    (∀ T, (flushMcQueues (square 1)).Ends (holding fourChips 3 ⟨rdy2Key, 0, 0⟩).marked (.ok T) →
      (∀ e ∈ T.trace, e.isFull = false) →
      (∀ v j, sendsOf (3, 0) v j T.trace =
        if v = 0 ∧ j = 1 then [.sent v j (⟨rdy2Key, 0, 0⟩, 3, 0)] else []) ∧
      (hopsOf (3, 0) T.trace).Perm
        ((readyWay (square 1) 1 1).map (.queued · (⟨rdy2Key, 0, 0⟩, 3, 0))) ∧
      (hopsOf (3, 0) T.trace).length = max 1 1) ∧
    (∀ c < 4, ∀ j : Fin numLinks,
      (firstMatch (fourChips c) rdy2Key).any (testBit ·.route j) = true →
        (linkTarget (square 1) c j).isSome = true) ∧
    ∃ T, (flushMcQueues (square 1)).Ends (holding fourChips 3 ⟨rdy2Key, 0, 0⟩).marked (.ok T) ∧
      (flushMcQueues (square 1)).Ends (holding fourChips 3 ⟨rdy2Key, 0, 0⟩)
        (.ok (T.map Prod.fst)) ∧
      ∀ e ∈ T.trace, e.isFull = false := by
  have idle : (holding fourChips 3 ⟨rdy2Key, 0, 0⟩).CoresIdle (square 1) :=
    fun c _ i low _ => if_neg (by omega)
  have queued : (⟨rdy2Key, 0, 0⟩, 3, 0) ∈
      ((holding fourChips 3 ⟨rdy2Key, 0, 0⟩).marked.mcQueue ((square 1).chip 1 1) 0).contents := by
    simp [SpinEmuMcQueue.contents, marked, holding, SpinEmuMcQueue.cell, Board.chip]
  obtain ⟨delivered, inside, flushed⟩ := rdy2_reaches_root (x := 1) (y := 1) (by decide)
    (fun _ _ => by decide) rfl (holding_valid _ _ _) idle (fun _ _ _ => rfl)
    (setupRoutes_installed (by decide) 4) (by decide) (by decide) queued rfl
  refine ⟨delivered, inside, flushed (fun v _ => by simp [holding, Board.chip]) ?_⟩
  exact not_fault_of_returnsWithin
    (show (flushMcQueues (square 1)).returnsWithin 3 (holding fourChips 3 ⟨rdy2Key, 0, 0⟩) = true by
      decide +kernel) _

end SpinEmu
