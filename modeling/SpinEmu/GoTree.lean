import SpinEmu.BarrierRoutes

/-! GO spreads over the off-chip links of `barrier_setup`: every chip but the
root is entered by one of them, from the chip to its south-west, its west on the
first row, or its south on the first column. -/
namespace SpinEmu
open Lib Lib.Forwarding Lib.Program Lib.LinkGraph Dispatcher

variable {k : Nat} {past : Nat → BitVec 32} {coreMap : Nat → BitVec 32} {root : Nat → Nat}
  {routes : Nat → Nat → SpinEmuRoute} {x y : Nat}

theorem treeLink_of_le {n j : Nat} (h : numLinks ≤ j) : treeLink n x y j = false := by
  simp only [numLinks] at h
  have north : j ≠ 2 := by omega
  have east : j ≠ 0 := by omega
  have northEast : j ≠ 1 := by omega
  simp [treeLink, north, east, northEast]

/-- The links of the tree lead one step east, north-east or north. -/
theorem treeLink_target {n : Nat} {b : Board} (width : b.numChipsX = n) (height : b.numChipsY = n)
    (hx : x < n) (hy : y < n) {j : Fin numLinks} {t : Nat} :
    (treeLink n x y j = true ∧ linkTarget b (b.chip x y) j = some t) ↔
      (j = 0 ∧ y = 0 ∧ x + 1 < n ∧ t = b.chip (x + 1) 0) ∨
      (j = 1 ∧ x + 1 < n ∧ y + 1 < n ∧ t = b.chip (x + 1) (y + 1)) ∨
      (j = 2 ∧ x = 0 ∧ y + 1 < n ∧ t = b.chip 0 (y + 1)) := by
  rw [linkTarget_eq_some (width ▸ hx) (height ▸ hy), width, height]
  constructor
  · rintro ⟨tree, x', y', hx', hy', rfl, stepx, stepy⟩
    simp only [treeLink, Bool.or_eq_true, Bool.and_eq_true, beq_iff_eq, decide_eq_true_eq] at tree
    rcases tree with (⟨⟨link, rfl⟩, inside⟩ | ⟨⟨link, inside⟩, rfl⟩) | ⟨⟨link, hx1⟩, hy1⟩
    · obtain rfl : j = 2 := Fin.ext link
      simp only [linkStep] at stepx stepy
      exact .inr (.inr ⟨rfl, rfl, inside, by rw [show x' = 0 by omega, show y' = y + 1 by omega]⟩)
    · obtain rfl : j = 0 := Fin.ext link
      simp only [linkStep] at stepx stepy
      exact .inl ⟨rfl, rfl, inside, by rw [show x' = x + 1 by omega, show y' = 0 by omega]⟩
    · obtain rfl : j = 1 := Fin.ext link
      simp only [linkStep] at stepx stepy
      exact .inr (.inl ⟨rfl, hx1, hy1, by rw [show x' = x + 1 by omega, show y' = y + 1 by omega]⟩)
  · rintro (⟨rfl, rfl, inside, rfl⟩ | ⟨rfl, hx1, hy1, rfl⟩ | ⟨rfl, rfl, inside, rfl⟩)
    · refine ⟨by simp [treeLink, inside], x + 1, 0, inside, by omega, rfl, ?_, ?_⟩
      · simp [linkStep]
      · simp [linkStep]
    · refine ⟨by simp [treeLink, hx1, hy1], x + 1, y + 1, hx1, hy1, rfl, ?_, ?_⟩
      · simp [linkStep]
      · simp [linkStep]
    · refine ⟨by simp [treeLink, inside], 0, y + 1, by omega, inside, rfl, ?_, ?_⟩
      · simp [linkStep]
      · simp [linkStep]

/-- A packet of a key follows the tree when every chip's first match selects the
links of the tree. -/
def FollowsTree (k : Nat) (routes : Nat → Nat → SpinEmuRoute) (key : BitVec 32) : Prop :=
  ∀ x < 2 ^ k, ∀ y < 2 ^ k, ∃ r, firstMatch (routes ((square k).chip x y)) key = some r ∧
    ∀ j < numLinks, testBit r.route j = treeLink (2 ^ k) x y j

section Tree
variable {key : BitVec 32}

/-- Every link starts on the board. -/
theorem mcLink_start {c t : Nat} {j : Fin numLinks}
    (step : mcLink (square k) routes key c j = some t) :
    ∃ x y, x < 2 ^ k ∧ y < 2 ^ k ∧ c = (square k).chip x y := by
  obtain ⟨hx, hy, here⟩ := Board.coordinates (linkTarget_inside (mcLink_linkTarget step)).1
  exact ⟨_, _, hx, hy, here.symm⟩

variable (tree : FollowsTree k routes key)
include tree

theorem mcLink_tree (hx : x < 2 ^ k) (hy : y < 2 ^ k) {j : Fin numLinks} {t : Nat} :
    mcLink (square k) routes key ((square k).chip x y) j = some t ↔
      (j = 0 ∧ y = 0 ∧ x + 1 < 2 ^ k ∧ t = (square k).chip (x + 1) 0) ∨
      (j = 1 ∧ x + 1 < 2 ^ k ∧ y + 1 < 2 ^ k ∧ t = (square k).chip (x + 1) (y + 1)) ∨
      (j = 2 ∧ x = 0 ∧ y + 1 < 2 ^ k ∧ t = (square k).chip 0 (y + 1)) := by
  obtain ⟨r, found, bits⟩ := tree x hx y hy
  have target := treeLink_target (b := square k) (n := 2 ^ k) rfl rfl hx hy (j := j) (t := t)
  rw [← target, mcLink_some found]
  simp only [bits j j.isLt]
  cases treeLink (2 ^ k) x y j <;> simp

theorem tree_grounded (c : Nat) : Grounded (mcLink (square k) routes key) c := by
  apply grounded_of_rank fun c => 2 * 2 ^ k - (c / 2 ^ k + c % 2 ^ k)
  rintro v w ⟨j, step⟩
  obtain ⟨x, y, hx, hy, rfl⟩ := mcLink_start step
  have start : (square k).chip x y / 2 ^ k = x ∧ (square k).chip x y % 2 ^ k = y :=
    ⟨chip_div (b := square k) hy, chip_mod (b := square k) hy⟩
  rcases (mcLink_tree tree hx hy).mp step with ⟨_, rfl, hx1, rfl⟩ | ⟨_, hx1, hy1, rfl⟩ |
    ⟨_, rfl, hy1, rfl⟩
  · rw [chip_div (b := square k) hy, chip_mod (b := square k) hy, start.1, start.2]
    omega
  · rw [chip_div (b := square k) hy1, chip_mod (b := square k) hy1, start.1, start.2]
    omega
  · rw [chip_div (b := square k) hy1, chip_mod (b := square k) hy1, start.1, start.2]
    omega

theorem tree_source (u : Nat) (j : Fin numLinks) : mcLink (square k) routes key u j ≠ some 0 := by
  intro step
  obtain ⟨x, y, hx, hy, rfl⟩ := mcLink_start step
  rw [← (square k).chip_origin] at step
  rcases (mcLink_tree tree hx hy).mp step with ⟨_, rfl, _, here⟩ | ⟨_, _, hy1, here⟩ |
    ⟨_, _, hy1, here⟩
  · have := chip_inj (b := square k) (Nat.two_pow_pos k) hy here
    omega
  · have := chip_inj (b := square k) (Nat.two_pow_pos k) hy1 here
    omega
  · have := chip_inj (b := square k) (Nat.two_pow_pos k) hy1 here
    omega

/-- One link of the tree enters each chip but the root. -/
theorem tree_parent (hx : x < 2 ^ k) (hy : y < 2 ^ k) (other : ¬ (x = 0 ∧ y = 0)) :
    ∃ x' y' j, x' + y' < x + y ∧ x' < 2 ^ k ∧ y' < 2 ^ k ∧
      ∀ u j', mcLink (square k) routes key u j' = some ((square k).chip x y) ↔
        u = (square k).chip x' y' ∧ j' = j := by
  have only {x' y' : Nat} (hx' : x' < 2 ^ k) (hy' : y' < 2 ^ k) {j : Fin numLinks}
      (enters : mcLink (square k) routes key ((square k).chip x' y') j =
        some ((square k).chip x y))
      (unique : ∀ u v, u < 2 ^ k → v < 2 ^ k → ∀ j',
        mcLink (square k) routes key ((square k).chip u v) j' = some ((square k).chip x y) →
          u = x' ∧ v = y' ∧ j' = j) (c : Nat) (j' : Fin numLinks) :
      mcLink (square k) routes key c j' = some ((square k).chip x y) ↔
        c = (square k).chip x' y' ∧ j' = j := by
    constructor
    · intro step
      obtain ⟨u, v, hu, hv, rfl⟩ := mcLink_start step
      obtain ⟨rfl, rfl, rfl⟩ := unique u v hu hv j' step
      exact ⟨rfl, rfl⟩
    · rintro ⟨rfl, rfl⟩
      exact enters
  have target {u v j' : _} (hu : u < 2 ^ k) (hv : v < 2 ^ k)
      (step : mcLink (square k) routes key ((square k).chip u v) j' =
        some ((square k).chip x y)) :
      (j' = 0 ∧ v = 0 ∧ x = u + 1 ∧ y = 0) ∨ (j' = 1 ∧ x = u + 1 ∧ y = v + 1) ∨
        (j' = 2 ∧ u = 0 ∧ x = 0 ∧ y = v + 1) := by
    rcases (mcLink_tree tree hu hv).mp step with ⟨link, rfl, _, here⟩ | ⟨link, _, hv1, here⟩ |
      ⟨link, rfl, hv1, here⟩
    · obtain ⟨rfl, rfl⟩ := chip_inj (b := square k) hy hv here
      exact .inl ⟨link, rfl, rfl, rfl⟩
    · obtain ⟨rfl, rfl⟩ := chip_inj (b := square k) hy hv1 here
      exact .inr (.inl ⟨link, rfl, rfl⟩)
    · obtain ⟨rfl, rfl⟩ := chip_inj (b := square k) hy hv1 here
      exact .inr (.inr ⟨link, rfl, rfl, rfl⟩)
  rcases Nat.eq_zero_or_pos y with rfl | hy0
  · obtain ⟨x, rfl⟩ : ∃ z, x = z + 1 := ⟨x - 1, by omega⟩
    refine ⟨x, 0, 0, by omega, by omega, hy, only (by omega) hy ?_ ?_⟩
    · exact (mcLink_tree tree (by omega) hy).mpr (.inl ⟨rfl, rfl, hx, rfl⟩)
    · intro u v hu hv j' step
      rcases target hu hv step with ⟨link, hv0, hux, _⟩ | ⟨_, _, bad⟩ | ⟨_, _, bad, _⟩
      · exact ⟨by omega, hv0, link⟩
      · omega
      · omega
  · obtain ⟨y, rfl⟩ : ∃ z, y = z + 1 := ⟨y - 1, by omega⟩
    rcases Nat.eq_zero_or_pos x with rfl | hx0
    · refine ⟨0, y, 2, by omega, hx, by omega, only hx (by omega) ?_ ?_⟩
      · exact (mcLink_tree tree hx (by omega)).mpr (.inr (.inr ⟨rfl, rfl, hy, rfl⟩))
      · intro u v hu hv j' step
        rcases target hu hv step with ⟨_, _, bad, _⟩ | ⟨_, bad, _⟩ | ⟨link, hu0, _, hvy⟩
        · omega
        · omega
        · exact ⟨hu0, by omega, link⟩
    · obtain ⟨x, rfl⟩ : ∃ z, x = z + 1 := ⟨x - 1, by omega⟩
      refine ⟨x, y, 1, by omega, by omega, by omega, only (by omega) (by omega) ?_ ?_⟩
      · exact (mcLink_tree tree (by omega) (by omega)).mpr (.inr (.inl ⟨rfl, hx, hy, rfl⟩))
      · intro u v hu hv j' step
        rcases target hu hv step with ⟨_, _, _, bad⟩ | ⟨link, hux, hvy⟩ | ⟨_, _, bad, _⟩
        · omega
        · exact ⟨by omega, by omega, link⟩
        · omega

/-- One path of the tree leads from the root to each chip of the board. -/
theorem tree_pathCount (v : Nat) :
    pathCount (mcLink (square k) routes key) 0 v = if v < (square k).numChips then 1 else 0 := by
  have inside : ∀ n x y, x + y = n → x < 2 ^ k → y < 2 ^ k →
      pathCount (mcLink (square k) routes key) 0 ((square k).chip x y) = 1 := by
    intro n
    induction n using Nat.strongRecOn with
    | _ n ih =>
      rintro x y rfl hx hy
      by_cases start : x = 0 ∧ y = 0
      · obtain ⟨rfl, rfl⟩ := start
        rw [Board.chip_origin]
        exact pathCount_source (tree_source tree)
      · obtain ⟨x', y', j, less, hx', hy', parent⟩ := tree_parent tree hx hy start
        have other : 0 ≠ (square k).chip x y := fun same => by
          have := chip_inj (b := square k) (Nat.two_pow_pos k) hy ((Board.chip_origin _).trans same)
          exact start ⟨this.1.symm, this.2.symm⟩
        rw [pathCount_unique_parent other parent]
        exact ih _ less x' y' rfl hx' hy'
  split
  · rename_i hv
    obtain ⟨hx, hy, here⟩ := Board.coordinates hv
    rw [← here]
    exact inside _ _ _ rfl hx hy
  · rename_i outside
    have positive : 0 < (square k).numChips := Nat.mul_pos (Nat.two_pow_pos k) (Nat.two_pow_pos k)
    apply pathCount_unreached
    · omega
    · intro u j step
      exact outside (linkTarget_inside (mcLink_linkTarget step)).2.1

end Tree

theorem testBit_goWord (past : Nat → BitVec 32) (hk : k ≤ 8) (active : AllActive k coreMap)
    (hx : x < 2 ^ k) (hy : y < 2 ^ k) {j : Nat} (hj : j < 32) :
    testBit (goWord k past coreMap x y) j =
      ((7 ≤ j && j < 14 && runs coreMap ((square k).chip x y) (j - 6)) ||
        treeLink (2 ^ k) x y j) := by
  rw [goWord, testBit_or _ _ hj, testBit_localCores _ _ hj, offWord,
    testBit_offRoute hk active hx hy hj]
  by_cases core : 7 ≤ j ∧ j < 14
  · have range : (1 ≤ j - 6 && j - 6 < numCpus) = true := by
      simp only [numCpus, Bool.and_eq_true, decide_eq_true_eq]
      omega
    rw [testBit_mask _ (by omega) (by omega), runs, range, Bool.true_and]
  · have : (decide (7 ≤ j) && decide (j < 14)) = false := by
      rw [← Bool.decide_and]
      exact decide_eq_false core
    rw [this, Bool.false_and, Bool.false_and]

section Go
variable (hk : k ≤ 8) (active : AllActive k coreMap) {bound : Int} (some : 0 < bound)
  (installed : Installed k past coreMap root bound routes)
include hk active some installed

theorem go_followsTree : FollowsTree k routes goKey := by
  intro x hx y hy
  refine ⟨_, firstMatch_go hk hx hy installed some, fun j hj => ?_⟩
  simp only [numLinks] at hj
  have low : (7 ≤ j && j < 14 && runs coreMap ((square k).chip x y) (j - 6)) = false := by
    rw [decide_eq_false (by omega : ¬ 7 ≤ j)]
    rfl
  exact (testBit_goWord past hk active hx hy (by omega)).trans (by rw [low, Bool.false_or])

/-- GO leaves by the cores of the core map. -/
theorem go_selected {v : Nat} (hv : v < (square k).numChips) (j : Nat) :
    selected routes goKey v j = runs coreMap v j := by
  obtain ⟨hx, hy, here⟩ := Board.coordinates hv
  rw [selected, ← here, firstMatch_go hk hx hy installed some, Option.any_some]
  by_cases hj : j < numCpus
  · have cores := testBit_goWord past hk active hx hy (j := j + numLinks)
      (by simp only [numCpus, numLinks] at hj ⊢; omega)
    have range : (decide (7 ≤ j + numLinks) && decide (j + numLinks < 14)) = decide (1 ≤ j) := by
      simp only [numCpus, numLinks] at hj ⊢
      rw [decide_eq_true (by omega : j + 6 < 14), Bool.and_true, decide_eq_decide]
      omega
    rw [decide_eq_true hj, Bool.true_and]
    refine cores.trans ?_
    rw [range, treeLink_of_le (Nat.le_add_left _ _), Bool.or_false, Nat.add_sub_cancel]
    cases low : decide (1 ≤ j) with
    | true => rw [Bool.true_and]
    | false => rw [Bool.false_and, runs, low, Bool.false_and, Bool.false_and]
  · rw [decide_eq_false hj, Bool.false_and, runs, decide_eq_false hj, Bool.and_false,
      Bool.false_and]

end Go

/-- GO reaches every core of the core map exactly once and no other core, amid
any other traffic that leaves the flush without a full queue. On its own a GO
packet is always flushed. -/
theorem go_reaches_everyone (hk : k ≤ 8) (active : AllActive k coreMap)
    {d : Dispatcher SpinEmuMc} (fresh : d.trace = []) (valid : d.Valid (square k))
    (idle : d.CoresIdle (square k))
    (pending : ∀ c < (square k).numChips, (d.mcQueue c 0).len ≠ 0 → d.mcPending = true)
    (installed : Installed k past coreMap root 1 d.spinEmuRoutes) {p : Marked}
    (queued : p ∈ (d.marked.mcQueue 0 0).contents) (isGo : p.1.key = goKey) :
    (∀ T, (flushMcQueues (square k)).Ends d.marked (.ok T) →
      (∀ e ∈ T.trace, e.isFull = false) →
      ∀ v j, sendsOf p.2 v j T.trace =
        if v < (square k).numChips ∧ runs coreMap v j then [.sent v j p] else []) ∧
    (d.Alone (square k) 0 → ¬ (flushMcQueues (square k)).Ends d (.error .intOverflow) →
      ∃ T, (flushMcQueues (square k)).Ends d.marked (.ok T) ∧
        (flushMcQueues (square k)).Ends d (.ok (T.map Prod.fst)) ∧
        ∀ e ∈ T.trace, e.isFull = false) := by
  have tree : FollowsTree k d.spinEmuRoutes p.1.key :=
    isGo ▸ go_followsTree hk active (by decide) installed
  have positive : 0 < (square k).numChips := Nat.mul_pos (Nat.two_pow_pos k) (Nat.two_pow_pos k)
  have member : p ∈ (d.marked.net (square k)).queue 0 := mem_net_queue.mpr ⟨positive, queued⟩
  constructor
  · intro T ends room v j
    obtain ⟨inv, empty, _⟩ := flushMcQueues_run (marked_valid valid)
      (fun clear => quiet_of_pending pending clear) T ends
    rw [inv.sends valid idle empty room member (tree_grounded tree 0) v j, tree_pathCount tree]
    by_cases hv : v < (square k).numChips
    · rw [isGo, go_selected hk active (by decide) installed hv]
      by_cases core : runs coreMap v j = true
      · rw [if_pos core, if_pos hv, if_pos ⟨hv, core⟩]
        rfl
      · rw [if_neg core, if_neg fun both => core both.2]
        rfl
    · rw [if_neg hv, ite_self, if_neg fun both => hv both.1]
      rfl
  · intro alone noOverflow
    apply Alone.flush fresh valid idle pending noOverflow member alone (tree_grounded tree 0)
    intro v
    rw [tree_pathCount tree]
    split <;> omega

/-- Two by two chips with application cores 1 and 2. -/
def fourChips (c i : Nat) : SpinEmuRoute := setupRoutes 1 (fun _ => 0) (fun _ => 6) (fun _ => 1) c i

theorem go_reaches_everyone_fourChips :
    (∀ T, (flushMcQueues (square 1)).Ends (holding fourChips 0 ⟨goKey, 0, 0⟩).marked (.ok T) →
      (∀ e ∈ T.trace, e.isFull = false) →
      ∀ v j, sendsOf (0, 0) v j T.trace =
        if v < 4 ∧ runs (fun _ => 6) v j then [.sent v j (⟨goKey, 0, 0⟩, 0, 0)] else []) ∧
    ∃ T, (flushMcQueues (square 1)).Ends (holding fourChips 0 ⟨goKey, 0, 0⟩).marked (.ok T) ∧
      (flushMcQueues (square 1)).Ends (holding fourChips 0 ⟨goKey, 0, 0⟩) (.ok (T.map Prod.fst)) ∧
      ∀ e ∈ T.trace, e.isFull = false := by
  have active : AllActive 1 fun _ => 6 := fun c _ =>
    ⟨1, show runs (fun _ => 6) 0 1 = true by decide⟩
  have idle : (holding fourChips 0 ⟨goKey, 0, 0⟩).CoresIdle (square 1) :=
    fun c _ i low _ => if_neg (by omega)
  have queued : (⟨goKey, 0, 0⟩, 0, 0) ∈
      ((holding fourChips 0 ⟨goKey, 0, 0⟩).marked.mcQueue 0 0).contents := by
    simp [SpinEmuMcQueue.contents, marked, holding, SpinEmuMcQueue.cell]
  have both := go_reaches_everyone (by decide) active rfl (holding_valid _ _ _) idle
    (fun _ _ _ => rfl) (setupRoutes_installed (by decide) 1) queued rfl
  refine ⟨both.1, both.2 (fun v _ => by simp [holding]) ?_⟩
  exact not_fault_of_returnsWithin
    (show (flushMcQueues (square 1)).returnsWithin 3 (holding fourChips 0 ⟨goKey, 0, 0⟩) = true by
      decide +kernel) _

end SpinEmu
