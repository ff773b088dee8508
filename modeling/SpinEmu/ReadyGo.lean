import SpinEmu.GoTree

/-! RDYGO. A chip other than the root builds the core bit of its entry from its
packed address, where the root application core's number belongs, so the entry
names the wrong core or is shifted out of the word. -/
namespace SpinEmu
open Lib Lib.Forwarding Lib.Program Lib.LinkGraph Dispatcher

variable {k : Nat} {past : Nat → BitVec 32} {coreMap : Nat → BitVec 32} {root : Nat → Nat}

/-- An RDYGO packet queued on chip `(0, 0)` is delivered once to the root
application core of every other chip and to no other core, and every shift that
builds a core bit of its entries is within the word. -/
def RdygoReachesRoots (k : Nat) (past : Nat → BitVec 32) (coreMap : Nat → BitVec 32)
    (root : Nat → Nat) : Prop :=
  (∀ c < (square k).numChips, c ≠ 0 → ∀ a, spin1GetChipId (square k) c = some a →
    (a + 6).toNat < 32) ∧
  ∀ d : Dispatcher SpinEmuMc, d.trace = [] → d.Valid (square k) → d.CoresIdle (square k) →
    (∀ c < (square k).numChips, (d.mcQueue c 0).len ≠ 0 → d.mcPending = true) →
    Installed k past coreMap root 4 d.spinEmuRoutes →
    ∀ p ∈ (d.marked.mcQueue 0 0).contents, p.1.key = rdygoKey →
    ∀ T, (flushMcQueues (square k)).Ends d.marked (.ok T) → (∀ e ∈ T.trace, e.isFull = false) →
    ∀ v j, sendsOf p.2 v j T.trace =
      if v < (square k).numChips ∧ v ≠ 0 ∧ j = root v then [.sent v j p] else []

/-- On the chip east of the root the shift count is `256 + 6`. -/
theorem rdygo_shift (several : k ≠ 0) :
    ∃ c < (square k).numChips, c ≠ 0 ∧ ∃ a, spin1GetChipId (square k) c = some a ∧
      ¬ (a + 6).toNat < 32 := by
  have wide : 1 < 2 ^ k := Nat.one_lt_two_pow several
  have address := spin1GetChipId_square (k := k) (x := 1) (y := 0) wide (Nat.two_pow_pos k)
  refine ⟨(square k).chip 1 0, Board.chip_lt (b := square k) wide (Nat.two_pow_pos k), ?_, _,
    address, by decide⟩
  intro same
  have := chip_inj (b := square k) (Nat.two_pow_pos k) (Nat.two_pow_pos k)
    (same.trans (Board.chip_origin _).symm)
  omega

section OneChip
variable {routes : Nat → Nat → SpinEmuRoute} (active : AllActive 0 coreMap)
  (installed : Installed 0 past coreMap root 4 routes)
include active installed

/-- A board of one chip has no off-chip routes. -/
theorem rdygo_oneChip {j : Nat} (hj : j < 32) :
    ∃ r, firstMatch (routes 0) rdygoKey = some r ∧ testBit r.route j = false := by
  have found := firstMatch_rdygo (x := 0) (y := 0) (by decide) (by decide) (by decide) installed
    (by decide)
  refine ⟨_, found, ?_⟩
  have bits := testBit_offRoute (k := 0) (x := 0) (y := 0) (by decide) active (by decide)
    (by decide) hj
  have none : treeLink (2 ^ 0) 0 0 j = false := by simp [treeLink]
  exact bits.trans none

theorem rdygo_followsTree : FollowsTree 0 routes rdygoKey := by
  intro x hx y hy
  obtain rfl : x = 0 := by omega
  obtain rfl : y = 0 := by omega
  have found := firstMatch_rdygo (x := 0) (y := 0) (by decide) hx hy installed (by decide)
  refine ⟨_, found, fun j hj => ?_⟩
  exact testBit_offRoute (by decide) active hx hy (by simp only [numLinks] at hj; omega)

end OneChip

/-- RDYGO reaches the root application cores exactly on the board of one chip. -/
theorem rdygo_reaches_roots_iff (active : AllActive k coreMap) :
    RdygoReachesRoots k past coreMap root ↔ k = 0 := by
  constructor
  · rintro ⟨shifts, _⟩
    by_contra several
    obtain ⟨c, hc, other, a, address, outside⟩ := rdygo_shift several
    exact outside (shifts c hc other a address)
  · rintro rfl
    refine ⟨fun c hc other => absurd (Nat.lt_one_iff.mp hc) other, ?_⟩
    intro d fresh valid idle pending installed p queued isRdygo T ends room v j
    obtain ⟨inv, empty, _⟩ := flushMcQueues_run (marked_valid valid)
      (fun clear => quiet_of_pending pending clear) T ends
    have member : p ∈ (d.marked.net (square 0)).queue 0 :=
      mem_net_queue.mpr ⟨Nat.zero_lt_one, queued⟩
    have tree : FollowsTree 0 d.spinEmuRoutes p.1.key :=
      isRdygo ▸ rdygo_followsTree active installed
    rw [inv.sends valid idle empty room member (tree_grounded tree 0) v j, tree_pathCount tree]
    by_cases hv : v < (square 0).numChips
    · obtain rfl : v = 0 := Nat.lt_one_iff.mp hv
      have silent : selected d.spinEmuRoutes rdygoKey 0 j = false := by
        by_cases hj : j < numCpus
        · obtain ⟨r, found, bit⟩ := rdygo_oneChip active installed (j := j + numLinks)
            (by simp only [numCpus, numLinks] at hj ⊢; omega)
          rw [selected, found, Option.any_some, bit, Bool.and_false]
        · rw [selected, decide_eq_false hj, Bool.false_and]
      rw [isRdygo, silent, if_neg Bool.false_ne_true, if_neg fun all => all.2.1 rfl]
      rfl
    · rw [if_neg hv, ite_self, if_neg fun all => hv all.1]
      rfl

/-- Two by two chips, core 2 elected on each, and an RDYGO packet at the root. -/
def rdygoQueued : Dispatcher SpinEmuMc :=
  holding (setupRoutes 1 shiftModulo (fun _ => 6) fun _ => 2) 0 ⟨rdygoKey, 0, 0⟩

/-- On chip `(0, 1)` the packet goes to core 1. -/
theorem rdygo_misses_root :
    ¬ RdygoReachesRoots 1 shiftModulo (fun _ => 6) (fun _ => 2) ∧
      ∃ T, (flushMcQueues (square 1)).Ends rdygoQueued.marked (.ok T) ∧
        sendsOf (0, 0) 1 2 T.trace = [] ∧ (sendsOf (0, 0) 1 1 T.trace).length = 1 := by
  have run : ((flushMcQueues (square 1)).run 3 rdygoQueued.marked).any (fun r =>
      r.toOption.any fun T =>
        T.trace.all (fun e => !e.isFull) && (sendsOf (0, 0) 1 2 T.trace).isEmpty &&
          (sendsOf (0, 0) 1 1 T.trace).length == 1) = true := by decide +kernel
  obtain ⟨r, result, run⟩ := (Option.any_eq_true _ _).mp run
  obtain ⟨T, ok, run⟩ := (Option.any_eq_true _ _).mp run
  have ends : (flushMcQueues (square 1)).Ends rdygoQueued.marked (.ok T) :=
    ⟨3, toOption_eq_some ok ▸ result⟩
  simp only [Bool.and_eq_true, List.all_eq_true, Bool.not_eq_true', List.isEmpty_iff,
    beq_iff_eq] at run
  obtain ⟨⟨room, missed⟩, wrong⟩ := run
  refine ⟨fun all => ?_, T, ends, missed, wrong⟩
  have idle : rdygoQueued.CoresIdle (square 1) := fun c _ i low _ => if_neg (by omega)
  have queued : (⟨rdygoKey, 0, 0⟩, 0, 0) ∈ (rdygoQueued.marked.mcQueue 0 0).contents := by
    simp [SpinEmuMcQueue.contents, marked, rdygoQueued, holding, SpinEmuMcQueue.cell]
  have delivered := all.2 rdygoQueued rfl (holding_valid _ _ _) idle (fun _ _ _ => rfl)
    (setupRoutes_installed (by decide) 4) _ queued rfl T ends room 1 2
  rw [show sendsOf _ 1 2 T.trace = [] from missed, if_pos ⟨by decide, by decide, rfl⟩] at delivered
  cases delivered

theorem rdygo_reaches_roots_iff_fourChips :
    RdygoReachesRoots 1 shiftModulo (fun _ => 6) (fun _ => 2) ↔ 1 = 0 :=
  rdygo_reaches_roots_iff fun c _ =>
    ⟨1, show runs (fun _ => 6) 0 1 = true by decide⟩

end SpinEmu
