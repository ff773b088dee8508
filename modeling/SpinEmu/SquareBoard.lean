import SpinEmu.BarrierSetup
import SpinEmu.Lib.Tally
import Mathlib.Tactic.IntervalCases

/-! `barrier_setup` on square boards whose side is a power of two, in the chips'
own coordinates. Up to side 256 a chip's packed address gives its coordinates
back. -/
namespace SpinEmu

abbrev square (k : Nat) : Board := ⟨2 ^ k, 2 ^ k⟩

/-- The number of chips as the application passes it. -/
abbrev squareChips (k : Nat) : BitVec 32 := BitVec.ofNat 32 (2 ^ k * 2 ^ k)

/-- The bit of an application core in the core map. -/
def runs (coreMap : Nat → BitVec 32) (chip core : Nat) : Bool :=
  1 ≤ core && core < numCpus && testBit (coreMap chip) core

/-- Every chip of the board runs an application core. -/
def AllActive (k : Nat) (coreMap : Nat → BitVec 32) : Prop :=
  ∀ c < (square k).numChips, ∃ core, runs coreMap c core = true

theorem square_numChips (k : Nat) : (square k).numChips = 2 ^ k * 2 ^ k := rfl

section Size
variable {k : Nat}

theorem numChips_le (hk : k ≤ 15) : (square k).numChips ≤ 2 ^ 15 * 2 ^ 15 :=
  Nat.mul_le_mul (Nat.pow_le_pow_right (by decide) hk) (Nat.pow_le_pow_right (by decide) hk)

theorem squareChips_toNat (hk : k ≤ 15) : (squareChips k).toNat = (square k).numChips := by
  have bound := numChips_le hk
  rw [square_numChips] at bound ⊢
  rw [BitVec.toNat_ofNat, Nat.mod_eq_of_lt (by omega)]

theorem ofNat_ne_zero_iff {c : Nat} (hk : k ≤ 15) (hc : c < (square k).numChips) :
    BitVec.ofNat 32 c ≠ 0 ↔ c ≠ 0 := by
  have bound := numChips_le hk
  have zero : (0 : BitVec 32).toNat = 0 := rfl
  rw [← BitVec.toNat_ne_iff_ne, BitVec.toNat_ofNat, zero]
  omega

end Size

theorem barrierSize_square {k : Nat} (hk : k ≤ 15) : barrierSize (squareChips k) = k := by
  interval_cases k <;> decide

section Address
variable {k x y : Nat} (hx : x < 2 ^ k) (hy : y < 2 ^ k)
include hx hy

theorem spin1GetChipId_square :
    spin1GetChipId (square k) ((square k).chip x y) = some (BitVec.ofNat 32 (x * 256 + y)) := by
  simp only [spin1GetChipId, chipMyX_chip (b := square k) hx hy,
    chipMyY_chip (b := square k) hx hy, Option.bind_eq_bind, Option.bind_some]
  rw [show ((x : Int) * 2 ^ 8 + y) = ((x * 256 + y : Nat) : Int) by push_cast; rfl]
  rfl

variable (hk : k ≤ 8)
include hk

omit hx hy in
theorem side_le : 2 ^ k ≤ 256 := Nat.pow_le_pow_right (by decide) hk

theorem addressX : (BitVec.ofNat 32 (x * 256 + y)) >>> 8 = BitVec.ofNat 32 x := by
  have := side_le hk
  apply BitVec.eq_of_toNat_eq
  rw [BitVec.toNat_ushiftRight, BitVec.toNat_ofNat, BitVec.toNat_ofNat,
    Nat.shiftRight_eq_div_pow]
  omega

omit hx in
theorem addressY : (BitVec.ofNat 32 (x * 256 + y)) &&& 0xff = BitVec.ofNat 32 y := by
  have := side_le hk
  apply BitVec.eq_of_toNat_eq
  have mask : (0xff : BitVec 32).toNat = 2 ^ 8 - 1 := rfl
  rw [BitVec.toNat_and, BitVec.toNat_ofNat, BitVec.toNat_ofNat, mask,
    Nat.and_two_pow_sub_one_eq_mod]
  omega

theorem myChip_square :
    (BitVec.ofNat 32 x <<< k) ||| BitVec.ofNat 32 y = BitVec.ofNat 32 ((square k).chip x y) := by
  have side := side_le hk
  have inside : (square k).chip x y < 2 ^ k * 2 ^ k := Board.chip_lt (b := square k) hx hy
  have square_le : 2 ^ k * 2 ^ k ≤ 256 * 256 := Nat.mul_le_mul side side
  have whole : x <<< k + y = (square k).chip x y := by rw [Nat.shiftLeft_eq]; rfl
  apply BitVec.eq_of_toNat_eq
  rw [BitVec.toNat_or, BitVec.toNat_shiftLeft, BitVec.toNat_ofNat, BitVec.toNat_ofNat,
    BitVec.toNat_ofNat, Nat.mod_eq_of_lt (by omega : x < 2 ^ 32),
    Nat.mod_eq_of_lt (by omega : y < 2 ^ 32), Nat.mod_eq_of_lt (by omega : x <<< k < 2 ^ 32),
    ← Nat.shiftLeft_add_eq_or_of_lt hy, whole, Nat.mod_eq_of_lt (by omega)]

theorem rootChip_square : (BitVec.ofNat 32 (x * 256 + y) == 0) = (x == 0 && y == 0) := by
  have side := side_le hk
  rw [Bool.eq_iff_iff]
  have zero : (0 : BitVec 32).toNat = 0 := rfl
  simp only [beq_iff_eq, Bool.and_eq_true, ← BitVec.toNat_inj, BitVec.toNat_ofNat, zero]
  omega

end Address

section Cores
variable {past : Nat → BitVec 32} {coreMap : Nat → BitVec 32}

theorem testBit_mask (word : BitVec 32) {j : Nat} (low : 1 ≤ j) (high : j < 32) :
    testBit (word &&& 0xfffffffe) j = testBit word j := by
  have kept : (0xfffffffe : BitVec 32).getLsbD j = true := by
    interval_cases j <;> rfl
  rw [testBit_eq _ high, testBit_eq _ high, BitVec.getLsbD_and, kept, Bool.and_true]

theorem coreRoute_ofNat {core : Nat} (h : core < 26) :
    coreRoute past (BitVec.ofNat 32 core) = shiftOne past (core + 6) := by
  rw [coreRoute]
  congr 1
  have : (6 : BitVec 32).toNat = 6 := rfl
  rw [BitVec.toNat_add, BitVec.toNat_ofNat, this]
  omega

/-- The loop over the virtual cores collects their route bits. -/
theorem testBit_localCores (myCores myNcores : BitVec 32) {j : Nat} (hj : j < 32) :
    testBit (localCores past myCores myNcores).1 j =
      (7 ≤ j && j < 14 && testBit myCores (j - 6)) := by
  have fold : ∀ (vs : List Nat) (s : BitVec 32 × BitVec 32), (∀ v ∈ vs, v < 26) →
      testBit (vs.foldl (fun s v => if testBit myCores v
        then (s.1 ||| coreRoute past (BitVec.ofNat 32 v), s.2 + 1) else s) s).1 j =
      (testBit s.1 j || vs.any fun v => v + 6 == j && testBit myCores v) := by
    intro vs
    induction vs with
    | nil => simp
    | cons v vs ih =>
      intro s small
      have hv : v < 26 := small v List.mem_cons_self
      rw [List.foldl_cons, ih _ fun u hu => small u (List.mem_cons_of_mem _ hu), List.any_cons]
      cases bit : testBit myCores v with
      | false => simp
      | true =>
        simp only [if_true, coreRoute_ofNat hv, testBit_or _ _ hj, Bool.and_true, Bool.or_assoc,
          testBit_shiftOne past (show v + 6 < 32 by omega) hj]
        rfl
  rw [localCores, fold _ _ (by decide), show testBit (0, myNcores).1 j = false from testBit_zero,
    Bool.false_or, Bool.eq_iff_iff]
  simp only [List.any_eq_true, List.mem_range', Bool.and_eq_true, beq_iff_eq, decide_eq_true_eq,
    numCpus]
  constructor
  · rintro ⟨v, ⟨i, hi, rfl⟩, rfl, bit⟩
    exact ⟨⟨by omega, by omega⟩, by simpa using bit⟩
  · rintro ⟨⟨low, high⟩, bit⟩
    exact ⟨j - 6, ⟨j - 7, by omega, by omega⟩, by omega, bit⟩

theorem localCores_count (myCores myNcores : BitVec 32) :
    (localCores past myCores myNcores).2 =
      myNcores + BitVec.ofNat 32 ((List.range' 1 (numCpus - 1)).countP (testBit myCores)) := by
  refine (List.foldl_hom Prod.snd fun s v => ?_).symm.trans (Lib.Tally.foldl_count _ _ _)
  split <;> rfl

theorem hasCores_of_runs {c core : Nat} (small : c < 2 ^ 32) (running : runs coreMap c core = true) :
    hasCores coreMap (BitVec.ofNat 32 c) = true := by
  simp only [runs, Bool.and_eq_true, decide_eq_true_eq] at running
  obtain ⟨⟨low, high⟩, bit⟩ := running
  rw [hasCores, BitVec.toNat_ofNat, Nat.mod_eq_of_lt small, bne_iff_ne]
  intro none
  have := testBit_mask (coreMap c) low (by simp only [numCpus] at high; omega)
  rw [none, testBit_zero, bit] at this
  cases this

end Cores

section Neighbours
variable {k z : Nat}

theorem side_word (k : Nat) : 1#32 <<< k = BitVec.ofNat 32 (2 ^ k) := by
  apply BitVec.eq_of_toNat_eq
  rw [BitVec.toNat_shiftLeft, BitVec.toNat_ofNat, Nat.shiftLeft_eq]
  simp

/-- The core map index of a neighbour, as `barrier_setup` computes it. -/
theorem north_index (k x y : Nat) : BitVec.ofNat 32 ((square k).chip x y) + 1 =
    BitVec.ofNat 32 ((square k).chip x (y + 1)) := (BitVec.ofNat_add _ _).symm

theorem east_index (k x y : Nat) : BitVec.ofNat 32 ((square k).chip x y) + 1#32 <<< k =
    BitVec.ofNat 32 ((square k).chip (x + 1) y) := by
  rw [side_word, ← BitVec.ofNat_add]
  congr 1
  simp only [Board.chip, Nat.add_mul, Nat.one_mul]
  omega

theorem northEast_index (k x y : Nat) : BitVec.ofNat 32 ((square k).chip x y) + 1#32 <<< k + 1 =
    BitVec.ofNat 32 ((square k).chip (x + 1) (y + 1)) := by
  rw [east_index]
  exact north_index k (x + 1) y

variable (hk : k ≤ 8) (hz : z < 2 ^ k)
include hk hz

theorem lt_side_pred : decide (BitVec.ofNat 32 z < 1#32 <<< k - 1) = decide (z + 1 < 2 ^ k) := by
  have side := side_le hk
  have one : (1 : BitVec 32).toNat = 1 := rfl
  rw [side_word, decide_eq_decide, BitVec.lt_def, BitVec.toNat_sub, BitVec.toNat_ofNat,
    BitVec.toNat_ofNat, one]
  omega

theorem coordinate_beq_zero : (BitVec.ofNat 32 z == 0) = (z == 0) := by
  have side := side_le hk
  have zero : (0 : BitVec 32).toNat = 0 := rfl
  rw [Bool.eq_iff_iff, beq_iff_eq, beq_iff_eq, ← BitVec.toNat_inj, BitVec.toNat_ofNat, zero]
  omega

end Neighbours

section OffRoute
variable {k x y : Nat} {coreMap : Nat → BitVec 32}

/-- The links of the tree that `barrier_setup` builds from chip `(0, 0)`: north
on the first column, east on the first row, north-east everywhere. -/
def treeLink (n x y j : Nat) : Bool :=
  (j == north && x == 0 && y + 1 < n) || (j == east && x + 1 < n && y == 0) ||
    (j == northEast && x + 1 < n && y + 1 < n)

theorem testBit_ite_or (c : Bool) (u : BitVec 32) {i j : Nat} (hi : i < 32) (hj : j < 32) :
    testBit (if c then u ||| 1#32 <<< i else u) j = (testBit u j || (c && j == i)) := by
  cases c with
  | false => simp
  | true =>
    have bit : testBit (1#32 <<< i) j = (j == i) := by
      have := testBit_shiftOne (fun _ => 0) hi hj
      rw [shiftOne_of_lt hi] at this
      rw [this, Bool.eq_iff_iff, decide_eq_true_iff, beq_iff_eq, eq_comm]
    simp [testBit_or _ _ hj, bit]

theorem testBit_offRoute (hk : k ≤ 8) (active : AllActive k coreMap) (hx : x < 2 ^ k)
    (hy : y < 2 ^ k) {j : Nat} (hj : j < 32) :
    testBit (offRoute coreMap (1#32 <<< k) (BitVec.ofNat 32 x) (BitVec.ofNat 32 y)
      (BitVec.ofNat 32 ((square k).chip x y))) j = treeLink (2 ^ k) x y j := by
  have bound := numChips_le (k := k) (by omega)
  have cores {x' y' : Nat} {w : BitVec 32} (hx' : x' < 2 ^ k) (hy' : y' < 2 ^ k)
      (here : w = BitVec.ofNat 32 ((square k).chip x' y')) : hasCores coreMap w = true := by
    have inside := Board.chip_lt (b := square k) hx' hy'
    obtain ⟨core, running⟩ := active _ inside
    exact here ▸ hasCores_of_runs (by omega) running
  have northTest : (BitVec.ofNat 32 x == 0 && decide (BitVec.ofNat 32 y < 1#32 <<< k - 1) &&
      hasCores coreMap (BitVec.ofNat 32 ((square k).chip x y) + 1)) =
        (x == 0 && decide (y + 1 < 2 ^ k)) := by
    rw [coordinate_beq_zero hk hx, lt_side_pred hk hy]
    by_cases inside : y + 1 < 2 ^ k
    · rw [cores hx inside (north_index k x y), Bool.and_true]
    · simp only [inside, decide_false, Bool.and_false, Bool.false_and]
  have eastTest : (decide (BitVec.ofNat 32 x < 1#32 <<< k - 1) && BitVec.ofNat 32 y == 0 &&
      hasCores coreMap (BitVec.ofNat 32 ((square k).chip x y) + 1#32 <<< k)) =
        (decide (x + 1 < 2 ^ k) && y == 0) := by
    rw [coordinate_beq_zero hk hy, lt_side_pred hk hx]
    by_cases inside : x + 1 < 2 ^ k
    · rw [cores inside hy (east_index k x y), Bool.and_true]
    · simp only [inside, decide_false, Bool.false_and]
  have diagonalTest : (decide (BitVec.ofNat 32 y < 1#32 <<< k - 1) &&
      decide (BitVec.ofNat 32 x < 1#32 <<< k - 1) &&
      hasCores coreMap (BitVec.ofNat 32 ((square k).chip x y) + 1#32 <<< k + 1)) =
        (decide (y + 1 < 2 ^ k) && decide (x + 1 < 2 ^ k)) := by
    rw [lt_side_pred hk hx, lt_side_pred hk hy]
    by_cases inside : x + 1 < 2 ^ k ∧ y + 1 < 2 ^ k
    · rw [cores inside.1 inside.2 (northEast_index k x y), Bool.and_true]
    · rcases Classical.not_and_iff_not_or_not.mp inside with outside | outside <;>
        simp only [outside, decide_false, Bool.and_false, Bool.false_and]
  rw [offRoute, northTest, eastTest, diagonalTest, testBit_ite_or _ _ (by decide) hj,
    testBit_ite_or _ _ (by decide) hj, testBit_ite_or _ _ (by decide) hj, testBit_zero, treeLink]
  rw [Bool.eq_iff_iff]
  simp only [Bool.or_eq_true, Bool.and_eq_true, beq_iff_eq, decide_eq_true_eq, Bool.false_or]
  tauto

end OffRoute

section Setup
variable {k x y : Nat} {past : Nat → BitVec 32} {coreMap : Nat → BitVec 32}

/-- `p2p_get` in terms of coordinates. -/
def p2pLink (x y : Nat) : Nat :=
  if 0 < x ∧ 0 < y then 4 else if 0 < x then 3 else if 0 < y then 5 else 0

theorem p2pGet_square (hk : k ≤ 15) (hx : x < 2 ^ k) (hy : y < 2 ^ k) :
    p2pGet (square k) ((square k).chip x y) =
      some (p2pLink ((x * 256 + y) / 256) ((x * 256 + y) % 256)) := by
  have side : 2 ^ k ≤ 2 ^ 15 := Nat.pow_le_pow_right (by decide) hk
  have zero : (0 : BitVec 32).toNat = 0 := rfl
  have mask : (0xff : BitVec 32).toNat = 2 ^ 8 - 1 := rfl
  have high : (BitVec.ofNat 32 (x * 256 + y) >>> 8 > 0) = (0 < (x * 256 + y) / 256) := by
    rw [gt_iff_lt, BitVec.lt_def, zero, BitVec.toNat_ushiftRight, BitVec.toNat_ofNat,
      Nat.shiftRight_eq_div_pow, Nat.mod_eq_of_lt (by omega)]
  have low : (BitVec.ofNat 32 (x * 256 + y) &&& 0xff > 0) = (0 < (x * 256 + y) % 256) := by
    rw [gt_iff_lt, BitVec.lt_def, zero, BitVec.toNat_and, BitVec.toNat_ofNat, mask,
      Nat.and_two_pow_sub_one_eq_mod, Nat.mod_eq_of_lt (by omega : x * 256 + y < 2 ^ 32)]
  simp only [p2pGet, spin1GetChipId_square hx hy, Option.bind_eq_bind, Option.bind_some, high, low,
    p2pLink, Bool.and_eq_true, decide_eq_true_eq, pure]

/-- `barrier_setup` with the chip's packed address `a` at hand. -/
theorem barrierSetup_square (past coreMap : Nat → BitVec 32) (hk : k ≤ 15) (hx : x < 2 ^ k)
    (hy : y < 2 ^ k) (core : Nat) (v : BarrierVars) {a myChip off : BitVec 32}
    (address : a = BitVec.ofNat 32 (x * 256 + y))
    (here : myChip = ((a >>> 8) <<< k) ||| (a &&& 0xff))
    (links : off = offRoute coreMap (1#32 <<< k) (a >>> 8) (a &&& 0xff) myChip) :
    barrierSetup (square k) past (squareChips k) coreMap ((square k).chip x y) core v =
      some (⟨myChip, a == 0,
          if a == 0 then countChips (squareChips k) coreMap myChip v.nchips else v.nchips,
          (localCores past (coreMap myChip.toNat &&& 0xfffffffe) v.myNcores).2⟩,
        [⟨1, barrierEntry rdygoKey (if a == 0 then off else coreRoute past a ||| off)⟩,
          ⟨3, barrierEntry rdy2Key (if a == 0 then coreRoute past (BitVec.ofNat 32 core)
            else shiftOne past (p2pLink ((x * 256 + y) / 256) ((x * 256 + y) % 256)))⟩,
          ⟨0, barrierEntry goKey
            ((localCores past (coreMap myChip.toNat &&& 0xfffffffe) v.myNcores).1 ||| off)⟩]) := by
  simp only [barrierSetup, spin1GetChipId_square hx hy, p2pGet_square hk hx hy,
    barrierSize_square hk, Option.bind_eq_bind, Option.bind_some, ← address, ← here, ← links]
  split <;> simp

theorem countP_runs (chip : Nat) :
    (List.range' 1 (numCpus - 1)).countP (testBit (coreMap chip &&& 0xfffffffe)) =
      (List.range numCpus).countP (runs coreMap chip) := by
  have rest : (List.range' 1 (numCpus - 1)).countP (testBit (coreMap chip &&& 0xfffffffe)) =
      (List.range' 1 (numCpus - 1)).countP (runs coreMap chip) := by
    apply List.countP_congr
    intro j hj
    obtain ⟨i, hi, rfl⟩ := List.mem_range'.mp hj
    simp only [numCpus] at hi
    have range : (1 ≤ 1 + 1 * i && 1 + 1 * i < numCpus) = true := by
      simp only [numCpus, Bool.and_eq_true, decide_eq_true_eq]
      omega
    rw [testBit_mask _ (by omega) (by omega), runs, range, Bool.true_and]
  rw [rest]
  rfl

/-- With all chips active, the root chip counts every chip of the board. -/
theorem countChips_square (hk : k ≤ 15) (active : AllActive k coreMap) :
    countChips (squareChips k) coreMap 0 1 = squareChips k := by
  have bound := numChips_le hk
  obtain ⟨n, hn⟩ : ∃ n, (square k).numChips = n + 1 :=
    Nat.exists_eq_add_one.mpr (Nat.mul_pos (Nat.two_pow_pos k) (Nat.two_pow_pos k))
  have others : (List.range (n + 1)).countP (fun i => BitVec.ofNat 32 i != 0 &&
      hasCores coreMap (BitVec.ofNat 32 i)) = n := by
    rw [List.range_succ_eq_map, List.countP_cons, List.countP_map]
    refine (List.countP_eq_length.mpr fun i member => ?_).trans List.length_range
    have hi : i + 1 < (square k).numChips := by
      rw [hn]
      exact Nat.succ_lt_succ (List.mem_range.mp member)
    obtain ⟨core, running⟩ := active (i + 1) hi
    have cores := hasCores_of_runs (by omega) running
    simpa [cores] using (ofNat_ne_zero_iff hk hi).mpr (Nat.succ_ne_zero i)
  rw [countChips, squareChips_toNat hk, hn, Lib.Tally.foldl_count, others]
  calc (1 : BitVec 32) + BitVec.ofNat 32 n
    _ = BitVec.ofNat 32 (1 + n) := (BitVec.ofNat_add 1 n).symm
    _ = squareChips k := by rw [Nat.add_comm, ← hn, square_numChips]

end Setup
end SpinEmu
