import SpinEmu.SquareBoard

/-! The index into the core map. `barrier_setup` computes the side of the board from the
highest bit of the number of chips, and packs the coordinates with a shift by it; the
other functions multiply by the side. -/
namespace SpinEmu

/-- A square board of any side, and the number of its chips. -/
abbrev sided (n : Nat) : Board := ⟨n, n⟩
abbrev sidedChips (n : Nat) : BitVec 32 := BitVec.ofNat 32 (n * n)

/-- `bside`. -/
def barrierSide (chips : BitVec 32) : BitVec 32 := 1#32 <<< barrierSize chips

/-- The index that a chip computes, and those of its neighbours, are the chips' numbers. -/
structure IndexedByChip (n : Nat) (index : Nat → Nat → BitVec 32) : Prop where
  side : barrierSide (sidedChips n) = BitVec.ofNat 32 n
  chip : ∀ x < n, ∀ y < n, chipId (sided n) x y = some ((index x y).toNat : Int)
  below : ∀ x < n, ∀ y < n, index x y < sidedChips n
  distinct : ∀ x < n, ∀ y < n, ∀ x' < n, ∀ y' < n, index x y = index x' y' → x = x' ∧ y = y'
  north : ∀ x < n, ∀ y, y + 1 < n →
    chipId (sided n) x (y + 1 : Nat) = some ((index x y + 1).toNat : Int)
  east : ∀ x, x + 1 < n → ∀ y < n, chipId (sided n) (x + 1 : Nat) y =
    some ((index x y + barrierSide (sidedChips n)).toNat : Int)
  northEast : ∀ x, x + 1 < n → ∀ y, y + 1 < n → chipId (sided n) (x + 1 : Nat) (y + 1 : Nat) =
    some ((index x y + barrierSide (sidedChips n) + 1).toNat : Int)

/-- What `barrier_setup` leaves in `my_chip` on the chips of the board. -/
def CoreMapIndexed (n : Nat) (past coreMap : Nat → BitVec 32) (core : Nat) (v : BarrierVars) :
    Prop :=
  ∃ index, IndexedByChip n index ∧ ∀ x < n, ∀ y < n, ∃ v' ps,
    barrierSetup (sided n) past (sidedChips n) coreMap ((sided n).chip x y) core v = some (v', ps) ∧
      v'.myChip = index x y

section Sides
variable {n k : Nat} {past coreMap : Nat → BitVec 32} {core : Nat} {v : BarrierVars}

theorem barrierSize_lt (chips : BitVec 32) : barrierSize chips < 16 := by
  unfold barrierSize
  cases (List.range 32).find? fun i => chips &&& (0x80000000#32 >>> i) != 0#32 with
  | none => decide
  | some i =>
    simp only [Option.elim_some, Nat.shiftRight_eq_div_pow]
    omega

/-- The side that is computed is a power of two for any number of chips. -/
theorem barrierSide_toNat (chips : BitVec 32) :
    (barrierSide chips).toNat = 2 ^ barrierSize chips := by
  have small := Nat.pow_lt_pow_right (by decide : 1 < 2) (barrierSize_lt chips)
  rw [barrierSide, BitVec.toNat_shiftLeft, Nat.shiftLeft_eq, BitVec.toNat_ofNat]
  omega

theorem barrierSide_square (hk : k ≤ 15) : barrierSide (squareChips k) = 1#32 <<< k := by
  rw [barrierSide, barrierSize_square hk]

theorem exists_power_of_indexed (high : n ≤ 256)
    (indexed : CoreMapIndexed n past coreMap core v) : ∃ k, n = 2 ^ k := by
  obtain ⟨index, agrees, _⟩ := indexed
  have side := congrArg BitVec.toNat agrees.side
  rw [barrierSide_toNat, BitVec.toNat_ofNat] at side
  exact ⟨barrierSize (sidedChips n), by omega⟩

/-- On a side that is a power of two the chips' numbers have all that is asked for. -/
theorem indexedByChip_square (hk : k ≤ 8) :
    IndexedByChip (2 ^ k) fun x y => BitVec.ofNat 32 ((square k).chip x y) := by
  have side := side_le hk
  have square_le : 2 ^ k * 2 ^ k ≤ 256 * 256 := Nat.mul_le_mul side side
  have bside := barrierSide_square (k := k) (by omega)
  have inside {x y : Nat} (hx : x < 2 ^ k) (hy : y < 2 ^ k) :
      (square k).chip x y < 2 ^ k * 2 ^ k := Board.chip_lt (b := square k) hx hy
  have number {x y : Nat} (hx : x < 2 ^ k) (hy : y < 2 ^ k) {w : BitVec 32}
      (same : w = BitVec.ofNat 32 ((square k).chip x y)) :
      chipId (sided (2 ^ k)) x y = some (w.toNat : Int) := by
    have := inside hx hy
    rw [chipId_natCast, if_pos ⟨hx, hy⟩, same, BitVec.toNat_ofNat,
      Nat.mod_eq_of_lt (by omega)]
  refine ⟨bside.trans (side_word k), fun x hx y hy => number hx hy rfl, fun x hx y hy => ?_,
    fun x hx y hy x' hx' y' hy' same => ?_, fun x hx y hy => number hx hy ?_,
    fun x hx y hy => number hx hy ?_, fun x hx y hy => number hx hy ?_⟩
  · have := inside hx hy
    rw [BitVec.lt_def, BitVec.toNat_ofNat, BitVec.toNat_ofNat]
    omega
  · have := inside hx hy
    have := inside hx' hy'
    have same := congrArg BitVec.toNat same
    rw [BitVec.toNat_ofNat, BitVec.toNat_ofNat, Nat.mod_eq_of_lt (by omega),
      Nat.mod_eq_of_lt (by omega)] at same
    exact chip_inj (b := square k) hy hy' same
  · exact north_index k x y
  · rw [bside]
    exact east_index k x y
  · rw [bside]
    exact northEast_index k x y

theorem indexed_of_power (hk : k ≤ 8) : CoreMapIndexed (2 ^ k) past coreMap core v := by
  refine ⟨_, indexedByChip_square hk, fun x hx y hy => ?_⟩
  refine ⟨_, _, barrierSetup_square past coreMap (by omega) hx hy core v rfl rfl rfl, ?_⟩
  rw [addressX hx hy hk, addressY hy hk]
  exact myChip_square hx hy hk

end Sides

/-- `barrier_setup` numbers the chips as `chip_id` does exactly on boards whose side is a
power of two. -/
theorem coreMapIndexed_iff (n : Nat) (high : n ≤ 256) (past coreMap : Nat → BitVec 32)
    (core : Nat) (v : BarrierVars) :
    CoreMapIndexed n past coreMap core v ↔ ∃ k, n = 2 ^ k := by
  constructor
  · exact exists_power_of_indexed high
  · rintro ⟨k, rfl⟩
    exact indexed_of_power ((Nat.pow_le_pow_iff_right (by decide)).mp (high : 2 ^ k ≤ 2 ^ 8))

theorem coreMapIndexed_four : CoreMapIndexed 4 (fun _ => 0) (fun _ => 2) 1 {} ↔ ∃ k, 4 = 2 ^ k :=
  coreMapIndexed_iff 4 (by decide) _ _ _ _

/-- On a board of side three, `bside` is two. -/
theorem not_coreMapIndexed_three : ¬ CoreMapIndexed 3 (fun _ => 0) (fun _ => 2) 1 {} := by
  rintro ⟨index, agrees, _⟩
  exact absurd agrees.side (by decide)

end SpinEmu
