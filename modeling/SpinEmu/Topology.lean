import SpinEmu.Basic
import Mathlib.Data.Fintype.Basic
import Mathlib.Tactic.FinCases

/-! Chip numbering and the links of the emulated board. The assertions of the
numbering functions are the failures of `Option`; the link targets are the
array that `cmd_p2pc` fills. -/
namespace SpinEmu

/-- `chip_id`, with its two assertions. -/
def chipId (b : Board) (x y : Int) : Option Int :=
  if 0 ≤ x ∧ x < b.numChipsX then
    if 0 ≤ y ∧ y < b.numChipsY then some (x * b.numChipsY + y) else none
  else none

def chipMyX (b : Board) (id : Int) : Option Int :=
  if 0 ≤ id ∧ id < b.numChips then some (id.tdiv b.numChipsY) else none

def chipMyY (b : Board) (id : Int) : Option Int :=
  if 0 ≤ id ∧ id < b.numChips then some (id.tmod b.numChipsY) else none

/-- The body of `cmd_p2pc`'s loop over `perchip` and `perlink`. Link directions
are 0=East, 1=NE, 2=N, 3=W, 4=SW, 5=S. -/
def channelTarget (b : Board) (perchip perlink : Int) : Option Int := do
  let x ← chipMyX b perchip
  let y ← chipMyY b perchip
  let targetx := if 0 ≤ perlink ∧ perlink ≤ 1 then x + 1 else x
  let targety := if 1 ≤ perlink ∧ perlink ≤ 2 then y + 1 else y
  let targetx := if 3 ≤ perlink ∧ perlink ≤ 4 then x - 1 else targetx
  let targety := if 4 ≤ perlink ∧ perlink ≤ 5 then y - 1 else targety
  if targetx < 0 ∨ targetx ≥ b.numChipsX ∨ targety < 0 ∨ targety ≥ b.numChipsY then some (-1)
  else chipId b targetx targety

/-- `channel_targets[chip][link]` once the board is set up. -/
def channelTargets (b : Board) (chip link : Nat) : Int := (channelTarget b chip link).getD (-1)

/-- The chip at the other end of a link, when the board has one there. -/
def linkTarget (b : Board) (chip : Nat) (link : Fin numLinks) : Option Nat :=
  let t := channelTargets b chip link
  if t < 0 then none else some t.toNat

/-- The chip at coordinates `(x, y)`. -/
def Board.chip (b : Board) (x y : Nat) : Nat := x * b.numChipsY + y

@[simp] theorem Board.chip_origin (b : Board) : b.chip 0 0 = 0 := by simp [Board.chip]

section Coordinates
variable {b : Board} {x y : Nat}

theorem Board.chip_lt (hx : x < b.numChipsX) (hy : y < b.numChipsY) : b.chip x y < b.numChips := by
  have : (x + 1) * b.numChipsY ≤ b.numChipsX * b.numChipsY := Nat.mul_le_mul_right _ hx
  rw [Nat.add_one_mul] at this
  simp only [Board.chip, Board.numChips]
  omega

theorem chip_div (hy : y < b.numChipsY) : b.chip x y / b.numChipsY = x := by
  rw [Board.chip, Nat.mul_comm, Nat.mul_add_div (by omega), Nat.div_eq_of_lt hy, Nat.add_zero]

theorem chip_mod (hy : y < b.numChipsY) : b.chip x y % b.numChipsY = y := by
  rw [Board.chip, Nat.mul_comm, Nat.mul_add_mod, Nat.mod_eq_of_lt hy]

theorem chipId_natCast (b : Board) (x y : Nat) :
    chipId b x y =
      if x < b.numChipsX ∧ y < b.numChipsY then some (b.chip x y : Int) else none := by
  simp only [chipId, Board.chip]
  split_ifs <;> first | omega | simp

/-- Every chip of the board is at the coordinates that the quotient and the
remainder give. -/
theorem Board.coordinates {c : Nat} (hc : c < b.numChips) :
    c / b.numChipsY < b.numChipsX ∧ c % b.numChipsY < b.numChipsY ∧
      b.chip (c / b.numChipsY) (c % b.numChipsY) = c := by
  have positive : 0 < b.numChipsY := by
    rcases Nat.eq_zero_or_pos b.numChipsY with zero | pos
    · simp [Board.numChips, zero] at hc
    · exact pos
  refine ⟨(Nat.div_lt_iff_lt_mul positive).mpr hc, Nat.mod_lt _ positive, ?_⟩
  rw [Board.chip, Nat.mul_comm]
  exact Nat.div_add_mod c b.numChipsY

theorem chipMyX_chip (hx : x < b.numChipsX) (hy : y < b.numChipsY) :
    chipMyX b (b.chip x y) = some (x : Int) := by
  have range := Board.chip_lt hx hy
  rw [chipMyX, if_pos ⟨by omega, by omega⟩, ← Int.ofNat_tdiv, chip_div hy]

theorem chipMyY_chip (hx : x < b.numChipsX) (hy : y < b.numChipsY) :
    chipMyY b (b.chip x y) = some (y : Int) := by
  have range := Board.chip_lt hx hy
  rw [chipMyY, if_pos ⟨by omega, by omega⟩, ← Int.ofNat_tmod, chip_mod hy]

theorem chip_inj {x' y' : Nat} (hy : y < b.numChipsY) (hy' : y' < b.numChipsY)
    (same : b.chip x y = b.chip x' y') : x = x' ∧ y = y' := by
  constructor
  · rw [← chip_div (x := x) hy, same, chip_div hy']
  · rw [← chip_mod (x := x) hy, same, chip_mod hy']

end Coordinates

/-- The coordinate step of each link direction. -/
def linkStep : Fin numLinks → Int × Int
  | 0 => (1, 0)
  | 1 => (1, 1)
  | 2 => (0, 1)
  | 3 => (-1, 0)
  | 4 => (-1, -1)
  | 5 => (0, -1)

theorem channelTarget_chip {b : Board} {x y : Nat} (hx : x < b.numChipsX) (hy : y < b.numChipsY)
    (j : Fin numLinks) :
    channelTarget b (b.chip x y) (j : Nat) =
      if 0 ≤ x + (linkStep j).1 ∧ x + (linkStep j).1 < b.numChipsX ∧
          0 ≤ y + (linkStep j).2 ∧ y + (linkStep j).2 < b.numChipsY then
        some ((x + (linkStep j).1) * b.numChipsY + (y + (linkStep j).2))
      else some (-1) := by
  have targetx : (if 3 ≤ ((j : Nat) : Int) ∧ ((j : Nat) : Int) ≤ 4 then (x : Int) - 1 else
      if 0 ≤ ((j : Nat) : Int) ∧ ((j : Nat) : Int) ≤ 1 then (x : Int) + 1 else x) =
        x + (linkStep j).1 := by
    fin_cases j <;> simp [linkStep, Int.sub_eq_add_neg]
  have targety : (if 4 ≤ ((j : Nat) : Int) ∧ ((j : Nat) : Int) ≤ 5 then (y : Int) - 1 else
      if 1 ≤ ((j : Nat) : Int) ∧ ((j : Nat) : Int) ≤ 2 then (y : Int) + 1 else y) =
        y + (linkStep j).2 := by
    fin_cases j <;> simp [linkStep, Int.sub_eq_add_neg]
  simp only [channelTarget, chipMyX_chip hx hy, chipMyY_chip hx hy, Option.bind_eq_bind,
    Option.bind_some, chipId, targetx, targety]
  split_ifs <;> first | rfl | omega

/-- The links of a chip lead one coordinate step away, unless that is off the
board. -/
theorem linkTarget_eq_some {b : Board} {x y t : Nat} (hx : x < b.numChipsX)
    (hy : y < b.numChipsY) (j : Fin numLinks) :
    linkTarget b (b.chip x y) j = some t ↔
      ∃ x' y' : Nat, x' < b.numChipsX ∧ y' < b.numChipsY ∧ t = b.chip x' y' ∧
        (x' : Int) = x + (linkStep j).1 ∧ (y' : Int) = y + (linkStep j).2 := by
  simp only [linkTarget, channelTargets, channelTarget_chip hx hy j]
  split_ifs with inside negative negative
  · exfalso
    simp only [Option.getD_some] at negative
    have : 0 ≤ (x + (linkStep j).1) * (b.numChipsY : Int) :=
      Int.mul_nonneg inside.1 (Int.natCast_nonneg _)
    omega
  · obtain ⟨x', hx'⟩ := Int.eq_ofNat_of_zero_le inside.1
    obtain ⟨y', hy'⟩ := Int.eq_ofNat_of_zero_le inside.2.2.1
    simp only [Option.getD_some, hx', hy'] at negative ⊢
    have value : ((x' : Int) * b.numChipsY + y').toNat = b.chip x' y' := by
      rw [Board.chip]
      exact_mod_cast Int.toNat_natCast (x' * b.numChipsY + y')
    rw [value, Option.some.injEq]
    constructor
    · rintro rfl
      exact ⟨x', y', by omega, by omega, rfl, by omega, by omega⟩
    · rintro ⟨x'', y'', _, _, rfl, hx'', hy''⟩
      rw [show x'' = x' by omega, show y'' = y' by omega]
  · constructor
    · nofun
    · rintro ⟨x', y', _, _, _, hx', hy'⟩
      exact absurd ⟨by omega, by omega, by omega, by omega⟩ inside
  · simp at negative

/-- Links join different chips of the board. -/
theorem linkTarget_inside {b : Board} {c t : Nat} {j : Fin numLinks}
    (step : linkTarget b c j = some t) : c < b.numChips ∧ t < b.numChips ∧ t ≠ c := by
  by_cases hc : c < b.numChips
  · obtain ⟨hx, hy, at_c⟩ := Board.coordinates hc
    rw [← at_c, linkTarget_eq_some hx hy] at step
    obtain ⟨x', y', hx', hy', rfl, stepx, stepy⟩ := step
    refine ⟨hc, Board.chip_lt hx' hy', fun same => ?_⟩
    rw [← at_c] at same
    obtain ⟨rfl, rfl⟩ := chip_inj hy' hy same
    have moved : (linkStep j).1 ≠ 0 ∨ (linkStep j).2 ≠ 0 := by
      fin_cases j <;> simp [linkStep]
    omega
  · have outside : chipMyX b c = none := if_neg (by omega)
    simp [linkTarget, channelTargets, channelTarget, outside] at step

end SpinEmu
