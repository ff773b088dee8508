import SpinEmu.BoardSetup

/-! The link targets as a whole: `chip_id` numbers the coordinates of any rectangular
board, and the links that `cmd_p2pc` sets up are those of a hexagonal mesh without
wrap-around. -/
namespace SpinEmu

def Board.OnBoard (b : Board) (x y : Int) : Prop :=
  0 ≤ x ∧ x < b.numChipsX ∧ 0 ≤ y ∧ y < b.numChipsY

/-- The direction from the other end of a link. -/
def opposite (j : Fin numLinks) : Fin numLinks := ⟨(j + 3) % 6, Nat.mod_lt _ (by decide)⟩

/-- `chip_id` and the two functions back are inverse to each other, and no assertion fails. -/
structure ChipNumbering (b : Board) : Prop where
  number : ∀ x y, b.OnBoard x y → ∃ c, chipId b x y = some c ∧ 0 ≤ c ∧ c < b.numChips ∧
    chipMyX b c = some x ∧ chipMyY b c = some y
  coordinates : ∀ c : Int, 0 ≤ c → c < b.numChips → ∃ x y, chipMyX b c = some x ∧
    chipMyY b c = some y ∧ b.OnBoard x y ∧ chipId b x y = some c

/-- The links of the board, from what is in the array. The numbers computed on the way are
not larger than that of the chips. -/
structure HexMesh (b : Board) (target : Nat → Fin numLinks → Option Int) : Prop where
  bounded : ∀ c < b.numChips, ∀ x y, chipMyX b c = some x → chipMyY b c = some y → ∀ j,
    (-1 ≤ x + (linkStep j).1 ∧ x + (linkStep j).1 ≤ b.numChips) ∧
      -1 ≤ y + (linkStep j).2 ∧ y + (linkStep j).2 ≤ b.numChips
  computed : ∀ c < b.numChips, ∀ j : Fin numLinks, ∃ t, channelTarget b c (j : Nat) = some t ∧
    target c j = some t ∧ (t = -1 ∨ 0 ≤ t ∧ t < b.numChips)
  neighbour : ∀ c < b.numChips, ∀ x y, chipMyX b c = some x → chipMyY b c = some y → ∀ j,
    (target c j = some (-1) ↔ ¬ b.OnBoard (x + (linkStep j).1) (y + (linkStep j).2)) ∧
    (b.OnBoard (x + (linkStep j).1) (y + (linkStep j).2) →
      target c j = chipId b (x + (linkStep j).1) (y + (linkStep j).2))
  symmetric : ∀ a < b.numChips, ∀ c < b.numChips, ∀ j,
    target a j = some (c : Int) ↔ target c (opposite j) = some (a : Int)
  distinct : ∀ c < b.numChips, ∀ j k t, 0 ≤ t → target c j = some t → target c k = some t → j = k

section Steps

theorem linkStep_opposite (j : Fin numLinks) :
    linkStep (opposite j) = (-(linkStep j).1, -(linkStep j).2) := by
  fin_cases j <;> rfl

theorem linkStep_bounds (j : Fin numLinks) : (-1 ≤ (linkStep j).1 ∧ (linkStep j).1 ≤ 1) ∧
    -1 ≤ (linkStep j).2 ∧ (linkStep j).2 ≤ 1 := by
  fin_cases j <;> decide

theorem linkStep_injective : Function.Injective linkStep := by
  decide

end Steps

section Numbering
variable {b : Board} {x y : Int}

theorem Board.OnBoard.natural (on : b.OnBoard x y) :
    ∃ x' y' : Nat, x = x' ∧ y = y' ∧ x' < b.numChipsX ∧ y' < b.numChipsY := by
  obtain ⟨x', rfl⟩ := Int.eq_ofNat_of_zero_le on.1
  obtain ⟨y', rfl⟩ := Int.eq_ofNat_of_zero_le on.2.2.1
  exact ⟨x', y', rfl, rfl, Int.ofNat_lt.mp on.2.1, Int.ofNat_lt.mp on.2.2.2⟩

theorem onBoard_natCast {x y : Nat} (hx : x < b.numChipsX) (hy : y < b.numChipsY) :
    b.OnBoard x y := ⟨by omega, by omega, by omega, by omega⟩

theorem chipId_chip {x y : Nat} (hx : x < b.numChipsX) (hy : y < b.numChipsY) :
    chipId b x y = some (b.chip x y : Int) := by
  rw [chipId_natCast, if_pos ⟨hx, hy⟩]

/-- A chip's coordinates are natural numbers on the board, and it is the chip there. -/
theorem chip_of_coordinates {c : Nat} (hc : c < b.numChips) (atx : chipMyX b c = some x)
    (aty : chipMyY b c = some y) :
    ∃ x' y' : Nat, x = x' ∧ y = y' ∧ x' < b.numChipsX ∧ y' < b.numChipsY ∧ b.chip x' y' = c := by
  obtain ⟨hx, hy, at_c⟩ := Board.coordinates hc
  rw [← at_c, chipMyX_chip hx hy] at atx
  rw [← at_c, chipMyY_chip hx hy] at aty
  cases atx
  cases aty
  exact ⟨_, _, rfl, rfl, hx, hy, at_c⟩

theorem chipNumbering (b : Board) : ChipNumbering b where
  number x y on := by
    obtain ⟨x, y, rfl, rfl, hx, hy⟩ := on.natural
    have range := Board.chip_lt hx hy
    exact ⟨b.chip x y, chipId_chip hx hy, by omega, by omega, chipMyX_chip hx hy,
      chipMyY_chip hx hy⟩
  coordinates c low high := by
    obtain ⟨c, rfl⟩ := Int.eq_ofNat_of_zero_le low
    obtain ⟨hx, hy, at_c⟩ := Board.coordinates (Int.ofNat_lt.mp high)
    refine ⟨(c / b.numChipsY : Nat), (c % b.numChipsY : Nat), ?_, ?_, onBoard_natCast hx hy, ?_⟩
    · rw [← chipMyX_chip hx hy, at_c]
    · rw [← chipMyY_chip hx hy, at_c]
    · rw [chipId_chip hx hy, at_c]

end Numbering

section Links
variable {b : Board} {x y : Nat} {j k : Fin numLinks}

/-- A link leads to the chip that is one step away, or nowhere. -/
theorem channelTarget_eq (hx : x < b.numChipsX) (hy : y < b.numChipsY) (j : Fin numLinks) :
    ∃ t, channelTarget b (b.chip x y) (j : Nat) = some t ∧
      ((t = -1 ∧ ¬ b.OnBoard (x + (linkStep j).1) (y + (linkStep j).2)) ∨
        ∃ x' y' : Nat, t = b.chip x' y' ∧ x' < b.numChipsX ∧ y' < b.numChipsY ∧
          (x' : Int) = x + (linkStep j).1 ∧ (y' : Int) = y + (linkStep j).2) := by
  rw [channelTarget_chip hx hy]
  split
  · rename_i on
    obtain ⟨x', y', stepx, stepy, hx', hy'⟩ := Board.OnBoard.natural on
    refine ⟨_, rfl, .inr ⟨x', y', ?_, hx', hy', stepx.symm, stepy.symm⟩⟩
    rw [stepx, stepy, Board.chip]
    push_cast
    rfl
  · rename_i off
    exact ⟨-1, rfl, .inl ⟨rfl, off⟩⟩

theorem channelTarget_eq_chip_iff {x' y' : Nat} (hx : x < b.numChipsX) (hy : y < b.numChipsY)
    (hx' : x' < b.numChipsX) (hy' : y' < b.numChipsY) (j : Fin numLinks) :
    channelTarget b (b.chip x y) (j : Nat) = some (b.chip x' y' : Int) ↔
      (x' : Int) = x + (linkStep j).1 ∧ (y' : Int) = y + (linkStep j).2 := by
  obtain ⟨t, computed, ⟨rfl, off⟩ | ⟨x'', y'', rfl, _, hy'', stepx, stepy⟩⟩ :=
    channelTarget_eq hx hy j
  · rw [computed]
    refine iff_of_false (fun same => by cases same) fun ⟨stepx, stepy⟩ => off ?_
    rw [← stepx, ← stepy]
    exact onBoard_natCast hx' hy'
  · rw [computed]
    constructor
    · intro same
      obtain ⟨rfl, rfl⟩ := chip_inj hy'' hy' (Int.ofNat_inj.mp (Option.some.inj same))
      exact ⟨stepx, stepy⟩
    · rintro ⟨stepx', stepy'⟩
      rw [show x'' = x' by omega, show y'' = y' by omega]

/-- The array of the link targets makes a mesh, once it holds what the loop computes. -/
theorem hexMesh_of_channelTargets {target : Nat → Fin numLinks → Option Int}
    (holds : ∀ c < b.numChips, ∀ j : Fin numLinks, target c j = channelTarget b c (j : Nat)) :
    HexMesh b target where
  bounded c hc x y atx aty j := by
    obtain ⟨x, y, rfl, rfl, hx, hy, _⟩ := chip_of_coordinates hc atx aty
    have across : b.numChipsX ≤ b.numChips := Nat.le_mul_of_pos_right _ (Nat.zero_lt_of_lt hy)
    have along : b.numChipsY ≤ b.numChips := Nat.le_mul_of_pos_left _ (Nat.zero_lt_of_lt hx)
    have step := linkStep_bounds j
    omega
  computed c hc j := by
    obtain ⟨hx, hy, at_c⟩ := Board.coordinates hc
    obtain ⟨t, computed, place⟩ := channelTarget_eq hx hy j
    rw [at_c] at computed
    refine ⟨t, computed, (holds c hc j).trans computed, ?_⟩
    rcases place with ⟨none, _⟩ | ⟨x', y', rfl, hx', hy', _⟩
    · exact .inl none
    · have := Board.chip_lt hx' hy'
      exact .inr ⟨by omega, by omega⟩
  neighbour c hc x y atx aty j := by
    obtain ⟨x, y, rfl, rfl, hx, hy, rfl⟩ := chip_of_coordinates hc atx aty
    obtain ⟨t, computed, place⟩ := channelTarget_eq hx hy j
    rw [holds _ hc j, computed]
    rcases place with ⟨rfl, off⟩ | ⟨x', y', rfl, hx', hy', stepx, stepy⟩
    · exact ⟨iff_of_true rfl off, fun on => absurd on off⟩
    · have on := onBoard_natCast hx' hy'
      rw [← stepx, ← stepy]
      refine ⟨iff_of_false (fun none => by cases none) fun off => off on, fun _ => ?_⟩
      exact (chipId_chip hx' hy').symm
  symmetric a ha c hc j := by
    obtain ⟨hx, hy, at_a⟩ := Board.coordinates ha
    obtain ⟨hx', hy', at_c⟩ := Board.coordinates hc
    rw [holds a ha, holds c hc, ← at_a, ← at_c, channelTarget_eq_chip_iff hx hy hx' hy',
      channelTarget_eq_chip_iff hx' hy' hx hy, linkStep_opposite]
    omega
  distinct c hc j k t inside first second := by
    obtain ⟨hx, hy, at_c⟩ := Board.coordinates hc
    rw [holds c hc, ← at_c] at first second
    obtain ⟨t', computed, ⟨rfl, _⟩ | ⟨x', y', rfl, hx', hy', _⟩⟩ := channelTarget_eq hx hy j
    · rw [first] at computed
      cases computed
      omega
    · rw [first] at computed
      cases computed
      rw [channelTarget_eq_chip_iff hx hy hx' hy'] at first second
      apply linkStep_injective
      exact Prod.ext (by omega) (by omega)

end Links

/-- `cmd_p2pc` sets up a consistent numbering and a hexagonal mesh on every board. -/
theorem cmdP2pc_hexMesh (b : Board) (fd : Nat → Nat → Int × Int) (pid : Nat → Nat → Int)
    (mem : BoardArrays Unwritten) :
    ∃ a, BoardArrays.cmdP2pc b fd pid mem = some a ∧ ChipNumbering b ∧
      HexMesh b fun c j => a.channelTargets.read₂ c (j : Nat) := by
  obtain ⟨a, result, prepared⟩ := BoardArrays.cmdP2pc_prepared b fd pid mem
  refine ⟨a, result, chipNumbering b, hexMesh_of_channelTargets fun c hc j => ?_⟩
  obtain ⟨hx, hy, at_c⟩ := Board.coordinates hc
  obtain ⟨t, computed, _⟩ := channelTarget_eq hx hy j
  rw [at_c] at computed
  rw [prepared.channelTargets c hc j j.isLt, channelTargets, computed]
  rfl

end SpinEmu
