import SpinEmu.BarrierTables
import SpinEmu.ReadyPath

/-! Where the barrier system's tables send the ready packets: an RDY1 packet to the
root core of its chip, an RDY2 packet one link further or, on chip `(0, 0)`, to the
root core. -/
namespace SpinEmu
open Lib Lib.Forwarding Dispatcher

section OneBit
variable {b : Board} {routes : Nat → Nat → SpinEmuRoute} {past : Nat → BitVec 32} {key : BitVec 32}
  {c n : Nat} (found : firstMatch (routes c) key = some (barrierEntry key (shiftOne past n)))
include found

/-- An entry of one link bit. -/
theorem mcLink_oneBit (hn : n < 32) (j : Fin numLinks) :
    mcLink b routes key c j = if n = j then linkTarget b c j else none := by
  have hj := j.isLt
  have bit := testBit_shiftOne past hn (j := j) (by simp only [numLinks] at hj; omega)
  rw [mcLink_some found]
  simp only [barrierEntry, bit, decide_eq_true_eq]

theorem sum_oneBit (hn : n < 32) (f : Nat → Nat) :
    ∑ l, (mcLink b routes key c l).elim 0 f =
      if link : n < numLinks then (linkTarget b c ⟨n, link⟩).elim 0 f else 0 := by
  simp only [mcLink_oneBit found hn]
  split
  · rename_i link
    rw [Finset.sum_eq_single_of_mem ⟨n, link⟩ (Finset.mem_univ _)]
    · simp
    · intro l _ apart
      rw [if_neg fun same => apart (Fin.ext same.symm)]
      rfl
  · rename_i noLink
    apply Finset.sum_eq_zero
    intro l _
    have apart : ¬ n = l := fun same => noLink (same ▸ l.isLt)
    rw [if_neg apart]
    rfl

theorem mcExits_oneBit (hn : n < 32) :
    mcExits routes c key = if numLinks ≤ n ∧ n < numLinks + numCpus then [n - numLinks] else [] := by
  have bits : ∀ j ∈ List.range numCpus,
      testBit (barrierEntry key (shiftOne past n)).route (j + numLinks) =
        decide (n = j + numLinks) := by
    intro j hj
    have hj := List.mem_range.mp hj
    exact testBit_shiftOne past hn (by simp only [numCpus, numLinks] at hj ⊢; omega)
  rw [mcExits_some found, List.filter_congr bits]
  split
  · rename_i core
    obtain ⟨r, rfl⟩ : ∃ r, n = r + numLinks := ⟨n - numLinks, by omega⟩
    have hr : r < numCpus := by omega
    have same : (List.range numCpus).filter (fun j => decide (r + numLinks = j + numLinks)) =
        (List.range numCpus).filter (· == r) := by
      apply List.filter_congr
      intro j _
      rw [Bool.eq_iff_iff, decide_eq_true_iff, beq_iff_eq]
      omega
    rw [same, List.filter_beq, List.count_eq_one_of_mem List.nodup_range (List.mem_range.mpr hr),
      Nat.add_sub_cancel]
    rfl
  · rename_i noCore
    apply List.filter_eq_nil_iff.mpr
    intro j hj
    have hj := List.mem_range.mp hj
    rw [decide_eq_true_iff]
    omega

end OneBit

section Stray
variable {k x y : Nat}

/-- The chips `(0, y)` whose packed address has an `x` that is not 0: `p2p_get` sends
them west. -/
def strayChip (k c : Nat) : Bool := c / 2 ^ k == 0 && 256 ≤ c % 2 ^ k

theorem strayChip_chip (hy : y < 2 ^ k) :
    strayChip k ((square k).chip x y) = true ↔ x = 0 ∧ 256 ≤ y := by
  have quotient : (square k).chip x y / 2 ^ k = x := chip_div (b := square k) hy
  have remainder : (square k).chip x y % 2 ^ k = y := chip_mod (b := square k) hy
  rw [strayChip, quotient, remainder, Bool.and_eq_true, beq_iff_eq, decide_eq_true_iff]

theorem strayChip_false (hk : k ≤ 8) (c : Nat) : strayChip k c = false := by
  have side := side_le hk
  have := Nat.mod_lt c (Nat.two_pow_pos k)
  rw [strayChip, Bool.and_eq_false_iff]
  exact .inr (decide_eq_false (by omega))

theorem exists_strayChip (hk : 8 < k) : ∃ c < (square k).numChips, c ≠ 0 ∧ strayChip k c = true := by
  have side : 2 ^ 9 ≤ 2 ^ k := Nat.pow_le_pow_right (by decide) hk
  have positive : 0 < 2 ^ k := Nat.two_pow_pos k
  refine ⟨(square k).chip 0 256, Board.chip_lt positive (by simp only; omega), by simp [Board.chip],
    (strayChip_chip (by omega)).mpr ⟨rfl, le_rfl⟩⟩

/-- The link that a chip other than `(0, 0)` gives RDY2 leads off the board on the
stray chips and nowhere else. -/
theorem packedLink_target (hx : x < 2 ^ k) (hy : y < 2 ^ k) (other : ¬ (x = 0 ∧ y = 0))
    {j : Fin numLinks} (link : p2pLink ((x * 256 + y) / 256) ((x * 256 + y) % 256) = j) :
    (linkTarget (square k) ((square k).chip x y) j).isSome = !strayChip k ((square k).chip x y) := by
  have stray := strayChip_chip (x := x) hy
  have quotient : (x * 256 + y) / 256 = x + y / 256 := by omega
  have remainder : (x * 256 + y) % 256 = y % 256 := by omega
  rw [quotient, remainder, p2pLink] at link
  have step (x' y' : Nat) (stepX : (x' : Int) = x + (linkStep j).1)
      (stepY : (y' : Int) = y + (linkStep j).2) (inX : x' < 2 ^ k) (inY : y' < 2 ^ k)
      (here : ¬ (x = 0 ∧ 256 ≤ y)) :
      (linkTarget (square k) ((square k).chip x y) j).isSome =
        !strayChip k ((square k).chip x y) := by
    rw [(linkTarget_eq_some (b := square k) hx hy j).mpr ⟨x', y', inX, inY, rfl, stepX, stepY⟩,
      Bool.eq_false_iff.mpr fun h => here (stray.mp h)]
    rfl
  have outside (west : (linkStep j).1 = -1) (here : x = 0 ∧ 256 ≤ y) :
      (linkTarget (square k) ((square k).chip x y) j).isSome =
        !strayChip k ((square k).chip x y) := by
    rw [stray.mpr here, Bool.not_true, Option.isSome_eq_false_iff, Option.isNone_iff_eq_none]
    by_contra target
    obtain ⟨t, target⟩ := Option.ne_none_iff_exists'.mp target
    obtain ⟨x', y', _, _, _, stepX, _⟩ := (linkTarget_eq_some (b := square k) hx hy j).mp target
    omega
  split at link
  · obtain rfl : j = 4 := Fin.ext link.symm
    by_cases edge : x = 0
    · exact outside rfl ⟨edge, by omega⟩
    · exact step (x - 1) (y - 1) (by simp only [linkStep]; omega) (by simp only [linkStep]; omega)
        (by omega) (by omega) (by omega)
  · split at link
    · obtain rfl : j = 3 := Fin.ext link.symm
      by_cases edge : x = 0
      · exact outside rfl ⟨edge, by omega⟩
      · exact step (x - 1) y (by simp only [linkStep]; omega) (by simp only [linkStep]; omega)
          (by omega) hy (by omega)
    · split at link
      · obtain rfl : j = 5 := Fin.ext link.symm
        exact step x (y - 1) (by simp only [linkStep]; omega) (by simp only [linkStep]; omega)
          hx (by omega) (by omega)
      · omega

/-- The link of chip `c` that `p2p_get` gives. -/
def readyLink (k c : Nat) : Fin numLinks :=
  ⟨p2pLink ((c / 2 ^ k * 256 + c % 2 ^ k) / 256) ((c / 2 ^ k * 256 + c % 2 ^ k) % 256), p2pLink_lt _ _⟩

theorem readyLink_target {c : Nat} (hc : c < (square k).numChips) (other : c ≠ 0) :
    (linkTarget (square k) c (readyLink k c)).isSome = !strayChip k c := by
  obtain ⟨hx, hy, here⟩ := Board.coordinates hc
  have apart : ¬ (c / 2 ^ k = 0 ∧ c % 2 ^ k = 0) := by
    rintro ⟨x, y⟩
    have whole := Nat.div_add_mod' c (2 ^ k)
    rw [x, y] at whole
    omega
  have target := packedLink_target hx hy apart (j := readyLink k c) rfl
  rwa [here] at target

end Stray

/-- The packed address is 0 on chip `(0, 0)` only. -/
theorem packed_origin {k c : Nat} (hk : k ≤ 15) (hc : c < (square k).numChips) :
    (BitVec.ofNat 32 (c / 2 ^ k * 256 + c % 2 ^ k) == 0) = decide (c = 0) := by
  have side : 2 ^ k ≤ 2 ^ 15 := Nat.pow_le_pow_right (by decide) hk
  have zero : (0 : BitVec 32).toNat = 0 := rfl
  have hx : c / 2 ^ k < 2 ^ k := (Board.coordinates hc).1
  have hy : c % 2 ^ k < 2 ^ k := (Board.coordinates hc).2.1
  rw [Bool.eq_iff_iff, beq_iff_eq, decide_eq_true_iff, ← BitVec.toNat_inj, BitVec.toNat_ofNat, zero,
    Nat.mod_eq_of_lt (by omega)]
  constructor
  · intro none
    have whole := Nat.div_add_mod' c (2 ^ k)
    rw [show c / 2 ^ k = 0 by omega, show c % 2 ^ k = 0 by omega, Nat.zero_mul] at whole
    exact whole.symm
  · rintro rfl
    simp

section Found
variable {k : Nat} {past coreMap : Nat → BitVec 32} {s : System} {c : Nat} {e : SpinEmuRoute}

/-- An entry that matches a key of the barrier is one that the chip's root
application core has sent for that key. -/
theorem Spared.found {key : BitVec 32} (spared : Spared k past coreMap s) (barrier : key ∈ barrierKeys)
    (found : firstMatch (s.dispatcher.spinEmuRoutes c) key = some e) :
    ∃ r, s.holder c = some r ∧ r < numCpus ∧
      ∃ p ∈ setupPackets k past coreMap (fun _ => r) c, p.entry = e ∧ e.matches key = true := by
  obtain ⟨hit, i, here⟩ := firstMatch_some found
  rcases here ▸ spared.table c i with initial | high | ⟨r, holder, p, member, _, same⟩
  · rw [initial, initialRoute_matches] at hit
    cases hit
  · rw [SpinEmuRoute.matches_of_spares (here ▸ spared.entries c i high) barrier] at hit
    cases hit
  · exact ⟨r, holder, (active_lt (spared.active_of_holder holder)).2.2, p, member, same, hit⟩

theorem Spared.rdy1_found (spared : Spared k past coreMap s)
    (found : firstMatch (s.dispatcher.spinEmuRoutes c) rdy1Key = some e) :
    ∃ r, s.holder c = some r ∧ r < numCpus ∧
      e = barrierEntry rdy1Key (shiftOne past (r + numLinks)) := by
  obtain ⟨r, holder, hr, p, member, rfl, hit⟩ := spared.found (by decide) found
  refine ⟨r, holder, hr, ?_⟩
  rcases mem_setupPackets member with rfl | ⟨route, rfl | rfl | rfl⟩
  · rw [rdy1Packet, coreRoute_ofNat (by simp only [numCpus] at hr; omega)]
  all_goals
    rw [barrierEntry_matches] at hit
    cases hit

theorem Spared.rdy2_found (hk : k ≤ 15) (spared : Spared k past coreMap s)
    (found : firstMatch (s.dispatcher.spinEmuRoutes c) rdy2Key = some e) :
    ∃ r, s.holder c = some r ∧ r < numCpus ∧
      e = barrierEntry rdy2Key
        (shiftOne past (if c = 0 then r + numLinks else readyLink k c)) := by
  obtain ⟨r, holder, hr, p, member, rfl, hit⟩ := spared.found (by decide) found
  refine ⟨r, holder, hr, ?_⟩
  have hc := (active_lt (spared.active_of_holder holder)).1
  obtain ⟨hx, hy, here⟩ := Board.coordinates hc
  have setup := barrierSetup_square past coreMap hk hx hy r {} rfl rfl rfl
  have origin := packed_origin hk hc
  rw [here] at setup
  simp only [origin, decide_eq_true_eq] at setup
  rw [setupPackets, setup] at member
  simp only [Option.elim_some, List.mem_cons, List.not_mem_nil, or_false] at member
  rcases member with rfl | rfl | rfl | rfl
  · rw [rdy1Packet, barrierEntry_matches] at hit
    cases hit
  · rw [barrierEntry_matches] at hit
    cases hit
  · by_cases first : c = 0
    · simp only [if_pos first, coreRoute_ofNat (show r < 26 by simp only [numCpus] at hr; omega)]
    · simp only [if_neg first]
      rfl
  · rw [barrierEntry_matches] at hit
    cases hit

end Found
end SpinEmu
