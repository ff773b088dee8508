import SpinEmu.Delivery
import SpinEmu.SquareBoard

/-! What the barrier entries deliver on a square board of side up to 256: GO
spreads over a spanning tree rooted at chip `(0, 0)`, and RDY2 walks back along
the diagonal and an edge of the board. -/
namespace SpinEmu
open Lib Lib.Forwarding Lib.Program Lib.LinkGraph Dispatcher

variable {k : Nat} {past : Nat → BitVec 32} {coreMap : Nat → BitVec 32} {root : Nat → Nat}
  {routes : Nat → Nat → SpinEmuRoute} {x y : Nat}

/-- What the root application core of a chip sends in `rts_init` and
`barrier_setup`, on fresh variables. -/
def setupPackets (k : Nat) (past : Nat → BitVec 32) (coreMap : Nat → BitVec 32) (root : Nat → Nat)
    (c : Nat) : List SpinEmuRoutePacket :=
  rdy1Packet past (root c) ::
    (barrierSetup (square k) past (squareChips k) coreMap c (root c) {}).elim [] (·.2)

/-- There is one packet for each key of the barrier. -/
theorem mem_setupPackets {c : Nat} {p : SpinEmuRoutePacket}
    (member : p ∈ setupPackets k past coreMap root c) :
    p = rdy1Packet past (root c) ∨ ∃ route, p = ⟨1, barrierEntry rdygoKey route⟩ ∨
      p = ⟨3, barrierEntry rdy2Key route⟩ ∨ p = ⟨0, barrierEntry goKey route⟩ := by
  rcases List.mem_cons.mp member with rfl | later
  · exact .inl rfl
  · cases setup : barrierSetup (square k) past (squareChips k) coreMap c (root c) {} with
    | none =>
      rw [setup] at later
      cases later
    | some result =>
      obtain ⟨vars, packets⟩ := result
      obtain ⟨rdygo, rdy2, go, rfl⟩ := barrierSetup_packets setup
      rw [setup, Option.elim_some] at later
      simp only [List.mem_cons, List.not_mem_nil, or_false] at later
      rcases later with rfl | rfl | rfl
      · exact .inr ⟨rdygo, .inl rfl⟩
      · exact .inr ⟨rdy2, .inr (.inl rfl)⟩
      · exact .inr ⟨go, .inr (.inr rfl)⟩

theorem setupPackets_index {c : Nat} {p : SpinEmuRoutePacket}
    (member : p ∈ setupPackets k past coreMap root c) : 0 ≤ p.index ∧ p.index ≤ 3 := by
  rcases mem_setupPackets member with rfl | ⟨route, rfl | rfl | rfl⟩ <;> simp [rdy1Packet]

/-- The table entries below `bound` are what the root application cores sent;
the others are arbitrary. -/
def Installed (k : Nat) (past : Nat → BitVec 32) (coreMap : Nat → BitVec 32) (root : Nat → Nat)
    (bound : Int) (routes : Nat → Nat → SpinEmuRoute) : Prop :=
  ∀ c < (square k).numChips, ∀ p ∈ setupPackets k past coreMap root c,
    p.index < bound → routes c p.index.toNat = p.entry

section Words
variable (k past coreMap x y)

def offWord : BitVec 32 :=
  offRoute coreMap (1#32 <<< k) (BitVec.ofNat 32 x) (BitVec.ofNat 32 y)
    (BitVec.ofNat 32 ((square k).chip x y))

def goWord : BitVec 32 :=
  (localCores past (coreMap ((square k).chip x y) &&& 0xfffffffe) 0).1 ||| offWord k coreMap x y

def rdygoWord : BitVec 32 :=
  if x = 0 ∧ y = 0 then offWord k coreMap x y
  else coreRoute past (BitVec.ofNat 32 (x * 256 + y)) ||| offWord k coreMap x y

def rdy2Word (core : Nat) : BitVec 32 :=
  if x = 0 ∧ y = 0 then coreRoute past (BitVec.ofNat 32 core) else shiftOne past (p2pLink x y)

end Words

section Entries
variable (hk : k ≤ 8) (hx : x < 2 ^ k) (hy : y < 2 ^ k)
include hk hx hy

theorem setupPackets_square :
    setupPackets k past coreMap root ((square k).chip x y) =
      [⟨2, barrierEntry rdy1Key (coreRoute past (BitVec.ofNat 32 (root ((square k).chip x y))))⟩,
        ⟨1, barrierEntry rdygoKey (rdygoWord k past coreMap x y)⟩,
        ⟨3, barrierEntry rdy2Key (rdy2Word past x y (root ((square k).chip x y)))⟩,
        ⟨0, barrierEntry goKey (goWord k past coreMap x y)⟩] := by
  have side := side_le hk
  have inside : (square k).chip x y < 2 ^ k * 2 ^ k := Board.chip_lt (b := square k) hx hy
  have square_le : 2 ^ k * 2 ^ k ≤ 256 * 256 := Nat.mul_le_mul side side
  have whole : (BitVec.ofNat 32 ((square k).chip x y)).toNat = (square k).chip x y := by
    rw [BitVec.toNat_ofNat, Nat.mod_eq_of_lt (by omega)]
  have quotient : (x * 256 + y) / 256 = x := by omega
  have remainder : (x * 256 + y) % 256 = y := by omega
  have atRoot : (BitVec.ofNat 32 (x * 256 + y) == 0) = decide (x = 0 ∧ y = 0) := by
    rw [rootChip_square hx hy hk, Bool.decide_and]
    rfl
  have setup := barrierSetup_square past coreMap (by omega : k ≤ 15) hx hy
    (root ((square k).chip x y)) {} rfl
    (by rw [addressX hx hy hk, addressY hy hk, myChip_square hx hy hk])
    (by rw [addressX hx hy hk, addressY hy hk]; exact rfl : offWord k coreMap x y = _)
  rw [whole, quotient, remainder, atRoot] at setup
  rw [setupPackets, setup, rdy1Packet, goWord]
  simp only [Option.elim_some, rdygoWord, rdy2Word, decide_eq_true_eq]

variable {bound : Int} (installed : Installed k past coreMap root bound routes)
include installed

theorem entry_go (h : 0 < bound) :
    routes ((square k).chip x y) 0 = barrierEntry goKey (goWord k past coreMap x y) :=
  installed _ (Board.chip_lt (b := square k) hx hy) ⟨0, barrierEntry goKey (goWord k past coreMap x y)⟩
    (by rw [setupPackets_square hk hx hy]; simp) h

theorem entry_rdygo (h : 1 < bound) :
    routes ((square k).chip x y) 1 = barrierEntry rdygoKey (rdygoWord k past coreMap x y) :=
  installed _ (Board.chip_lt (b := square k) hx hy)
    ⟨1, barrierEntry rdygoKey (rdygoWord k past coreMap x y)⟩
    (by rw [setupPackets_square hk hx hy]; simp) h

theorem entry_rdy1 (h : 2 < bound) :
    routes ((square k).chip x y) 2 =
      barrierEntry rdy1Key (coreRoute past (BitVec.ofNat 32 (root ((square k).chip x y)))) :=
  installed _ (Board.chip_lt (b := square k) hx hy)
    ⟨2, barrierEntry rdy1Key (coreRoute past (BitVec.ofNat 32 (root ((square k).chip x y))))⟩
    (by rw [setupPackets_square hk hx hy]; simp) h

theorem entry_rdy2 (h : 3 < bound) :
    routes ((square k).chip x y) 3 =
      barrierEntry rdy2Key (rdy2Word past x y (root ((square k).chip x y))) :=
  installed _ (Board.chip_lt (b := square k) hx hy)
    ⟨3, barrierEntry rdy2Key (rdy2Word past x y (root ((square k).chip x y)))⟩
    (by rw [setupPackets_square hk hx hy]; simp) h

theorem firstMatch_go (h : 0 < bound) :
    firstMatch (routes ((square k).chip x y)) goKey =
      some (barrierEntry goKey (goWord k past coreMap x y)) := by
  have entry := entry_go hk hx hy installed h
  rw [← entry]
  apply firstMatch_of_first (by decide)
  · rw [entry, barrierEntry_matches]
    rfl
  · exact fun i hi => absurd hi i.not_lt_zero

theorem firstMatch_rdygo (h : 1 < bound) :
    firstMatch (routes ((square k).chip x y)) rdygoKey =
      some (barrierEntry rdygoKey (rdygoWord k past coreMap x y)) := by
  have entry := entry_rdygo hk hx hy installed h
  rw [← entry]
  apply firstMatch_of_first (by decide)
  · rw [entry, barrierEntry_matches]
    rfl
  · intro i hi
    rw [show i = 0 by omega, entry_go hk hx hy installed (by omega), barrierEntry_matches]
    decide

theorem firstMatch_rdy2 (h : 3 < bound) :
    firstMatch (routes ((square k).chip x y)) rdy2Key =
      some (barrierEntry rdy2Key (rdy2Word past x y (root ((square k).chip x y)))) := by
  have entry := entry_rdy2 hk hx hy installed h
  rw [← entry]
  apply firstMatch_of_first (by decide)
  · rw [entry, barrierEntry_matches]
    rfl
  · intro i hi
    obtain rfl | rfl | rfl : i = 0 ∨ i = 1 ∨ i = 2 := by omega
    · rw [entry_go hk hx hy installed (by omega), barrierEntry_matches]
      decide
    · rw [entry_rdygo hk hx hy installed (by omega), barrierEntry_matches]
      decide
    · rw [entry_rdy1 hk hx hy installed (by omega), barrierEntry_matches]
      decide

end Entries

/-- Tables that hold the setup entries and nothing else. -/
def setupRoutes (k : Nat) (past : Nat → BitVec 32) (coreMap : Nat → BitVec 32) (root : Nat → Nat)
    (c i : Nat) : SpinEmuRoute :=
  ((setupPackets k past coreMap root c).find? fun p => p.index == (i : Int)).elim initialRoute (·.entry)

theorem setupRoutes_installed (hk : k ≤ 8) (bound : Int) :
    Installed k past coreMap root bound (setupRoutes k past coreMap root) := by
  intro c hc p hp _
  obtain ⟨hx, hy, here⟩ := Board.coordinates hc
  have packets : setupPackets k past coreMap root _ = _ := setupPackets_square hk hx hy
  rw [here] at packets
  rw [packets] at hp
  rw [setupRoutes, packets]
  simp only [List.mem_cons, List.not_mem_nil, or_false] at hp
  rcases hp with rfl | rfl | rfl | rfl <;> rfl

end SpinEmu
