import SpinEmu.Router

/-! The routing entries that an application process installs for the barrier.
They are computed on each chip from its own coordinates and the core map. -/
namespace SpinEmu

/-- Link directions. -/
abbrev east : Nat := 0
abbrev northEast : Nat := 1
abbrev north : Nat := 2

def goKey : BitVec 32 := (0x1ffff#32 <<< 11) ||| 0
def rdygoKey : BitVec 32 := (0x1ffff#32 <<< 11) ||| 1
def rdy1Key : BitVec 32 := (0x1ffff#32 <<< 11) ||| 2
def rdy2Key : BitVec 32 := (0x1ffff#32 <<< 11) ||| 3

/-- An entry with `BARRIER_MASK`. -/
def barrierEntry (key route : BitVec 32) : SpinEmuRoute := ⟨key, 0xffffffff, route⟩

structure SpinEmuRoutePacket where
  index : Int
  entry : SpinEmuRoute
  deriving DecidableEq, Repr

def spin1GetChipId (b : Board) (chip : Nat) : Option (BitVec 32) := do
  let x ← chipMyX b chip
  let y ← chipMyY b chip
  return BitVec.ofInt 32 (x * 2 ^ 8 + y)

/-- `p2p_get`, which ignores the address it is asked for. -/
def p2pGet (b : Board) (chip : Nat) : Option Nat := do
  let chipID ← spin1GetChipId b chip
  let myX := chipID >>> 8
  let myY := chipID &&& 0xff
  return if myX > 0 && myY > 0 then 4 else if myX > 0 then 3 else if myY > 0 then 5 else 0

/-- `CORE_ROUTE`, whose argument is an unsigned word. -/
def coreRoute (past : Nat → BitVec 32) (core : BitVec 32) : BitVec 32 :=
  shiftOne past (core + 6).toNat

/-- What a processor makes of a shift that takes its count modulo 32. -/
def shiftModulo (count : Nat) : BitVec 32 := 1#32 <<< (count % 32)

/-- The static variables that `barrier_setup` writes, with their initial values. -/
structure BarrierVars where
  myChip : BitVec 32 := 0
  rootChip : Bool := false
  nchips : BitVec 32 := 1
  myNcores : BitVec 32 := 0
  deriving DecidableEq, Repr

section Setup
variable (b : Board) (past : Nat → BitVec 32) (chips : BitVec 32) (coreMap : Nat → BitVec 32)

/-- A chip of the core map runs application cores; the monitor is excluded. -/
def hasCores (i : BitVec 32) : Bool := coreMap i.toNat &&& 0xfffffffe != 0#32

/-- `bsize`, from the highest bit of `chips`. -/
def barrierSize : Nat :=
  ((List.range 32).find? fun i => chips &&& (0x80000000#32 >>> i) != 0#32).elim 0
    fun i => (31 - i) >>> 1

/-- `loc_route` and `my_ncores` after the loop over the virtual cores. -/
def localCores (myCores myNcores : BitVec 32) : BitVec 32 × BitVec 32 :=
  (List.range' 1 (numCpus - 1)).foldl
    (fun s v => if testBit myCores v then (s.1 ||| coreRoute past (BitVec.ofNat 32 v), s.2 + 1) else s)
    (0, myNcores)

def offRoute (bside myX myY myChip : BitVec 32) : BitVec 32 :=
  let route := 0#32
  let route := if myX == 0 && myY < bside - 1 && hasCores coreMap (myChip + 1)
    then route ||| 1#32 <<< north else route
  let route := if myX < bside - 1 && myY == 0 && hasCores coreMap (myChip + bside)
    then route ||| 1#32 <<< east else route
  if myY < bside - 1 && myX < bside - 1 && hasCores coreMap (myChip + bside + 1)
    then route ||| 1#32 <<< northEast else route

/-- `nchips` after the root chip's loop over the core map. -/
def countChips (myChip nchips : BitVec 32) : BitVec 32 :=
  (List.range chips.toNat).foldl
    (fun n i => if BitVec.ofNat 32 i != myChip && hasCores coreMap (BitVec.ofNat 32 i)
      then n + 1 else n) nchips

/-- `barrier_setup` on core `core` of chip `chip`: the variables it leaves and
the entries it sends to the dispatcher, in order. -/
def barrierSetup (chip core : Nat) (v : BarrierVars) :
    Option (BarrierVars × List SpinEmuRoutePacket) := do
  let bsize := barrierSize chips
  let bside := 1#32 <<< bsize
  let chipID ← spin1GetChipId b chip
  let myX := chipID >>> 8
  let myY := chipID &&& 0xff
  let myChip := (myX <<< bsize) ||| myY
  let rootChip := chipID == 0
  let myCores := coreMap myChip.toNat &&& 0xfffffffe
  let (locRoute, myNcores) := localCores past myCores v.myNcores
  let off := offRoute coreMap bside myX myY myChip
  let (nchips, rdygoRoute, rdy2Route) ←
    if rootChip then
      some (countChips chips coreMap myChip v.nchips, off, coreRoute past (BitVec.ofNat 32 core))
    else do
      let hop ← p2pGet b chip
      some (v.nchips, coreRoute past chipID ||| off, shiftOne past hop)
  return (⟨myChip, rootChip, nchips, myNcores⟩,
    [⟨1, barrierEntry rdygoKey rdygoRoute⟩, ⟨3, barrierEntry rdy2Key rdy2Route⟩,
      ⟨0, barrierEntry goKey (locRoute ||| off)⟩])

end Setup

/-- What `rts_init` sends on the core that wins the lock. -/
def rdy1Packet (past : Nat → BitVec 32) (core : Nat) : SpinEmuRoutePacket :=
  ⟨2, barrierEntry rdy1Key (coreRoute past (BitVec.ofNat 32 core))⟩

/-- `barrier_setup` sends its three entries in the same order on every chip. -/
theorem barrierSetup_packets {b : Board} {past : Nat → BitVec 32} {chips : BitVec 32}
    {coreMap : Nat → BitVec 32} {chip core : Nat} {vars v : BarrierVars}
    {ps : List SpinEmuRoutePacket}
    (setup : barrierSetup b past chips coreMap chip core vars = some (v, ps)) :
    ∃ rdygo rdy2 go, ps = [⟨1, barrierEntry rdygoKey rdygo⟩, ⟨3, barrierEntry rdy2Key rdy2⟩,
      ⟨0, barrierEntry goKey go⟩] := by
  simp only [barrierSetup, Option.bind_eq_bind] at setup
  obtain ⟨chipID, _, setup⟩ := Option.bind_eq_some_iff.mp setup
  split at setup
  · exact ⟨_, _, _, (congrArg Prod.snd (Option.some.inj setup)).symm⟩
  · obtain ⟨hop, _, result⟩ := Option.bind_eq_some_iff.mp setup
    exact ⟨_, _, _, (congrArg Prod.snd (Option.some.inj result)).symm⟩

section Bits

@[simp] theorem barrierEntry_key (key route : BitVec 32) : (barrierEntry key route).key = key := rfl

theorem testBit_or (u v : BitVec 32) {j : Nat} (hj : j < 32) :
    testBit (u ||| v) j = (testBit u j || testBit v j) := by
  simp only [testBit_eq _ hj, BitVec.getLsbD_or]

theorem testBit_shiftOne (past : Nat → BitVec 32) {i j : Nat} (hi : i < 32) (hj : j < 32) :
    testBit (shiftOne past i) j = decide (i = j) := by
  rw [shiftOne_of_lt hi, testBit_eq _ hj, BitVec.getLsbD_shiftLeft]
  by_cases same : i = j
  · subst same
    simp [hj]
  · by_cases low : j < i
    · simp [low, same]
    · have : j - i ≠ 0 := by omega
      simp [same, this]

theorem testBit_zero {j : Nat} : testBit 0#32 j = false := by simp [testBit]

theorem barrierEntry_matches (key route key' : BitVec 32) :
    (barrierEntry key route).matches key' = (key == key') := by
  simp only [barrierEntry, SpinEmuRoute.matches]
  congr 1
  exact BitVec.and_allOnes

end Bits
end SpinEmu
