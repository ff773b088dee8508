import SpinEmu.RemoteMemory

/-! How `cmd_as` saves an application into a file before it is executed. The start
address is moved first, and only then compared with the bounds of the regions. -/
namespace SpinEmu

/-- The bytes that `fwrite` takes from the memory. Where nothing is mapped there are none. -/
def CoreMemory.readBytes (mem : CoreMemory) (addr : BitVec 32) : Nat → Option (List Byte)
  | 0 => some []
  | n + 1 =>
    match mem.readBytes addr n, mem.load (addr + BitVec.ofNat 32 n) with
    | some bytes, some byte => some (bytes ++ [byte])
    | _, _ => none

def sysramTop : BitVec 32 := 0xf5000000 + 0x00008000

/-- The start address after the first branch of `cmd_as`. -/
def cmdAsStart (arg1 : BitVec 32) : BitVec 32 :=
  if arg1 ≥ 0xf5000000 then arg1 - (0xf5000000 - 0x1fff8000) else arg1

/-- The variable `size`, if one of the branches assigns it. -/
def cmdAsSize (arg1 : BitVec 32) : Option (BitVec 32) :=
  if arg1 ≥ 0xf5000000 ∧ arg1 < sysramTop then some (sysramTop - arg1)
  else if arg1 ≥ 0x00400000 ∧ arg1 < 0x00400000 + 0x00010000 then
    some (0x00400000 + 0x00010000 - arg1)
  else none

/-- What `cmd_as` passes to `fwrite`: the start, the size if it has a value, and the
bytes that go to the file if it has one and they are all mapped. -/
structure SavedApp where
  start : BitVec 32
  size : Option (BitVec 32)
  file : Option (List Byte)

def cmdAsSave (mem : CoreMemory) (arg1 : BitVec 32) : SavedApp :=
  let start := cmdAsStart arg1
  let size := cmdAsSize start
  ⟨start, size, size.bind fun size => mem.readBytes start size.toNat⟩

/-- The regions that a client loads applications into. -/
inductive AppRegion where
  | dtcm
  | sysram
  deriving DecidableEq, Repr

def AppRegion.base : AppRegion → Nat
  | .dtcm => 0x00400000
  | .sysram => 0xf5000000

def AppRegion.top : AppRegion → Nat
  | .dtcm => 0x00400000 + 0x00010000
  | .sysram => 0xf5000000 + 0x00008000

/-- A start address as a client names it. -/
structure StartAddress where
  region : AppRegion
  addr : BitVec 32
  low : region.base ≤ addr.toNat
  below : addr.toNat < region.top

/-- The size has a value, and the file has the bytes from the start address to the top
of its region, all of them mapped. -/
structure SavesRegion (mem : CoreMemory) (a : StartAddress) : Prop where
  size_some : (cmdAsSave mem a.addr).size.isSome
  file : ∃ bytes, (cmdAsSave mem a.addr).file = some bytes ∧
    bytes.length = a.region.top - a.addr.toNat ∧
    ∀ i < bytes.length, mem.load (a.addr + BitVec.ofNat 32 i) = bytes[i]?

section Bytes
variable {mem : CoreMemory} {addr : BitVec 32} {n : Nat}

/-- Over mapped memory all bytes are taken, each from its place. -/
theorem CoreMemory.readBytes_mapped
    (mapped : ∀ i < n, (mem.load (addr + BitVec.ofNat 32 i)).isSome) :
    ∃ bytes, mem.readBytes addr n = some bytes ∧ bytes.length = n ∧
      ∀ i < bytes.length, mem.load (addr + BitVec.ofNat 32 i) = bytes[i]? := by
  induction n with
  | zero => exact ⟨[], rfl, rfl, fun i small => absurd small (Nat.not_lt_zero i)⟩
  | succ n ih =>
    obtain ⟨bytes, earlier, length, each⟩ := ih fun i small => mapped i (by omega)
    obtain ⟨byte, last⟩ := Option.isSome_iff_exists.mp (mapped n n.lt_succ_self)
    refine ⟨bytes ++ [byte], by rw [readBytes, earlier, last], by simp [length], fun i small => ?_⟩
    rw [List.length_append, List.length_singleton] at small
    rcases Nat.lt_succ_iff_lt_or_eq.mp small with inside | rfl
    · rw [each i inside, List.getElem?_append_left inside]
    · rw [length, last, ← length, List.getElem?_concat_length]

end Bytes

section Sizes
variable {arg1 : BitVec 32}

theorem cmdAsSize_none (arg1 : BitVec 32)
    (other : ¬ (0xf5000000 ≤ arg1.toNat ∧ arg1.toNat < 0xf5008000))
    (away : ¬ (0x00400000 ≤ arg1.toNat ∧ arg1.toNat < 0x00410000)) : cmdAsSize arg1 = none := by
  unfold cmdAsSize sysramTop
  rw [if_neg (by bv_omega), if_neg (by bv_omega)]

theorem cmdAsSize_dtcm (own : isDtcm arg1 = true) :
    cmdAsSize arg1 = some (0x00410000 - arg1) := by
  rw [isDtcm_iff] at own
  unfold cmdAsSize sysramTop
  rw [if_neg (by bv_omega), if_pos (by bv_omega)]
  rfl

theorem cmdAsStart_below (below : arg1.toNat < 0xf5000000) : cmdAsStart arg1 = arg1 :=
  if_neg (by bv_omega)

/-- A moved address is in neither region, so that only the DTCM leaves a size. -/
theorem cmdAsSize_isSome (arg1 : BitVec 32) :
    (cmdAsSize (cmdAsStart arg1)).isSome = isDtcm arg1 := by
  by_cases moved : 0xf5000000 ≤ arg1.toNat
  · have start : (cmdAsStart arg1).toNat = arg1.toNat - (0xf5000000 - 0x1fff8000) := by
      rw [cmdAsStart, if_pos (by bv_omega)]
      bv_omega
    have away : isDtcm arg1 = false := by
      rw [← Bool.not_eq_true, isDtcm_iff]
      omega
    rw [cmdAsSize_none _ (by omega) (by omega), away]
    rfl
  · rw [cmdAsStart_below (by omega)]
    cases own : isDtcm arg1 with
    | true =>
      rw [cmdAsSize_dtcm own]
      rfl
    | false =>
      rw [← Bool.not_eq_true, isDtcm_iff] at own
      rw [cmdAsSize_none _ (by omega) own]
      rfl

theorem cmdAsSave_eq {n : BitVec 32} (mem : CoreMemory) (start : cmdAsStart arg1 = arg1)
    (size : cmdAsSize arg1 = some n) :
    cmdAsSave mem arg1 = ⟨arg1, some n, mem.readBytes arg1 n.toNat⟩ := by
  simp only [cmdAsSave, start, size, Option.bind_some]

end Sizes

theorem StartAddress.isDtcm_iff (a : StartAddress) : isDtcm a.addr = true ↔ a.region = .dtcm := by
  obtain ⟨region, addr, low, below⟩ := a
  rw [SpinEmu.isDtcm_iff]
  cases region with
  | dtcm => exact ⟨fun _ => rfl, fun _ => ⟨low, below⟩⟩
  | sysram =>
    simp only [AppRegion.base] at low
    simp only [reduceCtorEq, iff_false]
    omega

/-- An application is saved from the DTCM, and from nowhere else. -/
theorem savesRegion_iff (mem : CoreMemory) (a : StartAddress) :
    SavesRegion mem a ↔ a.region = .dtcm := by
  rw [← a.isDtcm_iff]
  constructor
  · intro saves
    rw [← cmdAsSize_isSome]
    exact saves.size_some
  · intro own
    have region := a.isDtcm_iff.mp own
    have place := SpinEmu.isDtcm_iff.mp own
    have start : cmdAsStart a.addr = a.addr := cmdAsStart_below (by omega)
    obtain ⟨n, rest⟩ : ∃ n : BitVec 32, n = 0x00410000 - a.addr := ⟨_, rfl⟩
    have size : cmdAsSize a.addr = some n := rest ▸ cmdAsSize_dtcm own
    have count : n.toNat = a.region.top - a.addr.toNat := by
      rw [rest, region]
      unfold AppRegion.top
      bv_omega
    have mapped : ∀ i < n.toNat, (mem.load (a.addr + BitVec.ofNat 32 i)).isSome := by
      intro i small
      rw [CoreMemory.load_isSome, Bool.or_eq_true]
      exact .inl (SpinEmu.isDtcm_iff.mpr (by bv_omega))
    obtain ⟨bytes, read, length, each⟩ := CoreMemory.readBytes_mapped mapped
    have saved := cmdAsSave_eq mem start size
    exact ⟨by rw [saved]; rfl, bytes, by rw [saved]; exact read, by rw [length, count], each⟩

/-- The base of the system RAM, as the clients name it. -/
theorem sysramBase_not_saved :
    ¬ SavesRegion zeroedMemory ⟨.sysram, 0xf5000000, by decide, by decide⟩ := by
  intro saves
  exact absurd saves.size_some (by decide)

end SpinEmu
