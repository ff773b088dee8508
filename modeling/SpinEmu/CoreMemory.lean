import SpinEmu.SdpCore

/-! The memory of a core, as `spin_emu_mmap_core_mem` maps it, and what `cmd_write`
does to it. A store where nothing is mapped ends the process. -/
namespace SpinEmu

/-- Each core has the DTCM of its own. -/
def isDtcm (a : BitVec 32) : Bool := 0x00400000 ≤ a && a < 0x00410000

/-- The cores of a chip share the system RAM, with what follows it, and the SDRAM. -/
def isShared (a : BitVec 32) : Bool :=
  (0xf5000000 ≤ a && a < 0xf5018000) || (0x60000000 ≤ a && a < 0x68000000)

structure CoreMemory where
  dtcm : BitVec 32 → Byte
  shared : BitVec 32 → Byte

def CoreMemory.store (mem : CoreMemory) (a : BitVec 32) (v : Byte) : Option CoreMemory :=
  if isDtcm a then some { mem with dtcm := Function.update mem.dtcm a v }
  else if isShared a then some { mem with shared := Function.update mem.shared a v }
  else none

/-- The byte at an address, if something is mapped there. -/
def CoreMemory.load (mem : CoreMemory) (a : BitVec 32) : Option Byte :=
  if isDtcm a then some (mem.dtcm a) else if isShared a then some (mem.shared a) else none

/-- A loop over `n` bytes, and whether it has come to its end. -/
def CoreMemory.storeBytes (addr : BitVec 32) (data : Nat → Byte) :
    Nat → CoreMemory → CoreMemory × Bool
  | 0, mem => (mem, true)
  | n + 1, mem =>
    let (mem, going) := storeBytes addr data n mem
    if going then
      match mem.store (addr + BitVec.ofNat 32 n) (data n) with
      | some mem => (mem, true)
      | none => (mem, false)
    else (mem, false)

/-- What a write leaves: the returned length, the message and the memory, and whether
the process is still there. -/
structure WriteOutcome where
  len : BitVec 32
  msg : SdpMsg
  memory : CoreMemory
  survived : Bool

def writeAccepted (msg : SdpMsg) : Bool := msg.arg2.toNat ≤ bufSize && msg.arg3.toNat ≤ 2

/-- Where a write goes: the board's system RAM is moved. -/
def writeAddress (msg : SdpMsg) : BitVec 32 :=
  if msg.arg1 ≥ 0xf5000000 then msg.arg1 - (0xf5000000 - 0x1fff8000) else msg.arg1

/-- `cmd_write`. The data follows the three arguments. -/
def cmdWriteMemory (mem : CoreMemory) (msg : SdpMsg) : WriteOutcome :=
  let len := msg.arg2
  let type := msg.arg3
  if writeAccepted msg then
    let copied := if type = 0 then len.toNat else if type = 1 then len.toNat / 2 * 2
      else len.toNat / 4 * 4
    let (memory, survived) :=
      mem.storeBytes (writeAddress msg) (fun i => msg.payload (i + 12)) copied
    ⟨len, msg.setArg1 (writeAddress msg), memory, survived⟩
  else ⟨0, { msg with cmdRc := rcArg }, mem, true⟩

namespace CoreMemory
variable {mem mem' : CoreMemory} {addr a : BitVec 32} {data : Nat → Byte} {n : Nat}

theorem isDtcm_of_isShared (shared : isShared a = true) : isDtcm a = false := by
  simp only [isShared, isDtcm, Bool.or_eq_true, Bool.and_eq_true, decide_eq_true_eq,
    Bool.and_eq_false_iff, decide_eq_false_iff_not] at *
  bv_omega

theorem load_isSome (mem : CoreMemory) (a : BitVec 32) :
    (mem.load a).isSome = (isDtcm a || isShared a) := by
  unfold load
  split
  · rename_i own
    rw [own]
    rfl
  · rename_i other
    rw [Bool.eq_false_iff.mpr other, Bool.false_or]
    split
    · rename_i shared
      exact shared.symm
    · rename_i unmapped
      exact (Bool.eq_false_iff.mpr unmapped).symm

theorem load_of_isShared (mem : CoreMemory) (shared : isShared a = true) :
    mem.load a = some (mem.shared a) := by
  simp only [load, isDtcm_of_isShared shared, shared, Bool.false_eq_true, if_false, if_true]

section Store
variable {v : Byte}

theorem store_of_mapped (mapped : (mem.load a).isSome) (v : Byte) :
    ∃ mem', mem.store a v = some mem' := by
  unfold load at mapped
  unfold store
  split at mapped
  · exact ⟨_, by rename_i own; rw [if_pos own]⟩
  · rename_i other
    split at mapped
    · rename_i shared
      exact ⟨_, by rw [if_neg other, if_pos shared]⟩
    · cases mapped

theorem store_unmapped (unmapped : mem.load a = none) (v : Byte) : mem.store a v = none := by
  unfold load at unmapped
  unfold store
  split_ifs at unmapped ⊢
  rfl

/-- A store changes the byte it goes to. -/
theorem load_store (stored : mem.store a v = some mem') (b : BitVec 32) :
    mem'.load b = if b = a then some v else mem.load b := by
  unfold store at stored
  split at stored
  · rename_i own
    cases stored
    by_cases here : b = a
    · subst here
      simp only [load, own, if_true, Function.update_self]
    · simp only [load, Function.update_of_ne here, if_neg here]
  · rename_i other
    split at stored
    · rename_i shared
      cases stored
      by_cases here : b = a
      · subst here
        simp only [load, if_neg other, shared, if_true, Function.update_self]
      · simp only [load, Function.update_of_ne here, if_neg here]
    · cases stored

end Store

section Loop

theorem add_ofNat_inj {i k : Nat} (hi : i < 2 ^ 32) (hk : k < 2 ^ 32)
    (same : addr + BitVec.ofNat 32 i = addr + BitVec.ofNat 32 k) : i = k := by
  have numbers := congrArg BitVec.toNat ((BitVec.add_right_inj addr).mp same)
  simp only [BitVec.toNat_ofNat] at numbers
  omega

/-- The loop comes to its end over mapped bytes. -/
theorem storeBytes_mapped (data : Nat → Byte)
    (mapped : ∀ k < n, (mem.load (addr + BitVec.ofNat 32 k)).isSome) :
    ∃ mem', mem.storeBytes addr data n = (mem', true) := by
  induction n with
  | zero => exact ⟨mem, rfl⟩
  | succ n ih =>
    obtain ⟨mem', ends⟩ := ih fun k hk => mapped k (by omega)
    have still : (mem'.load (addr + BitVec.ofNat 32 n)).isSome := by
      rw [load_isSome, ← load_isSome mem]
      exact mapped n n.lt_succ_self
    obtain ⟨mem'', last⟩ := store_of_mapped still (data n)
    exact ⟨mem'', by simp only [storeBytes, ends, last, if_true]⟩

/-- A loop that begins where nothing is mapped ends the process. -/
theorem storeBytes_unmapped (unmapped : mem.load addr = none) :
    (mem.storeBytes addr data (n + 1)).2 = false := by
  induction n with
  | zero =>
    have stuck := store_unmapped unmapped (data 0)
    simp only [storeBytes, BitVec.add_zero, stuck, if_true]
  | succ n ih =>
    rw [storeBytes]
    simp only [ih, Bool.false_eq_true, if_false]

/-- The loop makes its stores one after the other. -/
theorem storeBytes_foldlM (n : Nat) :
    ((List.range n).map fun i => (addr + BitVec.ofNat 32 i, data i)).foldlM
        (fun mem x => CoreMemory.store mem x.1 x.2) mem =
      if (mem.storeBytes addr data n).2 then some (mem.storeBytes addr data n).1 else none := by
  induction n with
  | zero => rfl
  | succ n ih =>
    rw [List.range_succ, List.map_append, List.foldlM_append, ih, storeBytes]
    split
    · rename_i going
      simp only [going, if_true, Option.bind_eq_bind, Option.bind_some, List.map_cons,
        List.map_nil, List.foldlM_cons, List.foldlM_nil]
      cases (mem.storeBytes addr data n).1.store (addr + BitVec.ofNat 32 n) (data n) <;> rfl
    · rename_i stopped
      simp only [Bool.eq_false_iff.mpr stopped, Bool.false_eq_true, if_false]
      rfl

/-- The last turn of a loop that comes to its end. -/
theorem storeBytes_succ (stored : mem.storeBytes addr data (n + 1) = (mem', true)) :
    ∃ middle, mem.storeBytes addr data n = (middle, true) ∧
      middle.store (addr + BitVec.ofNat 32 n) (data n) = some mem' := by
  simp only [storeBytes] at stored
  split at stored
  · rename_i going
    split at stored
    · rename_i next last
      cases stored
      exact ⟨_, Prod.ext rfl going, last⟩
    · cases stored
  · cases stored

theorem load_storeBytes_outside (stored : mem.storeBytes addr data n = (mem', true))
    (away : ∀ k < n, a ≠ addr + BitVec.ofNat 32 k) : mem'.load a = mem.load a := by
  induction n generalizing mem' with
  | zero =>
    cases stored
    rfl
  | succ n ih =>
    obtain ⟨middle, earlier, last⟩ := storeBytes_succ stored
    rw [load_store last, if_neg (away n n.lt_succ_self)]
    exact ih earlier fun k hk => away k (by omega)

theorem load_storeBytes_inside (small : n ≤ 2 ^ 32)
    (stored : mem.storeBytes addr data n = (mem', true)) {k : Nat} (hk : k < n) :
    mem'.load (addr + BitVec.ofNat 32 k) = some (data k) := by
  induction n generalizing mem' with
  | zero => cases hk
  | succ n ih =>
    obtain ⟨middle, earlier, last⟩ := storeBytes_succ stored
    rw [load_store last]
    rcases Nat.lt_succ_iff_lt_or_eq.mp hk with inside | rfl
    · have apart : addr + BitVec.ofNat 32 k ≠ addr + BitVec.ofNat 32 n := by
        intro same
        have := add_ofNat_inj (by omega) (by omega) same
        omega
      rw [if_neg apart]
      exact ih (by omega) earlier inside
    · rw [if_pos rfl]

end Loop
end CoreMemory
end SpinEmu
