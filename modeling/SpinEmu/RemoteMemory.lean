import SpinEmu.CoreMemory

/-! Remote access to a core's memory. `cmd_write` and `cmd_read` move the addresses of
the system RAM to where the emulator once had it; nothing is mapped there. The
returned length of a read is the requested one, but only whole units are copied. -/
namespace SpinEmu

/-- The mapped bytes as a function. -/
def CoreMemory.bytes (mem : CoreMemory) (a : BitVec 32) : Byte := (mem.load a).getD 0

/-- How many bytes the loop of an access copies. -/
def copiedBytes (msg : SdpMsg) : Nat :=
  let len := msg.arg2
  if msg.arg3 = 0 then len.toNat else if msg.arg3 = 1 then len.toNat / 2 * 2
  else len.toNat / 4 * 4

/-- `cmd_read`; a load where nothing is mapped ends the process. The address is moved
as in `cmd_write`. -/
def cmdReadMapped (mem : CoreMemory) (msg : SdpMsg) : Option (BitVec 32 × SdpMsg) :=
  if msg.arg2.toNat > bufSize ∨ msg.arg3.toNat > 2 ∨
      ∀ i < copiedBytes msg, (mem.load (writeAddress msg + BitVec.ofNat 32 i)).isSome then
    some (cmdReadMemory mem.bytes msg)
  else none

/-- What `spin_emu_mmap_core_mem` maps. -/
inductive MemoryRegion where
  | dtcm
  | sysram
  | sdram
  deriving DecidableEq, Repr

def MemoryRegion.base : MemoryRegion → Nat
  | .dtcm => 0x00400000
  | .sysram => 0xf5000000
  | .sdram => 0x60000000

/-- The mapping of the system RAM has room for further definitions. -/
def MemoryRegion.size : MemoryRegion → Nat
  | .dtcm => 0x00010000
  | .sysram => 0x00008000 + 0x00010000
  | .sdram => 128 * 1024 * 1024

/-- An access that the commands accept, to bytes of one region. -/
structure RemoteAccess where
  region : MemoryRegion
  addr : BitVec 32
  len : BitVec 32
  type : BitVec 32
  len_le : len.toNat ≤ bufSize
  type_le : type.toNat ≤ 2
  low : region.base ≤ addr.toNat
  high : addr.toNat + len.toNat ≤ region.base + region.size

namespace RemoteAccess

/-- The bytes of a unit. -/
def unit (a : RemoteAccess) : Nat := if a.type = 0 then 1 else if a.type = 1 then 2 else 4

structure Asks (a : RemoteAccess) (msg : SdpMsg) : Prop where
  arg1 : msg.arg1 = a.addr
  arg2 : msg.arg2 = a.len
  arg3 : msg.arg3 = a.type

/-- The address of byte `i`. -/
def cell (a : RemoteAccess) (i : Nat) : BitVec 32 := a.addr + BitVec.ofNat 32 i

/-- The write goes to mapped bytes, which become the data of `w`, and to no others;
the read that follows returns the length and these bytes. -/
structure WrittenAndRead (a : RemoteAccess) (mem : CoreMemory) (w r : SdpMsg) : Prop where
  survived : (cmdWriteMemory mem w).survived = true
  written : ∀ i < a.len.toNat,
    (cmdWriteMemory mem w).memory.load (a.cell i) = some (w.payload (i + 12))
  kept : ∀ b, (∀ i < a.len.toNat, b ≠ a.cell i) →
    (cmdWriteMemory mem w).memory.load b = mem.load b
  read : ∃ reply, cmdReadMapped (cmdWriteMemory mem w).memory r = some (a.len, reply) ∧
    ∀ i < a.len.toNat, reply.payload i = w.payload (i + 12)

/-- Whatever is in memory and in the data of the request, the payload of the reply is
the bytes that were asked for. -/
def RepliesMemory (a : RemoteAccess) : Prop :=
  ∀ (mem : CoreMemory) (rawtime chipID : BitVec 32) (core : Nat) (r : SdpMsg) (data : Nat → Byte),
    r.cmdRc = spinEmuPacketRead → a.Asks r → a.Asks { r with payload := data } →
    ∃ reply reply', readSdp mem.bytes rawtime chipID core r = some reply ∧
      readSdp mem.bytes rawtime chipID core { r with payload := data } = some reply' ∧
      reply.length.toNat = a.len.toNat + 12 ∧
      ∀ i < a.len.toNat, some (reply.payload i) = mem.load (a.cell i) ∧
        reply'.payload i = reply.payload i

end RemoteAccess

section Mapping
variable {addr : BitVec 32}

theorem isDtcm_iff : isDtcm addr = true ↔ 0x00400000 ≤ addr.toNat ∧ addr.toNat < 0x00410000 := by
  simp only [isDtcm, Bool.and_eq_true, decide_eq_true_eq]
  exact Iff.rfl

theorem isShared_iff : isShared addr = true ↔
    (0xf5000000 ≤ addr.toNat ∧ addr.toNat < 0xf5018000) ∨
      (0x60000000 ≤ addr.toNat ∧ addr.toNat < 0x68000000) := by
  simp only [isShared, Bool.or_eq_true, Bool.and_eq_true, decide_eq_true_eq]
  exact Iff.rfl

end Mapping

namespace RemoteAccess

section Access
variable {a : RemoteAccess} {mem : CoreMemory} {w r msg : SdpMsg}

theorem copiedBytes_eq (asks : a.Asks msg) :
    copiedBytes msg = a.len.toNat / a.unit * a.unit := by
  simp only [copiedBytes, asks.arg2, asks.arg3, unit]
  split
  · omega
  · split <;> rfl

theorem copiedBytes_of_dvd (whole : a.unit ∣ a.len.toNat) (asks : a.Asks msg) :
    copiedBytes msg = a.len.toNat := by
  rw [copiedBytes_eq asks, Nat.div_mul_cancel whole]

theorem copiedBytes_le (asks : a.Asks msg) : copiedBytes msg ≤ a.len.toNat := by
  rw [copiedBytes_eq asks]
  exact Nat.div_mul_le_self _ _

/-- The bytes of an access do not wrap around. -/
theorem cell_toNat {i : Nat} (inside : i < a.len.toNat) :
    (a.cell i).toNat = a.addr.toNat + i := by
  have high := a.high
  have top : a.region.base + a.region.size < 2 ^ 32 := by
    cases a.region <;> decide
  simp only [cell, BitVec.toNat_add, BitVec.toNat_ofNat]
  omega

/-- Each byte of an access is mapped. -/
theorem load_cell (mem : CoreMemory) {i : Nat} (inside : i < a.len.toNat) :
    (mem.load (a.cell i)).isSome := by
  have here := cell_toNat inside
  have low := a.low
  have high := a.high
  rw [CoreMemory.load_isSome, Bool.or_eq_true, isDtcm_iff, isShared_iff, here]
  cases region : a.region <;> simp only [region, MemoryRegion.base, MemoryRegion.size] at low high
    <;> omega

/-- Below the system RAM the commands take an address as it is. -/
theorem writeAddress_below (mapped : a.region ≠ .sysram) (asks : a.Asks msg) :
    writeAddress msg = a.addr := by
  have high := a.high
  have below : ¬ a.addr ≥ 0xf5000000 := by
    intro moved
    have above : 0xf5000000 ≤ a.addr.toNat := moved
    cases region : a.region <;> simp only [region, MemoryRegion.base, MemoryRegion.size] at high
    · omega
    · exact absurd region mapped
    · omega
  simp only [writeAddress, asks.arg1, if_neg below]

/-- An address in the system RAM is moved to where nothing is mapped. -/
theorem load_writeAddress (sysram : a.region = .sysram) (some : a.len ≠ 0) (asks : a.Asks msg) :
    mem.load (writeAddress msg) = none := by
  have low := a.low
  have high := a.high
  have pos : 0 < a.len.toNat := Nat.pos_of_ne_zero fun none => some (BitVec.eq_of_toNat_eq none)
  simp only [sysram, MemoryRegion.base, MemoryRegion.size] at low high
  have above : a.addr ≥ 0xf5000000 := low
  have moved : (writeAddress msg).toNat = a.addr.toNat - (0xf5000000 - 0x1fff8000) := by
    simp only [writeAddress, asks.arg1, if_pos above]
    bv_omega
  rw [← Option.isNone_iff_eq_none, ← Option.isSome_eq_false_iff, CoreMemory.load_isSome,
    Bool.or_eq_false_iff, ← Bool.not_eq_true, ← Bool.not_eq_true, isDtcm_iff, isShared_iff, moved]
  omega

theorem writeAccepted_of_asks (asks : a.Asks msg) : writeAccepted msg = true := by
  simp only [writeAccepted, asks.arg2, asks.arg3, a.len_le, a.type_le, decide_true, Bool.and_self]

/-- A write that is accepted stores the bytes that it copies. -/
theorem cmdWriteMemory_eq (asks : a.Asks w) :
    cmdWriteMemory mem w =
      let stored := mem.storeBytes (writeAddress w) (fun i => w.payload (i + 12)) (copiedBytes w)
      ⟨a.len, w.setArg1 (writeAddress w), stored.1, stored.2⟩ := by
  simp only [cmdWriteMemory, writeAccepted_of_asks asks, if_true, copiedBytes, asks.arg2]

/-- A read that is accepted replies the bytes that it copies, and below them what was in
the message. -/
theorem cmdReadMemory_eq (source : BitVec 32 → Byte) (asks : a.Asks r) :
    cmdReadMemory source r = (a.len, { r with
      payload i := if i < copiedBytes r then source (writeAddress r + BitVec.ofNat 32 i)
        else (r.setArg1 (writeAddress r)).payload i }) := by
  have accepted : ¬ (a.len.toNat > bufSize ∨ a.type.toNat > 2) := by
    have := a.len_le
    have := a.type_le
    omega
  simp only [cmdReadMemory, asks.arg2, asks.arg3, if_neg accepted, copiedBytes, writeAddress]

theorem bytes_of_load {b : BitVec 32} {v : Byte} (loaded : mem.load b = some v) :
    mem.bytes b = v := by
  simp only [CoreMemory.bytes, loaded, Option.getD_some]

/-- A write of whole units to a region that is not moved, and the read that follows. -/
theorem writtenAndRead_of_mapped (whole : a.unit ∣ a.len.toNat) (mapped : a.region ≠ .sysram)
    (asksW : a.Asks w) (asksR : a.Asks r) : a.WrittenAndRead mem w r := by
  have small : a.len.toNat ≤ 2 ^ 32 := Nat.le_of_lt a.len.isLt
  obtain ⟨mem', stored⟩ := CoreMemory.storeBytes_mapped (fun i => w.payload (i + 12))
    fun k hk => load_cell (a := a) mem hk
  have passed {k : Nat} (hk : k < a.len.toNat) :
      mem'.load (a.cell k) = some (w.payload (k + 12)) :=
    CoreMemory.load_storeBytes_inside small stored hk
  have outcome : cmdWriteMemory mem w = ⟨a.len, w.setArg1 a.addr, mem', true⟩ := by
    rw [cmdWriteMemory_eq asksW, writeAddress_below mapped asksW, copiedBytes_of_dvd whole asksW]
    simp only [stored]
  refine ⟨by rw [outcome], fun i hi => ?_, fun b away => ?_, ?_⟩
  · rw [outcome]
    exact passed hi
  · rw [outcome]
    exact CoreMemory.load_storeBytes_outside stored away
  · rw [outcome]
    have survives : ∀ i < copiedBytes r,
        (mem'.load (writeAddress r + BitVec.ofNat 32 i)).isSome := by
      intro i hi
      rw [writeAddress_below mapped asksR]
      exact load_cell mem' (Nat.lt_of_lt_of_le hi (copiedBytes_le asksR))
    refine ⟨_, by rw [cmdReadMapped, if_pos (.inr (.inr survives)), cmdReadMemory_eq _ asksR], ?_⟩
    intro i hi
    simp only [copiedBytes_of_dvd whole asksR, if_pos hi, writeAddress_below mapped asksR]
    exact bytes_of_load (passed hi)

/-- An access to no bytes stores none, wherever it goes. -/
theorem writtenAndRead_of_empty (empty : a.len = 0) (asksW : a.Asks w) (asksR : a.Asks r) :
    a.WrittenAndRead mem w r := by
  have none : a.len.toNat = 0 := by rw [empty]; rfl
  have copied {msg : SdpMsg} (asks : a.Asks msg) : copiedBytes msg = 0 :=
    Nat.le_zero.mp (none ▸ copiedBytes_le asks)
  have outcome : cmdWriteMemory mem w = ⟨a.len, w.setArg1 (writeAddress w), mem, true⟩ := by
    rw [cmdWriteMemory_eq asksW, copied asksW]
    rfl
  refine ⟨by rw [outcome], fun i hi => absurd hi (by omega), fun b _ => by rw [outcome], ?_⟩
  refine ⟨(cmdReadMemory (cmdWriteMemory mem w).memory.bytes r).2, ?_,
    fun i hi => absurd hi (by omega)⟩
  rw [cmdReadMapped, if_pos (.inr (.inr fun i hi => absurd hi (by rw [copied asksR]; omega))),
    cmdReadMemory_eq _ asksR]

theorem readSdp_read {source : BitVec 32 → Byte} {rawtime chipID : BitVec 32} {core : Nat}
    (read : msg.cmdRc = spinEmuPacketRead) :
    readSdp source rawtime chipID core msg =
      some (replyTo chipID core (cmdReadMemory source msg)) := if_pos read

/-- A read of whole units replies with memory. -/
theorem repliesMemory_of_whole (mapped : a.region ≠ .sysram) (whole : a.unit ∣ a.len.toNat) :
    a.RepliesMemory := by
  intro mem rawtime chipID core r data read asks asks'
  have payload {msg : SdpMsg} (asks : a.Asks msg) {i : Nat} (hi : i < a.len.toNat) :
      (replyTo chipID core (cmdReadMemory mem.bytes msg)).payload i = mem.bytes (a.cell i) := by
    rw [cmdReadMemory_eq _ asks]
    simp only [replyTo, copiedBytes_of_dvd whole asks, if_pos hi, writeAddress_below mapped asks]
    rfl
  have length : (replyTo chipID core (cmdReadMemory mem.bytes r)).length.toNat =
      a.len.toNat + 12 := by
    rw [cmdReadMemory_eq _ asks]
    exact replyTo_length _ _ a.len_le
  refine ⟨_, _, readSdp_read read, readSdp_read read, length, fun i hi => ⟨?_, ?_⟩⟩
  · obtain ⟨v, loaded⟩ := Option.isSome_iff_exists.mp (load_cell mem hi)
    rw [payload asks hi, bytes_of_load loaded, loaded]
  · rw [payload asks hi, payload asks' hi]

/-- A message that asks for an access. -/
def request (a : RemoteAccess) : SdpMsg :=
  ((({ SdpMsg.cleared with cmdRc := spinEmuPacketRead }.setArg1 a.addr).setArg2 a.len).setArg3
    a.type)

theorem request_asks : a.Asks a.request := by
  refine ⟨?_, ?_, word_putWord _ _ _⟩
  · refine (word_putWord_of_ne _ _ (.inl (by decide))).trans ?_
    exact (word_putWord_of_ne _ _ (.inl (by decide))).trans (word_putWord _ _ _)
  · exact (word_putWord_of_ne _ _ (.inl (by decide))).trans (word_putWord _ _ _)

/-- The byte after the last whole unit is what the request had there, for any memory. -/
theorem whole_of_repliesMemory (replies : a.RepliesMemory) : a.unit ∣ a.len.toNat := by
  by_contra broken
  have copied : copiedBytes a.request < a.len.toNat := by
    refine Nat.lt_of_le_of_ne (copiedBytes_le request_asks) fun same => broken ?_
    rw [← same, copiedBytes_eq request_asks]
    exact Nat.dvd_mul_left _ _
  let leftover := (a.request.setArg1 (writeAddress a.request)).payload (copiedBytes a.request)
  let mem : CoreMemory := ⟨fun _ => leftover + 1, fun _ => leftover + 1⟩
  obtain ⟨reply, _, replied, _, _, agrees⟩ :=
    replies mem 0 0 0 a.request a.request.payload rfl request_asks request_asks
  have stays : reply.payload (copiedBytes a.request) = leftover := by
    rw [readSdp_read rfl, cmdReadMemory_eq _ request_asks] at replied
    cases replied
    exact if_neg (Nat.lt_irrefl _)
  have loaded : mem.load (a.cell (copiedBytes a.request)) = some (leftover + 1) := by
    have := load_cell mem copied
    unfold CoreMemory.load at this ⊢
    split_ifs at this ⊢ with own shared
    · rfl
    · rfl
    · cases this
  have differs := (agrees _ copied).1
  rw [stays, loaded] at differs
  have := Option.some.inj differs
  bv_omega

/-- A write of whole units to the system RAM ends the process. -/
theorem not_survived_of_sysram (whole : a.unit ∣ a.len.toNat) (sysram : a.region = .sysram)
    (some : a.len ≠ 0) (asks : a.Asks w) : (cmdWriteMemory mem w).survived = false := by
  obtain ⟨n, count⟩ := Nat.exists_eq_succ_of_ne_zero fun none : a.len.toNat = 0 =>
    some (BitVec.eq_of_toNat_eq none)
  rw [cmdWriteMemory_eq asks, copiedBytes_of_dvd whole asks, count]
  exact CoreMemory.storeBytes_unmapped (load_writeAddress sysram some asks)

/-- A write and the read that follows it agree, unless they go to the system RAM. -/
theorem writtenAndRead_iff (whole : a.unit ∣ a.len.toNat) (asksW : a.Asks w) (asksR : a.Asks r) :
    a.WrittenAndRead mem w r ↔ a.region ≠ .sysram ∨ a.len = 0 := by
  constructor
  · intro works
    by_contra fails
    obtain ⟨sysram, some⟩ := not_or.mp fails
    have lost : (cmdWriteMemory mem w).survived = false :=
      not_survived_of_sysram whole (not_not.mp sysram) some asksW
    exact Bool.false_ne_true (lost.symm.trans works.survived)
  · rintro (mapped | empty)
    · exact writtenAndRead_of_mapped whole mapped asksW asksR
    · exact writtenAndRead_of_empty empty asksW asksR

end Access
end RemoteAccess

def zeroedMemory : CoreMemory := ⟨fun _ => 0, fun _ => 0⟩

namespace RemoteAccess

/-- One word of the SDRAM. -/
def sdramWord : RemoteAccess where
  region := .sdram
  addr := 0x60000000
  len := 4
  type := 2
  len_le := by decide
  type_le := by decide
  low := by decide
  high := by decide

theorem sdramWord_writtenAndRead :
    sdramWord.unit ∣ sdramWord.len.toNat ∧
      (sdramWord.WrittenAndRead zeroedMemory sdramWord.request sdramWord.request ↔
        sdramWord.region ≠ .sysram ∨ sdramWord.len = 0) :=
  ⟨by decide, writtenAndRead_iff (by decide) request_asks request_asks⟩

/-- One word of the system RAM. -/
def sysramWord : RemoteAccess where
  region := .sysram
  addr := 0xf5000000
  len := 4
  type := 2
  len_le := by decide
  type_le := by decide
  low := by decide
  high := by decide

theorem sysramWord_lost :
    sysramWord.unit ∣ sysramWord.len.toNat ∧ sysramWord.Asks sysramWord.request ∧
      ¬ sysramWord.WrittenAndRead zeroedMemory sysramWord.request sysramWord.request := by
  have whole : sysramWord.unit ∣ sysramWord.len.toNat := by decide
  have some : sysramWord.len ≠ 0 := by decide
  have lost : (cmdWriteMemory zeroedMemory sysramWord.request).survived = false :=
    not_survived_of_sysram whole rfl some request_asks
  exact ⟨whole, request_asks, fun works => Bool.false_ne_true (lost.symm.trans works.survived)⟩

/-- The reply to a read carries memory exactly when the read is of whole units. -/
theorem repliesMemory_iff {a : RemoteAccess} (mapped : a.region ≠ .sysram) :
    a.RepliesMemory ↔ a.unit ∣ a.len.toNat :=
  ⟨whole_of_repliesMemory, repliesMemory_of_whole mapped⟩

theorem sdramWord_replies :
    sdramWord.region ≠ .sysram ∧ (sdramWord.RepliesMemory ↔ sdramWord.unit ∣ sdramWord.len.toNat) :=
  ⟨by decide, repliesMemory_iff (by decide)⟩

/-- Three words of the SDRAM and one byte more, as words. -/
def brokenWord : RemoteAccess where
  region := .sdram
  addr := 0x60000000
  len := 13
  type := 2
  len_le := by decide
  type_le := by decide
  low := by decide
  high := by decide

theorem brokenWord_leaks : brokenWord.region ≠ .sysram ∧ ¬ brokenWord.RepliesMemory :=
  ⟨by decide, fun replies => absurd (whole_of_repliesMemory replies) (by decide)⟩

end RemoteAccess
end SpinEmu
