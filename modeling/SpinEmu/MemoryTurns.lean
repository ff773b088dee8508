import SpinEmu.MemoryReads

/-! A core that is left alone does with a message what `cmd_write` and `cmd_read` do in one
step. -/
namespace SpinEmu
open Lib.Machine

section Loop
variable {mem mem' : CoreMemory} {addr : BitVec 32} {data : Nat → Byte} {n : Nat}

theorem storeBytes_next (going : mem.storeBytes addr data n = (mem', true)) :
    mem.storeBytes addr data (n + 1) =
      ((mem'.store (addr + BitVec.ofNat 32 n) (data n)).getD mem',
        (mem'.store (addr + BitVec.ofNat 32 n) (data n)).isSome) := by
  simp only [CoreMemory.storeBytes, going, if_true]
  cases mem'.store (addr + BitVec.ofNat 32 n) (data n) <;> rfl

theorem storeBytes_stopped (stopped : (mem.storeBytes addr data n).2 = false) :
    (mem.storeBytes addr data (n + 1)).2 = false := by
  simp only [CoreMemory.storeBytes, stopped, Bool.false_eq_true, if_false]

end Loop

namespace MemorySystem
variable {s t : MemorySystem} {v : Nat × Nat} {m : SdpMsg} {n : Nat}

/-- The memory of a core. -/
def view (s : MemorySystem) (v : Nat × Nat) : CoreMemory where
  dtcm a := s.memory (.dtcm v.1 v.2 a)
  shared a := s.memory (.shared v.1 a)

theorem load_view (s : MemorySystem) (v : Nat × Nat) (a : BitVec 32) :
    (s.view v).load a = (locate v a).map s.memory := by
  unfold CoreMemory.load locate
  split
  · rfl
  · split <;> rfl

/-- A store goes to the file that the byte is in. -/
theorem store_view {a : BitVec 32} {l : Location} {x : Byte} (found : locate v a = some l)
    (memory : t.memory = Function.update s.memory l x) :
    (s.view v).store a x = some (t.view v) := by
  unfold locate at found
  unfold CoreMemory.store
  split at found
  · rename_i own
    cases found
    rw [if_pos own, Option.some.injEq, view, view, CoreMemory.mk.injEq, memory]
    refine ⟨funext fun b => ?_, funext fun b => ?_⟩
    · simp only [Function.update_apply, Location.dtcm.injEq, true_and]
    · simp only [Function.update_apply, reduceCtorEq, if_false]
  · rename_i other
    split at found
    · rename_i shared
      cases found
      rw [if_neg other, if_pos shared, Option.some.injEq, view, view, CoreMemory.mk.injEq, memory]
      refine ⟨funext fun b => ?_, funext fun b => ?_⟩
      · simp only [Function.update_apply, reduceCtorEq, if_false]
      · simp only [Function.update_apply, Location.shared.injEq, true_and]
    · cases found

theorem store_view_none {a : BitVec 32} {x : Byte} (unmapped : locate v a = none) :
    (s.view v).store a x = none :=
  CoreMemory.store_unmapped (by rw [load_view, unmapped, Option.map_none]) x

theorem copyBytes_add (k n : Nat) (s : MemorySystem) :
    copyBytes v (k + n) s = (copyBytes v k s).bind (copyBytes v n) := by
  induction k generalizing s with
  | zero => rw [Nat.zero_add, copyBytes, Option.bind_some]
  | succ k ih =>
    rw [Nat.succ_add, copyBytes, copyBytes, Option.bind_assoc]
    exact congrArg (Option.bind _) (funext ih)

theorem copyBytes_succ (n : Nat) (s : MemorySystem) :
    copyBytes v (n + 1) s = (copyBytes v n s).bind (copyByte v) := by
  rw [copyBytes_add]
  refine congrArg (Option.bind _) (funext fun t => ?_)
  rw [copyBytes]
  exact Option.bind_fun_some (copyByte v t)

/-- The loop of a core that has just taken up its message. -/
theorem copyBytes_job (job : s.job v = some ⟨m, []⟩) (copied : copyBytes v n s = some t) :
    ∃ c, t.job v = some ⟨m, c⟩ ∧ c.length = n := by
  induction n generalizing t with
  | zero =>
    cases copied
    exact ⟨[], job, rfl⟩
  | succ n ih =>
    rw [copyBytes_succ] at copied
    obtain ⟨u, before, last⟩ := Option.bind_eq_some_iff.mp copied
    obtain ⟨c, job, length⟩ := ih before
    obtain ⟨j, _, y, was, _, _, _, _, after, _⟩ := copied_of_copyByte last
    cases Option.some.inj (job.symm.trans was)
    refine ⟨c ++ [y], ?_, by rw [List.length_append, length, List.length_singleton]⟩
    rw [after, Function.update_self]

/-- The turns of the loop, one after the other. -/
theorem follow_turns (k : Nat) (job : s.job v = some ⟨m, []⟩) :
    follow MemorySystem.step s (List.replicate k (.turn v)) = copyBytes v (k * m.unit) s := by
  induction k with
  | zero => rw [Nat.zero_mul]; rfl
  | succ k ih =>
    rw [List.replicate_succ', follow_append, ih, Nat.succ_mul, copyBytes_add]
    cases before : copyBytes v (k * m.unit) s with
    | none => rfl
    | some u =>
      obtain ⟨c, now, _⟩ := copyBytes_job job before
      simp only [Option.bind_some, follow, MemorySystem.step, now, Option.bind_eq_bind]
      exact Option.bind_fun_some _

/-- A byte that can be copied is copied. -/
theorem copyByte_some {c : List Byte} {l : Location} (job : s.job v = some ⟨m, c⟩)
    (found : locate v (writeAddress m + BitVec.ofNat 32 c.length) = some l)
    (more : c.length < m.toCopy) : ∃ t, s.copyByte v = some t := by
  simp only [copyByte, job, found, Option.bind_eq_bind, Option.bind_some,
    if_neg (Nat.not_le_of_lt more)]
  split <;> exact ⟨_, rfl⟩

theorem copyBytes_write (write : m.cmdRc = spinEmuPacketWrite) (job : s.job v = some ⟨m, []⟩)
    (within : n ≤ m.toCopy) :
    (∀ t, copyBytes v n s = some t →
      (s.view v).storeBytes (writeAddress m) (fun i => m.payload (i + 12)) n = (t.view v, true)) ∧
    (copyBytes v n s = none →
      ((s.view v).storeBytes (writeAddress m) (fun i => m.payload (i + 12)) n).2 = false) := by
  induction n with
  | zero =>
    refine ⟨fun t copied => ?_, nofun⟩
    cases copied
    rfl
  | succ n ih =>
    obtain ⟨goes, stops⟩ := ih (Nat.le_of_succ_le within)
    rw [copyBytes_succ]
    cases before : copyBytes v n s with
    | none => exact ⟨nofun, fun _ => storeBytes_stopped (stops before)⟩
    | some u =>
      obtain ⟨c, now, rfl⟩ := copyBytes_job job before
      rw [storeBytes_next (goes u before), Option.bind_some]
      cases found : locate v (writeAddress m + BitVec.ofNat 32 c.length) with
      | none =>
        refine ⟨fun t copied => ?_, fun _ => by rw [store_view_none found]; rfl⟩
        obtain ⟨j, l, y, was, found', _⟩ := copied_of_copyByte copied
        cases Option.some.inj (now.symm.trans was)
        cases found.symm.trans found'
      | some l =>
        obtain ⟨t, copied⟩ := copyByte_some now found within
        obtain ⟨j, l', y, was, found', _, byte, memory, _⟩ := copied_of_copyByte copied
        cases Option.some.inj (now.symm.trans was)
        cases Option.some.inj (found.symm.trans found')
        rw [if_pos write] at byte memory
        rw [← byte, store_view found memory, copied]
        exact ⟨fun t' same => by cases same; rfl, nofun⟩

theorem copyBytes_read (read : m.cmdRc = spinEmuPacketRead) (job : s.job v = some ⟨m, []⟩)
    (within : n ≤ m.toCopy) :
    (∀ t, copyBytes v n s = some t → t.memory = s.memory ∧ ∀ bytes, t.job v = some ⟨m, bytes⟩ →
      ∀ i < n, (s.view v).load (writeAddress m + BitVec.ofNat 32 i) = bytes[i]?) ∧
    (copyBytes v n s = none →
      ∃ i < n, (s.view v).load (writeAddress m + BitVec.ofNat 32 i) = none) := by
  have write : m.cmdRc ≠ spinEmuPacketWrite := fun write =>
    spinEmuPacketRead_ne (read.symm.trans write)
  induction n with
  | zero =>
    refine ⟨fun t copied => ?_, nofun⟩
    cases copied
    exact ⟨rfl, fun _ _ => nofun⟩
  | succ n ih =>
    obtain ⟨goes, stops⟩ := ih (Nat.le_of_succ_le within)
    rw [copyBytes_succ]
    cases before : copyBytes v n s with
    | none =>
      obtain ⟨i, small, unmapped⟩ := stops before
      exact ⟨nofun, fun _ => ⟨i, Nat.lt_succ_of_lt small, unmapped⟩⟩
    | some u =>
      obtain ⟨c, now, rfl⟩ := copyBytes_job job before
      obtain ⟨kept, loaded⟩ := goes u before
      rw [Option.bind_some]
      refine ⟨fun t copied => ?_, fun stuck => ?_⟩
      · obtain ⟨j, l, y, was, found, _, byte, memory, after, _⟩ := copied_of_copyByte copied
        cases Option.some.inj (now.symm.trans was)
        rw [if_neg write] at byte memory
        refine ⟨memory.trans kept, fun c' now' i small => ?_⟩
        rw [after, Function.update_self] at now'
        cases now'
        rcases Nat.lt_succ_iff_lt_or_eq.mp small with earlier | rfl
        · rw [List.getElem?_append_left earlier]
          exact loaded c now i earlier
        · rw [List.getElem?_append_right (Nat.le_refl _), Nat.sub_self, List.getElem?_cons_zero,
            load_view, found, byte, kept]
          rfl
      · refine ⟨c.length, Nat.lt_succ_self _, ?_⟩
        rw [load_view, Option.map_eq_none_iff]
        cases found : locate v (writeAddress m + BitVec.ofNat 32 c.length) with
        | none => rfl
        | some l =>
          obtain ⟨t, copied⟩ := copyByte_some now found within
          cases stuck.symm.trans copied

/-- What the turns of a core come to that is left alone with a message. -/
def alone (v : Nat × Nat) (m : SdpMsg) (s : MemorySystem) : Option MemorySystem :=
  follow MemorySystem.step s (List.replicate (m.toCopy / m.unit) (.turn v))

theorem unit_dvd_toCopy (m : SdpMsg) : m.unit ∣ m.toCopy := by
  have whole : m.unit ∣ copiedBytes m := by
    unfold copiedBytes SdpMsg.unit
    dsimp only
    split
    · exact Nat.one_dvd _
    · split <;> exact Nat.dvd_mul_left _ _
  unfold SdpMsg.toCopy
  split
  · exact whole
  · exact Nat.dvd_zero _

theorem alone_eq (job : s.job v = some ⟨m, []⟩) : s.alone v m = copyBytes v m.toCopy s := by
  rw [alone, follow_turns _ job, Nat.div_mul_cancel (unit_dvd_toCopy m)]

theorem alone_write (write : m.cmdRc = spinEmuPacketWrite) (job : s.job v = some ⟨m, []⟩) :
    (s.alone v m).isSome = (cmdWriteMemory (s.view v) m).survived ∧
      ∀ t, s.alone v m = some t → t.view v = (cmdWriteMemory (s.view v) m).memory := by
  obtain ⟨goes, stops⟩ := copyBytes_write write job (Nat.le_refl _)
  rw [alone_eq job]
  have outcome : (cmdWriteMemory (s.view v) m).survived =
      ((s.view v).storeBytes (writeAddress m) (fun i => m.payload (i + 12)) m.toCopy).2 ∧
      (cmdWriteMemory (s.view v) m).memory =
      ((s.view v).storeBytes (writeAddress m) (fun i => m.payload (i + 12)) m.toCopy).1 := by
    rw [cmdWriteMemory, SdpMsg.toCopy]
    by_cases accepted : writeAccepted m = true
    · simp only [if_pos accepted, if_pos (And.intro (Or.inl write) accepted)]
      exact ⟨rfl, rfl⟩
    · simp only [if_neg accepted, if_neg fun both => accepted (And.right both)]
      exact ⟨rfl, rfl⟩
  rw [outcome.1, outcome.2]
  cases copied : copyBytes v m.toCopy s with
  | none => exact ⟨(stops copied).symm, fun t same => by cases same⟩
  | some t =>
    rw [goes t copied]
    exact ⟨rfl, fun t' same => by cases same; rfl⟩

theorem cmdReadMemory_accepted (source : BitVec 32 → Byte)
    (fits : ¬ (m.arg2.toNat > bufSize ∨ m.arg3.toNat > 2)) :
    cmdReadMemory source m = (m.arg2, { m with
      payload i := if i < copiedBytes m then source (writeAddress m + BitVec.ofNat 32 i)
        else (m.setArg1 (writeAddress m)).payload i }) := if_neg fits

/-- The reply holds the bytes that the core has found in its memory. -/
theorem readSdp_source {j : CoreJob} {rawtime chipID : BitVec 32} {core : Nat}
    (read : j.msg.cmdRc = spinEmuPacketRead)
    (loaded : ∀ i < j.msg.toCopy, (s.view v).load (writeAddress j.msg + BitVec.ofNat 32 i) =
      j.copied[i]?) :
    readSdp j.source rawtime chipID core j.msg =
      some (replyTo chipID core (cmdReadMemory (s.view v).bytes j.msg)) := by
  rw [readSdp, if_pos read]
  refine congrArg (fun handled => some (replyTo chipID core handled)) ?_
  by_cases fits : j.msg.arg2.toNat > bufSize ∨ j.msg.arg3.toNat > 2
  · exact (if_pos fits).trans (if_pos fits).symm
  · have same (i : Nat) (inside : i < copiedBytes j.msg) :
        j.source (writeAddress j.msg + BitVec.ofNat 32 i) =
          (s.view v).bytes (writeAddress j.msg + BitVec.ofNat 32 i) := by
      have inside : i < j.msg.toCopy := by
        rwa [SdpMsg.toCopy_read read, if_pos (SdpMsg.writeAccepted_iff.mpr fits)]
      rw [CoreJob.source_cell (Nat.lt_trans inside j.msg.toCopy_lt), CoreMemory.bytes,
        loaded i inside, List.getD_eq_getElem?_getD]
    rw [cmdReadMemory_accepted _ fits, cmdReadMemory_accepted _ fits]
    refine congrArg (fun p => (j.msg.arg2, { j.msg with payload := p })) (funext fun i => ?_)
    exact ite_congr rfl (same i) fun _ => rfl

theorem alone_read (read : m.cmdRc = spinEmuPacketRead) (job : s.job v = some ⟨m, []⟩) :
    (s.alone v m).isSome = (cmdReadMapped (s.view v) m).isSome ∧
      ∀ t, s.alone v m = some t → t.memory = s.memory ∧ ∃ j, t.job v = some j ∧ j.msg = m ∧
        j.copied.length = m.toCopy ∧ ∀ rawtime chipID, readSdp j.source rawtime chipID v.2 m =
          (cmdReadMapped (s.view v) m).map (replyTo chipID v.2) := by
  obtain ⟨goes, stops⟩ := copyBytes_read read job (Nat.le_refl _)
  rw [alone_eq job]
  cases copied : copyBytes v m.toCopy s with
  | none =>
    obtain ⟨i, small, unmapped⟩ := stops copied
    rw [SdpMsg.toCopy_read read] at small
    split at small
    · rename_i accepted
      have stuck : cmdReadMapped (s.view v) m = none := by
        refine if_neg fun goes => ?_
        have fits := SdpMsg.writeAccepted_iff.mp accepted
        have mapped := (goes.resolve_left fun big => fits (.inl big)).resolve_left
          fun big => fits (.inr big)
        have here := mapped i small
        rw [unmapped] at here
        cases here
      rw [stuck]
      exact ⟨rfl, fun t same => by cases same⟩
    · cases small
  | some t =>
    obtain ⟨kept, loaded⟩ := goes t copied
    obtain ⟨c, now, length⟩ := copyBytes_job job copied
    have loaded := loaded c now
    have goes : cmdReadMapped (s.view v) m = some (cmdReadMemory (s.view v).bytes m) := by
      refine if_pos (or_assoc.mp (Classical.or_iff_not_imp_left.mpr fun fits i small => ?_))
      have inside : i < m.toCopy := by
        rwa [SdpMsg.toCopy_read read, if_pos (SdpMsg.writeAccepted_iff.mpr fits)]
      rw [loaded i inside, List.getElem?_eq_getElem (length ▸ inside)]
      rfl
    rw [goes]
    refine ⟨rfl, fun t' same => ?_⟩
    cases same
    exact ⟨kept, _, now, rfl, length, fun rawtime chipID => readSdp_source read loaded⟩

/-- A core that is left alone with a WRITE or READ comes to the end of it exactly if the
command does in one step, with the same memory and the same reply. -/
theorem alone_agrees (job : s.job v = some ⟨m, []⟩) :
    (m.cmdRc = spinEmuPacketWrite →
      (s.alone v m).isSome = (cmdWriteMemory (s.view v) m).survived ∧
        ∀ t, s.alone v m = some t → t.view v = (cmdWriteMemory (s.view v) m).memory) ∧
    (m.cmdRc = spinEmuPacketRead →
      (s.alone v m).isSome = (cmdReadMapped (s.view v) m).isSome ∧
        ∀ t, s.alone v m = some t → t.memory = s.memory ∧ ∃ j, t.job v = some j ∧ j.msg = m ∧
          j.copied.length = m.toCopy ∧ ∀ rawtime chipID, readSdp j.source rawtime chipID v.2 m =
            (cmdReadMapped (s.view v) m).map (replyTo chipID v.2)) :=
  ⟨fun write => alone_write write job, fun read => alone_read read job⟩

/-- A core that has taken up a message. -/
def taking (m : SdpMsg) : MemorySystem :=
  { start oneChipBoard fun _ => 0 with job := fun _ => some ⟨m, []⟩ }

/-- A WRITE of a word of fives. -/
def writtenWord : SdpMsg :=
  { RemoteAccess.sdramWord.request with
    cmdRc := spinEmuPacketWrite
    payload i := if 12 ≤ i then 5 else RemoteAccess.sdramWord.request.payload i }

theorem alone_agrees_word :
    (∃ t, (taking writtenWord).alone (0, 1) writtenWord = some t ∧
      (t.view (0, 1)).load 0x60000000 = some 5) ∧
    ∃ t, (taking RemoteAccess.sdramWord.request).alone (0, 1) RemoteAccess.sdramWord.request =
      some t ∧ t.memory = fun _ => 0 := by
  constructor
  · have here : (taking writtenWord).job (0, 1) = some ⟨writtenWord, []⟩ := rfl
    obtain ⟨ends, agrees⟩ := (alone_agrees here).1 rfl
    have survives : (cmdWriteMemory ((taking writtenWord).view (0, 1)) writtenWord).survived =
        true := by decide +kernel
    obtain ⟨t, ended⟩ := Option.isSome_iff_exists.mp (ends.trans survives)
    refine ⟨t, ended, ?_⟩
    rw [agrees t ended]
    decide +kernel
  · have here : (taking RemoteAccess.sdramWord.request).job (0, 1) =
        some ⟨RemoteAccess.sdramWord.request, []⟩ := rfl
    obtain ⟨ends, agrees⟩ := (alone_agrees here).2 rfl
    have goes : ((taking RemoteAccess.sdramWord.request).alone (0, 1)
        RemoteAccess.sdramWord.request).isSome = true := by decide +kernel
    obtain ⟨t, ended⟩ := Option.isSome_iff_exists.mp goes
    exact ⟨t, ended, (agrees t ended).1⟩

end MemorySystem
end SpinEmu
