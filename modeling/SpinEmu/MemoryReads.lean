import SpinEmu.MemoryRuns
import SpinEmu.Lib.LastWrite

/-! Reads and writes of a byte take effect in the order in which the dispatcher has queued
them, as long as nothing else changes it; the cores' handling of messages step by step is
followed by the requests' model, where it is one step. -/
namespace SpinEmu
open Lib Lib.Machine

theorem spinEmuPacketRead_ne : spinEmuPacketRead ≠ spinEmuPacketWrite := by decide

namespace SdpMsg
variable {m : SdpMsg} {b : BitVec 32} {n : Nat}

theorem writeAccepted_iff :
    writeAccepted m = true ↔ ¬ (m.arg2.toNat > bufSize ∨ m.arg3.toNat > 2) := by
  simp only [writeAccepted, Bool.and_eq_true, decide_eq_true_eq]
  omega

theorem toCopy_read (read : m.cmdRc = spinEmuPacketRead) :
    m.toCopy = if writeAccepted m = true then copiedBytes m else 0 := by
  simp only [toCopy, read, or_true, true_and]

theorem toCopy_lt (m : SdpMsg) : m.toCopy < 2 ^ 32 := by
  have le : copiedBytes m ≤ m.arg2.toNat := by
    unfold copiedBytes
    dsimp only
    split
    · exact Nat.le_refl _
    · split <;> exact Nat.div_mul_le_self _ _
  have := m.arg2.isLt
  unfold toCopy
  split <;> omega

/-- What the loop of `cmd_write` has left at an address after so many bytes. -/
def leaves (m : SdpMsg) (b : BitVec 32) : Nat → Option Byte
  | 0 => none
  | n + 1 =>
    if m.cmdRc = spinEmuPacketWrite ∧ writeAddress m + BitVec.ofNat 32 n = b then
      some (m.payload (n + 12))
    else m.leaves b n

/-- The byte that a message puts at an address. -/
def writes (b : BitVec 32) (m : SdpMsg) : Option Byte := m.leaves b m.toCopy

theorem leaves_of_ne (other : m.cmdRc ≠ spinEmuPacketWrite) : m.leaves b n = none := by
  induction n with
  | zero => rfl
  | succ n ih => rw [leaves, if_neg fun both => other both.1, ih]

/-- The message is a write to the location. -/
def Reaches (v : Nat × Nat) (m : SdpMsg) (l : Location) : Prop :=
  m.cmdRc = spinEmuPacketWrite ∧
    ∃ i < m.toCopy, locate v (writeAddress m + BitVec.ofNat 32 i) = some l

end SdpMsg

theorem CoreJob.source_cell {j : CoreJob} {i : Nat} (small : i < 2 ^ 32) :
    j.source (writeAddress j.msg + BitVec.ofNat 32 i) = j.copied.getD i 0 := by
  have back : (writeAddress j.msg + BitVec.ofNat 32 i - writeAddress j.msg).toNat = i := by
    simp only [BitVec.toNat_sub, BitVec.toNat_add, BitVec.toNat_ofNat]
    omega
  rw [source, back]

namespace MemorySystem
variable {s t : MemorySystem} {u v : Nat × Nat} {a : MemoryAction} {b : BitVec 32} {l : Location}
  {x : Byte}

/-- What one byte of a loop changes. -/
structure Copied (v : Nat × Nat) (s t : MemorySystem) (j : CoreJob) (l : Location) (y : Byte) :
    Prop where
  was : s.job v = some j
  found : locate v (writeAddress j.msg + BitVec.ofNat 32 j.copied.length) = some l
  more : j.copied.length < j.msg.toCopy
  byte : y = if j.msg.cmdRc = spinEmuPacketWrite then j.msg.payload (j.copied.length + 12)
    else s.memory l
  memory : t.memory =
    if j.msg.cmdRc = spinEmuPacketWrite then Function.update s.memory l y else s.memory
  job : t.job = Function.update s.job v (some { j with copied := j.copied ++ [y] })
  same : t = { s with memory := t.memory, job := t.job }

theorem copied_of_copyByte (copied : s.copyByte v = some t) : ∃ j l y, Copied v s t j l y := by
  simp only [copyByte, Option.bind_eq_bind, Option.bind_eq_some_iff] at copied
  obtain ⟨j, was, l, found, copied⟩ := copied
  split at copied
  · cases copied
  · rename_i more
    have more := Nat.lt_of_not_le more
    split at copied
    · rename_i write
      cases copied
      exact ⟨j, l, _, was, found, more, (if_pos write).symm, (if_pos write).symm, rfl, rfl⟩
    · rename_i write
      cases copied
      exact ⟨j, l, _, was, found, more, (if_neg write).symm, (if_neg write).symm, rfl, rfl⟩

/-- What each byte of a turn keeps, the turn keeps. -/
theorem copyBytes_keeps {I : MemorySystem → Prop} {n : Nat}
    (keeps : ∀ {s t}, I s → s.copyByte v = some t → I t) (before : I s)
    (copied : copyBytes v n s = some t) : I t := by
  induction n generalizing s with
  | zero =>
    cases copied
    exact before
  | succ n ih =>
    obtain ⟨middle, first, rest⟩ := Option.bind_eq_some_iff.mp copied
    exact ih (keeps before first) rest

/-- What the last write that a core has handled has left of a byte. -/
def settled (s : MemorySystem) (v : Nat × Nat) (b : BitVec 32) (x : Byte) : Byte :=
  lastWrite (SdpMsg.writes b) x ((s.answered v).map Prod.fst)

/-- The byte at an address of a core comes from the messages that it has handled, and from
the one that it is handling; and the replies have had it. -/
structure Tracks (v : Nat × Nat) (b : BitVec 32) (l : Location) (x : Byte) (s : MemorySystem) :
    Prop where
  within : ∀ j, s.job v = some j → j.copied.length ≤ j.msg.toCopy
  memory : s.memory l =
    ((s.job v).bind fun j => j.msg.leaves b j.copied.length).getD (s.settled v b x)
  found : ∀ j, s.job v = some j → j.msg.cmdRc = spinEmuPacketRead → ∀ i < j.copied.length,
    writeAddress j.msg + BitVec.ofNat 32 i = b → j.copied[i]? = some (s.settled v b x)
  replied : ∀ (k : Nat) (r reply : SdpMsg), (s.answered v)[k]? = some (r, some reply) →
    r.cmdRc = spinEmuPacketRead → ∀ i < r.toCopy, writeAddress r + BitVec.ofNat 32 i = b →
      reply.payload i = lastWrite (SdpMsg.writes b) x (((s.answered v).take k).map Prod.fst)

/-- Nothing but the messages of one core changes the location: no application stores there,
and no other core is at a message that does. -/
def Undisturbed (v : Nat × Nat) (l : Location) (s : MemorySystem) : MemoryAction → Prop
  | .turn u => u = v ∨ ∀ j, s.job u = some j → ¬ j.msg.Reaches u l
  | .store u a _ => locate u a ≠ some l
  | _ => True

theorem Tracks.copyByte_own (here : locate v b = some l) (tracks : Tracks v b l x s)
    (copied : s.copyByte v = some t) : Tracks v b l x t := by
  obtain ⟨j, l', y, was, found, more, byte, memory, job, same⟩ := copied_of_copyByte copied
  have own : writeAddress j.msg + BitVec.ofNat 32 j.copied.length = b ↔ l' = l :=
    ⟨fun same => Option.some.inj (found.symm.trans (same ▸ here)),
      fun same => locate_inj (same ▸ found) here⟩
  have job' : t.job v = some { j with copied := j.copied ++ [y] } := by
    rw [job, Function.update_self]
  have base : t.settled v b x = s.settled v b x := by rw [same]; rfl
  have old := tracks.memory
  rw [was, Option.bind_some] at old
  refine ⟨fun j' now => ?_, ?_, fun j' now read i inside cell => ?_, ?_⟩
  · cases Option.some.inj (job'.symm.trans now)
    rw [List.length_append, List.length_singleton]
    exact more
  · rw [memory, job', Option.bind_some, List.length_append, List.length_singleton, base]
    by_cases write : j.msg.cmdRc = spinEmuPacketWrite
    · rw [if_pos write] at byte ⊢
      by_cases cell : l' = l
      · rw [cell, Function.update_self, SdpMsg.leaves, if_pos ⟨write, own.mpr cell⟩, byte,
          Option.getD_some]
      · rw [Function.update_of_ne (Ne.symm cell), old, SdpMsg.leaves,
          if_neg fun both => cell (own.mp both.2)]
    · rw [if_neg write, old, SdpMsg.leaves_of_ne write, SdpMsg.leaves_of_ne write]
  · cases Option.some.inj (job'.symm.trans now)
    have write : j.msg.cmdRc ≠ spinEmuPacketWrite := fun write =>
      spinEmuPacketRead_ne (read.symm.trans write)
    rw [if_neg write] at byte
    rw [SdpMsg.leaves_of_ne write, Option.getD_none] at old
    rw [base]
    rcases Nat.lt_succ_iff_lt_or_eq.mp (List.length_append ▸ inside) with earlier | rfl
    · rw [List.getElem?_append_left earlier]
      exact tracks.found j was read i earlier cell
    · rw [List.getElem?_append_right (Nat.le_refl _), Nat.sub_self, List.getElem?_cons_zero, byte,
        own.mp cell, old]
  · rw [same]
    exact tracks.replied

theorem Tracks.copyByte_other (other : u ≠ v) (tracks : Tracks v b l x s)
    (away : ∀ j, s.job u = some j → ¬ j.msg.Reaches u l) (copied : s.copyByte u = some t) :
    Tracks v b l x t ∧ ∀ j, t.job u = some j → ¬ j.msg.Reaches u l := by
  obtain ⟨j, l', y, was, found, more, byte, memory, job, same⟩ := copied_of_copyByte copied
  have job' : t.job v = s.job v := by rw [job, Function.update_of_ne other.symm]
  have base : t.settled v b x = s.settled v b x := by rw [same]; rfl
  have kept : t.memory l = s.memory l := by
    rw [memory]
    split
    · rename_i write
      have apart : l ≠ l' := fun hit => away j was ⟨write, _, more, hit ▸ found⟩
      exact Function.update_of_ne apart _ _
    · rfl
  refine ⟨⟨?_, ?_, ?_, ?_⟩, fun j' now => ?_⟩
  · rw [job']
    exact tracks.within
  · rw [kept, job', base]
    exact tracks.memory
  · rw [job', base]
    exact tracks.found
  · rw [same]
    exact tracks.replied
  · rw [job, Function.update_self] at now
    cases now
    exact away j was

theorem Tracks.turn {n : Nat} (here : locate v b = some l) (tracks : Tracks v b l x s)
    (away : u = v ∨ ∀ j, s.job u = some j → ¬ j.msg.Reaches u l)
    (copied : copyBytes u n s = some t) : Tracks v b l x t := by
  by_cases own : u = v
  · subst own
    exact copyBytes_keeps (fun tracks copied => tracks.copyByte_own here copied) tracks copied
  · have kept := copyBytes_keeps (I := fun s => Tracks v b l x s ∧
      ∀ j, s.job u = some j → ¬ j.msg.Reaches u l)
      (fun ⟨tracks, away⟩ copied => tracks.copyByte_other own away copied)
      ⟨tracks, away.resolve_left own⟩ copied
    exact kept.1

theorem Tracks.of_eq (tracks : Tracks v b l x s) (job : t.job v = s.job v)
    (memory : t.memory l = s.memory l) (answered : t.answered v = s.answered v) :
    Tracks v b l x t := by
  have base : t.settled v b x = s.settled v b x := by rw [settled, settled, answered]
  refine ⟨job ▸ tracks.within, ?_, ?_, answered ▸ tracks.replied⟩
  · rw [memory, job, base]
    exact tracks.memory
  · rw [job, base]
    exact tracks.found

/-- What `read_sdp` replies to a READ holds the bytes that its loop has copied. -/
theorem readSdp_payload {j : CoreJob} {rawtime chipID : BitVec 32} {core i : Nat} {reply : SdpMsg}
    (replied : readSdp j.source rawtime chipID core j.msg = some reply)
    (read : j.msg.cmdRc = spinEmuPacketRead) (inside : i < j.msg.toCopy) :
    reply.payload i = j.copied.getD i 0 := by
  rw [← CoreJob.source_cell (Nat.lt_trans inside j.msg.toCopy_lt)]
  rw [SdpMsg.toCopy_read read] at inside
  split at inside
  · rename_i accepted
    rw [readSdp, if_pos read, Option.some.injEq] at replied
    subst replied
    simp only [replyTo, cmdReadMemory, if_neg (SdpMsg.writeAccepted_iff.mp accepted)]
    exact if_pos inside
  · cases inside

theorem Tracks.finish {j : CoreJob} {rawtime chipID : BitVec 32} (tracks : Tracks v b l x s)
    (job : s.job v = some j) (done : j.copied.length = j.msg.toCopy)
    (next : t.job v = none) (memory : t.memory l = s.memory l)
    (answered : t.answered v =
      s.answered v ++ [(j.msg, readSdp j.source rawtime chipID v.2 j.msg)]) :
    Tracks v b l x t := by
  refine ⟨fun j' now => ?_, ?_, fun j' now => ?_, fun k r reply place read i inside cell => ?_⟩
  · cases next.symm.trans now
  · rw [memory, tracks.memory, job, next, settled, settled, answered, List.map_append,
      List.map_singleton, lastWrite_concat, Option.bind_some, done]
    rfl
  · cases next.symm.trans now
  · rw [answered] at place ⊢
    rcases Nat.lt_or_ge k (s.answered v).length with earlier | later
    · rw [List.getElem?_append_left earlier] at place
      rw [List.take_append_of_le_length earlier.le]
      exact tracks.replied k r reply place read i inside cell
    · rw [List.getElem?_append_right later] at place
      have last : k = (s.answered v).length := by
        have := (List.getElem?_eq_some_iff.mp place).1
        simp only [List.length_singleton] at this
        omega
      subst last
      rw [Nat.sub_self, List.getElem?_cons_zero, Option.some.injEq, Prod.mk.injEq] at place
      obtain ⟨rfl, replied⟩ := place
      rw [List.take_left, readSdp_payload replied read inside, List.getD_eq_getElem?_getD,
        tracks.found j job read i (done ▸ inside) cell]
      rfl

/-- A core that takes a message up has not copied any of it. -/
theorem Tracks.take {m : SdpMsg} (tracks : Tracks v b l x s) (idle : s.job v = none)
    (next : t.job v = some ⟨m, []⟩) (memory : t.memory l = s.memory l)
    (answered : t.answered v = s.answered v) : Tracks v b l x t := by
  have base : t.settled v b x = s.settled v b x := by rw [settled, settled, answered]
  have old := tracks.memory
  rw [idle] at old
  refine ⟨fun j now => ?_, ?_, fun j now _ i inside => ?_, answered ▸ tracks.replied⟩
  · cases Option.some.inj (next.symm.trans now)
    exact Nat.zero_le _
  · rw [memory, next, base]
    exact old
  · cases Option.some.inj (next.symm.trans now)
    cases inside

theorem Tracks.step (here : locate v b = some l) (tracks : Tracks v b l x s)
    (still : Undisturbed v l s a) (step : s.step a = some t) : Tracks v b l x t := by
  cases step_acts step with
  | request | flush | forward => exact tracks.of_eq rfl rfl rfl
  | @take u _ _ idle =>
    by_cases own : u = v
    · subst own
      exact tracks.take idle (Function.update_self _ _ _) rfl rfl
    · exact tracks.of_eq (Function.update_of_ne (Ne.symm own) _ _) rfl rfl
  | turn _ copied => exact tracks.turn here still copied
  | @finish u _ _ _ _ job _ done =>
    by_cases own : u = v
    · subst own
      exact tracks.finish job done (Function.update_self _ _ _) rfl (Function.update_self _ _ _)
    · exact tracks.of_eq (Function.update_of_ne (Ne.symm own) _ _) rfl
        (Function.update_of_ne (Ne.symm own) _ _)
  | store found =>
    refine tracks.of_eq rfl (Function.update_of_ne (fun hit => still ?_) _ _) rfl
    exact hit ▸ found

/-- The messages that a core is not done with. -/
def pending (s : MemorySystem) (v : Nat × Nat) : List SdpMsg :=
  (s.job v).toList.map CoreJob.msg ++ s.down v

/-- A core that takes a message up still has it before it. -/
theorem pending_take {m : SdpMsg} {rest : List SdpMsg} (idle : s.job u = none)
    (waiting : s.down u = m :: rest) : pending { s with
      down := Function.update s.down u rest
      job := Function.update s.job u (some ⟨m, []⟩) } v = s.pending v := by
  by_cases own : v = u
  · simp only [own, pending, Function.update_self, idle, waiting]
    rfl
  · simp only [pending, Function.update_of_ne own]

theorem pending_copyByte (copied : s.copyByte u = some t) : t.pending v = s.pending v := by
  obtain ⟨j, _, y, was, _, _, _, _, job, same⟩ := copied_of_copyByte copied
  have msgs : (t.job v).toList.map CoreJob.msg = (s.job v).toList.map CoreJob.msg := by
    rw [job]
    by_cases own : v = u
    · rw [own, Function.update_self, was]
      rfl
    · rw [Function.update_of_ne own]
  rw [pending, msgs, same]
  rfl

/-- What has been queued for a core it has handled, or is handling, or waits for it in the
same order. -/
def Queued (v : Nat × Nat) (s : MemorySystem) : Prop :=
  s.arrived v = (s.answered v).map Prod.fst ++ (s.pending v ++ s.dispatcher.sdpQueue v.1 v.2)

theorem Queued.note {d : SdpDispatcher} (queued : Queued v s)
    (grows : SdpDispatcher.Grows (fun _ => True) s.dispatcher d) : Queued v (s.note d) := by
  obtain ⟨new, grown, _⟩ := grows v.1 v.2
  have before : s.arrived v = _ := queued
  simp only [Queued, MemorySystem.note, grown, List.drop_left, before, List.append_assoc]
  rfl

theorem Queued.copyByte (queued : Queued v s) (copied : s.copyByte u = some t) : Queued v t := by
  obtain ⟨_, _, _, _, _, _, _, _, _, same⟩ := copied_of_copyByte copied
  rw [Queued, pending_copyByte copied, same]
  exact queued

theorem Queued.step (queued : Queued v s) (step : s.step a = some t) : Queued v t := by
  have before : s.arrived v = _ := queued
  cases step_acts step with
  | request received =>
    have closed : Rewritten fun _ => True :=
      ⟨fun _ _ _ => trivial, fun _ _ _ => trivial, fun _ _ _ => trivial, fun _ _ _ => trivial⟩
    exact queued.note
      (SdpDispatcher.receiveMsgFromEther_grows closed (fun _ _ => trivial) received)
  | @flush u =>
    by_cases own : u = v
    · subst own
      simp only [Queued, pending, SdpDispatcher.flushSdpQueue, Function.update_self, before,
        List.append_nil, List.append_assoc]
    · have other : (v.1, v.2) ≠ (u.1, u.2) := fun same => own same.symm
      simp only [Queued, pending, SdpDispatcher.flushSdpQueue, Function.update_of_ne (Ne.symm own),
        before, update_table, if_neg other]
  | take idle waiting =>
    rw [Queued, pending_take idle waiting]
    exact before
  | turn _ copied =>
    exact copyBytes_keeps (fun queued copied => queued.copyByte copied) queued copied
  | @finish u _ _ _ _ job =>
    by_cases own : u = v
    · subst own
      simp only [Queued, pending, Function.update_self, before, job, List.map_append,
        List.append_assoc]
      rfl
    · simp only [Queued, pending, Function.update_of_ne (Ne.symm own), before]
  | forward _ dispatched =>
    exact Queued.note (s := { s with up := _ }) queued
      (SdpDispatcher.dispatchSdpOne_grows trivial dispatched)
  | store => exact queued

/-- In memory of its own a core is only disturbed by its own application. -/
theorem undisturbed_of_private (own : isDtcm b = true) (quiet : ∀ y, a ≠ .store v b y) :
    Undisturbed v (.dtcm v.1 v.2 b) s a := by
  have found {u : Nat × Nat} {addr : BitVec 32} (same : locate u addr = some (.dtcm v.1 v.2 b)) :
      u = v ∧ addr = b := by
    unfold locate at same
    split at same
    · simp only [Option.some.injEq, Location.dtcm.injEq] at same
      exact ⟨Prod.ext same.1 same.2.1, same.2.2⟩
    · split at same <;> cases same
  cases a with
  | turn u =>
    by_cases here : u = v
    · exact .inl here
    · exact .inr fun j _ ⟨_, i, _, hit⟩ => here (found hit).1
  | store u addr y =>
    intro hit
    obtain ⟨rfl, rfl⟩ := found hit
    exact quiet y rfl
  | _ => trivial

/-- No full socket refuses a reply. -/
def Unrefused (_ : MemorySystem) : MemoryAction → Prop
  | .finish _ _ refused => refused = false
  | _ => True

/-- A WRITE or READ of the first word of core 1's own memory. -/
def wordRequest (cmd : Byte) (data : List Byte) : EtherDatagram where
  ip := 1
  port := 2
  bytes := [1, 0, 0x87, 0xff, 1, 0xff, 0, 0, 0, 0, 0, cmd, 7, 0, 0, 0, 0x40, 0, 4, 0, 0, 0,
    2, 0, 0, 0] ++ data

/-- Both arrive before the core takes the first one up. -/
def wordActions : List MemoryAction :=
  [.request (fun _ => 0) (wordRequest 3 [5, 6, 7, 8]), .request (fun _ => 0) (wordRequest 2 []),
    .flush (0, 1), .take (0, 1), .turn (0, 1), .finish (0, 1) 0 false,
    .take (0, 1), .turn (0, 1), .finish (0, 1) 0 false]

theorem word_run : ∃ s r reply, Run MemorySystem.step
    (fun s a => Undisturbed (0, 1) (.dtcm 0 1 0x00400000) s a ∧ Unrefused s a)
    (start oneChipBoard fun _ => 0) s ∧ (s.answered (0, 1))[1]? = some (r, some reply) ∧
    (r.cmdRc = spinEmuPacketRead ∧ 0 < r.toCopy ∧
      writeAddress r + BitVec.ofNat 32 0 = 0x00400000) ∧ reply.payload 0 = 5 := by
  obtain ⟨s, run, passes⟩ := exists_run MemorySystem.step
    (fun s a => Undisturbed (0, 1) (.dtcm 0 1 0x00400000) s a ∧ Unrefused s a)
    (start oneChipBoard fun _ => 0) wordActions
    (fun s => ((s.answered (0, 1))[1]?).any fun x => x.2.any fun reply =>
      decide (x.1.cmdRc = spinEmuPacketRead ∧ 0 < x.1.toCopy ∧
        writeAddress x.1 + BitVec.ofNat 32 0 = 0x00400000) && reply.payload 0 == 5)
    (fun t a member => ⟨undisturbed_of_private rfl fun y same => by
      subst same
      simp [wordActions] at member, by
      simp only [wordActions, List.mem_cons, List.not_mem_nil, or_false] at member
      rcases member with rfl | rfl | rfl | rfl | rfl | rfl | rfl | rfl | rfl <;> trivial⟩)
    (by decide +kernel)
  simp only [Option.any_eq_true, Bool.and_eq_true, decide_eq_true_eq, beq_iff_eq] at passes
  obtain ⟨⟨r, _⟩, answered, reply, rfl, read, five⟩ := passes
  exact ⟨s, r, reply, run, answered, read, five⟩

/-- What the requests' model sees: a message waits until its core is done with it. -/
def messages (s : MemorySystem) : SdpSystem where
  dispatcher := s.dispatcher
  down id c := s.pending (id, c)
  up id c := s.up (id, c)

theorem messages_turn {n : Nat} (copied : copyBytes u n s = some t) : t.messages = s.messages := by
  refine copyBytes_keeps (I := fun t => t.messages = s.messages) (fun {t t'} kept copied => ?_) rfl
    copied
  obtain ⟨_, _, _, _, _, _, _, _, _, same⟩ := copied_of_copyByte copied
  refine Eq.trans ?_ kept
  simp only [messages, pending_copyByte copied]
  rw [same]

theorem setAt_pairs {α : Type} {f g : Nat × Nat → List α} {v : Nat × Nat} {l : List α}
    (here : f v = l) (there : ∀ u, u ≠ v → f u = g u) :
    setAt (fun id c => g (id, c)) v.1 v.2 l = fun id c => f (id, c) := by
  funext id c
  rw [setAt_apply]
  by_cases own : (id, c) = v
  · rw [own, here, if_pos rfl]
  · rw [there _ own, if_neg own]

theorem messages_eq {y : SdpSystem} (dispatcher : y.dispatcher = t.dispatcher)
    (down : y.down = t.messages.down) (up : y.up = t.messages.up) : y = t.messages := by
  cases y
  rw [messages, SdpSystem.mk.injEq]
  exact ⟨dispatcher, down, up⟩

theorem messages_down {ms : List SdpMsg} (here : t.pending u = ms)
    (there : ∀ v, v ≠ u → t.pending v = s.pending v) :
    setAt s.messages.down u.1 u.2 ms = t.messages.down := setAt_pairs here there

theorem messages_up {ms : List SdpMsg} (here : t.up u = ms) (there : ∀ v, v ≠ u → t.up v = s.up v) :
    setAt s.messages.up u.1 u.2 ms = t.messages.up := setAt_pairs here there

/-- The requests' model follows: it does not see how a core handles a message. -/
theorem step_messages (sent : s.Unrefused a) (step : s.step a = some t) :
    Run SdpSystem.step (fun _ _ => True) s.messages t.messages := by
  cases step_acts step with
  | @request stale g d received =>
    refine .tail (a := .request stale g) .refl trivial ?_
    simp only [SdpSystem.step, messages, received]
    rfl
  | @flush u =>
    refine .tail (a := .flush u.1 u.2) .refl trivial ?_
    refine congrArg some (messages_eq rfl (messages_down ?_ fun v other => ?_) rfl)
    · simp only [pending, SdpDispatcher.flushSdpQueue, Function.update_self, messages,
        List.append_assoc]
    · simp only [pending, Function.update_of_ne other]
  | take idle waiting =>
    simp only [messages, pending_take idle waiting]
    exact .refl
  | turn _ copied => exact messages_turn copied ▸ .refl
  | @finish u rawtime refused j chipID job chip _ =>
    cases sent
    refine .tail (a := .read u.1 u.2 j.source rawtime) .refl trivial ?_
    have front : s.messages.down u.1 u.2 = j.msg :: s.down u := by
      simp only [messages, pending, job]
      rfl
    have chip : spin1GetChipId s.messages.dispatcher.board u.1 = some chipID := chip
    simp only [SdpSystem.step, front, chip]
    refine congrArg some (messages_eq rfl (messages_down ?_ fun v other => ?_)
      (messages_up ?_ fun v other => ?_))
    · simp only [pending, Function.update_self]
      rfl
    · simp only [pending, Function.update_of_ne other]
    · exact Function.update_self _ _ _
    · exact Function.update_of_ne other _ _
  | @forward u m rest d waiting dispatched =>
    refine .tail (a := .forward u.1 u.2) .refl trivial ?_
    have front : s.messages.up u.1 u.2 = m :: rest := waiting
    have dispatched : s.messages.dispatcher.dispatchSdpOne m = some d := dispatched
    simp only [SdpSystem.step, front, dispatched]
    refine congrArg some (messages_eq rfl rfl (messages_up ?_ fun v other => ?_))
    · exact Function.update_self _ _ _
    · exact Function.update_of_ne other _ _
  | store => exact .refl

/-- Every run is one of the requests' model, where a core handles a message in one step. -/
theorem run_messages {d : SdpDispatcher} {files : Location → Byte}
    (run : Run MemorySystem.step Unrefused (start d files) s) :
    Run SdpSystem.step (fun _ _ => True) (start d files).messages s.messages :=
  run.invariant (I := fun s => Run SdpSystem.step (fun _ _ => True) (start d files).messages s.messages)
    (fun front sent step => front.trans (step_messages sent step)) .refl

theorem run_messages_word : ∃ s : MemorySystem, (s.answered (0, 1))[1]?.isSome ∧
    Run SdpSystem.step (fun _ _ => True) (start oneChipBoard fun _ => 0).messages s.messages := by
  obtain ⟨s, r, reply, run, answered, _⟩ := word_run
  exact ⟨s, by rw [answered]; rfl, run_messages (run.weaken fun _ _ both => both.2)⟩

end MemorySystem
end SpinEmu
