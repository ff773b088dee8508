import SpinEmu.SdpDelivery

/-! The numbers of the DMA transfers. `spin1_dma_transfer` reads its counter for the event,
and again for the value it returns; between the two the callback may run and make
transfers of its own. -/
namespace SpinEmu

def dmaTransferDone : EventId := 1

/-- A call of `spin1_dma_transfer`, the event it has raised, and how many calls had returned
before it. The source keeps no record of the calls. -/
structure DmaCall where
  tag : BitVec 32
  event : Option QEvent
  before : Nat

/-- A call that has returned `id`, and the number of the calls inside its callback. -/
structure DmaReturn where
  call : DmaCall
  id : BitVec 32
  nested : Nat

/-- The variables of `spin1_dma_transfer`, and the calls that its callbacks are inside of,
the innermost first. -/
structure DmaProcess where
  dmaId : BitVec 32
  flip : BitVec 32
  memory : BitVec 32 → Byte
  scheduler : Scheduler
  running : List DmaCall
  returned : List DmaReturn

/-- `memcpy` between areas that do not overlap. -/
def memcpy (dst src length : BitVec 32) (memory : BitVec 32 → Byte) (a : BitVec 32) : Byte :=
  if a - dst < length then memory (src + (a - dst)) else memory a

inductive DmaAction where
  | transfer (tag systemAddress tcmAddress direction length : BitVec 32) (ev : Nat)
  /-- The direct callback of the innermost call is over. -/
  | callbackReturns
  /-- Any other call of the library, or a step of the loop that calls queued events. -/
  | library (a : Scheduler.Action)

namespace DmaProcess

def initial (heap : Lib.Heap QEvent) (memory : BitVec 32 → Byte) : DmaProcess where
  dmaId := 0
  flip := 0
  memory := memory
  scheduler := .initial heap
  running := []
  returned := []

/-- `return dma_id++;` -/
def returnId (call : DmaCall) (s : DmaProcess) : DmaProcess :=
  { s with
    dmaId := s.dmaId + 1
    returned := s.returned ++ [⟨call, s.dmaId, s.returned.length - call.before⟩] }

/-- What the transfer copies. An invalid direction ends the process. -/
def copied (systemAddress tcmAddress direction length : BitVec 32) (s : DmaProcess) :
    Option (BitVec 32 → Byte) :=
  if direction = 0 then some (memcpy tcmAddress systemAddress length s.memory)
  else if direction = 1 then some (memcpy systemAddress tcmAddress length s.memory)
  else none

/-- The event that a transfer raises if its event has a callback. -/
def doneEvent (tag : BitVec 32) (s : DmaProcess) : Option QEvent :=
  let cback := s.scheduler.cback dmaTransferDone
  if cback = none then none else some ⟨s.dmaId, tag, cback⟩

/-- `spin1_dma_transfer` up to its return or to the call of the callback; `ev` is as in
`queue_event`. -/
def spin1DmaTransfer (tag systemAddress tcmAddress direction length : BitVec 32) (ev : Nat)
    (s : DmaProcess) : Option DmaProcess := do
  let memory ← s.copied systemAddress tcmAddress direction length
  let cback := s.scheduler.cback dmaTransferDone
  let direct := (s.scheduler.priority dmaTransferDone).toInt ≤ 0
  let call : DmaCall := ⟨tag, s.doneEvent tag, s.returned.length⟩
  let scheduler ← s.scheduler.queueEvent dmaTransferDone s.dmaId tag cback ev
  let s := { s with memory, flip := s.flip ^^^ 1, scheduler }
  if cback ≠ none ∧ direct then some { s with running := call :: s.running }
  else some (s.returnId call)

def step (s : DmaProcess) : DmaAction → Option DmaProcess
  | .transfer tag systemAddress tcmAddress direction length ev =>
    s.spin1DmaTransfer tag systemAddress tcmAddress direction length ev
  | .callbackReturns =>
    match s.running with
    | [] => none
    | call :: rest => some ({ s with running := rest }.returnId call)
  | .library a => (s.scheduler.step a).map fun scheduler => { s with scheduler }

/-- What a program can do next. Only `spin1_dma_transfer` raises its event, and the loop goes
on when no direct callback is running. -/
def Enabled (s : DmaProcess) : DmaAction → Prop
  | .transfer _ _ _ _ _ ev => s.scheduler.heap ev = none
  | .callbackReturns => True
  | .library a => s.scheduler.Enabled a ∧
    match a with
    | .queueEvent event _ _ _ _ => event ≠ dmaTransferDone
    | .callbackOn _ _ _ | .callbackOff _ => True
    | .select | .dequeue => s.running = []

end DmaProcess

/-- The event that a call has raised carries the returned number and the tag. -/
def DmaReturn.Reported (r : DmaReturn) : Prop :=
  ∀ e, r.call.event = some e → e.arg1 = r.id ∧ e.arg2 = r.call.tag

/-- The event carries the number of calls that had returned when it was raised. -/
def DmaCall.Raised (call : DmaCall) : Prop :=
  ∀ e, call.event = some e → e.arg1 = BitVec.ofNat 32 call.before ∧ e.arg2 = call.tag

namespace DmaProcess

/-- The counter counts the calls that have returned. -/
structure Numbered (s : DmaProcess) : Prop where
  next : s.dmaId = BitVec.ofNat 32 s.returned.length
  running : ∀ call ∈ s.running, call.Raised ∧ call.before ≤ s.returned.length
  returned : ∀ (n : Nat) (r : DmaReturn), s.returned[n]? = some r →
    r.id = BitVec.ofNat 32 n ∧ r.call.before + r.nested = n ∧ r.call.Raised

section Steps
variable {s t : DmaProcess} {call : DmaCall} {a : DmaAction}
  {tag systemAddress tcmAddress direction length : BitVec 32} {ev : Nat}

theorem initial_numbered (heap : Lib.Heap QEvent) (memory : BitVec 32 → Byte) :
    (initial heap memory).Numbered where
  next := rfl
  running _ none := by cases none
  returned _ _ none := by cases none

/-- A call that returns gets the next number. -/
theorem returnId_numbered (numbered : s.Numbered) (raised : call.Raised)
    (earlier : call.before ≤ s.returned.length) : (s.returnId call).Numbered := by
  refine ⟨?_, fun call' member => ?_, fun n r here => ?_⟩
  · simp only [returnId, List.length_append, List.length_singleton, numbered.next]
    exact (BitVec.ofNat_add _ _).symm
  · obtain ⟨raised', before⟩ := numbered.running call' member
    refine ⟨raised', before.trans ?_⟩
    simp only [returnId, List.length_append]
    omega
  · rcases Nat.lt_or_ge n s.returned.length with old | new
    · rw [returnId, List.getElem?_append_left old] at here
      exact numbered.returned n r here
    · have inside : n < (s.returnId call).returned.length :=
        (List.getElem?_eq_some_iff.mp here).choose
      simp only [returnId, List.length_append, List.length_singleton] at inside here
      obtain rfl : n = s.returned.length := by omega
      rw [List.getElem?_concat_length] at here
      cases here
      exact ⟨numbered.next, by simp only; omega, raised⟩

/-- A transfer returns, or it waits for its callback. -/
theorem spin1DmaTransfer_cases
    (taken : s.spin1DmaTransfer tag systemAddress tcmAddress direction length ev = some t) :
    ∃ memory scheduler,
      s.scheduler.queueEvent dmaTransferDone s.dmaId tag (s.scheduler.cback dmaTransferDone) ev =
        some scheduler ∧
      let called : DmaProcess := { s with memory, flip := s.flip ^^^ 1, scheduler }
      let call : DmaCall := ⟨tag, s.doneEvent tag, s.returned.length⟩
      (t = { called with running := call :: s.running } ∨ t = called.returnId call) := by
  simp only [spin1DmaTransfer, Option.bind_eq_bind] at taken
  obtain ⟨memory, _, taken⟩ := Option.bind_eq_some_iff.mp taken
  obtain ⟨scheduler, queued, taken⟩ := Option.bind_eq_some_iff.mp taken
  refine ⟨memory, scheduler, queued, ?_⟩
  split at taken
  · exact .inl (Option.some.inj taken).symm
  · exact .inr (Option.some.inj taken).symm

theorem doneEvent_raised (tag : BitVec 32) (numbered : s.Numbered) :
    DmaCall.Raised ⟨tag, s.doneEvent tag, s.returned.length⟩ := by
  intro e here
  simp only [doneEvent] at here
  split at here
  · cases here
  · cases here
    exact ⟨numbered.next, rfl⟩

theorem step_numbered (numbered : s.Numbered) (taken : s.step a = some t) : t.Numbered := by
  cases a with
  | transfer tag systemAddress tcmAddress direction length ev =>
    obtain ⟨memory, scheduler, _, placed⟩ := spin1DmaTransfer_cases taken
    have fresh := doneEvent_raised tag numbered
    rcases placed with rfl | rfl
    · refine ⟨numbered.next, fun call member => ?_, numbered.returned⟩
      rcases List.mem_cons.mp member with rfl | outer
      · exact ⟨fresh, le_rfl⟩
      · exact numbered.running call outer
    · exact returnId_numbered ⟨numbered.next, numbered.running, numbered.returned⟩ fresh le_rfl
  | callbackReturns =>
    simp only [step] at taken
    split at taken
    · cases taken
    · rename_i call rest open_
      cases taken
      have inner := numbered.running call (open_ ▸ List.mem_cons_self)
      refine returnId_numbered ⟨numbered.next, fun call' member => ?_, numbered.returned⟩
        inner.1 inner.2
      exact numbered.running call' (open_ ▸ List.mem_cons_of_mem _ member)
  | library a =>
    obtain ⟨scheduler, _, rfl⟩ := Option.map_eq_some_iff.mp taken
    exact ⟨numbered.next, numbered.running, numbered.returned⟩

/-- The queues stay as `queue_event` needs them. -/
theorem step_consistent (consistent : ∃ l, s.scheduler.Consistent l) (enabled : s.Enabled a)
    (taken : s.step a = some t) : ∃ l, t.scheduler.Consistent l := by
  obtain ⟨l, consistent⟩ := consistent
  have kept {b : Scheduler.Action} {next : Scheduler} (enabled : s.scheduler.Enabled b)
      (result : s.scheduler.step b = some next) : ∃ l, next.Consistent l := by
    obtain ⟨_, l', result', kept⟩ := Scheduler.step_consistent consistent enabled
    rw [result] at result'
    cases result'
    exact ⟨l', kept⟩
  cases a with
  | transfer tag systemAddress tcmAddress direction length ev =>
    obtain ⟨memory, scheduler, queued, placed⟩ := spin1DmaTransfer_cases taken
    have fresh : s.scheduler.Enabled (.queueEvent dmaTransferDone s.dmaId tag
      (s.scheduler.cback dmaTransferDone) ev) := enabled
    rcases placed with rfl | rfl
    · exact kept fresh queued
    · exact kept fresh queued
  | callbackReturns =>
    simp only [step] at taken
    split at taken
    · cases taken
    · cases taken
      exact ⟨l, consistent⟩
  | library a =>
    obtain ⟨scheduler, result, rfl⟩ := Option.map_eq_some_iff.mp taken
    exact kept enabled.1 result

end Steps

section Runs
open Lib.Machine
variable {heap : Lib.Heap QEvent} {memory : BitVec 32 → Byte} {s t : DmaProcess} {r : DmaReturn}

theorem numbered_of_run {ok : DmaProcess → DmaAction → Prop}
    (run : Run step ok (initial heap memory) s) : s.Numbered :=
  run.invariant (fun numbered _ taken => step_numbered numbered taken)
    (initial_numbered heap memory)

/-- The event of a transfer is the one that comes into its queue or is called. -/
theorem transfer_records (run : Run step Enabled (initial heap memory) s)
    {tag systemAddress tcmAddress direction length : BitVec 32} {ev : Nat}
    (fresh : s.scheduler.heap ev = none)
    (taken : s.spin1DmaTransfer tag systemAddress tcmAddress direction length ev = some t) :
    ∃ queued called,
      t.scheduler.appended dmaTransferDone = s.scheduler.appended dmaTransferDone ++ queued ∧
      t.scheduler.direct = s.scheduler.direct ++ called ∧
      queued ++ called = (s.doneEvent tag).toList := by
  obtain ⟨l, consistent⟩ : ∃ l, s.scheduler.Consistent l :=
    run.invariant (I := fun s => ∃ l, s.scheduler.Consistent l)
      (fun consistent enabled taken => step_consistent consistent enabled taken)
      ⟨_, Scheduler.initial_consistent heap⟩
  obtain ⟨next, queued, called, result, appended, direct, one⟩ :=
    CoreProcess.queueEvent_raises consistent fresh dmaTransferDone s.dmaId tag
      (s.scheduler.cback dmaTransferDone)
  obtain ⟨_, scheduler, same, placed⟩ := spin1DmaTransfer_cases taken
  rw [result] at same
  cases same
  refine ⟨queued, called, ?_, ?_, ?_⟩
  · rcases placed with rfl | rfl <;> exact (congrFun appended _).trans (Function.update_self ..)
  · rcases placed with rfl | rfl <;> exact direct
  · rw [one, doneEvent]
    split <;> rfl

theorem returned_ids (numbered : s.Numbered) :
    s.returned.map DmaReturn.id = (List.range s.returned.length).map (BitVec.ofNat 32) := by
  refine List.ext_getElem (by simp) fun n inside _ => ?_
  rw [List.length_map] at inside
  rw [List.getElem_map, List.getElem_map, List.getElem_range]
  exact (numbered.returned n _ (List.getElem?_eq_getElem inside)).1

/-- One call: its event carries its number exactly if no call came between. -/
theorem reported_iff (numbered : s.Numbered) (few : s.returned.length < 2 ^ 32)
    (member : r ∈ s.returned) : r.Reported ↔ (r.call.event ≠ none → r.nested = 0) := by
  obtain ⟨n, here⟩ := List.mem_iff_getElem?.mp member
  have inside : n < s.returned.length := (List.getElem?_eq_some_iff.mp here).choose
  obtain ⟨id, count, raised⟩ := numbered.returned n r here
  constructor
  · intro reported present
    obtain ⟨e, event⟩ := Option.ne_none_iff_exists'.mp present
    have same := congrArg BitVec.toNat
      ((raised e event).1.symm.trans ((reported e event).1.trans id))
    rw [BitVec.toNat_ofNat, BitVec.toNat_ofNat] at same
    omega
  · intro alone e event
    obtain ⟨number, tag⟩ := raised e event
    have none := alone (by rw [event]; exact nofun)
    refine ⟨?_, tag⟩
    rw [number, id]
    congr 1
    omega

end Runs

open Lib.Machine in
/-- With fewer than `2 ^ 32` transfers the returned numbers differ from each other, and the
events of the calls carry them exactly if no transfer is made inside the callback that
another one calls. -/
theorem transfers_reported_iff (heap : Lib.Heap QEvent) (memory : BitVec 32 → Byte)
    (s : DmaProcess) (run : Run step Enabled (initial heap memory) s)
    (few : s.returned.length + s.running.length < 2 ^ 32) :
    (s.returned.map DmaReturn.id).Nodup ∧
      ((∀ r ∈ s.returned, r.Reported) ↔
        ∀ r ∈ s.returned, r.call.event ≠ none → r.nested = 0) := by
  have numbered := numbered_of_run run
  constructor
  · rw [returned_ids numbered]
    refine List.nodup_range.map_on fun n hn m hm same => ?_
    have hn := List.mem_range.mp hn
    have hm := List.mem_range.mp hm
    have same := congrArg BitVec.toNat same
    rw [BitVec.toNat_ofNat, BitVec.toNat_ofNat] at same
    omega
  · exact forall₂_congr fun r member => reported_iff numbered (by omega) member

/-- A process whose callback for finished transfers is registered with a priority. -/
def registered (priority : BitVec 32) : DmaProcess :=
  { initial (fun _ => none) (fun _ => 0) with
    scheduler := (Scheduler.initial fun _ => none).callbackOn dmaTransferDone (some 7) priority }

section Registered
open Lib.Machine

theorem registered_run (priority : BitVec 32) :
    Run step Enabled (initial (fun _ => none) fun _ => 0) (registered priority) :=
  .tail .refl (show Enabled _ (.library (.callbackOn dmaTransferDone (some 7) priority)) from
    ⟨trivial, trivial⟩) rfl

/-- Two transfers whose events are queued. -/
theorem queued_transfer_reported : ∃ s, Run step Enabled (registered 1) s ∧
    s.returned.map DmaReturn.id = [0, 1] ∧
    (s.returned.map DmaReturn.id).Nodup ∧ ((∀ r ∈ s.returned, r.Reported) ↔
      ∀ r ∈ s.returned, r.call.event ≠ none → r.nested = 0) := by
  have one : Run step Enabled (registered 1) _ :=
    .tail .refl (show Enabled _ (.transfer 5 0 0 0 0 100) from rfl) rfl
  have two := one.tail (show Enabled _ (.transfer 6 0 0 0 0 101) from rfl) rfl
  exact ⟨_, two, by decide, transfers_reported_iff _ _ _ ((registered_run 1).trans two) (by decide)⟩

/-- Inside the callback of a transfer that it calls directly, another transfer is made. -/
theorem nested_transfer_misreported : ∃ s,
    Run step Enabled (initial (fun _ => none) fun _ => 0) s ∧
      s.returned.length + s.running.length < 2 ^ 32 ∧ ¬ ∀ r ∈ s.returned, r.Reported := by
  have outer : Run step Enabled (registered 0) _ :=
    .tail .refl (show Enabled _ (.transfer 5 0 0 0 0 100) from rfl) rfl
  have inner := outer.tail (show Enabled _ (.transfer 6 0 0 0 0 101) from rfl) rfl
  have once := inner.tail (show Enabled _ .callbackReturns from trivial) rfl
  have twice := once.tail (show Enabled _ .callbackReturns from trivial) rfl
  refine ⟨_, (registered_run 0).trans twice, by decide, fun reported => ?_⟩
  have outermost := reported ⟨⟨5, some ⟨0, 5, some 7⟩, 0⟩, 1, 1⟩ (List.mem_of_getElem? (i := 1) rfl)
  exact absurd (outermost _ rfl).1 (by decide)

end Registered
end DmaProcess
end SpinEmu
