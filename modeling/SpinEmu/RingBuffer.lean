import SpinEmu.KeyOrder
import SpinEmu.Lib.Machine

/-! One multicast queue over any sequence of `queue_mc` calls and drain steps. The
read position only grows, so that the buffer is first-in first-out for as long as the
counts of the packets fit into an `int`. -/
namespace SpinEmu
open Lib

/-- What happens to a queue: a call of `queue_mc`, or a turn of a drain loop. -/
inductive QueueAction (π : Type) where
  | queueMc (m : π)
  | drain

namespace SpinEmuMcQueue
variable {π : Type}

def act (q : SpinEmuMcQueue π) : QueueAction π → Except Fault (SpinEmuMcQueue π)
  | .queueMc m => if q.len ≥ spinEmuMcQueueSize then .ok q else q.push m
  | .drain => if q.len = 0 then .ok q else q.advance

/-- The index of `queue[]` that the action uses, if it uses one. -/
def index (q : SpinEmuMcQueue π) : QueueAction π → Option Int
  | .queueMc _ =>
    if q.len ≥ spinEmuMcQueueSize then none else some ((q.pos + q.len).tmod spinEmuMcQueueSize)
  | .drain => if q.len = 0 then none else some (q.pos.tmod spinEmuMcQueueSize)

/-- The queue of a zeroed allocation. -/
def empty (cells : Int → π) : SpinEmuMcQueue π := ⟨0, 0, cells⟩

end SpinEmuMcQueue

/-- A queue with the packets it has accepted and those it has given out, in order. -/
structure QueueHistory (π : Type) where
  queue : SpinEmuMcQueue π
  accepted : List π
  drained : List π

namespace QueueHistory
variable {π : Type}

def step (s : QueueHistory π) (a : QueueAction π) : Option (QueueHistory π) :=
  (s.queue.act a).toOption.map fun queue =>
    match a with
    | .queueMc m =>
      ⟨queue, if s.queue.len ≥ spinEmuMcQueueSize then s.accepted else s.accepted ++ [m], s.drained⟩
    | .drain =>
      ⟨queue, s.accepted, if s.queue.len = 0 then s.drained else s.drained ++ [s.queue.front]⟩

def initial (cells : Int → π) : QueueHistory π := ⟨.empty cells, [], []⟩

/-- The queue is within its bounds, and the packets that have come out are, in order,
the first ones that went in; the others are queued. -/
structure Fifo (s : QueueHistory π) : Prop where
  len_nonneg : 0 ≤ s.queue.len
  len_le : s.queue.len ≤ spinEmuMcQueueSize
  order : s.accepted = s.drained ++ s.queue.contents

/-- The action does what it has to: it stays inside the array, and it appends one packet,
removes the first one, or changes nothing when the queue is full or empty. -/
structure Works (s : QueueHistory π) (a : QueueAction π) : Prop where
  inside : ∀ i ∈ s.queue.index a, 0 ≤ i ∧ i < spinEmuMcQueueSize
  effect : ∃ t, s.step a = some t ∧ t.Fifo ∧
    match a with
    | .queueMc m =>
      if s.queue.len ≥ spinEmuMcQueueSize then t.queue = s.queue
      else t.queue.contents = s.queue.contents ++ [m]
    | .drain =>
      if s.queue.len = 0 then t.queue = s.queue
      else s.queue.contents = s.queue.front :: t.queue.contents

/-- The counts that the action computes with fit into an `int`: for a packet that is not
refused the packets accepted before it, for the removal of a packet those removed,
itself included. -/
def InRange (s : QueueHistory π) : QueueAction π → Prop
  | .queueMc _ => s.queue.len ≥ spinEmuMcQueueSize ∨ (s.accepted.length : Int) ≤ intMax
  | .drain => s.queue.len = 0 ∨ (s.drained.length : Int) < intMax

/-- The position counts the packets that have come out. -/
structure Counted (s : QueueHistory π) : Prop where
  valid : s.queue.Valid
  order : s.accepted = s.drained ++ s.queue.contents
  pos : s.queue.pos = s.drained.length

section Runs
variable {s t : QueueHistory π} {a : QueueAction π} {m : π} {q : SpinEmuMcQueue π}

theorem Counted.fifo (counted : s.Counted) : s.Fifo :=
  ⟨counted.valid.len_nonneg, counted.valid.len_le, counted.order⟩

/-- The end of the queue counts the packets that have gone in. -/
theorem Counted.back (counted : s.Counted) : s.queue.pos + s.queue.len = s.accepted.length := by
  have := counted.valid.len_nonneg
  rw [counted.order, List.length_append, SpinEmuMcQueue.length_contents, counted.pos]
  omega

theorem initial_counted (cells : Int → π) : (initial cells).Counted where
  valid := ⟨le_rfl, (by decide : (0 : Int) ≤ intMax), le_rfl,
    (by decide : (0 : Int) ≤ spinEmuMcQueueSize)⟩
  order := rfl
  pos := rfl

theorem step_full (full : s.queue.len ≥ spinEmuMcQueueSize) : s.step (.queueMc m) = some s := by
  simp only [step, SpinEmuMcQueue.act, if_pos full]
  rfl

theorem step_queueMc (room : ¬ s.queue.len ≥ spinEmuMcQueueSize) : s.step (.queueMc m) =
    (s.queue.push m).toOption.map fun q => ⟨q, s.accepted ++ [m], s.drained⟩ := by
  simp only [step, SpinEmuMcQueue.act, if_neg room]

theorem step_empty (none : s.queue.len = 0) : s.step .drain = some s := by
  simp only [step, SpinEmuMcQueue.act, if_pos none]
  rfl

theorem step_drain (some : s.queue.len ≠ 0) : s.step .drain =
    s.queue.advance.toOption.map fun q => ⟨q, s.accepted, s.drained ++ [s.queue.front]⟩ := by
  simp only [step, SpinEmuMcQueue.act, if_neg some]

/-- What an enqueue can do. -/
theorem Counted.queueMc (counted : s.Counted) (room : ¬ s.queue.len ≥ spinEmuMcQueueSize)
    (taken : s.step (.queueMc m) = some t) : t.Counted ∧ (s.accepted.length : Int) ≤ intMax ∧
      t.queue.contents = s.queue.contents ++ [m] := by
  rw [step_queueMc room] at taken
  obtain ⟨q, pushed, rfl⟩ := Option.map_eq_some_iff.mp taken
  have pushed := toOption_eq_some pushed
  obtain ⟨range, rest⟩ := SpinEmuMcQueue.push_ok counted.valid.len_nonneg pushed
  obtain ⟨valid, longer⟩ := SpinEmuMcQueue.push_contents counted.valid (by omega) pushed
  refine ⟨⟨valid, ?_, ?_⟩, counted.back ▸ range, longer⟩
  · rw [longer, counted.order, List.append_assoc]
  · rw [rest]
    exact counted.pos

/-- What the removal of a packet can do. -/
theorem Counted.drain (counted : s.Counted) (some : s.queue.len ≠ 0)
    (taken : s.step .drain = .some t) : t.Counted ∧ (s.drained.length : Int) < intMax ∧
      s.queue.contents = s.queue.front :: t.queue.contents := by
  rw [step_drain some] at taken
  obtain ⟨q, advanced, rfl⟩ := Option.map_eq_some_iff.mp taken
  have advanced := toOption_eq_some advanced
  have nonneg := counted.valid.len_nonneg
  obtain ⟨range, rest⟩ := SpinEmuMcQueue.advance_ok advanced
  obtain ⟨valid, shorter⟩ := SpinEmuMcQueue.advance_contents counted.valid (by omega) advanced
  refine ⟨⟨valid, ?_, ?_⟩, ?_, shorter⟩
  · rw [counted.order, shorter, List.append_assoc, List.singleton_append]
  · rw [rest, List.length_append, List.length_singleton]
    have := counted.pos
    push_cast
    omega
  · rw [← counted.pos]
    omega

theorem step_counted (counted : s.Counted) (taken : s.step a = some t) : t.Counted := by
  cases a with
  | queueMc m =>
    by_cases full : s.queue.len ≥ spinEmuMcQueueSize
    · rw [step_full full] at taken
      exact Option.some.inj taken ▸ counted
    · exact (counted.queueMc full taken).1
  | drain =>
    by_cases none : s.queue.len = 0
    · rw [step_empty none] at taken
      exact Option.some.inj taken ▸ counted
    · exact (counted.drain none taken).1

/-- A cell that is counted from a position that is not negative is in the array. -/
theorem index_inside (counted : s.Counted) :
    ∀ i ∈ s.queue.index a, 0 ≤ i ∧ i < spinEmuMcQueueSize := by
  have tmod_inside {n : Int} (nonneg : 0 ≤ n) :
      0 ≤ n.tmod spinEmuMcQueueSize ∧ n.tmod spinEmuMcQueueSize < spinEmuMcQueueSize :=
    ⟨Int.tmod_nonneg _ nonneg, Int.tmod_lt_of_pos _ (by decide)⟩
  have pos := counted.valid.pos_nonneg
  have len := counted.valid.len_nonneg
  intro i used
  cases a with
  | queueMc m =>
    simp only [SpinEmuMcQueue.index] at used
    split at used
    · cases used
    · cases used
      exact tmod_inside (by omega)
  | drain =>
    simp only [SpinEmuMcQueue.index] at used
    split at used
    · cases used
    · cases used
      exact tmod_inside pos

theorem Counted.works_queueMc (counted : s.Counted) :
    s.Works (.queueMc m) ↔ s.InRange (.queueMc m) := by
  by_cases full : s.queue.len ≥ spinEmuMcQueueSize
  · exact iff_of_true ⟨index_inside counted, s, step_full full, counted.fifo, by simp [full]⟩
      (.inl full)
  constructor
  · intro works
    obtain ⟨t, taken, _⟩ := works.effect
    exact .inr (counted.queueMc full taken).2.1
  · intro range
    have fits := range.resolve_left full
    obtain ⟨q, pushed⟩ := SpinEmuMcQueue.push_isOk counted.valid (m := m) (by omega)
      (counted.back ▸ fits)
    have taken : s.step (.queueMc m) = some ⟨q, s.accepted ++ [m], s.drained⟩ := by
      rw [step_queueMc full, pushed]
      rfl
    obtain ⟨kept, _, longer⟩ := counted.queueMc full taken
    exact ⟨index_inside counted, _, taken, kept.fifo, by simpa [full] using longer⟩

theorem Counted.works_drain (counted : s.Counted) :
    s.Works .drain ↔ s.InRange .drain := by
  by_cases none : s.queue.len = 0
  · exact iff_of_true ⟨index_inside counted, s, step_empty none, counted.fifo, by simp [none]⟩
      (.inl none)
  constructor
  · intro works
    obtain ⟨t, taken, _⟩ := works.effect
    exact .inr (counted.drain none taken).2.1
  · intro range
    have fits := range.resolve_left none
    obtain ⟨q, advanced⟩ := SpinEmuMcQueue.advance_isOk counted.valid (by rw [counted.pos]; omega)
    have taken : s.step .drain = some ⟨q, s.accepted, s.drained ++ [s.queue.front]⟩ := by
      rw [step_drain none, advanced]
      rfl
    obtain ⟨kept, _, shorter⟩ := counted.drain none taken
    exact ⟨index_inside counted, _, taken, kept.fifo, by simpa [none] using shorter⟩

theorem Counted.works_iff (counted : s.Counted) : s.Works a ↔ s.InRange a := by
  cases a with
  | queueMc m => exact counted.works_queueMc
  | drain => exact counted.works_drain

open Lib.Machine

theorem counted_of_run {cells : Int → π} {ok : QueueHistory π → QueueAction π → Prop}
    (run : Run step ok (initial cells) t) : t.Counted :=
  run.invariant (fun counted _ taken => step_counted counted taken) (initial_counted cells)

end Runs

open Lib.Machine in
/-- As long as the counts of the packets fit into an `int` the queue is a bounded
first-in first-out list; in every state that is so reached the next action works
exactly if they still do. -/
theorem queue_fifo (cells : Int → π) (t : QueueHistory π)
    (run : Run step InRange (initial cells) t) : t.Fifo ∧ ∀ a, t.Works a ↔ t.InRange a :=
  ⟨(counted_of_run run).fifo, fun _ => (counted_of_run run).works_iff⟩

/-- A queue of the dispatcher before the first packet. -/
def idleQueue : QueueHistory SpinEmuMc := initial fun _ => ⟨0, 0, 0⟩

section Long
open Lib.Machine
variable {s t : QueueHistory π} {m : π}

theorem drained_of_queueMc (taken : s.step (.queueMc m) = some t) : t.drained = s.drained := by
  obtain ⟨q, _, rfl⟩ := Option.map_eq_some_iff.mp taken
  rfl

theorem accepted_of_drain (taken : s.step .drain = some t) : t.accepted = s.accepted := by
  obtain ⟨q, _, rfl⟩ := Option.map_eq_some_iff.mp taken
  rfl

/-- One packet in an empty queue, as long as it can be counted. -/
theorem Counted.exists_one (counted : s.Counted) (none : s.queue.len = 0)
    (fits : (s.drained.length : Int) ≤ intMax) (m : π) :
    ∃ t, s.InRange (.queueMc m) ∧ s.step (.queueMc m) = some t ∧ t.queue.len = 1 ∧
      t.drained = s.drained := by
  have idle : s.queue.contents = [] := (SpinEmuMcQueue.contents_eq_nil counted.valid).mpr none
  have range : s.InRange (.queueMc m) := by
    refine .inr ?_
    rw [counted.order, idle, List.append_nil]
    exact fits
  obtain ⟨t, taken, fifo, longer⟩ := (counted.works_iff.mpr range).effect
  have room : ¬ s.queue.len ≥ spinEmuMcQueueSize := by
    rw [none]
    decide
  have one := congrArg List.length ((if_neg room).mp longer)
  rw [SpinEmuMcQueue.length_contents, idle] at one
  have nonneg := fifo.len_nonneg
  refine ⟨t, range, taken, ?_, drained_of_queueMc taken⟩
  simp only [List.nil_append, List.length_singleton] at one
  omega

/-- Any number of packets that an `int` can count goes through the queue one by one. -/
theorem exists_drained (cells : Int → π) (m : π) (n : Nat) (fits : (n : Int) ≤ intMax) :
    ∃ t, Run step InRange (initial cells) t ∧ t.queue.len = 0 ∧ t.drained.length = n := by
  induction n with
  | zero => exact ⟨_, .refl, rfl, rfl⟩
  | succ n ih =>
    obtain ⟨s, run, none, count⟩ := ih (by omega)
    obtain ⟨t, enqueues, taken, one, same⟩ :=
      (counted_of_run run).exists_one none (by omega) m
    have middle := run.tail enqueues taken
    have counted := counted_of_run middle
    have some : t.queue.len ≠ 0 := by omega
    have drains : t.InRange .drain := by
      refine .inr ?_
      rw [same, count]
      omega
    obtain ⟨u, removed, fifo, shorter⟩ := (counted.works_iff.mpr drains).effect
    have shorter := congrArg List.length ((if_neg some).mp shorter)
    have goneIn := congrArg List.length counted.order
    have comeOut := congrArg List.length fifo.order
    rw [accepted_of_drain removed] at comeOut
    rw [same] at goneIn
    have nonneg := fifo.len_nonneg
    simp only [List.length_append, List.length_cons, SpinEmuMcQueue.length_contents]
      at shorter goneIn comeOut
    exact ⟨u, middle.tail drains removed, by omega, by omega⟩

/-- The queue has gone round its array four times. -/
theorem idleQueue_fifo : ∃ t : QueueHistory SpinEmuMc, t.drained.length = 5000 ∧ t.Fifo ∧
    ∀ a, t.Works a ↔ t.InRange a := by
  obtain ⟨t, run, _, count⟩ := exists_drained (fun _ => (⟨0, 0, 0⟩ : SpinEmuMc)) ⟨7, 0, 0⟩ 5000
    (by decide)
  exact ⟨t, count, queue_fifo _ t run⟩

/-- The packet after the last one that an `int` can count is accepted, but the position
cannot move past it. -/
theorem last_stuck : ∃ t, Run step (fun _ _ => True) idleQueue t ∧ ¬ t.Works .drain := by
  obtain ⟨s, run, none, count⟩ := exists_drained (fun _ => (⟨0, 0, 0⟩ : SpinEmuMc)) ⟨0, 0, 0⟩
    intMax.toNat (by decide)
  have full : (s.drained.length : Int) = intMax := by
    rw [count]
    rfl
  obtain ⟨t, enqueues, taken, one, same⟩ :=
    (counted_of_run run).exists_one none (by omega) ⟨0, 0, 0⟩
  have run := run.tail enqueues taken
  refine ⟨t, run.weaken fun _ _ _ => trivial, fun works => ?_⟩
  rcases (counted_of_run run).works_iff.mp works with none | fits
  · omega
  · rw [same] at fits
    omega

end Long
end QueueHistory

open Lib.Machine in
/-- The second queue comes from the first by actions that `ok` allows. -/
def SpinEmuMcQueue.Acted (ok : QueueAction π → Prop) (q q' : SpinEmuMcQueue π) : Prop :=
  Run (fun q a => (q.act a).toOption) (fun _ a => ok a) q q'

def QueueAction.Enqueues (a : QueueAction π) : Prop := ∃ m, a = .queueMc m

section Acted
open Lib.Machine SpinEmuMcQueue
variable {ok : QueueAction π → Prop} {q q' : SpinEmuMcQueue π} {a : QueueAction π}

theorem SpinEmuMcQueue.Acted.one (allowed : ok a) (done : q.act a = .ok q') : Acted ok q q' :=
  .tail .refl allowed (by rw [done]; rfl)

theorem SpinEmuMcQueue.act_drain (some : 0 < q.len) : q.act .drain = q.advance :=
  if_neg (Int.ne_of_gt some)

/-- What happens to a queue can be told with its history. -/
theorem SpinEmuMcQueue.Acted.history {s : QueueHistory π} (acts : Acted ok s.queue q') :
    ∃ t, Run QueueHistory.step (fun _ _ => True) s t ∧ t.queue = q' := by
  induction acts with
  | refl => exact ⟨s, .refl, rfl⟩
  | tail _ _ last ih =>
    obtain ⟨t, run, rfl⟩ := ih
    refine ⟨_, run.tail trivial (Option.map_eq_some_iff.mpr ⟨_, last, rfl⟩), ?_⟩
    split <;> rfl

/-- Enqueues do not empty a queue. -/
theorem SpinEmuMcQueue.Acted.len_pos (acts : Acted QueueAction.Enqueues q q') (some : 0 < q.len) :
    0 < q'.len := by
  refine acts.invariant (I := fun q => 0 < q.len) ?_ some
  rintro t a u some ⟨m, rfl⟩ taken
  have taken := toOption_eq_some taken
  rw [act] at taken
  split at taken
  · cases taken
    exact some
  · obtain ⟨_, rfl⟩ := push_ok (by omega) taken
    exact Int.lt_add_one_of_le (Int.le_of_lt some)

end Acted

namespace Dispatcher
open SpinEmuMcQueue

/-- What the dispatcher does to any of its queues. -/
def QueuesAct (ok : QueueAction π → Prop) (d d' : Dispatcher π) : Prop :=
  ∀ c i, Acted ok (d.mcQueue c i) (d'.mcQueue c i)

section Queues
variable {ok : QueueAction π → Prop} {d d' e : Dispatcher π} {m : π} {c i : Nat}

theorem QueuesAct.refl (d : Dispatcher π) : QueuesAct ok d d := fun _ _ => .refl

theorem QueuesAct.trans (front : QueuesAct ok d e) (back : QueuesAct ok e d') :
    QueuesAct ok d d' := fun c i => (front c i).trans (back c i)

theorem QueuesAct.weaken (acts : QueuesAct ok d d') : QueuesAct (fun _ => True) d d' :=
  fun c i => (acts c i).weaken fun _ _ _ => trivial

theorem setQueue_acts {q : SpinEmuMcQueue π} (acts : Acted ok (d.mcQueue c i) q) :
    QueuesAct ok d (d.setQueue c i q) := by
  intro v j
  rw [setQueue_mcQueue]
  split
  · rename_i here
    cases here
    exact acts
  · exact .refl

theorem queueMc_acts (called : d.queueMc c i m = .ok d') :
    QueuesAct QueueAction.Enqueues d d' := by
  rw [queueMc] at called
  split at called
  · cases called
    exact .refl d
  · rename_i room
    obtain ⟨q, pushed, result⟩ := bind_ok called
    cases result
    exact setQueue_acts (.one ⟨m, rfl⟩ ((if_neg room).trans pushed))

theorem sendFront_acts (some : 0 < (d.mcQueue c i).len) (sent : sendFront c i d = .ok d') :
    QueuesAct (fun _ => True) d d' := by
  obtain ⟨q, advanced, result⟩ := bind_ok sent
  cases result
  have acts : Acted (fun _ => True) (d.mcQueue c i) q :=
    .one trivial ((act_drain some).trans advanced)
  exact setQueue_acts (d := d.spinEmuSendMc c i (d.mcQueue c i).front) acts

section Links
variable {b : Board} {r : SpinEmuRoute}

theorem routeLink_acts {j : Fin numLinks} (routed : routeLink b c r m d j = .ok d') :
    QueuesAct QueueAction.Enqueues d d' := by
  rw [routeLink] at routed
  split at routed
  · cases routed
    exact .refl d
  · simp only at routed
    split at routed
    · cases routed
      exact .refl d
    · exact queueMc_acts routed

theorem routeLinks_acts {js : List (Fin numLinks)}
    (routed : js.foldlM (routeLink b c r m) d = .ok d') : QueuesAct QueueAction.Enqueues d d' := by
  induction js generalizing d with
  | nil =>
    cases routed
    exact .refl _
  | cons j js ih =>
    rw [List.foldlM_cons] at routed
    obtain ⟨e, first, rest⟩ := bind_ok routed
    exact (routeLink_acts first).trans (ih rest)

end Links

variable [McPacket π] {b : Board}

theorem routeMc_acts (routed : routeMc b c m d = .ok d') :
    QueuesAct QueueAction.Enqueues d d' := by
  unfold routeMc at routed
  split at routed
  · cases routed
    exact .refl d
  · obtain ⟨e, links, cores⟩ := bind_ok routed
    cases cores
    rw [routeCores_same]
    have acts := routeLinks_acts links
    exact fun v j => acts v j

theorem routeFront_acts (some : 0 < (d.mcQueue c 0).len) (routed : routeFront b c d = .ok d') :
    QueuesAct (fun _ => True) d d' := by
  obtain ⟨e, first, routed⟩ := bind_ok routed
  obtain ⟨q, advanced, result⟩ := bind_ok routed
  cases result
  have enqueued := routeMc_acts first
  have still := (enqueued c 0).len_pos some
  exact enqueued.weaken.trans
    (setQueue_acts (.one trivial ((act_drain still).trans advanced)))

/-- The queues stay valid, and nothing else happens to them. -/
theorem preserved_acts (d : Dispatcher π) :
    Preserved b fun e => e.Valid b ∧ QueuesAct (fun _ => True) d e where
  valid acting := acting.1
  fire acting hc some routed :=
    ⟨(routeFront_net hc acting.1 some routed).2.valid acting.1,
      acting.2.trans (routeFront_acts some routed)⟩
  send acting hc low high some sent :=
    ⟨(sendFront_spec hc low high acting.1 some sent).1, acting.2.trans (sendFront_acts some sent)⟩

theorem flush_acts (valid : d.Valid b) (ends : (flushMcQueues b).Ends d (.ok d')) :
    d'.Valid b ∧ QueuesAct (fun _ => True) d d' := by
  cases pending : d.mcPending with
  | false =>
    cases (Program.ends_while_done pending).unique ends
    exact ⟨valid, .refl d⟩
  | true =>
    have start : d.Valid b ∧ QueuesAct (fun _ => True) d d := ⟨valid, .refl d⟩
    exact (flushMcQueues_ensures (preserved_acts d) (fun acting => acting) start
      (fun clear => by simp [pending] at clear) d' ends).1

/-- Calls of `dispatch_mc` and rounds of `flush_mc_queues`, in any sequence, act on each
queue by enqueues and drains only. -/
theorem Session.acts {calls : List (Nat × π)} (session : Session b d calls e) (valid : d.Valid b) :
    e.Valid b ∧ QueuesAct (fun _ => True) d e := by
  induction session with
  | start => exact ⟨valid, .refl d⟩
  | dispatch _ hc called ih =>
    obtain ⟨_, keeps⟩ := queueMc_net (c := 0) hc ih.1 called
    exact ⟨keeps.valid ih.1, ih.2.trans (queueMc_acts called).weaken⟩
  | flush _ ends ih =>
    obtain ⟨kept, acts⟩ := flush_acts ih.1 ends
    exact ⟨kept, ih.2.trans acts⟩
  | turn _ turn ih =>
    cases turn with
    | clear => exact ih
    | route hc some routed => exact (preserved_acts d).fire ih hc some routed
    | send hc low high some sent => exact (preserved_acts d).send ih hc low high some sent

/-- Each queue of the dispatcher is at any time where its own history leads to. -/
theorem Session.history {calls : List (Nat × π)} {cells : Int → π} (session : Session b d calls e)
    (valid : d.Valid b) (start : d.mcQueue c i = .empty cells) :
    ∃ t, Lib.Machine.Run QueueHistory.step (fun _ _ => True) (.initial cells) t ∧
      t.queue = e.mcQueue c i ∧ t.Fifo := by
  have acts := (session.acts valid).2 c i
  rw [start] at acts
  obtain ⟨t, run, same⟩ := acts.history (s := .initial cells)
  exact ⟨t, run, same, (QueueHistory.counted_of_run run).fifo⟩

end Queues
end Dispatcher
end SpinEmu
