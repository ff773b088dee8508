import SpinEmu.Lib.Chain
import SpinEmu.Lib.Program
import SpinEmu.CoreStarts
import Mathlib.Data.List.DropRight

/-! The SDP queues as the lists of message nodes that they are in memory: the three
routines that enqueue and the flush that sends the nodes and frees them. -/
namespace SpinEmu
open Lib Lib.Heap Lib.Program

/-- `sdp_msg_t` without its link. -/
structure SdpBlock where
  checksum : BitVec 16
  msg : SdpMsg

/-- A node that is not allocated is used. -/
inductive MemoryFault where
  | dangling
  deriving DecidableEq, Repr

/-- The heads and tails, by chip and core, and what has been sent on each socket: whole
nodes, with their links. `msg` is the variable of the flush. -/
structure SdpLists where
  heap : Heap SdpBlock
  sdpQueue : Nat × Nat → Pointer
  sdpQueueTail : Nat × Nat → Pointer
  msg : Pointer
  sent : Nat × Nat → List (Node SdpBlock)

namespace SdpLists

/-- All heads and tails are `NULL`. -/
def initial (heap : Heap SdpBlock) : SdpLists where
  heap := heap
  sdpQueue _ := none
  sdpQueueTail _ := none
  msg := none
  sent _ := []

/-- The end of all three routines: `msg` becomes the last node of queue `v`. -/
def link (msg : Nat) (v : Nat × Nat) (s : SdpLists) : Option SdpLists := do
  let heap ← setNext s.heap msg none
  if s.sdpQueueTail v = none then
    return { s with
      heap
      sdpQueueTail := Function.update s.sdpQueueTail v (some msg)
      sdpQueue := Function.update s.sdpQueue v (some msg) }
  else
    let tail ← s.sdpQueueTail v
    let heap ← setNext heap tail (some msg)
    return { s with heap, sdpQueueTail := Function.update s.sdpQueueTail v (some msg) }

/-- `sdp_queue[id][c]` is in the arrays. -/
def cell (b : Board) (id : Int) (c : Nat) : Option (Nat × Nat) :=
  if 0 ≤ id ∧ id < b.numChips ∧ c < numCpus then some (id.toNat, c) else none

/-- The queue that a message is addressed to. -/
def address (b : Board) (msg : SdpMsg) : Option (Nat × Nat) := do
  let x := msg.destAddr >>> 8
  let y := msg.destAddr &&& 0xff
  let c := (msg.destPort &&& 0x1f).toNat
  let id ← chipId b x.toNat y.toNat
  cell b id c

def queueSdp (b : Board) (msg : Nat) (s : SdpLists) : Option SdpLists := do
  let node ← s.heap msg
  let v ← address b node.val.msg
  s.link msg v

def queueSdpXy (b : Board) (msg : Nat) (id : Int) (c : Nat) (s : SdpLists) : Option SdpLists := do
  let v ← cell b id c
  s.link msg v

/-- `dispatch_sdp_one`. A message for the Ethernet is sent there and freed. -/
def dispatchSdpOne (b : Board) (msg : Nat) (s : SdpLists) : Option SdpLists := do
  let node ← s.heap msg
  if node.val.msg.destPort = portEth then
    return { s with heap := Function.update s.heap msg none }
  else
    let v ← address b node.val.msg
    s.link msg v

/-- The body of the loop over a queue: the node is sent, then freed. -/
def sendNext (v : Nat × Nat) (s : SdpLists) : Result MemoryFault SdpLists :=
  match s.msg with
  | none => .error .dangling
  | some prev => match s.heap prev with
    | none => .error .dangling
    | some node => .ok { s with
        sent := Function.update s.sent v (s.sent v ++ [node])
        msg := node.next
        heap := Function.update s.heap prev none }

def flushQueue (v : Nat × Nat) : Program MemoryFault SdpLists :=
  seq (act fun s => .ok { s with msg := s.sdpQueue v })
    (seq (whileDo (fun s => s.msg.isSome) (act (sendNext v)))
      (act fun s => .ok { s with
        sdpQueue := Function.update s.sdpQueue v none
        sdpQueueTail := Function.update s.sdpQueueTail v none }))

def flushSdpQueues (b : Board) : Program MemoryFault SdpLists :=
  forRange b.numChips fun c => forRange numCpus fun i => flushQueue (c, i)

/-- The routines that enqueue. -/
inductive Enqueue where
  | queueSdp
  | queueSdpXy (id : Int) (c : Nat)
  | dispatchSdpOne

/-- The queue that a routine is to put a message into, if it exists. -/
def Enqueue.target (b : Board) (msg : SdpMsg) : Enqueue → Option (Nat × Nat)
  | queueSdp => address b msg
  | queueSdpXy id c => cell b id c
  | dispatchSdpOne => address b msg

def enqueue (b : Board) (msg : Nat) (s : SdpLists) : Enqueue → Option SdpLists
  | .queueSdp => s.queueSdp b msg
  | .queueSdpXy id c => s.queueSdpXy b msg id c
  | .dispatchSdpOne => s.dispatchSdpOne b msg

section Enqueue
variable {b : Board} {s : SdpLists} {l : Nat × Nat → List Nat} {v : Nat × Nat} {a : Nat}
  {node : Node SdpBlock}

/-- A core's queue is never addressed by the port of the Ethernet. -/
theorem address_port {msg : SdpMsg} (found : address b msg = some v) : msg.destPort ≠ portEth := by
  intro port
  have core : ¬ (portEth &&& 0x1f).toNat < numCpus := by decide
  rw [address, port] at found
  obtain ⟨id, _, found⟩ := Option.bind_eq_some_iff.mp found
  rw [cell, if_neg fun inside => core inside.2.2] at found
  cases found

theorem cell_inside {id : Int} {c : Nat} (found : cell b id c = some v) :
    v.1 < b.numChips ∧ v.2 < numCpus := by
  unfold cell at found
  split at found
  · rename_i inside
    cases found
    exact ⟨by omega, inside.2.2⟩
  · cases found

theorem target_inside {msg : SdpMsg} {how : Enqueue} (found : how.target b msg = some v) :
    v.1 < b.numChips ∧ v.2 < numCpus := by
  have addressed (found : address b msg = some v) : v.1 < b.numChips ∧ v.2 < numCpus := by
    obtain ⟨id, _, found⟩ := Option.bind_eq_some_iff.mp found
    exact cell_inside found
  cases how with
  | queueSdp => exact addressed found
  | queueSdpXy id c => exact cell_inside found
  | dispatchSdpOne => exact addressed found

/-- With an allocated node, each routine comes down to the linking at its target. -/
theorem enqueue_eq_link {how : Enqueue} (allocated : s.heap a = some node)
    (found : how.target b node.val.msg = some v) : s.enqueue b a how = s.link a v := by
  cases how with
  | queueSdp =>
    have found : address b node.val.msg = some v := found
    simp only [enqueue, queueSdp, allocated, found, Option.bind_eq_bind, Option.bind_some]
  | queueSdpXy id c =>
    have found : cell b id c = some v := found
    simp only [enqueue, queueSdpXy, found, Option.bind_eq_bind, Option.bind_some]
  | dispatchSdpOne =>
    have found : address b node.val.msg = some v := found
    simp only [enqueue, dispatchSdpOne, allocated, found, address_port found, if_false,
      Option.bind_eq_bind, Option.bind_some]

/-- The new node of a message, as the caller hands it over. -/
def alloc (a : Nat) (node : Node SdpBlock) (s : SdpLists) : SdpLists :=
  { s with heap := Function.update s.heap a (some node) }

/-- Linking puts a new node at the end of one queue and touches no other. -/
theorem link_spec (queues : Queues s.heap s.sdpQueue s.sdpQueueTail l) (fresh : s.heap a = none)
    (node : Node SdpBlock) (v : Nat × Nat) :
    ∃ t, (s.alloc a node).link a v = some t ∧
      Queues t.heap t.sdpQueue t.sdpQueueTail (pushed l v a) ∧
      Appended s.heap t.heap l v a node.val ∧ t.sent = s.sent := by
  have unused := queues.unused fresh
  obtain ⟨queues, held⟩ := queues.alloc fresh ⟨none, node.val⟩
  have cut : setNext (s.alloc a node).heap a none =
      some (Function.update s.heap a (some ⟨none, node.val⟩)) := by
    simp [setNext, alloc]
  have new : Function.update s.heap a (some ⟨none, node.val⟩) a = some ⟨none, node.val⟩ :=
    Function.update_self ..
  have grown {heap' : Heap SdpBlock}
      (appended : Appended (Function.update s.heap a (some ⟨none, node.val⟩)) heap' l v a
        node.val) : Appended s.heap heap' l v a node.val := by
    intro k
    rw [appended k, held]
  by_cases empty : s.sdpQueueTail v = none
  · obtain ⟨queues, appended⟩ := queues.push_first empty new unused
    have empty' : (s.alloc a node).sdpQueueTail v = none := empty
    refine ⟨{ s with
      heap := Function.update s.heap a (some ⟨none, node.val⟩)
      sdpQueueTail := Function.update s.sdpQueueTail v (some a)
      sdpQueue := Function.update s.sdpQueue v (some a) }, ?_, queues, grown appended, rfl⟩
    rw [link, cut, Option.bind_eq_bind, Option.bind_some, if_pos empty']
    rfl
  · obtain ⟨tail, last⟩ := Option.ne_none_iff_exists'.mp empty
    obtain ⟨heap', linked, queues, appended, _⟩ := queues.push_behind last new unused
    have empty' : ¬ (s.alloc a node).sdpQueueTail v = none := empty
    have last' : (s.alloc a node).sdpQueueTail v = some tail := last
    refine ⟨{ s with heap := heap', sdpQueueTail := Function.update s.sdpQueueTail v (some a) }, ?_,
      queues, grown appended, rfl⟩
    rw [link, cut, Option.bind_eq_bind, Option.bind_some, if_neg empty', last', Option.bind_eq_bind,
      Option.bind_some, linked]
    rfl

end Enqueue

section Flush
variable {b : Board} {s : SdpLists} {l : Nat × Nat → List Nat} {v : Nat × Nat}

/-- The loop sends the nodes from `msg` on in their order and frees exactly these. -/
theorem drain_achieves {nodes : List Nat} (chain : Chain s.heap s.msg nodes)
    (distinct : nodes.Nodup) :
    (whileDo (fun s => s.msg.isSome) (act (sendNext v))).Achieves s fun t =>
      t.sdpQueue = s.sdpQueue ∧ t.sdpQueueTail = s.sdpQueueTail ∧
        (∀ a ∉ nodes, t.heap a = s.heap a) ∧
        ∃ out, t.sent = Function.update s.sent v (s.sent v ++ out) ∧
          out.map Node.val = values s.heap nodes := by
  induction nodes generalizing s with
  | nil =>
    have done : s.msg.isSome = false := by rw [show s.msg = none from chain]; rfl
    exact ⟨s, ends_while_done done, rfl, rfl, fun _ _ => rfl, [], by simp, rfl⟩
  | cons a nodes ih =>
    obtain ⟨here, node, found, rest⟩ := chain
    obtain ⟨new, distinct⟩ := List.nodup_cons.mp distinct
    let u : SdpLists := { s with
      sent := Function.update s.sent v (s.sent v ++ [node])
      msg := node.next
      heap := Function.update s.heap a none }
    have first : (act (sendNext v)).Ends s (.ok u) := by
      have result : sendNext v s = .ok u := by
        rw [sendNext, here]
        simp only [found]
        rfl
      exact result ▸ ends_act
    have same : ∀ b ∈ nodes, u.heap b = s.heap b := by
      intro b member
      refine Function.update_of_ne ?_ _ _
      rintro rfl
      exact new member
    obtain ⟨t, ends, heads, tails, kept, out, sent, vals⟩ :=
      ih (s := u) (rest.congr same) distinct
    refine ⟨t, ends_while_next (by rw [here]; rfl) first ends, heads, tails, fun b other => ?_,
      node :: out, ?_, ?_⟩
    · rw [List.mem_cons, not_or] at other
      rw [kept b other.2]
      exact Function.update_of_ne other.1 _ _
    · rw [sent]
      simp [u]
    · rw [List.map_cons, vals, values_congr same]
      simp [values, found]

/-- The state `t` of a flush that began at `s`, with the queues of `done` sent. -/
structure Flushed (done : Nat × Nat → Prop) (s t : SdpLists) (l l' : Nat × Nat → List Nat) :
    Prop where
  queues : Queues t.heap t.sdpQueue t.sdpQueueTail l'
  sent : ∀ v, done v → l' v = [] ∧
    (t.sent v).map Node.val = (s.sent v).map Node.val ++ values s.heap (l v)
  waiting : ∀ v, ¬ done v → l' v = l v ∧ t.sent v = s.sent v ∧
    values t.heap (l v) = values s.heap (l v)

theorem flushQueue_achieves {done : Nat × Nat → Prop} {t : SdpLists} {l' : Nat × Nat → List Nat}
    (before : Flushed done s t l l') (todo : ¬ done v) :
    (flushQueue v).Achieves t fun u => ∃ l'', Flushed (fun w => done w ∨ w = v) s u l l'' := by
  obtain ⟨lists, unsent, held⟩ := before.waiting v todo
  apply achieves_seq
  refine achieves_act rfl ?_
  apply achieves_seq
  refine (drain_achieves (s := { t with msg := t.sdpQueue v }) (before.queues.chain v)
    (before.queues.nodup v)).mono ?_
  rintro u ⟨heads, tails, kept, out, sent, vals⟩
  refine achieves_act rfl ⟨Function.update l' v [], ?_, ?_, ?_⟩
  · simp only [heads, tails]
    refine before.queues.clear fun k other a member => kept a ?_
    exact before.queues.apart k v other member
  · intro w finished
    simp only [sent]
    by_cases here : w = v
    · subst here
      rw [Function.update_self, Function.update_self, List.map_append, vals, unsent]
      exact ⟨rfl, by rw [lists, held]⟩
    · rw [Function.update_of_ne here, Function.update_of_ne here]
      exact before.sent w (finished.resolve_right here)
  · intro w waiting
    obtain ⟨todo, other⟩ := not_or.mp waiting
    obtain ⟨lists', unsent', held'⟩ := before.waiting w todo
    simp only [sent]
    rw [Function.update_of_ne other, Function.update_of_ne other]
    refine ⟨lists', unsent', (values_congr fun a member => kept a ?_).trans held'⟩
    rw [← lists'] at member
    exact before.queues.apart w v other member

theorem Flushed.congr {done done' : Nat × Nat → Prop} {t : SdpLists} {l' : Nat × Nat → List Nat}
    (flushed : Flushed done s t l l') (same : ∀ v, done v ↔ done' v) : Flushed done' s t l l' :=
  ⟨flushed.queues, fun v finished => flushed.sent v ((same v).mpr finished),
    fun v waiting => flushed.waiting v fun finished => waiting ((same v).mp finished)⟩

/-- The flush ends, with all queues of the board sent and empty. -/
theorem flushSdpQueues_achieves (queues : Queues s.heap s.sdpQueue s.sdpQueueTail l) :
    (flushSdpQueues b).Achieves s fun t =>
      ∃ l', Flushed (fun v => v.2 < numCpus ∧ v.1 < b.numChips) s t l l' := by
  refine achieves_forRange
    (fun c t => ∃ l', Flushed (fun v => v.2 < numCpus ∧ v.1 < c) s t l l') ?_
    ⟨l, queues, fun v none => absurd none.2 (Nat.not_lt_zero _), fun v _ => ⟨rfl, rfl, rfl⟩⟩
  rintro c hc t ⟨l', flushed⟩
  have row : (forRange numCpus fun i => flushQueue (c, i)).Achieves t fun t => ∃ l', Flushed
      (fun v => v.2 < numCpus ∧ (v.1 < c ∨ v.1 = c ∧ v.2 < numCpus)) s t l l' := by
    refine achieves_forRange
      (fun i t => ∃ l', Flushed (fun v => v.2 < numCpus ∧ (v.1 < c ∨ v.1 = c ∧ v.2 < i)) s t l l')
      ?_ ⟨l', flushed.congr fun v => by simp⟩
    rintro i hi t ⟨l', flushed⟩
    refine (flushQueue_achieves flushed (v := (c, i)) (by simp)).mono ?_
    rintro u ⟨l'', flushed⟩
    refine ⟨l'', flushed.congr fun v => ?_⟩
    rw [Prod.ext_iff]
    simp only
    omega
  refine row.mono ?_
  rintro u ⟨l'', flushed⟩
  exact ⟨l'', flushed.congr fun v => by omega⟩

end Flush

/-- The lists in memory are the queues of the dispatcher. -/
structure Represents (b : Board) (s : SdpLists) (l : Nat × Nat → List Nat) (d : SdpDispatcher) :
    Prop where
  board : d.board = b
  lists : Queues s.heap s.sdpQueue s.sdpQueueTail l
  queue : ∀ id c, (values s.heap (l (id, c))).map SdpBlock.msg = d.sdpQueue id c

section Refinement
variable {b : Board} {s : SdpLists} {l : Nat × Nat → List Nat} {d : SdpDispatcher} {v : Nat × Nat}

theorem queueSdp_of_address {msg : SdpMsg} (board : d.board = b) (found : address b msg = some v) :
    d.queueSdp msg = some (d.queueSdpXy msg v.1 v.2) := by
  obtain ⟨id, chip, found⟩ := Option.bind_eq_some_iff.mp found
  unfold cell at found
  split at found
  · rename_i inside
    cases found
    simp only [SdpDispatcher.queueSdp, board, chip, Option.bind_eq_bind, Option.bind_some,
      inside.2.2, if_true]
  · cases found

/-- Linking a new node refines queueing its message. -/
theorem Represents.link {a : Nat} (same : Represents b s l d) (fresh : s.heap a = none)
    (node : Node SdpBlock) (v : Nat × Nat) :
    ∃ t, (s.alloc a node).link a v = some t ∧
      Represents b t (pushed l v a) (d.queueSdpXy node.val.msg v.1 v.2) := by
  obtain ⟨t, result, queues, appended, _⟩ := link_spec same.lists fresh node v
  refine ⟨t, result, same.board, queues, fun id c => ?_⟩
  rw [appended, SdpDispatcher.queueSdpXy_queue, ← same.queue]
  split
  · exact List.map_append
  · rfl

/-- Flushing the list of a core refines flushing its queue. -/
theorem Represents.flushQueue (same : Represents b s l d) (v : Nat × Nat) :
    (flushQueue v).Achieves s fun t =>
      (∃ l', Represents b t l' (d.flushSdpQueue v.1 v.2).2) ∧
        (t.sent v).map (·.val.msg) = (s.sent v).map (·.val.msg) ++ (d.flushSdpQueue v.1 v.2).1 := by
  have start : Flushed (fun _ => False) s s l l :=
    ⟨same.lists, fun _ none => none.elim, fun _ _ => ⟨rfl, rfl, rfl⟩⟩
  refine (flushQueue_achieves start (v := v) not_false).mono ?_
  rintro t ⟨l', flushed⟩
  obtain ⟨empty, sent⟩ := flushed.sent v (.inr rfl)
  refine ⟨⟨l', same.board, flushed.queues, fun id c => ?_⟩, ?_⟩
  · by_cases here : (id, c) = v
    · subst here
      simp [empty, values, SdpDispatcher.flushSdpQueue]
    · obtain ⟨lists, _, held⟩ := flushed.waiting (id, c) fun gone =>
        here (gone.resolve_left not_false)
      rw [lists, held, same.queue]
      exact ((update_table d.sdpQueue v.1 v.2 [] id c).trans (if_neg here)).symm
  · have values := congrArg (List.map SdpBlock.msg) sent
    rw [List.map_append, List.map_map, List.map_map, same.queue] at values
    exact values

end Refinement

/-- A step of the dispatcher on its SDP queues, with what a new message is allocated
as. -/
inductive Action where
  | enqueue (how : Enqueue) (msg : Nat) (node : Node SdpBlock)
  | flush

/-- Messages are freshly allocated and go to queues that exist. -/
inductive Step (b : Board) : SdpLists → Action → SdpLists → Prop where
  | enqueue {s t how msg node v} : s.heap msg = none → how.target b node.val.msg = some v →
      (s.alloc msg node).enqueue b msg how = some t → Step b s (.enqueue how msg node) t
  | flush {s t} : (flushSdpQueues b).Ends s (.ok t) → Step b s .flush t

/-- A run from `s` through the given actions. -/
inductive Runs (b : Board) (s : SdpLists) : List Action → SdpLists → Prop where
  | nil : Runs b s [] s
  | snoc {as a t u} : Runs b s as t → Step b t a u → Runs b s (as ++ [a]) u

/-- What an action enqueues for core `v`. -/
def Action.message (b : Board) (v : Nat × Nat) : Action → Option SdpBlock
  | enqueue how _ node => if how.target b node.val.msg = some v then some node.val else none
  | flush => none

def Action.isEnqueue : Action → Bool
  | enqueue _ _ _ => true
  | flush => false

/-- The messages enqueued for core `v`, in order. -/
def enqueued (b : Board) (as : List Action) (v : Nat × Nat) : List SdpBlock :=
  as.filterMap (Action.message b v)

/-- The actions up to the last flush. -/
def upToFlush (as : List Action) : List Action := as.rdropWhile Action.isEnqueue

/-- What holds after the actions: each queue of the board holds what has been enqueued
for it and not sent yet. -/
structure Faithful (b : Board) (as : List Action) (s : SdpLists) (l : Nat × Nat → List Nat) :
    Prop where
  queues : Queues s.heap s.sdpQueue s.sdpQueueTail l
  history : ∀ v, v.1 < b.numChips ∧ v.2 < numCpus →
    (s.sent v).map Node.val ++ values s.heap (l v) = enqueued b as v
  sent : ∀ v, v.1 < b.numChips ∧ v.2 < numCpus →
    (s.sent v).map Node.val = enqueued b (upToFlush as) v

section Runs
variable {b : Board} {s t : SdpLists} {as : List Action} {l : Nat × Nat → List Nat}
  {v : Nat × Nat} {a : Nat} {node : Node SdpBlock} {how : Enqueue}

theorem enqueue_spec (queues : Queues s.heap s.sdpQueue s.sdpQueueTail l) (fresh : s.heap a = none)
    (target : how.target b node.val.msg = some v) :
    ∃ t, (s.alloc a node).enqueue b a how = some t ∧
      Queues t.heap t.sdpQueue t.sdpQueueTail (pushed l v a) ∧
      Appended s.heap t.heap l v a node.val ∧ t.sent = s.sent := by
  have allocated : (s.alloc a node).heap a = some node := Function.update_self ..
  rw [enqueue_eq_link allocated target]
  exact link_spec queues fresh node v

theorem enqueued_snoc (as : List Action) (a : Action) (v : Nat × Nat) :
    enqueued b (as ++ [a]) v = enqueued b as v ++ (a.message b v).toList := by
  rw [enqueued, List.filterMap_append, enqueued]
  cases found : a.message b v <;> simp [found]

theorem Faithful.enqueue (before : Faithful b as s l) (fresh : s.heap a = none)
    (target : how.target b node.val.msg = some v)
    (result : (s.alloc a node).enqueue b a how = some t) :
    Faithful b (as ++ [.enqueue how a node]) t (pushed l v a) := by
  obtain ⟨t', same, queues, appended, sent⟩ := enqueue_spec before.queues fresh target
  rw [result] at same
  cases same
  refine ⟨queues, fun w inside => ?_, fun w inside => ?_⟩
  · rw [appended w, sent, enqueued_snoc, Action.message, target]
    by_cases here : w = v
    · subst here
      rw [if_pos rfl, if_pos rfl, ← before.history w inside, List.append_assoc]
      rfl
    · have other : ¬ some v = some w := fun same => here (Option.some.inj same).symm
      rw [if_neg here, if_neg other, before.history w inside]
      simp
  · rw [sent, before.sent w inside, upToFlush, upToFlush, List.rdropWhile_concat_pos _ _ _ rfl]

theorem Faithful.flush (before : Faithful b as s l) (ends : (flushSdpQueues b).Ends s (.ok t)) :
    ∃ l', Faithful b (as ++ [.flush]) t l' ∧ ∀ v, v.1 < b.numChips ∧ v.2 < numCpus → l' v = [] := by
  obtain ⟨t', ends', l', flushed⟩ := flushSdpQueues_achieves (b := b) before.queues
  cases ends.unique ends'
  have all (v : Nat × Nat) (inside : v.1 < b.numChips ∧ v.2 < numCpus) :
      l' v = [] ∧ (t.sent v).map Node.val = enqueued b (as ++ [.flush]) v := by
    obtain ⟨empty, sent⟩ := flushed.sent v ⟨inside.2, inside.1⟩
    rw [sent, before.history v inside, enqueued_snoc]
    exact ⟨empty, (List.append_nil _).symm⟩
  refine ⟨l', ⟨flushed.queues, fun v inside => ?_, fun v inside => ?_⟩,
    fun v inside => (all v inside).1⟩
  · rw [(all v inside).1, (all v inside).2]
    exact List.append_nil _
  · rw [(all v inside).2, upToFlush, List.rdropWhile_concat_neg _ _ _ (by simp [Action.isEnqueue])]

theorem Faithful.exists_enqueue (before : Faithful b as s l) (fresh : s.heap a = none)
    (target : how.target b node.val.msg = some v) : ∃ t, Step b s (.enqueue how a node) t := by
  obtain ⟨t, result, _⟩ := enqueue_spec before.queues fresh target
  exact ⟨t, .enqueue fresh target result⟩

theorem Faithful.exists_flush (b : Board) (before : Faithful b as s l) : ∃ t, Step b s .flush t := by
  obtain ⟨t, ends, _⟩ := flushSdpQueues_achieves (b := b) before.queues
  exact ⟨t, .flush ends⟩

theorem Runs.faithful {heap : Heap SdpBlock} (run : Runs b (initial heap) as s) :
    ∃ l, Faithful b as s l := by
  induction run with
  | nil => exact ⟨fun _ => [], queues_empty heap, fun _ _ => rfl, fun _ _ => rfl⟩
  | snoc _ step ih =>
    obtain ⟨l, before⟩ := ih
    cases step with
    | enqueue fresh target result => exact ⟨_, before.enqueue fresh target result⟩
    | flush ends =>
      obtain ⟨l', after, _⟩ := before.flush ends
      exact ⟨l', after⟩

end Runs

/-- A message for core 1 of chip 0. -/
def toCoreOne : SdpBlock := ⟨0, { SdpMsg.cleared with destPort := 1 }⟩

end SdpLists
end SpinEmu
