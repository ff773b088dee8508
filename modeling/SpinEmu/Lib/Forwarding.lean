import SpinEmu.Lib.Tally
import Mathlib.Logic.Relation

/-! Store-and-forward networks: nodes with first-in first-out queues that may be
bounded, and a routing that sends copies of a packet to further nodes and to local
exits. Every accounting argument is an instance of one balance law. -/
namespace Lib.Forwarding
variable {V P C : Type}

/-- What happens to one copy of a packet. -/
inductive Event (V P C : Type) where
  | queued (v : V) (p : P)
  | full (v : V) (p : P)
  | sent (v : V) (exit : C) (p : P)
  deriving DecidableEq

def Event.isFull : Event V P C → Bool
  | .full _ _ => true
  | _ => false

def Event.packet : Event V P C → P
  | .queued _ p => p
  | .full _ p => p
  | .sent _ _ p => p

def Event.map {Q : Type} (f : P → Q) : Event V P C → Event V Q C
  | .queued v p => .queued v (f p)
  | .full v p => .full v (f p)
  | .sent v c p => .sent v c (f p)

structure Routing (V P C : Type) where
  next : V → P → List V
  exits : V → P → List C
  full : V → Nat → Bool

@[ext] structure Net (V P C : Type) where
  queue : V → List P
  log : List (Event V P C)

variable [DecidableEq V]

def Net.enqueue (full : V → Nat → Bool) (p : P) (n : Net V P C) (v : V) : Net V P C :=
  if full v (n.queue v).length then { n with log := n.log ++ [.full v p] }
  else { queue := Function.update n.queue v (n.queue v ++ [p]), log := n.log ++ [.queued v p] }

def Net.send (n : Net V P C) (v : V) (p : P) (exits : List C) : Net V P C :=
  { n with log := n.log ++ exits.map (.sent v · p) }

def Net.pop (n : Net V P C) (v : V) : Net V P C :=
  { n with queue := Function.update n.queue v (n.queue v).tail }

/-- Node `v` routes packet `p`: one copy for each target and each exit. -/
def Net.route (R : Routing V P C) (v : V) (p : P) (n : Net V P C) : Net V P C :=
  ((R.next v p).foldl (Net.enqueue R.full p) n).send v p (R.exits v p)

/-- One node of `nodes` routes the packet at the head of its queue. -/
inductive Step (R : Routing V P C) (nodes : Finset V) (n : Net V P C) : Net V P C → Prop where
  | fire {v p rest} : v ∈ nodes → n.queue v = p :: rest →
      Step R nodes n ((n.route R v p).pop v)

abbrev Run (R : Routing V P C) (nodes : Finset V) : Net V P C → Net V P C → Prop :=
  Relation.ReflTransGen (Step R nodes)

def Net.NoFull (n : Net V P C) : Prop := ∀ e ∈ n.log, e.isFull = false

/-- What the log has cost so far and what the queued packets weigh. -/
def Net.charge (cost : Event V P C → Nat) (n : Net V P C) : Nat := (n.log.map cost).sum
def Net.load (nodes : Finset V) (w : V → P → Nat) (n : Net V P C) : Nat :=
  ∑ v ∈ nodes, ((n.queue v).map (w v)).sum

/-- A packet weighs `toll` and what its copies cost and weigh. -/
def Balanced (R : Routing V P C) (cost : Event V P C → Nat) (w : V → P → Nat)
    (toll : Nat) (v : V) (p : P) : Prop :=
  w v p = toll + ((R.next v p).map fun t => cost (.queued t p) + w t p).sum +
    ((R.exits v p).map fun c => cost (.sent v c p)).sum

section Enqueue
variable {cost : Event V P C → Nat} {w : V → P → Nat} {nodes : Finset V}

theorem load_update (n : Net V P C) {v : V} (member : v ∈ nodes) (q : List P)
    (log : List (Event V P C)) :
    (Net.mk (Function.update n.queue v q) log).load nodes w +
        ((n.queue v).map (w v)).sum =
      n.load nodes w + (q.map (w v)).sum :=
  Lib.Tally.tally_update (f := Lib.Tally.weigh w) member q

theorem enqueue_log (full : V → Nat → Bool) (p : P) (n : Net V P C) (v : V) :
    ∃ e, (n.enqueue full p v).log = n.log ++ [e] := by
  unfold Net.enqueue
  split
  · exact ⟨_, rfl⟩
  · exact ⟨_, rfl⟩

theorem enqueue_queue (full : V → Nat → Bool) (p : P) (n : Net V P C) (t v : V) :
    ∃ extra, (n.enqueue full p t).queue v = n.queue v ++ extra ∧ ∀ q ∈ extra, t = v ∧ q = p := by
  unfold Net.enqueue
  split
  · exact ⟨[], by simp, nofun⟩
  · by_cases same : v = t
    · subst same
      exact ⟨[p], by simp, by simp⟩
    · exact ⟨[], by simp [Function.update_of_ne same], nofun⟩

/-- A copy that finds its queue full is lost; any other copy is accounted for. -/
theorem enqueue_balance (free : ∀ v p, cost (.full v p) = 0) (full : V → Nat → Bool) (p : P)
    (n : Net V P C) {t : V} (member : t ∈ nodes) :
    (n.enqueue full p t).charge cost + (n.enqueue full p t).load nodes w ≤
        n.charge cost + n.load nodes w + (cost (.queued t p) + w t p) ∧
    ((n.enqueue full p t).NoFull →
      (n.enqueue full p t).charge cost + (n.enqueue full p t).load nodes w =
        n.charge cost + n.load nodes w + (cost (.queued t p) + w t p)) := by
  unfold Net.enqueue
  split
  · refine ⟨by simp [Net.charge, Net.load, free], fun none => ?_⟩
    have := none (.full t p) (by simp)
    cases this
  · have balance := load_update (w := w) n member (n.queue t ++ [p])
      (n.log ++ [Event.queued (C := C) t p])
    simp only [List.map_append, List.map_cons, List.map_nil, List.sum_append, List.sum_cons,
      List.sum_nil, Nat.add_zero] at balance
    have total : (Net.mk (Function.update n.queue t (n.queue t ++ [p]))
          (n.log ++ [Event.queued (C := C) t p])).charge cost =
        n.charge cost + cost (.queued t p) := by simp [Net.charge]
    constructor
    · omega
    · intro _
      omega

theorem enqueue_load (full : V → Nat → Bool) (p : P) (n : Net V P C) {t : V} (member : t ∈ nodes) :
    (n.enqueue full p t).load nodes w ≤ n.load nodes w + w t p ∧
    ((n.enqueue full p t).NoFull → (n.enqueue full p t).load nodes w = n.load nodes w + w t p) := by
  let none : Event V P C → Nat := fun _ => 0
  have free : ∀ v p, none (.full v p) = 0 := fun _ _ => rfl
  have silent : ∀ n : Net V P C, n.charge none = 0 := fun n => by simp [Net.charge, none]
  have balance := enqueue_balance (w := w) free full p n member
  simpa only [silent, none, Nat.zero_add] using balance

end Enqueue

section Targets
variable {cost : Event V P C → Nat} {w : V → P → Nat} {nodes : Finset V}

theorem enqueueAll_log (full : V → Nat → Bool) (p : P) (targets : List V) (n : Net V P C) :
    ∃ events, (targets.foldl (Net.enqueue full p) n).log = n.log ++ events := by
  induction targets generalizing n with
  | nil => exact ⟨[], by simp⟩
  | cons t rest ih =>
    obtain ⟨e, first⟩ := enqueue_log full p n t
    obtain ⟨events, later⟩ := ih (n.enqueue full p t)
    exact ⟨e :: events, by rw [List.foldl_cons, later, first, List.append_assoc]; rfl⟩

theorem enqueueAll_queue (full : V → Nat → Bool) (p : P) (targets : List V) (n : Net V P C) (v : V) :
    ∃ extra, (targets.foldl (Net.enqueue full p) n).queue v = n.queue v ++ extra ∧
      ∀ q ∈ extra, v ∈ targets ∧ q = p := by
  induction targets generalizing n with
  | nil => exact ⟨[], by simp, nofun⟩
  | cons t rest ih =>
    obtain ⟨front, first, here⟩ := enqueue_queue full p n t v
    obtain ⟨back, later, there⟩ := ih (n.enqueue full p t)
    refine ⟨front ++ back, by rw [List.foldl_cons, later, first, List.append_assoc], ?_⟩
    intro q hq
    rcases List.mem_append.mp hq with hq | hq
    · exact ⟨(here q hq).1 ▸ List.mem_cons_self, (here q hq).2⟩
    · exact ⟨List.mem_cons_of_mem _ (there q hq).1, (there q hq).2⟩

omit [DecidableEq V] in
theorem NoFull.of_append {n m : Net V P C} {e : List (Event V P C)}
    (later : m.log = n.log ++ e) (none : m.NoFull) : n.NoFull :=
  fun x hx => none x (later ▸ List.mem_append_left _ hx)

theorem enqueueAll_balance (free : ∀ v p, cost (.full v p) = 0) (full : V → Nat → Bool) (p : P)
    {targets : List V} (inside : ∀ t ∈ targets, t ∈ nodes) (n : Net V P C) :
    (targets.foldl (Net.enqueue full p) n).charge cost +
        (targets.foldl (Net.enqueue full p) n).load nodes w ≤
      n.charge cost + n.load nodes w +
        (targets.map fun t => cost (.queued t p) + w t p).sum ∧
    ((targets.foldl (Net.enqueue full p) n).NoFull →
      (targets.foldl (Net.enqueue full p) n).charge cost +
        (targets.foldl (Net.enqueue full p) n).load nodes w =
      n.charge cost + n.load nodes w +
        (targets.map fun t => cost (.queued t p) + w t p).sum) := by
  induction targets generalizing n with
  | nil => simp
  | cons t rest ih =>
    have first := enqueue_balance (w := w) free full p n
      (inside t List.mem_cons_self)
    have later := ih (fun u hu => inside u (List.mem_cons_of_mem _ hu)) (n.enqueue full p t)
    simp only [List.foldl_cons, List.map_cons, List.sum_cons]
    refine ⟨by omega, fun none => ?_⟩
    obtain ⟨events, grown⟩ := enqueueAll_log full p rest (n.enqueue full p t)
    have := first.2 (NoFull.of_append grown none)
    have := later.2 none
    omega

end Targets

section Balance
variable {R : Routing V P C} {cost : Event V P C → Nat} {w : V → P → Nat}
  {nodes : Finset V} {toll : Nat}

theorem route_log (v : V) (p : P) (n : Net V P C) :
    ∃ events, (n.route R v p).log = n.log ++ events := by
  obtain ⟨events, grown⟩ := enqueueAll_log R.full p (R.next v p) n
  exact ⟨events ++ (R.exits v p).map (.sent v · p), by
    rw [Net.route, Net.send, grown, List.append_assoc]⟩

theorem Step.log {n m : Net V P C} (step : Step R nodes n m) :
    ∃ events, m.log = n.log ++ events := by
  cases step with
  | fire => exact route_log _ _ _

theorem Run.log {n m : Net V P C} (run : Run R nodes n m) : ∃ events, m.log = n.log ++ events := by
  induction run with
  | refl => exact ⟨[], by simp⟩
  | tail _ last ih =>
    obtain ⟨front, first⟩ := ih
    obtain ⟨back, later⟩ := last.log
    exact ⟨front ++ back, by rw [later, first, List.append_assoc]⟩

/-- The balance law of one firing: the routed packet's weight pays the toll and
its copies; a full queue can only lose weight. -/
theorem fire_balance (free : ∀ v p, cost (.full v p) = 0) {n : Net V P C} {v : V} {p : P}
    {rest : List P} (member : v ∈ nodes) (head : n.queue v = p :: rest)
    (inside : ∀ t ∈ R.next v p, t ∈ nodes) (balanced : Balanced R cost w toll v p) :
    ((n.route R v p).pop v).charge cost + ((n.route R v p).pop v).load nodes w + toll ≤
        n.charge cost + n.load nodes w ∧
    (((n.route R v p).pop v).NoFull →
      ((n.route R v p).pop v).charge cost + ((n.route R v p).pop v).load nodes w + toll =
        n.charge cost + n.load nodes w) := by
  have copies := enqueueAll_balance (w := w) free R.full p inside n
  obtain ⟨extra, kept, _⟩ := enqueueAll_queue R.full p (R.next v p) n v
  have popped := load_update (w := w) (n.route R v p) member
    ((n.route R v p).queue v).tail (n.route R v p).log
  have queueEq : (n.route R v p).queue v = p :: (rest ++ extra) := by
    rw [Net.route, Net.send, kept, head, List.cons_append]
  have chargeEq : (n.route R v p).charge cost =
      ((R.next v p).foldl (Net.enqueue R.full p) n).charge cost +
        ((R.exits v p).map fun c => cost (.sent v c p)).sum := by
    simp only [Net.route, Net.send, Net.charge, List.map_append, List.sum_append, List.map_map,
      Function.comp_def]
  have loadEq : (n.route R v p).load nodes w =
      ((R.next v p).foldl (Net.enqueue R.full p) n).load nodes w := rfl
  have popCharge : ((n.route R v p).pop v).charge cost = (n.route R v p).charge cost := rfl
  rw [queueEq] at popped
  simp only [List.tail_cons, List.map_cons, List.sum_cons] at popped
  have popLoad : ((n.route R v p).pop v).load nodes w + w v p =
      (n.route R v p).load nodes w := by
    simp only [Net.pop, queueEq, List.tail_cons]
    omega
  unfold Balanced at balanced
  refine ⟨by omega, fun none => ?_⟩
  have := copies.2 (NoFull.of_append (e := (R.exits v p).map (.sent v · p)) rfl none)
  omega

/-- Packets of which `ok` holds stay on `ok` nodes. -/
structure Closed (R : Routing V P C) (nodes : Finset V) (ok : V → P → Prop) : Prop where
  next : ∀ {v p t}, ok v p → t ∈ R.next v p → ok t p
  inside : ∀ {v p t}, ok v p → t ∈ R.next v p → t ∈ nodes

def Queued (ok : V → P → Prop) (n : Net V P C) : Prop := ∀ v, ∀ p ∈ n.queue v, ok v p

variable {ok : V → P → Prop}

theorem Step.queued (closed : Closed R nodes ok) {n m : Net V P C} (step : Step R nodes n m)
    (all : Queued ok n) : Queued ok m := by
  cases step with
  | @fire v p rest member head =>
    have here : ok v p := all v p (head ▸ List.mem_cons_self)
    intro u q hq
    obtain ⟨extra, kept, copies⟩ := enqueueAll_queue R.full p (R.next v p) n u
    have grown : q ∈ (n.route R v p).queue u := by
      by_cases same : u = v
      · subst same
        simp only [Net.pop, Function.update_self] at hq
        exact List.mem_of_mem_tail hq
      · simpa only [Net.pop, Function.update_of_ne same] using hq
    rw [Net.route, Net.send, kept] at grown
    rcases List.mem_append.mp grown with old | new
    · exact all u q old
    · obtain ⟨target, rfl⟩ := copies q new
      exact closed.next here target

theorem Run.queued (closed : Closed R nodes ok) {n m : Net V P C} (run : Run R nodes n m)
    (all : Queued ok n) : Queued ok m := by
  induction run with
  | refl => exact all
  | tail _ last ih => exact last.queued closed ih

theorem enqueue_packet (full : V → Nat → Bool) (p : P) (n : Net V P C) (t : V) :
    ∀ e ∈ (n.enqueue full p t).log, e ∈ n.log ∨ e.packet = p := by
  intro e he
  unfold Net.enqueue at he
  split at he
  · rcases List.mem_append.mp he with old | new
    · exact .inl old
    · rw [List.mem_singleton.mp new]
      exact .inr rfl
  · rcases List.mem_append.mp he with old | new
    · exact .inl old
    · rw [List.mem_singleton.mp new]
      exact .inr rfl

theorem route_packet (v : V) (p : P) (n : Net V P C) :
    ∀ e ∈ (n.route R v p).log, e ∈ n.log ∨ e.packet = p := by
  have copies : ∀ (targets : List V) (n : Net V P C),
      ∀ e ∈ (targets.foldl (Net.enqueue R.full p) n).log, e ∈ n.log ∨ e.packet = p := by
    intro targets
    induction targets with
    | nil => exact fun n e he => .inl he
    | cons t rest ih =>
      intro n e he
      rcases ih (n.enqueue R.full p t) e he with old | new
      · exact enqueue_packet R.full p n t e old
      · exact .inr new
  intro e he
  rcases List.mem_append.mp he with queued | sent
  · exact copies _ n e queued
  · obtain ⟨c, _, rfl⟩ := List.mem_map.mp sent
    exact .inr rfl

/-- A node sends to its own exits only. -/
theorem route_sent {v u : V} {p q : P} {x : C} {n : Net V P C}
    (sent : .sent u x q ∈ (n.route R v p).log) :
    .sent u x q ∈ n.log ∨ u = v ∧ x ∈ R.exits v p := by
  have copies : ∀ (targets : List V) (n : Net V P C),
      .sent u x q ∈ (targets.foldl (Net.enqueue R.full p) n).log → .sent u x q ∈ n.log := by
    intro targets
    induction targets with
    | nil => exact fun n h => h
    | cons t rest ih =>
      intro n h
      have first := ih (n.enqueue R.full p t) h
      unfold Net.enqueue at first
      split at first <;> simpa using first
  rcases List.mem_append.mp sent with queued | sent
  · exact .inl (copies _ n queued)
  · obtain ⟨y, member, same⟩ := List.mem_map.mp sent
    cases same
    exact .inr ⟨rfl, member⟩

/-- A run logs packets of the queues only. -/
theorem Run.log_queued (closed : Closed R nodes ok) {n m : Net V P C} (run : Run R nodes n m)
    (all : Queued ok n) : ∀ e ∈ m.log, e ∈ n.log ∨ ∃ v, ok v e.packet := by
  induction run with
  | refl => exact fun e he => .inl he
  | @tail m k front last ih =>
    have queued := Run.queued closed front all
    cases last with
    | @fire v p rest member head =>
      intro e he
      rcases route_packet v p m e he with old | new
      · exact ih e old
      · exact .inr ⟨v, new ▸ queued v p (head ▸ List.mem_cons_self)⟩

/-- Without losses the balance is kept along every run; losses only lower it. -/
theorem Run.balance (free : ∀ v p, cost (.full v p) = 0) (closed : Closed R nodes ok)
    (law : ∀ v p, ok v p → Balanced R cost w 0 v p) {n m : Net V P C}
    (run : Run R nodes n m) (all : Queued ok n) :
    m.charge cost + m.load nodes w ≤ n.charge cost + n.load nodes w ∧
    (m.NoFull → m.charge cost + m.load nodes w = n.charge cost + n.load nodes w) := by
  induction run with
  | refl => exact ⟨le_rfl, fun _ => rfl⟩
  | @tail m k front last ih =>
    have queued := Run.queued closed front all
    cases last with
    | @fire v p rest member head =>
      have here : ok v p := queued v p (head ▸ List.mem_cons_self)
      have one := fire_balance free member head (fun t ht => closed.inside here ht) (law v p here)
      refine ⟨by omega, fun none => ?_⟩
      obtain ⟨events, grown⟩ := route_log (R := R) v p m
      have := one.2 none
      have := ih.2 (NoFull.of_append (m := (m.route R v p).pop v) grown none)
      omega

/-- A weight that pays for the routing step itself decreases at every firing. -/
theorem Step.load_lt (closed : Closed R nodes ok)
    (law : ∀ v p, ok v p → Balanced R (fun _ => 0) w 1 v p) {n m : Net V P C}
    (step : Step R nodes n m) (all : Queued ok n) :
    m.load nodes w < n.load nodes w := by
  cases step with
  | @fire v p rest member head =>
    have here : ok v p := all v p (head ▸ List.mem_cons_self)
    have one := (fire_balance (fun _ _ => rfl) member head
      (fun t ht => closed.inside here ht) (law v p here)).1
    have silent : ∀ k : Net V P C, k.charge (fun _ => 0) = 0 := fun k => by simp [Net.charge]
    rw [silent, silent] at one
    omega

theorem enqueueAll_noFull {full : V → Nat → Bool} (p : P) {targets : List V} (n : Net V P C)
    (room : ∀ t ∈ targets, ∀ len < (n.queue t).length + targets.length, full t len = false)
    (clear : n.NoFull) : (targets.foldl (Net.enqueue full p) n).NoFull := by
  induction targets generalizing n with
  | nil => exact clear
  | cons t rest ih =>
    have here : full t (n.queue t).length = false :=
      room t List.mem_cons_self _ (by rw [List.length_cons]; omega)
    have added : n.enqueue full p t =
        { queue := Function.update n.queue t (n.queue t ++ [p]), log := n.log ++ [.queued t p] } :=
      if_neg (by simp [here])
    rw [List.foldl_cons, added]
    apply ih
    · intro u hu len hlen
      apply room u (List.mem_cons_of_mem _ hu)
      rw [List.length_cons]
      by_cases same : u = t
      · subst same
        simp only [Function.update_self, List.length_append, List.length_singleton] at hlen
        omega
      · simp only [Function.update_of_ne same] at hlen
        omega
    · intro e he
      rcases List.mem_append.mp he with old | new
      · exact clear e old
      · rw [List.mem_singleton.mp new]
        rfl

omit [DecidableEq V] in
theorem length_le_load {w : V → P → Nat} {n : Net V P C} {v : V} (member : v ∈ nodes)
    (self : ∀ p ∈ n.queue v, 1 ≤ w v p) : (n.queue v).length ≤ n.load nodes w := by
  have each : (n.queue v).length ≤ ((n.queue v).map (w v)).sum := by
    have := List.length_le_sum_of_one_le ((n.queue v).map (w v)) (by simpa using self)
    simpa using this
  refine each.trans ?_
  exact Finset.single_le_sum (f := fun v => ((n.queue v).map (w v)).sum) (fun _ _ => Nat.zero_le _)
    member

/-- A run finds no queue full when the copies that can still come to a queue fit
in, with as many to spare as one packet has targets. -/
theorem Run.noFull_of_load (closed : Closed R nodes ok) {w : V → V → P → Nat} {k : Nat}
    (law : ∀ d v p, ok v p → ∃ toll, Balanced R (fun _ => 0) (w d) toll v p)
    (self : ∀ v p, ok v p → 1 ≤ w v v p) (degree : ∀ v p, (R.next v p).length ≤ k)
    {n m : Net V P C} (run : Run R nodes n m) (all : Queued ok n)
    (room : ∀ t ∈ nodes, ∀ len < n.load nodes (w t) + k, R.full t len = false)
    (clear : n.NoFull) : m.NoFull ∧ ∀ d, m.load nodes (w d) ≤ n.load nodes (w d) := by
  induction run with
  | refl => exact ⟨clear, fun _ => le_rfl⟩
  | @tail m k front last ih =>
    obtain ⟨clear, less⟩ := ih
    have queued := Run.queued closed front all
    cases last with
    | @fire v p rest member head =>
      have here : ok v p := queued v p (head ▸ List.mem_cons_self)
      constructor
      · have copies : ((R.next v p).foldl (Net.enqueue R.full p) m).NoFull := by
          apply enqueueAll_noFull p m _ clear
          intro t target len hlen
          have inside := closed.inside here target
          apply room t inside
          have := length_le_load inside fun q hq => self t q (queued t q hq)
          have := less t
          have := degree v p
          omega
        intro e he
        rcases List.mem_append.mp he with old | sent
        · exact copies e old
        · obtain ⟨c, _, rfl⟩ := List.mem_map.mp sent
          rfl
      · intro d
        obtain ⟨toll, balanced⟩ := law d v p here
        have one := (fire_balance (fun _ _ => rfl) member head
          (fun t ht => closed.inside here ht) balanced).1
        have silent : ∀ k : Net V P C, k.charge (fun _ => 0) = 0 := fun k => by simp [Net.charge]
        rw [silent, silent] at one
        have := less d
        omega

theorem enqueueAll_nonempty {full : V → Nat → Bool} (room : ∀ v, full v 0 = false) (p : P) {targets : List V}
    (n : Net V P C) {t : V} (target : t ∈ targets) :
    (targets.foldl (Net.enqueue full p) n).queue t ≠ [] := by
  induction targets generalizing n with
  | nil => cases target
  | cons u rest ih =>
    rw [List.foldl_cons]
    rcases List.mem_cons.mp target with rfl | later
    · have here : (n.enqueue full p t).queue t ≠ [] := by
        unfold Net.enqueue
        split
        · rename_i crowded
          intro none
          rw [show n.queue t = [] from none, List.length_nil, room] at crowded
          cases crowded
        · simp
      obtain ⟨extra, kept, _⟩ := enqueueAll_queue full p rest (n.enqueue full p t) t
      rw [kept]
      exact List.append_ne_nil_of_left_ne_nil here extra
    · exact ih _ later

/-- Where every live node forwards to another one, some live node always has a
packet: a copy is only lost to a queue that holds others. -/
theorem Step.alive {live : V → Prop} (room : ∀ v, R.full v 0 = false)
    (law : ∀ v p, ok v p → live v → ∃ t ∈ R.next v p, t ≠ v ∧ live t) {n m : Net V P C}
    (step : Step R nodes n m) (all : Queued ok n) (alive : ∃ v, live v ∧ n.queue v ≠ []) :
    ∃ v, live v ∧ m.queue v ≠ [] := by
  cases step with
  | @fire v p rest member head =>
    by_cases here : live v
    · obtain ⟨t, target, apart, there⟩ := law v p (all v p (head ▸ List.mem_cons_self)) here
      refine ⟨t, there, ?_⟩
      simp only [Net.pop, Function.update_of_ne apart]
      exact enqueueAll_nonempty room p n target
    · obtain ⟨u, there, packets⟩ := alive
      have apart : u ≠ v := fun same => here (same ▸ there)
      refine ⟨u, there, ?_⟩
      obtain ⟨extra, kept, _⟩ := enqueueAll_queue R.full p (R.next v p) n u
      simp only [Net.pop, Function.update_of_ne apart, Net.route, Net.send, kept]
      exact List.append_ne_nil_of_left_ne_nil packets extra

omit [DecidableEq V] in
theorem load_eq_zero {n : Net V P C} (empty : ∀ v ∈ nodes, n.queue v = []) :
    n.load nodes w = 0 :=
  Finset.sum_eq_zero fun v hv => by rw [empty v hv]; rfl

end Balance
end Lib.Forwarding
