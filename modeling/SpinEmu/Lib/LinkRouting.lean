import SpinEmu.Lib.LinkGraph
import SpinEmu.Lib.Forwarding

/-! Forwarding along the links of a graph: a packet is copied over every link
that its graph has at a node. Where the graph is grounded the network runs dry,
and a packet leaves by an exit once for every path that leads there. -/
namespace Lib.Forwarding
open LinkGraph

variable {V P C : Type} {k : Nat}

/-- The routing of a family of graphs, one for each packet. -/
def alongLinks (link : P → V → Fin k → Option V) (exits : V → P → List C) (full : V → Nat → Bool) :
    Routing V P C where
  next v p := (List.finRange k).filterMap (link p v)
  exits := exits
  full := full

variable {link : P → V → Fin k → Option V} {exits : V → P → List C} {full : V → Nat → Bool}

theorem sum_filterMap {α β : Type} (f : α → Option β) (g : β → Nat) (l : List α) :
    ((l.filterMap f).map g).sum = (l.map fun a => (f a).elim 0 g).sum := by
  induction l with
  | nil => rfl
  | cons a l ih =>
    cases step : f a with
    | none => simp [List.filterMap_cons_none step, ih, step]
    | some b => simp [List.filterMap_cons_some step, ih, step]

theorem elim_zero {α : Type} (o : Option α) : (o.elim 0 fun _ => 0) = 0 := by
  cases o <;> rfl

theorem sum_next (g : V → Nat) (v : V) (p : P) :
    ((((alongLinks link exits full).next v p)).map g).sum =
      ∑ l : Fin k, (link p v l).elim 0 g := by
  rw [Fin.sum_univ_def]
  exact sum_filterMap _ _ _

theorem mem_next {v t : V} {p : P} :
    t ∈ (alongLinks link exits full).next v p ↔ Edge (link p) v t := by
  simp [alongLinks, Edge]

/-- One routing step for each path from the packet's node. -/
theorem balanced_treeSize {v : V} {p : P} (grounded : Grounded (link p) v) :
    Balanced (alongLinks link exits full) (fun _ => 0)
      (fun v p => treeSize (link p) v) 1 v p := by
  simp only [Balanced, Nat.zero_add, sum_next]
  simpa using treeSize_eq grounded

theorem closed_grounded {nodes : Finset V} (ok : P → Prop)
    (inside : ∀ p v l t, link p v l = some t → t ∈ nodes) :
    Closed (alongLinks link exits full) nodes fun v p => ok p → Grounded (link p) v where
  next grounded target good := by
    obtain ⟨l, step⟩ := mem_next.mp target
    exact (grounded good).next step
  inside _ target := by
    obtain ⟨l, step⟩ := mem_next.mp target
    exact inside _ _ l _ step

theorem length_next (v : V) (p : P) :
    ((alongLinks link exits full).next v p).length ≤ k := by
  have := List.length_filterMap_le (link p v) (List.finRange k)
  rwa [List.length_finRange] at this

theorem balanced_pathCount [DecidableEq V] {v d : V} {p : P} (grounded : Grounded (link p) v) :
    Balanced (alongLinks link exits full) (fun _ => 0) (fun v p => pathCount (link p) v d)
      (if v = d then 1 else 0) v p := by
  simp only [Balanced, Nat.zero_add, sum_next]
  simpa using pathCount_eq grounded

/-- No queue is found full when few enough paths lead to each node. -/
theorem Run.noFull_of_paths [DecidableEq V] {nodes : Finset V}
    (inside : ∀ p v l t, link p v l = some t → t ∈ nodes) {n m : Net V P C}
    (run : Run (alongLinks link exits full) nodes n m)
    (grounded : ∀ v, ∀ p ∈ n.queue v, Grounded (link p) v)
    (room : ∀ t ∈ nodes, ∀ len < n.load nodes (fun v p => pathCount (link p) v t) + k,
      full t len = false)
    (clear : n.NoFull) : m.NoFull := by
  refine (Run.noFull_of_load (closed_grounded (fun _ => True) inside)
    (w := fun d v p => pathCount (link p) v d)
    (fun d v p ok => ⟨_, balanced_pathCount (ok trivial)⟩) ?_ length_next run
    (fun v p hp _ => grounded v p hp) room clear).1
  intro v p ok
  rw [pathCount_eq (ok trivial), if_pos rfl]
  omega

section Counting
variable [DecidableEq V] [DecidableEq P] [DecidableEq C]

/-- The number of times `p` has left node `v` by exit `c`. -/
def Net.sentCount (v : V) (c : C) (p : P) (n : Net V P C) : Nat := n.log.count (.sent v c p)

/-- The number of times a copy of `p` has entered the queue of `v`. -/
def Net.queuedCount (v : V) (p : P) (n : Net V P C) : Nat := n.log.count (.queued v p)

theorem sum_indicator {α : Type} [DecidableEq α] (a : α) (x : Nat) (l : List α) :
    (l.map fun b => if b = a then x else 0).sum = l.count a * x := by
  induction l with
  | nil => simp
  | cons b l ih =>
    rw [List.map_cons, List.sum_cons, ih, List.count_cons]
    by_cases same : b = a
    · simp [same, Nat.add_mul, Nat.add_comm]
    · simp [same]

theorem charge_indicator (e : Event V P C) (n : Net V P C) :
    n.charge (fun x => if x = e then 1 else 0) = n.log.count e := by
  simpa [Net.charge] using sum_indicator e 1 n.log

omit [DecidableEq V] [DecidableEq C] in
theorem load_indicator {nodes : Finset V} (n : Net V P C) (p : P) (g : V → Nat) :
    n.load nodes (fun v q => if q = p then g v else 0) =
      ∑ v ∈ nodes, (n.queue v).count p * g v :=
  Finset.sum_congr rfl fun v _ => sum_indicator p (g v) (n.queue v)

/-- Every path to `d` is one departure by each of the exits that `d` has. -/
theorem balanced_sent {v d : V} {c : C} {p q : P} (grounded : q = p → Grounded (link q) v) :
    Balanced (alongLinks link exits full) (fun e => if e = .sent d c p then 1 else 0)
      (fun v q => if q = p then pathCount (link p) v d * (exits d p).count c else 0) 0 v q := by
  simp only [Balanced, sum_next]
  by_cases same : q = p
  · subst same
    have leaving : ((exits v q).map fun x =>
        if (Event.sent v x q : Event V P C) = .sent d c q then 1 else 0).sum =
          if v = d then (exits d q).count c else 0 := by
      by_cases here : v = d
      · subst here
        simpa [eq_comm] using sum_indicator c 1 (exits v q)
      · simp [here]
    have split := pathCount_eq (w := d) (grounded rfl)
    have scaled : ∀ l : Fin k, ((link q v l).elim 0 fun t =>
        pathCount (link q) t d * (exits d q).count c) =
          ((link q v l).elim 0 fun t => pathCount (link q) t d) * (exits d q).count c := by
      intro l
      cases link q v l <;> simp
    simp only [reduceCtorEq, if_false, if_true, Nat.zero_add, alongLinks, leaving, scaled,
      ← Finset.sum_mul]
    rw [split, Nat.add_mul, Nat.add_comm]
    split_ifs <;> simp
  · simp [same, elim_zero]

/-- Every nonempty path to `d` is one entry of the queue there. -/
theorem balanced_queued {v d : V} {p q : P} (grounded : q = p → Grounded (link q) v) :
    Balanced (alongLinks link exits full) (fun e => if e = .queued d p then 1 else 0)
      (fun v q => if q = p then
        ∑ l : Fin k, ((link p v l).elim 0 fun t => pathCount (link p) t d) else 0) 0 v q := by
  simp only [Balanced, sum_next]
  by_cases same : q = p
  · subst same
    have each : ∀ l : Fin k, ((link q v l).elim 0 fun t => pathCount (link q) t d) =
        ((link q v l).elim 0 fun t =>
          (if t = d then 1 else 0) +
            ∑ l' : Fin k, ((link q t l').elim 0 fun u => pathCount (link q) u d)) := by
      intro l
      cases step : link q v l with
      | none => rfl
      | some t => exact pathCount_eq ((grounded rfl).next step)
    simp [Finset.sum_congr rfl fun l _ => each l]
  · simp [same, elim_zero]

variable {nodes : Finset V} {n m : Net V P C}

/-- A run that drains the network and loses nothing sends each packet out of
each exit once for every path that leads there. -/
theorem Run.sentCount_eq (inside : ∀ p v l t, link p v l = some t → t ∈ nodes)
    (run : Run (alongLinks link exits full) nodes n m) (none : m.NoFull)
    (empty : ∀ v ∈ nodes, m.queue v = []) {p : P}
    (grounded : ∀ v, p ∈ n.queue v → Grounded (link p) v) (d : V) (c : C) :
    m.sentCount d c p = n.sentCount d c p +
      ∑ v ∈ nodes, (n.queue v).count p * (pathCount (link p) v d * (exits d p).count c) := by
  have balance := (Run.balance (by simp) (closed_grounded (· = p) inside)
    (fun v q ok => balanced_sent (d := d) (c := c) ok) run
    (fun v q queued same => by subst same; exact grounded v queued)).2 none
  rwa [load_eq_zero empty, charge_indicator, charge_indicator, load_indicator] at balance

/-- Where `p` stands in one queue only, and there once. -/
def Net.Once (n : Net V P C) (c : V) (p : P) : Prop :=
  p ∈ n.queue c ∧ (n.queue c).Nodup ∧ ∀ v, p ∈ n.queue v → v = c

omit [DecidableEq V] [DecidableEq C] in
theorem Net.Once.sum {c : V} {p : P} (once : n.Once c p) (member : c ∈ nodes) (g : V → Nat) :
    ∑ v ∈ nodes, (n.queue v).count p * g v = g c := by
  obtain ⟨here, distinct, only⟩ := once
  rw [Finset.sum_eq_single_of_mem c member, List.count_eq_one_of_mem distinct here, one_mul]
  intro v _ apart
  rw [List.count_eq_zero_of_not_mem fun there => apart (only v there), zero_mul]

theorem Run.sentCount_once (inside : ∀ p v l t, link p v l = some t → t ∈ nodes)
    (run : Run (alongLinks link exits full) nodes n m) (none : m.NoFull)
    (empty : ∀ v ∈ nodes, m.queue v = []) {p : P} {c : V} (member : c ∈ nodes)
    (once : n.Once c p) (grounded : Grounded (link p) c) (d : V) (x : C) :
    m.sentCount d x p = n.sentCount d x p + pathCount (link p) c d * (exits d p).count x := by
  rw [Run.sentCount_eq inside run none empty (fun v hv => once.2.2 v hv ▸ grounded) d x,
    once.sum member]

theorem Run.queuedCount_eq (inside : ∀ p v l t, link p v l = some t → t ∈ nodes)
    (run : Run (alongLinks link exits full) nodes n m) (none : m.NoFull)
    (empty : ∀ v ∈ nodes, m.queue v = []) {p : P}
    (grounded : ∀ v, p ∈ n.queue v → Grounded (link p) v) (d : V) :
    m.queuedCount d p = n.queuedCount d p +
      ∑ v ∈ nodes, (n.queue v).count p *
        ∑ l : Fin k, ((link p v l).elim 0 fun t => pathCount (link p) t d) := by
  have balance := (Run.balance (by simp) (closed_grounded (· = p) inside)
    (fun v q ok => balanced_queued (d := d) ok) run
    (fun v q queued same => by subst same; exact grounded v queued)).2 none
  rwa [load_eq_zero empty, charge_indicator, charge_indicator, load_indicator] at balance

theorem Run.queuedCount_once (inside : ∀ p v l t, link p v l = some t → t ∈ nodes)
    (run : Run (alongLinks link exits full) nodes n m) (none : m.NoFull)
    (empty : ∀ v ∈ nodes, m.queue v = []) {p : P} {c : V} (member : c ∈ nodes)
    (once : n.Once c p) (grounded : Grounded (link p) c) (d : V) :
    m.queuedCount d p = n.queuedCount d p +
      ∑ l : Fin k, ((link p c l).elim 0 fun t => pathCount (link p) t d) := by
  rw [Run.queuedCount_eq inside run none empty (fun v hv => once.2.2 v hv ▸ grounded) d,
    once.sum member]

end Counting
end Lib.Forwarding
