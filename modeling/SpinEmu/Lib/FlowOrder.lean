import SpinEmu.Lib.LinkRouting

/-! The order of packets in a store-and-forward network. A node hands packets on
in the order in which they entered its queue, and a full queue only leaves gaps.
Along the links of a class of packets that join two nodes by one path at most,
the order at a node is therefore the order at every node before it. -/
namespace Lib.Forwarding
open LinkGraph Relation

variable {V P C : Type} [DecidableEq V]

/-- The packets that have entered the queue of `v`, oldest first. -/
def entered (v : V) (log : List (Event V P C)) : List P :=
  log.filterMap fun
    | .queued u p => if u = v then some p else none
    | _ => none

/-- The packets that have left `v` by exit `x`, oldest first. -/
def departed [DecidableEq C] (v : V) (x : C) (log : List (Event V P C)) : List P :=
  log.filterMap fun
    | .sent u y p => if u = v ∧ y = x then some p else none
    | _ => none

@[simp] theorem entered_append (v : V) (log later : List (Event V P C)) :
    entered v (log ++ later) = entered v log ++ entered v later :=
  List.filterMap_append

theorem entered_sends (v u : V) (p : P) (exits : List C) :
    entered v (exits.map fun x => Event.sent u x p) = [] := by
  simp [entered]

section Events
variable [DecidableEq C]

@[simp] theorem departed_append (v : V) (x : C) (log later : List (Event V P C)) :
    departed v x (log ++ later) = departed v x log ++ departed v x later :=
  List.filterMap_append

theorem departed_sends (v u : V) (x : C) (p : P) (exits : List C) :
    departed v x (exits.map fun y => Event.sent u y p) =
      if v = u then List.replicate (exits.count x) p else [] := by
  induction exits with
  | nil => simp [departed]
  | cons y rest ih =>
    rw [List.map_cons, departed, List.filterMap_cons, ← departed, ih]
    by_cases here : v = u
    · by_cases same : y = x
      · simp [here, same, List.replicate_succ]
      · simp [here, same]
    · simp [here, Ne.symm here]

end Events

section Enqueue
variable (full : V → Nat → Bool) (p : P)

/-- An accepted copy enters the queue and the record of it alike. -/
theorem enqueue_order (n : Net V P C) (t v : V) :
    ∃ extra, extra.Sublist (if t = v then [p] else []) ∧
      (n.enqueue full p t).queue v = n.queue v ++ extra ∧
      entered v (n.enqueue full p t).log = entered v n.log ++ extra := by
  by_cases crowded : full t (n.queue t).length
  · rw [Net.enqueue, if_pos crowded]
    exact ⟨[], List.nil_sublist _, by simp, by simp [entered]⟩
  · rw [Net.enqueue, if_neg crowded]
    by_cases same : t = v
    · subst same
      exact ⟨[p], by simp, by simp, by simp [entered]⟩
    · exact ⟨[], List.nil_sublist _, by simp [Function.update_of_ne (Ne.symm same)],
        by simp [entered, same]⟩

theorem enqueue_departed [DecidableEq C] (n : Net V P C) (t v : V) (x : C) :
    departed v x (n.enqueue full p t).log = departed v x n.log := by
  unfold Net.enqueue
  split
  · simp [departed]
  · simp [departed]

theorem enqueueAll_order (targets : List V) (n : Net V P C) (v : V) :
    ∃ extra, extra.Sublist (List.replicate (targets.count v) p) ∧
      (targets.foldl (Net.enqueue full p) n).queue v = n.queue v ++ extra ∧
      entered v (targets.foldl (Net.enqueue full p) n).log = entered v n.log ++ extra := by
  induction targets generalizing n with
  | nil => exact ⟨[], by simp, by simp, by simp⟩
  | cons t rest ih =>
    obtain ⟨front, one, queue, record⟩ := enqueue_order full p n t v
    obtain ⟨back, others, queue', record'⟩ := ih (n.enqueue full p t)
    refine ⟨front ++ back, ?_, by rw [List.foldl_cons, queue', queue, List.append_assoc],
      by rw [List.foldl_cons, record', record, List.append_assoc]⟩
    have copies : List.replicate ((t :: rest).count v) p =
        (if t = v then [p] else []) ++ List.replicate (rest.count v) p := by
      by_cases same : t = v
      · simp [same, List.replicate_succ]
      · simp [same]
    rw [copies]
    exact one.append others

theorem enqueueAll_departed [DecidableEq C] (targets : List V) (n : Net V P C) (v : V) (x : C) :
    departed v x (targets.foldl (Net.enqueue full p) n).log = departed v x n.log := by
  induction targets generalizing n with
  | nil => rfl
  | cons t rest ih => rw [List.foldl_cons, ih, enqueue_departed]

end Enqueue

section Firing
variable [DecidableEq C] {R : Routing V P C} {nodes : Finset V}

/-- What one firing does to the queue of a node and to the records of it. -/
theorem fire_order {n : Net V P C} {u : V} {p : P} {rest : List P} (head : n.queue u = p :: rest)
    (v : V) :
    ∃ extra, extra.Sublist (List.replicate ((R.next u p).count v) p) ∧
      ((n.route R u p).pop u).queue v = (if v = u then rest else n.queue v) ++ extra ∧
      entered v ((n.route R u p).pop u).log = entered v n.log ++ extra ∧
      ∀ x, departed v x ((n.route R u p).pop u).log =
        departed v x n.log ++ if v = u then List.replicate ((R.exits u p).count x) p else [] := by
  obtain ⟨extra, copies, queue, record⟩ := enqueueAll_order R.full p (R.next u p) n v
  refine ⟨extra, copies, ?_, ?_, fun x => ?_⟩
  · by_cases same : v = u
    · subst same
      simp only [Net.pop, Function.update_self, if_true, Net.route, Net.send, queue, head,
        List.cons_append, List.tail_cons]
    · simp only [Net.pop, Function.update_of_ne same, if_neg same, Net.route, Net.send, queue]
  · simp only [Net.pop, Net.route, Net.send, entered_append, record, entered_sends,
      List.append_nil]
  · simp only [Net.pop, Net.route, Net.send, departed_append, enqueueAll_departed, departed_sends]

/-- What has left a node by an exit and what still waits there have entered it,
in this order. -/
def InOrder (n : Net V P C) : Prop :=
  ∀ v x, (departed v x n.log ++ n.queue v).Sublist (entered v n.log)

theorem InOrder.departed_sublist (ordered : InOrder n) (v : V) (x : C) :
    (departed v x n.log).Sublist (entered v n.log) :=
  (List.sublist_append_left _ _).trans (ordered v x)

theorem InOrder.queued [Inhabited C] {n : Net V P C} (inv : InOrder n) (v : V) :
    ∀ p ∈ n.queue v, p ∈ entered v n.log :=
  ((List.sublist_append_right _ _).trans (inv v default)).subset

theorem InOrder.enqueue {n : Net V P C} (inv : InOrder n) (full : V → Nat → Bool) (p : P) (t : V) :
    InOrder (n.enqueue full p t) := by
  intro v x
  obtain ⟨extra, _, queue, record⟩ := enqueue_order full p n t v
  rw [enqueue_departed, queue, record, ← List.append_assoc]
  exact (inv v x).append_right extra

theorem Step.inOrder (distinct : ∀ v p, (R.exits v p).Nodup) {n m : Net V P C}
    (step : Step R nodes n m) (inv : InOrder n) : InOrder m := by
  cases step with
  | @fire u p rest member head =>
    intro v x
    obtain ⟨extra, _, queue, record, left⟩ := fire_order (R := R) head v
    rw [queue, record, left, ← List.append_assoc]
    refine List.Sublist.append_right ?_ extra
    have before := inv v x
    by_cases here : v = u
    · subst here
      have once := List.nodup_iff_count_le_one.mp (distinct v p) x
      have one : (List.replicate ((R.exits v p).count x) p).Sublist [p] :=
        (List.replicate_sublist_replicate p).mpr once
      rw [head] at before
      simp only [if_true, List.append_assoc]
      refine List.Sublist.trans ?_ before
      exact (List.Sublist.refl _).append (one.append (List.Sublist.refl rest))
    · simpa only [if_neg here, List.append_nil] using before

end Firing

/-- Packets of a class whose links are those of one graph. -/
structure PacketClass (V P : Type) (k : Nat) where
  graph : V → Fin k → Option V
  own : P → Prop
  origin : P → V

namespace PacketClass
variable {k : Nat} (K : PacketClass V P k)

/-- The way of a packet of the class leads to `v`. -/
def Reaches (v : V) (p : P) : Prop := K.own p ∧ ReflTransGen (Edge K.graph) (K.origin p) v

open Classical in
/-- The packets of the class whose way leads to `v`. -/
noncomputable def via (v : V) (packets : List P) : List P := packets.filter (K.Reaches v)

open Classical in
/-- The packets of the class that begin their way at `v`. -/
noncomputable def starting (v : V) (packets : List P) : List P :=
  packets.filter fun p => K.own p ∧ K.origin p = v

variable {K}

omit [DecidableEq V] in
@[simp] theorem via_append (v : V) (l l' : List P) :
    K.via v (l ++ l') = K.via v l ++ K.via v l' := by
  simp [via]

omit [DecidableEq V] in
theorem via_sublist {l l' : List P} (v : V) (sub : l.Sublist l') :
    (K.via v l).Sublist (K.via v l') :=
  sub.filter _

omit [DecidableEq V] in
/-- The way to a later node leads through the earlier one. -/
theorem via_via {u v : V} (path : ReflTransGen (Edge K.graph) v u) (l : List P) :
    K.via v (K.via u l) = K.via v l := by
  rw [via, via, List.filter_filter]
  apply List.filter_congr
  intro p _
  have onward : K.Reaches v p → K.Reaches u p := fun h => ⟨h.1, h.2.trans path⟩
  by_cases here : K.Reaches v p
  · simp [here, onward here]
  · simp [here]

omit [DecidableEq V] in
theorem via_copies_nil {v : V} {p : P} (away : ¬ K.Reaches v p) {extra : List P} {n : Nat}
    (copies : extra.Sublist (List.replicate n p)) : K.via v extra = [] := by
  apply List.filter_eq_nil_iff.mpr
  intro q hq
  have same : q = p := List.eq_of_mem_replicate (copies.subset hq)
  simpa [same] using away

/-- The records of a network about the packets of a class that `calls` have
brought in: each is on its way, the next node has not seen what still waits
here, and nothing starts but the calls. -/
structure Flow (K : PacketClass V P k) (calls : List P) (n : Net V P C) : Prop where
  reach : ∀ v, ∀ p ∈ entered v n.log, K.own p → K.Reaches v p
  passed : ∀ v w, Edge K.graph v w →
    (K.via v (entered w n.log) ++ K.via v (n.queue v)).Sublist (K.via v (entered v n.log))
  starts : ∀ v, (K.starting v (entered v n.log)).Sublist calls

omit [DecidableEq V] in
/-- A copy where it cannot be is none. -/
theorem nil_of_copies {extra : List P} {p : P} {k : Nat} (zero : k = 0)
    (copies : extra.Sublist (List.replicate k p)) : extra = [] := by
  subst zero
  exact List.sublist_nil.mp copies

section Calls
variable {calls : List P} {n : Net V P C}

/-- A packet that enters the network where its way begins. -/
theorem Flow.enqueue (flow : Flow K calls n) (one : OnePath K.graph) (full : V → Nat → Bool)
    (p : P) : Flow K (calls ++ [p]) (n.enqueue full p (K.origin p)) where
  reach := by
    intro v q hq own
    obtain ⟨extra, copies, _, record⟩ := enqueue_order full p n (K.origin p) v
    rw [record] at hq
    rcases List.mem_append.mp hq with old | new
    · exact flow.reach v q old own
    · have copy := copies.subset new
      split at copy
      · rename_i here
        rw [List.mem_singleton.mp copy] at own ⊢
        exact ⟨own, here ▸ .refl⟩
      · cases copy
  passed := by
    intro v w edge
    obtain ⟨extra, _, queue, record⟩ := enqueue_order full p n (K.origin p) v
    obtain ⟨extra', copies, _, record'⟩ := enqueue_order full p n (K.origin p) w
    have unseen : K.via v extra' = [] := by
      split at copies
      · rename_i here
        refine via_copies_nil (n := 1) (fun reaches => ?_) copies
        exact one.not_cycle (TransGen.tail' (here ▸ reaches.2) edge)
      · rw [List.sublist_nil.mp copies]
        rfl
    rw [queue, record, record', via_append, via_append, via_append, unseen, List.append_nil,
      ← List.append_assoc]
    exact (flow.passed v w edge).append_right _
  starts := by
    intro v
    obtain ⟨extra, copies, _, record⟩ := enqueue_order full p n (K.origin p) v
    have new : extra.Sublist [p] := by
      split at copies
      · exact copies
      · exact copies.trans (List.nil_sublist _)
    rw [record, starting, List.filter_append]
    exact (flow.starts v).append (List.filter_sublist.trans new)

variable {link : P → V → Fin k → Option V} {exits : V → P → List C} {full : V → Nat → Bool}
  {nodes : Finset V}

omit [DecidableEq V] in
theorem edge_of_next (same : ∀ p, K.own p → link p = K.graph) {u v : V} {p : P} (own : K.own p)
    (target : v ∈ (alongLinks (C := C) link exits full).next u p) : Edge K.graph u v :=
  same p own ▸ mem_next.mp target

theorem count_next_le (same : ∀ p, K.own p → link p = K.graph) (one : OnePath K.graph) {p : P}
    (own : K.own p) (u v : V) : ((alongLinks (C := C) link exits full).next u p).count v ≤ 1 := by
  apply List.nodup_iff_count_le_one.mp
  refine (List.nodup_finRange k).filterMap fun l l' w step step' => ?_
  rw [same p own] at step step'
  exact one.link_inj step step'

/-- The routing of a packet keeps the flow: a node has its packets from one node
only, so that no other firing comes between. -/
theorem Flow.fire [DecidableEq C] (flow : Flow K calls n)
    (same : ∀ p, K.own p → link p = K.graph) (one : OnePath K.graph)
    (queued : ∀ v, ∀ p ∈ n.queue v, p ∈ entered v n.log) {m : Net V P C}
    (step : Step (alongLinks link exits full) nodes n m) : Flow K calls m := by
  cases step with
  | @fire u p rest member head =>
    let R : Routing V P C := alongLinks link exits full
    have here (own : K.own p) : K.Reaches u p :=
      flow.reach u p (queued u p (head ▸ List.mem_cons_self)) own
    have onward {v : V} (own : K.own p) (target : 0 < (R.next u p).count v) : Edge K.graph u v :=
      edge_of_next same own (List.count_pos_iff.mp target)
    constructor
    case reach =>
      intro v q hq own
      obtain ⟨extra, copies, _, record, _⟩ := fire_order (R := R) head v
      rw [record] at hq
      rcases List.mem_append.mp hq with old | new
      · exact flow.reach v q old own
      · have copy := copies.subset new
        obtain ⟨some, rfl⟩ := List.mem_replicate.mp copy
        exact ⟨own, (here own).2.tail (onward own (Nat.pos_of_ne_zero some))⟩
    case starts =>
      intro v
      obtain ⟨extra, copies, _, record, _⟩ := fire_order (R := R) head v
      have none : K.starting v extra = [] := by
        apply List.filter_eq_nil_iff.mpr
        intro q hq
        obtain ⟨some, rfl⟩ := List.mem_replicate.mp (copies.subset hq)
        simp only [decide_eq_true_eq, not_and]
        intro own begins
        have around := (here own).2
        rw [begins] at around
        exact one.not_cycle (TransGen.tail' around (onward own (Nat.pos_of_ne_zero some)))
      rw [record, starting, List.filter_append, ← starting, ← starting, none, List.append_nil]
      exact flow.starts v
    case passed =>
      intro v w edge
      obtain ⟨extra, copies, queue, record, _⟩ := fire_order (R := R) head v
      obtain ⟨extra', copies', _, record', _⟩ := fire_order (R := R) head w
      have before := flow.passed v w edge
      by_cases reaches : K.Reaches v p
      · by_cases sender : v = u
        · -- the packet moves on from `v`, to `w` unless the queue there is full
          subst sender
          have still : extra = [] := by
            refine nil_of_copies (Nat.eq_zero_of_not_pos fun target => ?_) copies
            exact one.not_cycle (TransGen.single (onward reaches.1 target))
          have moved : (K.via v extra').Sublist [p] :=
            List.filter_sublist.trans (copies'.trans ((List.replicate_sublist_replicate p).mpr
              (count_next_le same one reaches.1 v w)))
          have waiting : K.via v (n.queue v) = p :: K.via v rest := by
            rw [head, via, List.filter_cons_of_pos (by simpa using reaches)]
            rfl
          rw [waiting] at before
          rw [queue, record, record', still, if_pos rfl, List.append_nil, List.append_nil,
            via_append, List.append_assoc]
          refine List.Sublist.trans ?_ before
          exact (List.Sublist.refl _).append (moved.append (List.Sublist.refl _))
        · -- another node forwards it, which does not lead to `w`
          have apart : extra' = [] := by
            refine nil_of_copies (Nat.eq_zero_of_not_pos fun target => ?_) copies'
            have back := one.parent (here reaches.1).2 (onward reaches.1 target) reaches.2 edge
            exact sender back.symm
          rw [queue, record, record', apart, if_neg sender, List.append_nil, via_append, via_append,
            ← List.append_assoc]
          exact before.append_right _
      · -- the packet is none of those that `v` and `w` share
        have waiting : K.via v (if v = u then rest else n.queue v) = K.via v (n.queue v) := by
          split
          · rename_i sender
            subst sender
            rw [head, via, via, List.filter_cons_of_neg (by simpa using reaches)]
          · rfl
        rw [queue, record, record', via_append, via_append, via_append, waiting,
          via_copies_nil reaches copies', via_copies_nil reaches copies, List.append_nil,
          List.append_nil, List.append_nil]
        exact before

end Calls

section Order
variable {calls : List P} {n : Net V P C}

/-- A later node has seen the packets in the order of an earlier one. -/
theorem Flow.path (flow : Flow K calls n) {v w : V} (path : ReflTransGen (Edge K.graph) v w) :
    (K.via v (entered w n.log)).Sublist (K.via v (entered v n.log)) := by
  induction path with
  | refl => exact List.Sublist.refl _
  | @tail u w front edge ih =>
    have step : (K.via u (entered w n.log)).Sublist (K.via u (entered u n.log)) :=
      (List.sublist_append_left _ _).trans (flow.passed u w edge)
    have filtered := via_sublist (K := K) v step
    rw [via_via front, via_via front] at filtered
    exact filtered.trans ih

section Distinct
open Classical

/-- Packets that start once are seen once. -/
theorem Flow.nodup (flow : Flow K calls n) (distinct : calls.Nodup) (v : V) :
    (K.via v (entered v n.log)).Nodup := by
  rw [List.nodup_iff_count_le_one]
  intro p
  by_cases reaches : K.Reaches v p
  · have begins : K.Reaches (K.origin p) p := ⟨reaches.1, .refl⟩
    have shorter := (flow.path reaches.2).count_le p
    have started := (flow.starts (K.origin p)).count_le p
    rw [via, List.count_filter (by simpa using begins), via,
      List.count_filter (by simpa using begins)] at shorter
    rw [starting, List.count_filter (by simpa using reaches.1)] at started
    rw [via, List.count_filter (by simpa using reaches)]
    exact shorter.trans (started.trans (List.nodup_iff_count_le_one.mp distinct p))
  · have absent : p ∉ K.via v (entered v n.log) := fun member =>
      reaches (of_decide_eq_true (List.mem_filter.mp member).2)
    rw [List.count_eq_zero_of_not_mem absent]
    exact Nat.zero_le 1

end Distinct

variable [DecidableEq C]

/-- What leaves a node by an exit after it has been at `c` leaves in the order
in which it has been there. -/
theorem Flow.departs (flow : Flow K calls n) (ordered : InOrder n) {c v : V}
    (path : ReflTransGen (Edge K.graph) c v) (x : C) :
    (K.via c (departed v x n.log)).Sublist (K.via c (entered c n.log)) :=
  (via_sublist c (ordered.departed_sublist v x)).trans (flow.path path)

omit [DecidableEq C] in
theorem starting_via (c : V) (l : List P) : K.starting c (K.via c l) = K.starting c l := by
  classical
  rw [starting, via, List.filter_filter]
  apply List.filter_congr
  intro p _
  have reaches (begins : K.own p ∧ K.origin p = c) : K.Reaches c p :=
    ⟨begins.1, begins.2 ▸ .refl⟩
  by_cases begins : K.own p ∧ K.origin p = c
  · simp [begins, reaches begins]
  · simp [begins]

/-- The packets that start at `c` leave every node in the order of their start. -/
theorem Flow.starting_departs (flow : Flow K calls n) (ordered : InOrder n) (c v : V) (x : C) :
    (K.starting c (departed v x n.log)).Sublist (K.starting c (entered c n.log)) := by
  classical
  by_cases path : ReflTransGen (Edge K.graph) c v
  · have filtered : (K.starting c (K.via c (departed v x n.log))).Sublist
        (K.starting c (K.via c (entered c n.log))) := (flow.departs ordered path x).filter _
    rwa [starting_via, starting_via] at filtered
  · have none : K.starting c (departed v x n.log) = [] := by
      apply List.filter_eq_nil_iff.mpr
      intro p hp
      simp only [decide_eq_true_eq, not_and]
      intro own begins
      have seen := flow.reach v p ((ordered.departed_sublist v x).subset hp) own
      exact path (begins ▸ seen.2)
    rw [none]
    exact List.nil_sublist _

end Order

end PacketClass
end Lib.Forwarding
