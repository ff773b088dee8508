import SpinEmu.Termination
import SpinEmu.Marks

/-! What a flush delivers: a packet leaves by a core socket once for every path
of its key's links from the chip where it was queued. -/
namespace SpinEmu
open Lib Lib.Forwarding Lib.Program Lib.LinkGraph

variable {b : Board}

abbrev Marked := SpinEmuMc × Nat × Int

def sendsOf (mark : Nat × Int) (v j : Nat) (trace : List (McEvent Marked)) : List (McEvent Marked) :=
  trace.filter fun
    | .sent v' j' p => v' == v && j' == j && p.2 == mark
    | _ => false

/-- The enqueues of the packet of a mark, one for each link that it takes. -/
def hopsOf (mark : Nat × Int) (trace : List (McEvent Marked)) : List (McEvent Marked) :=
  trace.filter fun
    | .queued _ p => p.2 == mark
    | _ => false

namespace Dispatcher
variable {d : Dispatcher SpinEmuMc} {T : Dispatcher Marked}

/-- The chip and the cell that a queued packet of the network stands in. -/
theorem mem_marked_net {v : Nat} {p : Marked} (queued : p ∈ (d.marked.net b).queue v) :
    p = ((d.mcQueue v 0).queue p.2.2, v, p.2.2) :=
  mem_marked (mem_net_queue.mp queued).2

/-- Every call that a flush records is about a packet queued at its start. -/
theorem Flushing.packet (inv : Flushing b d.marked T) (idle : d.CoresIdle b) :
    ∀ e ∈ T.trace, ∃ v, e.packet ∈ (d.marked.net b).queue v := by
  intro e he
  have closed : Closed (mcRouting b d.spinEmuRoutes) (Finset.range b.numChips)
      fun _ p => ∃ v, p ∈ (d.marked.net b).queue v :=
    ⟨fun same _ => same, fun _ target => by
      obtain ⟨j, link⟩ := mem_next.mp target
      exact mcLink_inside link⟩
  rcases Run.log_queued closed (inv.traced idle).2 (fun v p hp => ⟨v, hp⟩) e he with old | ⟨_, new⟩
  · cases old
  · exact new

/-- Packets with the mark of a queued packet are copies of it. -/
theorem Flushing.copy (inv : Flushing b d.marked T) (idle : d.CoresIdle b) {c : Nat} {p : Marked}
    (queued : p ∈ (d.marked.net b).queue c) {e : McEvent Marked} (he : e ∈ T.trace)
    (mark : e.packet.2 = p.2) : e.packet = p := by
  obtain ⟨v, hv⟩ := inv.packet idle e he
  have here := mem_marked_net hv
  have there := mem_marked_net queued
  have chip : v = c :=
    (congrArg (·.2.1) here).symm.trans ((congrArg Prod.fst mark).trans (congrArg (·.2.1) there))
  subst chip
  rw [here, there, mark]

theorem Flushing.sendsOf_eq (inv : Flushing b d.marked T) (idle : d.CoresIdle b) {c : Nat}
    {p : Marked} (queued : p ∈ (d.marked.net b).queue c) (v j : Nat) :
    sendsOf p.2 v j T.trace = List.replicate ((T.net b).sentCount v j p) (.sent v j p) := by
  rw [Net.sentCount, ← List.filter_eq, sendsOf]
  apply List.filter_congr
  intro e he
  have copy := inv.copy idle queued he
  cases e with
  | queued v' q => rfl
  | full v' q => rfl
  | sent v' j' q =>
    have same : q.2 = p.2 ↔ q = p := ⟨copy, congrArg _⟩
    rw [Bool.eq_iff_iff]
    simp [same, and_assoc]

theorem marked_once (valid : d.Valid b) {c : Nat} {p : Marked}
    (queued : p ∈ (d.marked.net b).queue c) : (d.marked.net b).Once c p := by
  obtain ⟨hc, _⟩ := mem_net_queue.mp queued
  have whole : (d.marked.net b).queue c = (d.marked.mcQueue c 0).contents := by simp [net, hc]
  refine ⟨queued, whole ▸ marked_nodup (valid c hc 0 (by decide)), fun v there => ?_⟩
  have here := congrArg (·.2.1) (mem_marked_net queued)
  exact (congrArg (·.2.1) (mem_marked_net there)).symm.trans here

/-- The calls of `spin_emu_send_mc` for one queued packet, in a flush that found
no queue full. Other packets may be routed in any way. -/
theorem Flushing.sends (valid : d.Valid b) (idle : d.CoresIdle b) (inv : Flushing b d.marked T)
    (empty : T.EmptyBelow b.numChips) (room : ∀ e ∈ T.trace, e.isFull = false) {c : Nat}
    {p : Marked} (queued : p ∈ (d.marked.net b).queue c)
    (grounded : Grounded (mcLink b d.spinEmuRoutes p.1.key) c) (v j : Nat) :
    sendsOf p.2 v j T.trace =
      List.replicate (if selected d.spinEmuRoutes p.1.key v j
        then pathCount (mcLink b d.spinEmuRoutes p.1.key) c v else 0) (.sent v j p) := by
  have member : c ∈ Finset.range b.numChips := Finset.mem_range.mpr (mem_net_queue.mp queued).1
  have total := Run.sentCount_once (fun _ _ _ _ step => mcLink_inside step) (inv.traced idle).2
    room (fun v _ => empty.net v) member (marked_once valid queued) grounded v j
  have before : (d.marked.net b).sentCount v j p = 0 := rfl
  have exits : (mcExits d.marked.spinEmuRoutes v (McPacket.key p)).count j =
      if selected d.spinEmuRoutes p.1.key v j then 1 else 0 := count_mcExits _ _ _ _
  rw [before, exits, Nat.zero_add, mul_ite, mul_one, mul_zero] at total
  rw [inv.sendsOf_eq idle queued, total]
  rfl

/-- The calls of `queue_mc` for one queued packet, when the paths from its chip
visit the chips of `way`. -/
theorem Flushing.hops (valid : d.Valid b) (idle : d.CoresIdle b) (inv : Flushing b d.marked T)
    (empty : T.EmptyBelow b.numChips) (room : ∀ e ∈ T.trace, e.isFull = false) {c : Nat}
    {p : Marked} (queued : p ∈ (d.marked.net b).queue c)
    (grounded : Grounded (mcLink b d.spinEmuRoutes p.1.key) c) {way : List Nat}
    (visits : ∀ v, (∑ l, ((mcLink b d.spinEmuRoutes p.1.key c l).elim 0 fun t =>
      pathCount (mcLink b d.spinEmuRoutes p.1.key) t v)) = way.count v) :
    (hopsOf p.2 T.trace).Perm (way.map (.queued · p)) := by
  have member : c ∈ Finset.range b.numChips := Finset.mem_range.mpr (mem_net_queue.mp queued).1
  have total (v : Nat) : T.trace.count (.queued v p) = way.count v := by
    have := Run.queuedCount_once (fun _ _ _ _ step => mcLink_inside step) (inv.traced idle).2
      room (fun v _ => empty.net v) member (marked_once valid queued) grounded v
    rw [show (d.marked.net b).queuedCount v p = 0 from rfl, Nat.zero_add] at this
    exact this.trans (visits v)
  rw [List.perm_iff_count]
  intro e
  by_cases hop : ∃ v, e = .queued v p
  · obtain ⟨v, rfl⟩ := hop
    rw [hopsOf, List.count_filter (by simp), total,
      List.count_map_of_injective _ _ fun _ _ same => (Event.queued.inj same).1]
  · have absent : e ∉ hopsOf p.2 T.trace := by
      intro he
      obtain ⟨he, test⟩ := List.mem_filter.mp he
      cases e with
      | queued v q =>
        have same : q.2 = p.2 := by simpa using test
        have copy : q = p := inv.copy idle queued he same
        exact hop ⟨v, congrArg _ copy⟩
      | full v q => cases test
      | sent v j q => cases test
    have unmapped : e ∉ way.map (.queued · p) := by
      intro he
      obtain ⟨v, _, rfl⟩ := List.mem_map.mp he
      exact hop ⟨v, rfl⟩
    rw [List.count_eq_zero_of_not_mem absent, List.count_eq_zero_of_not_mem unmapped]

theorem quiet_of_pending (pending : ∀ c < b.numChips, (d.mcQueue c 0).len ≠ 0 → d.mcPending = true)
    (clear : d.mcPending = false) : d.EmptyBelow b.numChips := by
  intro c hc
  by_contra some
  exact absurd (pending c hc some) (by simp [clear])

/-- A flush of the packets is, step for step, a flush of the marked packets. -/
theorem marked_ends (fresh : d.trace = []) (terminates : (flushMcQueues b).Terminates d.marked)
    (noOverflow : ¬ (flushMcQueues b).Ends d (.error .intOverflow)) :
    ∃ T, (flushMcQueues b).Ends d.marked (.ok T) ∧
      (flushMcQueues b).Ends d (.ok (T.map Prod.fst)) := by
  obtain ⟨r, ends⟩ := terminates
  have plain := (flushMcQueues_maps (f := (Prod.fst : Marked → SpinEmuMc)) fun _ => rfl).ends ends
  rw [marked_map fresh] at plain
  cases r with
  | ok T => exact ⟨T, ends, plain⟩
  | error e =>
    cases e with
    | intOverflow => exact absurd plain noOverflow

theorem marked_valid (valid : d.Valid b) : d.marked.Valid b := fun c hc i hi => by
  obtain ⟨low, high, some, le⟩ := valid c hc i hi
  exact ⟨low, high, some, le⟩

/-- The only queued packet stands at the front of chip `c`'s queue. -/
def Alone (b : Board) (d : Dispatcher SpinEmuMc) (c : Nat) : Prop :=
  ∀ v < b.numChips, (d.mcQueue v 0).len = if v = c then 1 else 0

theorem Alone.queue (alone : d.Alone b c) {p : Marked} (hp : p ∈ (d.marked.net b).queue c) (v : Nat) :
    (d.marked.net b).queue v = if v = c then [p] else [] := by
  have whole (v : Nat) (hv : v < b.numChips) :
      (d.marked.net b).queue v = (d.marked.mcQueue v 0).contents ∧
        (d.marked.mcQueue v 0).contents.length = if v = c then 1 else 0 := by
    refine ⟨by simp [net, hv], ?_⟩
    rw [SpinEmuMcQueue.length_contents, show (d.marked.mcQueue v 0).len = _ from alone v hv]
    split <;> rfl
  split
  · rename_i same
    subst same
    obtain ⟨contents, size⟩ := whole v (mem_net_queue.mp hp).1
    obtain ⟨q, only⟩ := List.length_eq_one_iff.mp (size.trans (if_pos rfl))
    rw [contents, only, List.mem_singleton] at hp
    rw [contents, only, hp]
  · rename_i apart
    by_cases hv : v < b.numChips
    · obtain ⟨contents, size⟩ := whole v hv
      rw [contents, List.length_eq_zero_iff.mp (size.trans (if_neg apart))]
    · simp [net, hv]

/-- A single packet whose paths lead to each chip once at most is flushed
without finding a queue full. -/
theorem Alone.flush (fresh : d.trace = []) (valid : d.Valid b) (idle : d.CoresIdle b)
    (pending : ∀ c < b.numChips, (d.mcQueue c 0).len ≠ 0 → d.mcPending = true)
    (noOverflow : ¬ (flushMcQueues b).Ends d (.error .intOverflow)) {c : Nat} {p : Marked}
    (queued : p ∈ (d.marked.net b).queue c) (alone : d.Alone b c)
    (grounded : Grounded (mcLink b d.spinEmuRoutes p.1.key) c)
    (once : ∀ v, pathCount (mcLink b d.spinEmuRoutes p.1.key) c v ≤ 1) :
    ∃ T, (flushMcQueues b).Ends d.marked (.ok T) ∧
      (flushMcQueues b).Ends d (.ok (T.map Prod.fst)) ∧ ∀ e ∈ T.trace, e.isFull = false := by
  have all : ∀ v, ∀ q ∈ (d.marked.net b).queue v,
      Grounded (mcLink b d.spinEmuRoutes q.1.key) v := by
    intro v q hq
    rw [alone.queue queued v] at hq
    split at hq
    · rename_i same
      rw [List.mem_singleton.mp hq, same]
      exact grounded
    · cases hq
  obtain ⟨T, ends, plain⟩ := marked_ends fresh
    (flushMcQueues_terminates (marked_valid valid) fun v q hq _ => all v q hq) noOverflow
  obtain ⟨inv, _, _⟩ := flushMcQueues_run (marked_valid valid)
    (fun clear => quiet_of_pending pending clear) T ends
  refine ⟨T, ends, plain, ?_⟩
  refine Run.noFull_of_paths (fun _ _ _ _ step => mcLink_inside step) (inv.traced idle).2 all ?_ ?_
  · intro t _ len hlen
    have member : c ∈ Finset.range b.numChips := Finset.mem_range.mpr (mem_net_queue.mp queued).1
    have load : (d.marked.net b).load (Finset.range b.numChips)
        (fun v q => pathCount (mcLink b d.spinEmuRoutes q.1.key) v t) =
          pathCount (mcLink b d.spinEmuRoutes p.1.key) c t := by
      rw [Net.load, Finset.sum_eq_single_of_mem c member, alone.queue queued, if_pos rfl]
      · simp
      · intro v _ apart
        rw [alone.queue queued, if_neg apart]
        rfl
    have bound := once t
    have few := lt_of_lt_of_eq hlen (congrArg (· + numLinks) load)
    apply decide_eq_false
    simp only [spinEmuMcQueueSize, numLinks] at few ⊢
    omega
  · intro e he
    cases he

/-- Two chips side by side: entries for key 5 lead over the east link of the
first to core 1 of the second. -/
def relay (c i : Nat) : SpinEmuRoute :=
  if i = 0 then ⟨5, 0xFFFFFFFF, if c = 0 then 1 else 128⟩ else initialRoute

theorem relay_match (c : Nat) : firstMatch (relay c) 5 = some (relay c 0) := by
  apply firstMatch_of_first (by decide)
  · simp [relay, SpinEmuRoute.matches]
  · exact fun k hk => absurd hk k.not_lt_zero

theorem relay_link {u w : Nat} {j : Fin numLinks} (step : mcLink ⟨2, 1⟩ relay 5 u j = some w) :
    u = 0 ∧ j = 0 ∧ w ≠ 0 := by
  have apart := (linkTarget_inside (mcLink_linkTarget step)).2.2
  rw [mcLink_some (relay_match u)] at step
  have first : u = 0 := by
    by_contra other
    have unset : ∀ j : Fin numLinks, testBit 128#32 j = false := by decide
    simp [relay, other, unset] at step
  subst first
  have east : ∀ j : Fin numLinks, testBit 1#32 j = true → j = 0 := by decide
  refine ⟨rfl, east j ?_, apart⟩
  by_contra unset
  simp [relay, unset] at step

end Dispatcher
end SpinEmu
