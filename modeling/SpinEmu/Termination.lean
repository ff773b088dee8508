import SpinEmu.Flush

/-! When the flush returns. Nothing bounds the links that a packet takes, so a
flush ends only if the tables bring every queued packet to an end. -/
namespace SpinEmu
open Lib Lib.Forwarding Lib.Program Lib.LinkGraph

variable {π : Type} [McPacket π] {b : Board}

namespace Dispatcher
variable {start d d' : Dispatcher π}

/-- Every packet of the network is where its key's links all come to an end. -/
def QueuedGrounded (b : Board) (routes : Nat → Nat → SpinEmuRoute) (n : Net Nat π Nat) : Prop :=
  Queued (fun c m => True → Grounded (mcLink b routes (McPacket.key m)) c) n

theorem closed_mcRouting (b : Board) (routes : Nat → Nat → SpinEmuRoute) (ok : π → Prop) :
    Closed (mcRouting (π := π) b routes) (Finset.range b.numChips)
      fun c m => ok m → Grounded (mcLink b routes (McPacket.key m)) c :=
  closed_grounded ok fun _ _ _ _ step => mcLink_inside step

/-- The turns of `route_one_mc_queue` that the queued packets can still cause. -/
noncomputable def work (b : Board) (start d : Dispatcher π) : Nat :=
  (d.net b).load (Finset.range b.numChips)
    fun c m => treeSize (mcLink b start.spinEmuRoutes (McPacket.key m)) c

/-- A pass that began with the given work: the flag is set again only by a turn
that made the work smaller. -/
structure Draining (b : Board) (start : Dispatcher π) (bound : Nat) (d : Dispatcher π) : Prop where
  inv : Flushing b start d
  grounded : QueuedGrounded b start.spinEmuRoutes (d.net b)
  work_le : work b start d ≤ bound
  work_lt : d.mcPending = true → work b start d < bound

theorem Draining.fire {bound : Nat} (inv : Draining b start bound d) {c : Nat}
    (hc : c < b.numChips) (some : 0 < (d.mcQueue c 0).len) (h : routeFront b c d = .ok d') :
    Draining b start bound d' ∧ work b start d' < work b start d := by
  obtain ⟨kept, step⟩ := inv.inv.fire hc some h
  have closed := closed_mcRouting (π := π) b start.spinEmuRoutes fun _ => True
  have less : work b start d' < work b start d :=
    step.load_lt closed (fun v m ok => balanced_treeSize (ok trivial)) inv.grounded
  exact ⟨⟨kept, step.queued closed inv.grounded, less.le.trans inv.work_le,
    fun _ => less.trans_le inv.work_le⟩, less⟩

theorem Draining.preserved (start : Dispatcher π) (bound : Nat) :
    Preserved b (Draining b start bound) where
  valid inv := inv.inv.valid
  fire inv hc some routed := (inv.fire hc some routed).1
  send {d d' c i} inv hc low high some sent := by
    obtain ⟨kept, same⟩ := inv.inv.send hc low high some sent
    obtain ⟨_, _, _, _, flag⟩ := sendFront_spec hc low high inv.inv.valid some sent
    have equal : work b start d' = work b start d := by
      simp only [work, Net.load, same]
    refine ⟨kept, ?_, equal ▸ inv.work_le, fun set => equal ▸ inv.work_lt (flag ▸ set)⟩
    intro v m hm
    exact inv.grounded v m (same ▸ hm)

theorem routeOneMcQueue_terminates {bound c : Nat} (hc : c < b.numChips)
    (inv : Draining b start bound d) : (routeOneMcQueue b c).Terminates d := by
  apply terminates_while (Draining b start bound) (work b start) _ _ inv
  · intro s inv test
    apply ensures_act
    intro t routed
    exact inv.fire hc (positive_of_test inv.inv.valid hc (by decide) test) routed
  · exact fun s _ _ => terminates_act _ s

omit [McPacket π] in
theorem flushOneMcQueue_terminates {c i : Nat} (hc : c < b.numChips) (low : 1 ≤ i)
    (high : i < numCpus) (valid : d.Valid b) : (flushOneMcQueue c i).Terminates d := by
  apply terminates_while (fun s => s.Valid b) (fun s => (s.mcQueue c i).len.toNat) _ _ valid
  · intro s valid test
    apply ensures_act
    intro t sent
    have some := positive_of_test valid hc high test
    obtain ⟨kept, less, _⟩ := sendFront_spec hc low high valid some sent
    exact ⟨kept, by omega⟩
  · exact fun s _ _ => terminates_act _ s

theorem flushPass_terminates {bound : Nat}
    (inv : Draining b start bound { d with mcPending := false }) : (flushPass b).Terminates d := by
  have pres := Draining.preserved (b := b) start bound
  refine terminates_seq (terminates_act _ d) (ensures_act fun t cleared => ?_)
  cases cleared
  -- the two phases, each with the facts that its loops keep
  have first : ∀ c < b.numChips, ∀ s : Dispatcher π,
      (Draining b start bound s ∧ (s.mcPending = false → s.EmptyBelow c)) →
      (routeOneMcQueue b c).Ensures s fun t =>
        Draining b start bound t ∧ (t.mcPending = false → t.EmptyBelow (c + 1)) :=
    fun c hc s passing => routeOneMcQueue_ensures pres hc passing.1 passing.2
  have second : ∀ c < b.numChips, ∀ i < numCpus - 1, ∀ s : Dispatcher π,
      Draining b start bound s →
      (flushOneMcQueue c (i + 1)).Ensures s (Draining b start bound) :=
    fun c hc i hi s inv => (flushOneMcQueue_ensures pres (n := 0) hc (by omega)
      (by simp only [numCpus] at hi ⊢; omega) inv fun _ v hv => absurd hv v.not_lt_zero).mono
        fun t kept => kept.1
  have begin : Draining b start bound { d with mcPending := false } ∧
      (({ d with mcPending := false } : Dispatcher π).mcPending = false →
        ({ d with mcPending := false } : Dispatcher π).EmptyBelow 0) :=
    ⟨inv, fun _ v hv => absurd hv v.not_lt_zero⟩
  refine terminates_seq (terminates_forRange _ first
    (fun c hc s passing => routeOneMcQueue_terminates hc passing.1) begin) ?_
  refine (ensures_forRange _ first begin).mono fun t routed => ?_
  refine terminates_forRange (fun _ => Draining b start bound) (fun c hc s inv =>
    ensures_forRange (fun _ => Draining b start bound) (second c hc) inv) ?_ routed.1
  intro c hc s inv
  refine terminates_forRange (fun _ => Draining b start bound) (second c hc) ?_ inv
  intro i hi s inv
  exact flushOneMcQueue_terminates hc (by omega) (by simp only [numCpus] at hi ⊢; omega)
    inv.inv.valid

/-- Without a reachable cycle the flush finishes, whatever the queues hold and
however often one is found full. -/
theorem flushMcQueues_terminates (valid : d.Valid b)
    (grounded : QueuedGrounded b d.spinEmuRoutes (d.net b)) : (flushMcQueues b).Terminates d := by
  let I (s : Dispatcher π) : Prop := Flushing b d s ∧ QueuedGrounded b d.spinEmuRoutes (s.net b)
  have restart (s : Dispatcher π) (inv : I s) :
      Draining b d (work b d s) { s with mcPending := false } :=
    ⟨inv.1.clear, inv.2, le_rfl, nofun⟩
  apply terminates_while I (fun s => 2 * work b d s + s.mcPending.toNat)
  · intro s inv test
    refine (flushPass_ensures (Draining.preserved d _) (restart s inv)).mono ?_
    rintro t ⟨drained, _⟩
    refine ⟨⟨drained.inv, drained.grounded⟩, ?_⟩
    have le := drained.work_le
    simp only [test, Bool.toNat_true]
    cases flag : t.mcPending with
    | false => simp only [Bool.toNat_false]; omega
    | true => have := drained.work_lt flag; simp only [Bool.toNat_true]; omega
  · exact fun s inv _ => flushPass_terminates (restart s inv)
  · exact ⟨⟨valid, rfl, fun idle => ⟨idle, .refl⟩⟩, grounded⟩

/-- Packets of one key, one of them where its links never end. -/
structure Circulating (b : Board) (start : Dispatcher π) (key : BitVec 32) (d : Dispatcher π) :
    Prop where
  inv : Flushing b start d
  oneKey : Queued (fun _ m => McPacket.key m = key) (d.net b)
  alive : ∃ v, ¬ Grounded (mcLink b start.spinEmuRoutes key) v ∧ (d.net b).queue v ≠ []

theorem Circulating.preserved (start : Dispatcher π) (key : BitVec 32) :
    Preserved b (Circulating b start key) where
  valid inv := inv.inv.valid
  fire {d d' c} inv hc some routed := by
    obtain ⟨kept, step⟩ := inv.inv.fire hc some routed
    have closed : Closed (mcRouting (π := π) b start.spinEmuRoutes) (Finset.range b.numChips)
        fun _ m => McPacket.key m = key :=
      ⟨fun same _ => same, fun _ target => by
        obtain ⟨j, link⟩ := mem_next.mp target
        exact mcLink_inside link⟩
    refine ⟨kept, step.queued closed inv.oneKey, step.alive (R := mcRouting b start.spinEmuRoutes)
      (fun _ => rfl) ?_ inv.oneKey inv.alive⟩
    rintro v m rfl endless
    obtain ⟨t, still, j, link⟩ := exists_not_acc_lt_of_not_acc endless
    exact ⟨t, mem_next.mpr ⟨j, link⟩, (linkTarget_inside (mcLink_linkTarget link)).2.2, still⟩
  send inv hc low high some sent := by
    obtain ⟨kept, same⟩ := inv.inv.send hc low high some sent
    exact ⟨kept, fun v m hm => inv.oneKey v m (same ▸ hm), same ▸ inv.alive⟩

/-- A packet that can reach a cycle keeps the flush from returning: the pass
ends with `mc_pending` set every time. -/
theorem flushMcQueues_never_returns {key : BitVec 32} (valid : d.Valid b)
    (pending : d.mcPending = true) (oneKey : Queued (fun _ m => McPacket.key m = key) (d.net b))
    {c : Nat} (some : (d.net b).queue c ≠ [])
    (cycle : ReachesCycle (mcLink b d.spinEmuRoutes key) c) (t : Dispatcher π) :
    ¬ (flushMcQueues b).Ends d (.ok t) := by
  intro ends
  have endless : ¬ Grounded (mcLink b d.spinEmuRoutes key) c :=
    fun grounded => (mcLink_grounded c).mp grounded cycle
  have begin : Circulating b d key d :=
    ⟨⟨valid, rfl, fun idle => ⟨idle, .refl⟩⟩, oneKey, c, endless, some⟩
  obtain ⟨inv, empty, _⟩ := flushMcQueues_ensures (Circulating.preserved d key)
    (fun inv => ⟨inv.inv.clear, inv.oneKey, inv.alive⟩) begin (by simp [pending]) t ends
  obtain ⟨v, _, packets⟩ := inv.alive
  exact packets (empty.net v)

/-- The flush returns when no queued packet can reach a cycle of its key's
links, unless a position counter overflows. With packets of one key, of which
one can reach a cycle, it does not. -/
theorem flushMcQueues_returns {d : Dispatcher SpinEmuMc} (valid : d.Valid b) :
    ((∀ c < b.numChips, ∀ m ∈ (d.mcQueue c 0).contents,
        ¬ ReachesCycle (mcLink b d.spinEmuRoutes m.key) c) →
      (∃ t, (flushMcQueues b).Ends d (.ok t)) ∨ (flushMcQueues b).Ends d (.error .intOverflow)) ∧
    (∀ key, d.mcPending = true →
      (∀ c < b.numChips, ∀ m ∈ (d.mcQueue c 0).contents, m.key = key) →
      (∃ c < b.numChips, (d.mcQueue c 0).len ≠ 0 ∧
        ReachesCycle (mcLink b d.spinEmuRoutes key) c) →
      ∀ t, ¬ (flushMcQueues b).Ends d (.ok t)) := by
  constructor
  · intro clear
    have grounded : QueuedGrounded b d.spinEmuRoutes (d.net b) := by
      intro c m hm _
      obtain ⟨hc, hm⟩ := mem_net_queue.mp hm
      exact (mcLink_grounded c).mpr (clear c hc m hm)
    obtain ⟨r, ends⟩ := flushMcQueues_terminates valid grounded
    cases r with
    | ok t => exact .inl ⟨t, ends⟩
    | error e =>
      cases e with
      | intOverflow => exact .inr ends
  · rintro key pending oneKey ⟨c, hc, some, cycle⟩
    apply flushMcQueues_never_returns valid pending _ _ cycle
    · intro c m hm
      obtain ⟨hc, hm⟩ := mem_net_queue.mp hm
      exact oneKey c hc m hm
    · intro none
      have contents : (d.mcQueue c 0).contents = [] := by simpa [net, hc] using none
      exact some ((SpinEmuMcQueue.contents_eq_nil (valid c hc 0 (by decide))).mp contents)

/-- One packet in the queue of one chip, on tables as given. -/
def holding (routes : Nat → Nat → SpinEmuRoute) (chip : Nat) (m : SpinEmuMc) :
    Dispatcher SpinEmuMc where
  spinEmuRoutes := routes
  mcQueue c i := ⟨0, if c = chip ∧ i = 0 then 1 else 0, fun _ => m⟩
  mcPending := true
  trace := []

theorem holding_valid (routes : Nat → Nat → SpinEmuRoute) (chip : Nat) (m : SpinEmuMc) :
    (holding routes chip m).Valid b := by
  intro c _ i _
  have range : 0 ≤ (if c = chip ∧ i = 0 then (1 : Int) else 0) ∧
      (if c = chip ∧ i = 0 then (1 : Int) else 0) ≤ spinEmuMcQueueSize := by
    split
    · decide
    · decide
  exact ⟨by simp [holding], by simp [holding, intMax], range.1, range.2⟩

theorem holding_contents {routes : Nat → Nat → SpinEmuRoute} {chip c : Nat} {m n : SpinEmuMc}
    (queued : n ∈ ((holding routes chip m).mcQueue c 0).contents) : n = m := by
  obtain ⟨_, _, same⟩ := List.mem_map.mp queued
  exact same.symm

/-- Two chips side by side whose entries for key 5 send a packet back and forth.
`spin1_set_mc_table_entry(0, 5, 0xFFFFFFFF, ..)` on each chip installs them. -/
def pingPong (c i : Nat) : SpinEmuRoute :=
  if i = 1 then ⟨5, 0xFFFFFFFF, if c = 0 then 1 else 8⟩ else initialRoute

theorem pingPong_match (c : Nat) : firstMatch (pingPong c) 5 = some (pingPong c 1) := by
  apply firstMatch_of_first (by decide)
  · simp [pingPong, SpinEmuRoute.matches]
  · intro k hk
    rw [show k = 0 by omega]
    exact initialRoute_matches 5

theorem pingPong_no_match (c : Nat) : firstMatch (pingPong c) 6 = none := by
  rw [firstMatch_eq_none]
  intro i _
  unfold pingPong
  split
  · simp [SpinEmuRoute.matches]
  · exact initialRoute_matches 6

theorem pingPong_cycle : ReachesCycle (mcLink ⟨2, 1⟩ pingPong 5) 0 := by
  have east : mcLink ⟨2, 1⟩ pingPong 5 0 0 = some 1 := by
    rw [mcLink_some (pingPong_match 0)]
    rfl
  have west : mcLink ⟨2, 1⟩ pingPong 5 1 3 = some 0 := by
    rw [mcLink_some (pingPong_match 1)]
    rfl
  exact ⟨0, .refl, .tail (.single ⟨0, east⟩) ⟨3, west⟩⟩

theorem flushMcQueues_pingPong :
    (holding pingPong 0 ⟨5, 0, 0⟩).Valid ⟨2, 1⟩ ∧
      ¬ ∃ t, (flushMcQueues ⟨2, 1⟩).Ends (holding pingPong 0 ⟨5, 0, 0⟩) (.ok t) := by
  refine ⟨holding_valid _ _ _, fun ⟨t, ends⟩ => ?_⟩
  refine flushMcQueues_never_returns (holding_valid _ _ _) rfl ?_ ?_ pingPong_cycle t ends
  · intro c m hm
    rw [holding_contents (mem_net_queue.mp hm).2]
    rfl
  · decide

theorem flushMcQueues_returns_pingPong :
    ((∃ t, (flushMcQueues ⟨2, 1⟩).Ends (holding pingPong 0 ⟨6, 0, 0⟩) (.ok t)) ∨
      (flushMcQueues ⟨2, 1⟩).Ends (holding pingPong 0 ⟨6, 0, 0⟩) (.error .intOverflow)) ∧
    ∀ t, ¬ (flushMcQueues ⟨2, 1⟩).Ends (holding pingPong 0 ⟨5, 0, 0⟩) (.ok t) := by
  constructor
  · apply (flushMcQueues_returns (holding_valid _ _ _)).1
    intro c _ m hm
    rw [holding_contents hm]
    apply Acyclic.not_reachesCycle
    have edgeless (u w : Nat) : ¬ Edge (mcLink ⟨2, 1⟩ pingPong 6) u w := by
      rintro ⟨j, link⟩
      rw [mcLink_none (pingPong_no_match u)] at link
      cases link
    intro v loop
    cases loop with
    | single edge => exact edgeless _ _ edge
    | tail _ edge => exact edgeless _ _ edge
  · apply (flushMcQueues_returns (holding_valid _ _ _)).2 5 rfl
    · intro c _ m hm
      rw [holding_contents hm]
    · exact ⟨0, by decide, by decide, pingPong_cycle⟩

end Dispatcher
end SpinEmu
