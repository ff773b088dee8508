import SpinEmu.RouterNet

/-! The flush of the packet queues. A pass clears `mc_pending`, so a pass that
ends with the flag still clear has left every queue empty; a pass that ends with
the flag set has routed a packet, which makes the remaining work smaller. -/
namespace SpinEmu
open Lib Lib.Forwarding Lib.Program Lib.LinkGraph

variable {π : Type} {b : Board}

namespace Dispatcher

def EmptyBelow (d : Dispatcher π) (c : Nat) : Prop := ∀ v < c, (d.mcQueue v 0).len = 0

/-- A turn of `flush_one_mc_queue` touches the queue of that core only. -/
theorem sendFront_spec {d d' : Dispatcher π} {c i : Nat} (hc : c < b.numChips) (low : 1 ≤ i)
    (high : i < numCpus) (valid : d.Valid b) (some : 0 < (d.mcQueue c i).len)
    (h : sendFront c i d = .ok d') :
    d'.Valid b ∧ (d'.mcQueue c i).len = (d.mcQueue c i).len - 1 ∧
      (∀ v, d'.mcQueue v 0 = d.mcQueue v 0) ∧ d'.spinEmuRoutes = d.spinEmuRoutes ∧
      d'.mcPending = d.mcPending := by
  obtain ⟨q, advanced, result⟩ := bind_ok h
  cases result
  have kept := SpinEmuMcQueue.advance_contents (valid c hc i high) some advanced
  obtain ⟨_, rfl⟩ := SpinEmuMcQueue.advance_ok advanced
  have valid' : (d.spinEmuSendMc c i (d.mcQueue c i).front).Valid b := valid
  refine ⟨setQueue_valid valid' kept.1, by rw [setQueue_self]; rfl, fun v => ?_, rfl, rfl⟩
  rw [setQueue_of_ne _ _ (.inr (by omega))]
  rfl

variable [McPacket π]

/-- Facts that hold across the turns of both drain loops. -/
structure Preserved (b : Board) (I : Dispatcher π → Prop) : Prop where
  valid : ∀ {d}, I d → d.Valid b
  fire : ∀ {d d' c}, I d → c < b.numChips → 0 < (d.mcQueue c 0).len →
    routeFront b c d = .ok d' → I d'
  send : ∀ {d d' c i}, I d → c < b.numChips → 1 ≤ i → i < numCpus → 0 < (d.mcQueue c i).len →
    sendFront c i d = .ok d' → I d'

section Pass
variable {I : Dispatcher π → Prop} {d : Dispatcher π} {c : Nat}

omit [McPacket π] in
theorem positive_of_test (valid : d.Valid b) {i : Nat} (hc : c < b.numChips) (hi : i < numCpus)
    (test : ((d.mcQueue c i).len != 0) = true) : 0 < (d.mcQueue c i).len := by
  have := (valid c hc i hi).len_nonneg
  have : (d.mcQueue c i).len ≠ 0 := by simpa using test
  omega

theorem routeOneMcQueue_ensures (pres : Preserved b I) (hc : c < b.numChips) (inv : I d)
    (behind : d.mcPending = false → d.EmptyBelow c) :
    (routeOneMcQueue b c).Ensures d fun t =>
      I t ∧ (t.mcPending = false → t.EmptyBelow (c + 1)) := by
  refine (ensures_while (fun s => I s ∧ (s.mcPending = false → s.EmptyBelow c)) ?_
    ⟨inv, behind⟩).mono ?_
  · rintro s ⟨inv, behind⟩ test
    apply ensures_act
    intro t routed
    have some := positive_of_test (pres.valid inv) hc (by decide) test
    refine ⟨pres.fire inv hc some routed, fun quiet v hv => ?_⟩
    obtain ⟨before, same⟩ := (routeFront_net hc (pres.valid inv) some routed).2.quiet quiet
    rw [same v (by omega)]
    exact behind before v hv
  · rintro t ⟨⟨inv, behind⟩, done⟩
    refine ⟨inv, fun quiet v hv => ?_⟩
    rcases Nat.lt_succ_iff_lt_or_eq.mp hv with earlier | rfl
    · exact behind quiet v earlier
    · simpa using done

theorem flushOneMcQueue_ensures (pres : Preserved b I) {i n : Nat} (hc : c < b.numChips)
    (low : 1 ≤ i) (high : i < numCpus) (inv : I d)
    (behind : d.mcPending = false → d.EmptyBelow n) :
    (flushOneMcQueue c i).Ensures d fun t => I t ∧ (t.mcPending = false → t.EmptyBelow n) := by
  refine (ensures_while (fun s => I s ∧ (s.mcPending = false → s.EmptyBelow n)) ?_
    ⟨inv, behind⟩).mono fun t done => done.1
  rintro s ⟨inv, behind⟩ test
  apply ensures_act
  intro t sent
  have some := positive_of_test (pres.valid inv) hc high test
  obtain ⟨_, _, same, _, flag⟩ := sendFront_spec hc low high (pres.valid inv) some sent
  refine ⟨pres.send inv hc low high some sent, fun quiet v hv => ?_⟩
  rw [same v]
  exact behind (flag ▸ quiet) v hv

theorem flushPass_ensures (pres : Preserved b I) (inv : I { d with mcPending := false }) :
    (flushPass b).Ensures d fun t =>
      I t ∧ (t.mcPending = false → t.EmptyBelow b.numChips) := by
  apply ensures_seq
  apply ensures_act
  rintro t cleared
  cases cleared
  apply ensures_seq
  refine (ensures_forRange (fun c t => I t ∧ (t.mcPending = false → t.EmptyBelow c))
    (fun c hc s passing => routeOneMcQueue_ensures pres hc passing.1 passing.2)
    ⟨inv, fun _ v hv => absurd hv v.not_lt_zero⟩).mono fun t routed => ?_
  apply ensures_forRange (fun _ t => I t ∧ (t.mcPending = false → t.EmptyBelow b.numChips)) _ routed
  intro c hc s passing
  apply ensures_forRange (fun _ t => I t ∧ (t.mcPending = false → t.EmptyBelow b.numChips)) _ passing
  intro i hi s passing
  exact flushOneMcQueue_ensures pres hc (by omega) (by simp only [numCpus] at hi ⊢; omega)
    passing.1 passing.2

/-- What a finished flush leaves, given facts that its turns and the clearing of
the flag preserve. -/
theorem flushMcQueues_ensures (pres : Preserved b I)
    (clear : ∀ {s}, I s → I { s with mcPending := false }) (inv : I d)
    (pending : d.mcPending = false → d.EmptyBelow b.numChips) :
    (flushMcQueues b).Ensures d fun t =>
      I t ∧ t.EmptyBelow b.numChips ∧ t.mcPending = false := by
  refine (ensures_while (fun s => I s ∧ (s.mcPending = false → s.EmptyBelow b.numChips)) ?_
    ⟨inv, pending⟩).mono ?_
  · rintro s ⟨inv, _⟩ _
    exact flushPass_ensures pres (clear inv)
  · rintro t ⟨⟨inv, empty⟩, quiet⟩
    exact ⟨inv, empty quiet, quiet⟩

end Pass

/-- What holds throughout the flush that began at `start`. With the queues of
the cores empty, the flush is a run of the network. -/
structure Flushing (b : Board) (start d : Dispatcher π) : Prop where
  valid : d.Valid b
  routes : d.spinEmuRoutes = start.spinEmuRoutes
  traced : start.CoresIdle b → d.CoresIdle b ∧
    Run (mcRouting b start.spinEmuRoutes) (Finset.range b.numChips) (start.net b) (d.net b)

variable {start d d' : Dispatcher π}

theorem Flushing.fire (inv : Flushing b start d) {c : Nat} (hc : c < b.numChips)
    (some : 0 < (d.mcQueue c 0).len) (h : routeFront b c d = .ok d') :
    Flushing b start d' ∧
      Step (mcRouting b start.spinEmuRoutes) (Finset.range b.numChips) (d.net b) (d'.net b) := by
  obtain ⟨step, keeps⟩ := routeFront_net hc inv.valid some h
  rw [inv.routes] at step
  refine ⟨⟨keeps.valid inv.valid, keeps.routes.trans inv.routes, fun idle => ?_⟩, step⟩
  obtain ⟨still, run⟩ := inv.traced idle
  refine ⟨fun v hv i low high => ?_, run.tail step⟩
  rw [keeps.cores v i (by omega)]
  exact still v hv i low high

theorem Flushing.send (inv : Flushing b start d) {c i : Nat} (hc : c < b.numChips) (low : 1 ≤ i)
    (high : i < numCpus) (some : 0 < (d.mcQueue c i).len) (h : sendFront c i d = .ok d') :
    Flushing b start d' ∧ (d'.net b).queue = (d.net b).queue := by
  obtain ⟨valid, _, same, routes, _⟩ := sendFront_spec hc low high inv.valid some h
  refine ⟨⟨valid, routes.trans inv.routes, fun idle => ?_⟩, ?_⟩
  · have := (inv.traced idle).1 c hc i low high
    omega
  · funext v
    simp only [net, same]

theorem Flushing.preserved (start : Dispatcher π) : Preserved b (Flushing b start) where
  valid inv := inv.valid
  fire inv hc some routed := (inv.fire hc some routed).1
  send inv hc low high some sent := (inv.send hc low high some sent).1

theorem Flushing.clear {s : Dispatcher π} (inv : Flushing b start s) :
    Flushing b start { s with mcPending := false } :=
  ⟨inv.valid, inv.routes, inv.traced⟩

omit [McPacket π] in
theorem mem_net_queue {c : Nat} {m : π} :
    m ∈ (d.net b).queue c ↔ c < b.numChips ∧ m ∈ (d.mcQueue c 0).contents := by
  by_cases hc : c < b.numChips <;> simp [net, hc]

omit [McPacket π] in
theorem EmptyBelow.net (empty : d.EmptyBelow b.numChips) (v : Nat) : (d.net b).queue v = [] := by
  by_cases hv : v < b.numChips
  · have none : (d.mcQueue v 0).contents.length = 0 := by
      rw [SpinEmuMcQueue.length_contents, empty v hv]
      rfl
    simp [Dispatcher.net, hv, List.length_eq_zero_iff.mp none]
  · simp [Dispatcher.net, hv]

/-- A finished flush has made a run of the network and has emptied it. -/
theorem flushMcQueues_run (valid : d.Valid b)
    (pending : d.mcPending = false → d.EmptyBelow b.numChips) :
    (flushMcQueues b).Ensures d fun t =>
      Flushing b d t ∧ t.EmptyBelow b.numChips ∧ t.mcPending = false :=
  flushMcQueues_ensures (Flushing.preserved d) Flushing.clear
    ⟨valid, rfl, fun idle => ⟨idle, .refl⟩⟩ pending

end Dispatcher
end SpinEmu
