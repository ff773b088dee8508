import SpinEmu.Lib.FlowOrder
import SpinEmu.Delivery

/-! The order of the packets of one key over a whole run of the router: calls of
`dispatch_mc` and rounds of `flush_mc_queues` in any sequence, with tables that
nobody changes. Numbers on the packets tell equal packets apart. -/
namespace SpinEmu
open Lib Lib.Forwarding Lib.Program Lib.LinkGraph Relation

variable {π : Type} [McPacket π] {b : Board}

namespace Dispatcher

/-- One turn of a loop in `flush_mc_queues`. -/
inductive Turn (b : Board) (d : Dispatcher π) : Dispatcher π → Prop where
  | clear : Turn b d { d with mcPending := false }
  | route {c d'} : c < b.numChips → 0 < (d.mcQueue c 0).len → routeFront b c d = .ok d' →
      Turn b d d'
  | send {c i d'} : c < b.numChips → 1 ≤ i → i < numCpus → 0 < (d.mcQueue c i).len →
      sendFront c i d = .ok d' → Turn b d d'

/-- A run from `d`, with the calls of `dispatch_mc` so far and their chips. A
round of `flush_mc_queues` is finished, or it is the turns taken so far. -/
inductive Session (b : Board) (d : Dispatcher π) : List (Nat × π) → Dispatcher π → Prop where
  | start : Session b d [] d
  | dispatch {calls e f c m} : Session b d calls e → c < b.numChips → dispatchMc c m e = .ok f →
      Session b d (calls ++ [(c, m)]) f
  | flush {calls e f} : Session b d calls e → (flushMcQueues b).Ends e (.ok f) →
      Session b d calls f
  | turn {calls e f} : Session b d calls e → Turn b e f → Session b d calls f

/-- Nothing is queued and nothing recorded. -/
structure Idle (b : Board) (d : Dispatcher π) : Prop where
  trace : d.trace = []
  valid : d.Valid b
  empty : ∀ c < b.numChips, ∀ i < numCpus, (d.mcQueue c i).len = 0

/-- What no call changes: the tables, and that a packet waits for the router only. -/
structure Serving (b : Board) (start d : Dispatcher π) : Prop where
  valid : d.Valid b
  cores : d.CoresIdle b
  routes : d.spinEmuRoutes = start.spinEmuRoutes

section Nets
variable {start d d' : Dispatcher π}

omit [McPacket π] in
theorem Serving.dispatch (inv : Serving b start d) {c : Nat} (hc : c < b.numChips) {m : π}
    (called : dispatchMc c m d = .ok d') :
    Serving b start d' ∧ d'.net b = (d.net b).enqueue mcFull m c := by
  obtain ⟨net, keeps⟩ := queueMc_net (c := c) hc inv.valid called
  refine ⟨⟨keeps.valid inv.valid, ?_, keeps.routes.trans inv.routes⟩, net⟩
  intro v hv i low high
  rw [keeps.cores v i (by omega)]
  exact inv.cores v hv i low high

/-- A finished flush is a run of the network, also if it had nothing to do. -/
theorem Serving.flush (inv : Serving b start d) (ends : (flushMcQueues b).Ends d (.ok d')) :
    Serving b start d' ∧
      Run (mcRouting b start.spinEmuRoutes) (Finset.range b.numChips) (d.net b) (d'.net b) := by
  cases pending : d.mcPending with
  | false =>
    cases (ends_while_done pending).unique ends
    exact ⟨inv, .refl⟩
  | true =>
    obtain ⟨flushing, _, _⟩ := flushMcQueues_run inv.valid (fun clear => by simp [pending] at clear)
      d' ends
    obtain ⟨cores, run⟩ := flushing.traced inv.cores
    exact ⟨⟨flushing.valid, cores, flushing.routes.trans inv.routes⟩, inv.routes ▸ run⟩

theorem Serving.turn (inv : Serving b start d) (turn : Turn b d d') :
    Serving b start d' ∧
      Run (mcRouting b start.spinEmuRoutes) (Finset.range b.numChips) (d.net b) (d'.net b) := by
  have flushing : Flushing b d d := ⟨inv.valid, rfl, fun idle => ⟨idle, .refl⟩⟩
  cases turn with
  | clear => exact ⟨⟨inv.valid, inv.cores, inv.routes⟩, .refl⟩
  | route hc some routed =>
    obtain ⟨kept, step⟩ := flushing.fire hc some routed
    exact ⟨⟨kept.valid, (kept.traced inv.cores).1, kept.routes.trans inv.routes⟩,
      .single (inv.routes ▸ step)⟩
  | @send c i _ hc low high some _ =>
    have none := inv.cores c hc i low high
    omega

omit [McPacket π] in
theorem Idle.serving (idle : d.Idle b) : Serving b d d :=
  ⟨idle.valid, fun c hc i _ high => idle.empty c hc i high, rfl⟩

omit [McPacket π] in
theorem Idle.net (idle : d.Idle b) : d.net b = ⟨fun _ => [], []⟩ :=
  Net.ext (funext fun v => EmptyBelow.net (fun v hv => idle.empty v hv 0 (by decide)) v) idle.trace

/-- Induction over a session in terms of the network: the calls enqueue, and
everything else is firings. -/
theorem Session.net_induct (idle : d.Idle b) {I : List (Nat × π) → Net Nat π Nat → Prop}
    (start : I [] ⟨fun _ => [], []⟩)
    (dispatch : ∀ calls n c m, I calls n → c < b.numChips →
      I (calls ++ [(c, m)]) (n.enqueue mcFull m c))
    (fire : ∀ calls n n', I calls n →
      Step (mcRouting b d.spinEmuRoutes) (Finset.range b.numChips) n n' → I calls n')
    {calls : List (Nat × π)} (session : Session b d calls d') :
    Serving b d d' ∧ I calls (d'.net b) := by
  have runs {calls : List (Nat × π)} {n n' : Net Nat π Nat}
      (run : Run (mcRouting b d.spinEmuRoutes) (Finset.range b.numChips) n n')
      (before : I calls n) : I calls n' := by
    induction run with
    | refl => exact before
    | tail _ last ih => exact fire _ _ _ ih last
  induction session with
  | start => exact ⟨idle.serving, idle.net ▸ start⟩
  | dispatch _ hc called ih =>
    obtain ⟨serving, net⟩ := ih.1.dispatch hc called
    exact ⟨serving, net ▸ dispatch _ _ _ _ ih.2 hc⟩
  | flush _ ends ih =>
    obtain ⟨serving, run⟩ := ih.1.flush ends
    exact ⟨serving, runs run ih.2⟩
  | turn _ turn ih =>
    obtain ⟨serving, run⟩ := ih.1.turn turn
    exact ⟨serving, runs run ih.2⟩

end Nets

section Keys
variable {d d' : Dispatcher π} {calls : List (Nat × π)} {key : BitVec 32}

/-- The packets of a key, which begin their way where `origin` says. -/
def keyClass (b : Board) (routes : Nat → Nat → SpinEmuRoute) (key : BitVec 32)
    (origin : π → Nat) : PacketClass Nat π numLinks where
  graph := mcLink b routes key
  own m := McPacket.key m = key
  origin := origin

omit [McPacket π] in
theorem mcExits_nodup (routes : Nat → Nat → SpinEmuRoute) (c : Nat) (key : BitVec 32) :
    (mcExits routes c key).Nodup := by
  apply List.nodup_iff_count_le_one.mpr
  intro j
  rw [count_mcExits]
  split
  · exact le_rfl
  · exact Nat.zero_le 1

/-- Of the paths in the chips' links for a key, at most one joins two chips. -/
def SinglePath (b : Board) (routes : Nat → Nat → SpinEmuRoute) (key : BitVec 32) : Prop :=
  ∀ c < b.numChips, ∀ t < b.numChips, c ≠ t → ∀ ls ls',
    follow (mcLink b routes key) c ls = some t → follow (mcLink b routes key) c ls' = some t →
      ls = ls'

omit [McPacket π] in
theorem SinglePath.onePath {routes : Nat → Nat → SpinEmuRoute} (single : SinglePath b routes key) :
    OnePath (mcLink b routes key) := by
  apply onePath_of_ne
  · exact fun v j step => (linkTarget_inside (mcLink_linkTarget step)).2.2 rfl
  · intro v w apart ls ls' left right
    -- a path to another chip has a first and a last link, which lie on the board
    have inside : v < b.numChips ∧ w < b.numChips := by
      cases ls with
      | nil => exact absurd (Option.some.inj left) apart
      | cons j rest =>
        obtain ⟨u, first, _⟩ := Option.bind_eq_some_iff.mp left
        refine ⟨(linkTarget_inside (mcLink_linkTarget first)).1, ?_⟩
        rcases List.eq_nil_or_concat (j :: rest) with none | ⟨front, l, whole⟩
        · cases none
        · rw [whole] at left
          obtain ⟨x, _, last⟩ := follow_concat_eq_some.mp left
          exact (linkTarget_inside (mcLink_linkTarget last)).2.1
    exact single v inside.1 w inside.2 apart ls ls' left right

theorem Session.inOrder (idle : d.Idle b) (session : Session b d calls d') :
    InOrder (d'.net b) :=
  (session.net_induct idle (I := fun _ n => InOrder n)
    (fun _ _ => List.Sublist.refl _)
    (fun _ _ c m inv _ => inv.enqueue mcFull m c)
    (fun _ _ _ inv step => step.inOrder (fun _ _ => mcExits_nodup _ _ _) inv)).2

/-- The flow of the packets of a key throughout a run. -/
theorem Session.flow (idle : d.Idle b) (single : SinglePath b d.spinEmuRoutes key)
    {origin : π → Nat} (session : Session b d calls d')
    (honest : ∀ call ∈ calls, origin call.2 = call.1) :
    (keyClass b d.spinEmuRoutes key origin).Flow (calls.map Prod.snd) (d'.net b) := by
  let K : PacketClass Nat π numLinks := keyClass b d.spinEmuRoutes key origin
  have one : OnePath K.graph := single.onePath
  have same (m : π) (own : K.own m) : mcLink b d.spinEmuRoutes (McPacket.key m) = K.graph :=
    congrArg (mcLink b d.spinEmuRoutes) own
  let I (calls : List (Nat × π)) (n : Net Nat π Nat) : Prop :=
    InOrder n ∧ ((∀ call ∈ calls, origin call.2 = call.1) → K.Flow (calls.map Prod.snd) n)
  suffices all : I calls (d'.net b) from all.2 honest
  refine (session.net_induct idle (I := I) ⟨fun _ _ => List.Sublist.refl _, fun _ => ?_⟩
    ?_ ?_).2
  · exact ⟨nofun, fun _ _ _ => List.Sublist.refl _, fun _ => List.nil_sublist _⟩
  · intro calls n c m ⟨ordered, flow⟩ _
    refine ⟨ordered.enqueue mcFull m c, fun honest => ?_⟩
    have here : origin m = c := honest (c, m) (List.mem_append_right _ List.mem_cons_self)
    have before := flow fun call member => honest call (List.mem_append_left _ member)
    rw [List.map_append, ← here]
    exact before.enqueue one mcFull m
  · intro calls n n' ⟨ordered, flow⟩ step
    refine ⟨step.inOrder (fun _ _ => mcExits_nodup _ _ _) ordered, fun honest => ?_⟩
    exact (flow honest).fire same one ordered.queued step

end Keys

section Numbers

/-- A packet with the chip and the number of the call that brought it in. -/
abbrev Numbered := SpinEmuMc × Nat × Nat

def numbered (calls : List (Nat × SpinEmuMc)) : List (Nat × Numbered) :=
  calls.zipIdx.map fun call => (call.1.1, call.1.2, call.1.1, call.2)

theorem numbered_snoc (calls : List (Nat × SpinEmuMc)) (c : Nat) (m : SpinEmuMc) :
    numbered (calls ++ [(c, m)]) = numbered calls ++ [(c, m, c, calls.length)] := by
  simp [numbered, List.zipIdx_append]

theorem numbered_origin (calls : List (Nat × SpinEmuMc)) :
    ∀ call ∈ numbered calls, call.2.2.1 = call.1 := by
  intro call member
  obtain ⟨_, _, rfl⟩ := List.mem_map.mp member
  rfl

theorem numbered_nodup (calls : List (Nat × SpinEmuMc)) :
    ((numbered calls).map Prod.snd).Nodup := by
  apply List.Nodup.of_map fun p : Numbered => p.2.2
  have numbers : ((numbered calls).map Prod.snd).map (fun p : Numbered => p.2.2) =
      calls.zipIdx.map Prod.snd := by simp [numbered, Function.comp_def]
  rw [numbers, List.zipIdx_map_snd]
  exact List.nodup_range'

/-- A session of the packets is, call for call, a session of the numbered packets. -/
theorem Session.numbered {d : Dispatcher Numbered} {calls : List (Nat × SpinEmuMc)}
    {e : Dispatcher SpinEmuMc} (session : Session b (d.map Prod.fst) calls e) :
    ∃ M, Session b d (numbered calls) M ∧ M.map Prod.fst = e := by
  have keys (m : Numbered) : McPacket.key m.1 = McPacket.key m := rfl
  induction session with
  | start => exact ⟨d, .start, rfl⟩
  | @dispatch calls e f c m _ hc called ih =>
    obtain ⟨M, before, rfl⟩ := ih
    have marked := map_queueMc Prod.fst M c 0 (m, c, calls.length)
    obtain ⟨N, accepted, same⟩ := map_eq_ok (marked.symm.trans called)
    exact ⟨N, numbered_snoc calls c m ▸ before.dispatch hc accepted, same⟩
  | flush _ ends ih =>
    obtain ⟨M, before, rfl⟩ := ih
    obtain ⟨N, finished, same⟩ := (flushMcQueues_maps keys).lifts ends
    exact ⟨N, before.flush finished, same⟩
  | turn _ turn ih =>
    obtain ⟨M, before, rfl⟩ := ih
    cases turn with
    | clear => exact ⟨{ M with mcPending := false }, before.turn .clear, rfl⟩
    | @route c _ hc some routed =>
      obtain ⟨N, result, same⟩ := map_eq_ok ((map_routeFront keys c M).symm.trans routed)
      exact ⟨N, before.turn (.route hc some result), same⟩
    | @send c i _ hc low high some sent =>
      obtain ⟨N, result, same⟩ := map_eq_ok ((map_sendFront c i M).symm.trans sent)
      exact ⟨N, before.turn (.send hc low high some result), same⟩

/-- The packets of a key. -/
def ofKey (key : BitVec 32) (packets : List Numbered) : List Numbered :=
  packets.filter fun p => p.1.key = key

/-- Those that a call for chip `c` brought in. -/
def calledAt (c : Nat) (packets : List Numbered) : List Numbered :=
  packets.filter fun p => p.2.1 = c

/-- The packets of a key in the records of a run: those that enter a chip's queue
by a call do so once and in the order of the calls, and they come to a core in
this order; so do all that enter the queue, by a call or over a link, at a core
to which the chip's links lead. No core gets a packet twice. -/
structure KeyOrdered (b : Board) (routes : Nat → Nat → SpinEmuRoute) (key : BitVec 32)
    (calls : List (Nat × Numbered)) (log : List (McEvent Numbered)) : Prop where
  once : ∀ c, (ofKey key (entered c log)).Nodup
  called : ∀ c, (calledAt c (ofKey key (entered c log))).Sublist (calls.map Prod.snd)
  sent : ∀ c v j, (calledAt c (ofKey key (departed v j log))).Sublist
    (calledAt c (ofKey key (entered c log)))
  forwarded : ∀ c v j, ReflTransGen (Edge (mcLink b routes key)) c v →
    ((ofKey key (departed v j log)).filter (· ∈ entered c log)).Sublist
      (ofKey key (entered c log))
  delivered : ∀ v j, (ofKey key (departed v j log)).Nodup

section Classes
variable {key : BitVec 32}

theorem starting_eq (routes : Nat → Nat → SpinEmuRoute) (c : Nat) (packets : List Numbered) :
    (keyClass b routes key fun p => p.2.1).starting c packets = calledAt c (ofKey key packets) := by
  rw [PacketClass.starting, calledAt, ofKey, List.filter_filter]
  apply List.filter_congr
  intro p _
  simp [keyClass, and_comm]

/-- What has been at a chip is on its way there. -/
theorem via_eq {routes : Nat → Nat → SpinEmuRoute} {c : Nat} {packets : List Numbered}
    (reach : ∀ p ∈ packets, p.1.key = key →
      (keyClass b routes key fun p => p.2.1).Reaches c p) :
    (keyClass b routes key fun p => p.2.1).via c packets = ofKey key packets := by
  apply List.filter_congr
  intro p member
  by_cases own : p.1.key = key
  · simp [own, reach p member own]
  · have away : ¬ (keyClass b routes key fun p => p.2.1).Reaches c p := fun h => own h.1
    simp [own, away]

end Classes

theorem Session.keyOrdered {d T : Dispatcher Numbered} {calls : List (Nat × Numbered)}
    {key : BitVec 32} (idle : d.Idle b) (single : SinglePath b d.spinEmuRoutes key)
    (session : Session b d calls T) (honest : ∀ call ∈ calls, call.2.2.1 = call.1)
    (distinct : (calls.map Prod.snd).Nodup) :
    KeyOrdered b d.spinEmuRoutes key calls T.trace := by
  let K : PacketClass Nat Numbered numLinks := keyClass b d.spinEmuRoutes key fun p => p.2.1
  have ordered := session.inOrder idle
  have flow : K.Flow (calls.map Prod.snd) (T.net b) := session.flow idle single honest
  have seen (c : Nat) : K.via c (entered c T.trace) = ofKey key (entered c T.trace) :=
    via_eq (flow.reach c)
  have once (c : Nat) : (ofKey key (entered c T.trace)).Nodup := seen c ▸ flow.nodup distinct c
  refine ⟨once, fun c => ?_, fun c v j => ?_, fun c v j path => ?_, fun v j => ?_⟩
  · exact starting_eq d.spinEmuRoutes c (entered c T.trace) ▸ flow.starts c
  · have := flow.starting_departs ordered c v j
    rwa [starting_eq, starting_eq] at this
  · have been : ((ofKey key (departed v j T.trace)).filter (· ∈ entered c T.trace)).Sublist
        (K.via c (departed v j T.trace)) := by
      rw [ofKey, List.filter_filter]
      refine List.monotone_filter_right _ fun p member => ?_
      simp only [Bool.and_eq_true, decide_eq_true_eq] at member ⊢
      exact flow.reach c p member.1 member.2
    exact seen c ▸ been.trans (flow.departs ordered path j)
  · exact (once v).sublist ((ordered.departed_sublist v j).filter _)

/-- Per-key order, for every board, all tables and every sequence of calls and
rounds in which no `int` overflows: the run is one of numbered packets, and the
packets of each key whose links join two chips by one path at most stay in order,
whatever else is routed and whatever finds a queue full. -/
theorem session_keyOrdered {d e : Dispatcher SpinEmuMc} {calls : List (Nat × SpinEmuMc)}
    (idle : d.Idle b) (session : Session b d calls e) :
    ∃ T, Session b (d.map (·, 0, 0)) (numbered calls) T ∧ T.map Prod.fst = e ∧
      ∀ key, SinglePath b d.spinEmuRoutes key →
        KeyOrdered b d.spinEmuRoutes key (numbered calls) T.trace := by
  have plain : (d.map (·, 0, 0)).map Prod.fst = d := by
    cases d
    cases idle.trace
    rfl
  obtain ⟨T, marked, same⟩ := Session.numbered (plain.symm ▸ session)
  have fresh : (d.map (·, 0, 0)).Idle b :=
    ⟨by rw [map, idle.trace, List.map_nil],
      fun c hc i hi => by
        obtain ⟨low, high, some, le⟩ := idle.valid c hc i hi
        exact ⟨low, high, some, le⟩,
      idle.empty⟩
  exact ⟨T, marked, same, fun key single =>
    marked.keyOrdered fresh single (numbered_origin calls) (numbered_nodup calls)⟩

end Numbers

/-- Empty queues on the tables of `relay`. -/
def relayIdle : Dispatcher SpinEmuMc := { idleDispatcher with spinEmuRoutes := relay }

theorem relayIdle_idle : relayIdle.Idle ⟨2, 1⟩ where
  trace := rfl
  valid _ _ _ _ := by
    constructor <;> simp [relayIdle, idleDispatcher, intMax, spinEmuMcQueueSize]
  empty _ _ _ _ := rfl

theorem relay_single : SinglePath ⟨2, 1⟩ relay 5 := by
  have only (c t : Nat) (apart : c ≠ t) (ls : List (Fin numLinks))
      (path : follow (mcLink ⟨2, 1⟩ relay 5) c ls = some t) : ls = [0] := by
    cases ls with
    | nil => exact absurd (Option.some.inj path) apart
    | cons j rest =>
      obtain ⟨w, first, onward⟩ := Option.bind_eq_some_iff.mp path
      obtain ⟨_, rfl, away⟩ := relay_link first
      cases rest with
      | nil => rfl
      | cons j' rest =>
        obtain ⟨_, second, _⟩ := Option.bind_eq_some_iff.mp onward
        exact absurd (relay_link second).1 away
  intro c _ t _ apart ls ls' left right
  rw [only c t apart ls left, only c t apart ls' right]

theorem session_keyOrdered_relay :
    ∃ T, Session ⟨2, 1⟩ (relayIdle.map (·, 0, 0)) (numbered [(0, ⟨5, 7, 1⟩), (0, ⟨5, 7, 1⟩)]) T ∧
      KeyOrdered ⟨2, 1⟩ relay 5 (numbered [(0, ⟨5, 7, 1⟩), (0, ⟨5, 7, 1⟩)]) T.trace := by
  let m : SpinEmuMc := ⟨5, 7, 1⟩
  obtain ⟨f, called, returns⟩ : ∃ f, Session ⟨2, 1⟩ relayIdle (([] ++ [(0, m)]) ++ [(0, m)]) f ∧
      returnsWithin (flushMcQueues ⟨2, 1⟩) 4 f = true :=
    ⟨_, .dispatch (.dispatch .start (by decide) rfl) (by decide) rfl, by decide +kernel⟩
  obtain ⟨e, flushed⟩ := ends_of_returnsWithin returns
  obtain ⟨T, session, _, order⟩ := session_keyOrdered relayIdle_idle (called.flush flushed)
  exact ⟨T, session, order 5 relay_single⟩

end Dispatcher
end SpinEmu
