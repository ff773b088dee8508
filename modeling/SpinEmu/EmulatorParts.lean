import SpinEmu.EmulatorRuns
import SpinEmu.EmuMain

/-! What holds in every run of the emulator: each datagram is taken by the other side, the
barrier's model and the requests' model follow the run, and no multicast packet is made up. -/
namespace SpinEmu
open Dispatcher Lib.Machine

theorem forall_update_append {ι α : Type} [DecidableEq ι] {g : ι → List α} {v u : ι} {l : List α}
    {Q : α → Prop} (before : ∀ u, ∀ x ∈ g u, Q x) (new : ∀ x ∈ l, Q x) :
    ∀ x ∈ Function.update g v (g v ++ l) u, Q x := by
  by_cases same : u = v
  · subst same
    rw [Function.update_self]
    exact List.forall_mem_append.mpr ⟨before u, new⟩
  · rw [Function.update_of_ne same]
    exact before u

theorem forall_update_sublist {ι α : Type} [DecidableEq ι] {g : ι → List α} {v u : ι} {l : List α}
    {Q : α → Prop} (before : ∀ u, ∀ x ∈ g u, Q x) (part : l.Sublist (g v)) :
    ∀ x ∈ Function.update g v l u, Q x := by
  by_cases same : u = v
  · subst same
    rw [Function.update_self]
    exact fun x member => before u x (part.subset member)
  · rw [Function.update_of_ne same]
    exact before u

namespace Emulator
variable {k : Nat} {past coreMap : Nat → BitVec 32} {s t : Emulator} {a : EmulatorAction}
  {P : SpinEmuMc → Prop}

/-- Only packets with the property are sent. -/
def Sends (P : SpinEmuMc → Prop) (a : EmulatorAction) : Prop :=
  ∀ v key data load, a = .sendMc v key data load → P (spin1SendMcPacket key data load).received

/-- What is on the sockets and in the queues, and what the applications have received. -/
structure Sockets (P : SpinEmuMc → Prop) (s : Emulator) : Prop where
  queued : ∀ id c, ∀ m ∈ s.sdp.sdpQueue id c, m.Clean
  up : ∀ v, ∀ f ∈ s.up v, f.Upward
  down : ∀ v, ∀ f ∈ s.down v, f.Downward
  events : ∀ v, ∀ x ∈ s.events v, ∃ m, P m ∧ x ∈ mcEvents m

theorem Sockets.send (sockets : Sockets P s) {v : Nat × Nat} {out : List Frame}
    (fine : ∀ f ∈ out, f.Upward) : Sockets P (s.send v out) :=
  ⟨sockets.queued, fun _ => forall_update_append sockets.up fine, sockets.down, sockets.events⟩

theorem Sockets.dispatch {stale : Nat → Byte} (sockets : Sockets P s)
    (step : Dispatches k stale s t) : Sockets P t := by
  obtain ⟨queued, up, down, events⟩ := sockets
  have rest {v : Nat × Nat} {f : Frame} {more : List Frame} (waiting : s.up v = f :: more)
      (u : Nat × Nat) : ∀ f ∈ Function.update s.up v more u, f.Upward :=
    forall_update_sublist up (waiting ▸ List.sublist_cons_self f more)
  cases step with
  | listened | scanned | scanEmpty | pending | quiet | routed | routeEmpty | sent | sendEmpty
  | flushed => exact ⟨queued, up, down, events⟩
  | recvMc _ waiting | recvRoute _ waiting | recvFinished _ waiting =>
    exact ⟨queued, rest waiting, down, events⟩
  | recvSdp _ waiting read dispatched =>
    have grows := SdpDispatcher.dispatchSdpOne_grows (Frame.clean_of_upward read) dispatched
    exact ⟨grows.forall queued, rest waiting, down, events⟩
  | route | send =>
    refine ⟨queued, up, fun u => List.forall_mem_append.mpr ⟨down u, fun f member => ?_⟩, events⟩
    obtain ⟨m, _, rfl⟩ := List.mem_map.mp member
    exact .mc m
  | @flush v rest phase =>
    refine ⟨?_, up, fun _ => forall_update_append down fun f member => ?_, events⟩
    · exact @forall_setAt _ s.sdp.sdpQueue _ _ _ _ (fun m none => absurd none List.not_mem_nil) queued
    · obtain ⟨m, waiting, rfl⟩ := List.mem_map.mp member
      exact .sdp stale (queued v.1 v.2 m waiting)

theorem Sockets.step (sockets : Sockets P s) (linked : Linked k past coreMap s)
    (traffic : Traffic k (fun _ => P) (fun _ => P) (s.system k))
    (step : Acts k past coreMap s a t) : Sockets P t := by
  have left {v : Nat × Nat} {f : Frame} {rest : List Frame} (waiting : s.down v = f :: rest) :
      Sockets P { s with down := Function.update s.down v rest } :=
    ⟨sockets.queued, sockets.up,
      fun _ => forall_update_sublist sockets.down (waiting ▸ List.sublist_cons_self f rest),
      sockets.events⟩
  have one {v : Nat × Nat} {f : Frame} (fine : f.Upward) : Sockets P (s.send v [f]) :=
    sockets.send fun _ member => List.mem_singleton.mp member ▸ fine
  cases step with
  | ether received =>
    have grows := SdpDispatcher.receiveMsgFromEther_grows SdpMsg.Clean.rewritten
      (fun _ => message_clean) received
    exact ⟨grows.forall sockets.queued, sockets.up, sockets.down, sockets.events⟩
  | @run v m on moved =>
    have sent : Sockets P (s.send v (m.out.map Frame.ofDatagram)) := by
      refine sockets.send fun f member => ?_
      obtain ⟨d, out, rfl⟩ := List.mem_map.mp member
      cases d with
      | mc x => exact .mc x
      | route p => exact .route (linked.fits on moved out)
    exact ⟨sent.queued, sent.up, sent.down, sent.events⟩
  | resend => exact one (.mc _)
  | @takeMc v _ _ _ f rest m on waiting read =>
    have kept := left waiting
    refine ⟨kept.queued, kept.up, kept.down, fun _ => ?_⟩
    refine forall_update_append sockets.events fun x member => ⟨m, traffic.down v m ?_, member⟩
    simp only [system, waiting, List.filterMap_cons, Frame.mcDown, read]
    exact List.mem_cons_self
  | skipMc waiting => exact left waiting
  | takeSdp waiting =>
    refine (left waiting).send fun f member => ?_
    obtain ⟨reply, _, rfl⟩ := List.mem_map.mp member
    exact .sdp _ reply
  | sendMc => exact one (.mc _)
  | setRoute guard => exact one (.route (fits_of_appEntry (Bool.and_eq_true _ _ ▸ guard).2))
  | sendSdp => exact one (.sdp _ _)
  | stop => exact one .finished
  | dispatch step => exact sockets.dispatch step
  | loseMcUp | loseSdpUp =>
    exact ⟨sockets.queued, fun _ => forall_update_sublist sockets.up (List.eraseIdx_sublist _ _),
      sockets.down, sockets.events⟩
  | loseMcDown =>
    exact ⟨sockets.queued, sockets.up,
      fun _ => forall_update_sublist sockets.down (List.eraseIdx_sublist _ _), sockets.events⟩

/-- Everything that is kept along the runs in which only packets with the property are sent. -/
structure Kept (k : Nat) (past coreMap : Nat → BitVec 32) (P : SpinEmuMc → Prop) (s : Emulator) :
    Prop where
  linked : Linked k past coreMap s
  traffic : Traffic k (fun _ => P) (fun _ => P) (s.system k)
  sockets : Sockets P s

theorem kept_initial (k : Nat) (past coreMap : Nat → BitVec 32) (P : SpinEmuMc → Prop)
    (sdp : SdpDispatcher) : Kept k past coreMap P (initial k sdp) where
  linked := ⟨sound_initial, traffic_initial⟩
  traffic := traffic_initial
  sockets := ⟨fun _ _ => nofun, fun _ => nofun, fun _ => nofun, fun _ => nofun⟩

theorem Kept.step (barrier : ∀ key ∈ barrierKeys, P ⟨key, 0, 0⟩) (kept : Kept k past coreMap P s)
    (sends : Sends P a) (step : s.step k past coreMap a = some t) :
    Kept k past coreMap P t ∧ Follows k past coreMap a s t := by
  have acts := step_acts step
  have follows := step_follows kept.linked kept.sockets.queued acts
  refine ⟨⟨kept.linked.follows follows, ?_, kept.sockets.step kept.linked kept.traffic acts⟩, follows⟩
  rcases follows with same | ⟨b, shadows, typed⟩
  · exact same ▸ kept.traffic
  · refine kept.traffic.only barrier kept.linked.sound (fun v m packet => ?_) typed
    obtain ⟨key, data, load, here, rfl⟩ := shadows.packet v m packet
    exact sends v key data load here

theorem run_kept {sdp : SdpDispatcher} (barrier : ∀ key ∈ barrierKeys, P ⟨key, 0, 0⟩)
    (run : Run (Emulator.step k past coreMap) (fun _ => Sends P) (initial k sdp) t) :
    Kept k past coreMap P t :=
  run.invariant (fun kept sends step => (kept.step barrier sends step).1)
    (kept_initial k past coreMap P sdp)

theorem run_any {sdp : SdpDispatcher}
    (run : Run (Emulator.step k past coreMap) (fun _ _ => True) (initial k sdp) t) :
    Kept k past coreMap (fun _ => True) t :=
  run_kept (fun _ _ => trivial) (run.weaken fun _ _ _ _ _ _ _ _ => trivial)

/-- Applications send no messages of their own, and the replies of the cores are not lost. -/
def Answering (s : Emulator) : EmulatorAction → Prop
  | .sendSdp _ _ _ => False
  | .loseUp v n => ∀ m, ((s.up v)[n]?).bind Frame.upward ≠ some (.sdp m)
  | _ => True

/-- Two cores of one chip go through the barrier. Meanwhile a host asks core 1 for its
version, and core 1 sets a route to core 2 and sends a packet there. -/
def oneChipTraffic : List EmulatorAction := List.flatten
  [[.ether (fun _ => 0) (verRequest 1 1)], List.replicate 6 (.run (0, 1)),
    [.setRoute (0, 1) ⟨4, ⟨7, 0xffffffff, 0x100⟩⟩], List.replicate 7 (.run (0, 1)),
    List.replicate 7 (.run (0, 2)), [.sendMc (0, 1) 7 5 1],
    List.replicate 80 (.dispatch fun _ => 0),
    [.read (0, 1) (fun _ => 0) (fun _ => 0) 0, .run (0, 1), .run (0, 1)],
    List.replicate 70 (.dispatch fun _ => 0),
    List.replicate 2 (.read (0, 2) (fun _ => 0) (fun _ => 0) 0), [.run (0, 2)],
    [.read (0, 1) (fun _ => 0) (fun _ => 0) 0]]

/-- Such a run sets no entry for the barrier, sends one packet, and loses no reply. -/
structure Sevens (s : Emulator) (a : EmulatorAction) : Prop where
  answering : Answering s a
  route : ∀ v p, a = .setRoute v p → p.entry.sparesBarrier = true
  packet : ∀ v key data load, a = .sendMc v key data load →
    (key, if load = 0 then 0 else data) = (7, 5)

theorem oneChipTraffic_sevens (s : Emulator) : ∀ a ∈ oneChipTraffic, Sevens s a := by
  have quiet {a : EmulatorAction} (answering : Answering s a)
      (route : ∀ v p, a ≠ .setRoute v p) (packet : ∀ v key data load, a ≠ .sendMc v key data load) :
      Sevens s a :=
    ⟨answering, fun v p same => absurd same (route v p),
      fun v key data load same => absurd same (packet v key data load)⟩
  have many {a : EmulatorAction} (n : Nat) (fine : Sevens s a) :
      ∀ b ∈ List.replicate n a, Sevens s b :=
    fun b member => List.eq_of_mem_replicate member ▸ fine
  have runs (v : Nat × Nat) : Sevens s (.run v) :=
    quiet trivial (fun _ _ => nofun) fun _ _ _ _ => nofun
  have reads (v : Nat × Nat) : Sevens s (.read v (fun _ => 0) (fun _ => 0) 0) :=
    quiet trivial (fun _ _ => nofun) fun _ _ _ _ => nofun
  have dispatches : Sevens s (.dispatch fun _ => 0) :=
    quiet trivial (fun _ _ => nofun) fun _ _ _ _ => nofun
  have request : Sevens s (.ether (fun _ => 0) (verRequest 1 1)) :=
    quiet trivial (fun _ _ => nofun) fun _ _ _ _ => nofun
  have route : Sevens s (.setRoute (0, 1) ⟨4, ⟨7, 0xffffffff, 0x100⟩⟩) := by
    refine ⟨trivial, fun v p same => ?_, fun _ _ _ _ => nofun⟩
    cases same
    decide
  have packet : Sevens s (.sendMc (0, 1) 7 5 1) := by
    refine ⟨trivial, fun _ _ => nofun, fun v key data load same => ?_⟩
    cases same
    rfl
  simp only [oneChipTraffic, List.flatten_cons, List.flatten_nil, List.forall_mem_append,
    List.forall_mem_cons, List.not_mem_nil, false_imp_iff, implies_true, and_true]
  exact ⟨request, many 6 (runs _), route, many 7 (runs _), many 7 (runs _), packet,
    many 80 dispatches, ⟨reads _, runs _, runs _⟩, many 70 dispatches, many 2 (reads _), runs _,
    reads _⟩

theorem oneChip_run : ∃ t, Run (Emulator.step 0 (fun _ => 0) fun _ => 6) Sevens
    (initial 0 (remembering 0)) t ∧ t.events (0, 2) = [(7, 5)] ∧ t.up (0, 1) ≠ [] ∧
    (t.core (0, 2)).pc = .left := by
  obtain ⟨t, run, passes⟩ := exists_run (Emulator.step 0 (fun _ => 0) fun _ => 6) Sevens
    (initial 0 (remembering 0)) oneChipTraffic
    (fun t => t.events (0, 2) == [(7, 5)] && (t.up (0, 1) != [] && (t.core (0, 2)).pc == .left))
    oneChipTraffic_sevens (by decide +kernel)
  simp only [Bool.and_eq_true, beq_iff_eq, bne_iff_ne] at passes
  exact ⟨t, run, passes⟩

/-- In every run, what is on a socket is a datagram that the other end takes. -/
theorem datagrams_taken {sdp : SdpDispatcher}
    (run : Run (Emulator.step k past coreMap) (fun _ _ => True) (initial k sdp) t)
    (v : Nat × Nat) :
    (∀ f ∈ t.up v, f.Upward ∧ f.upward.isSome) ∧ ∀ f ∈ t.down v, f.Downward ∧ f.downward.isSome := by
  obtain ⟨_, _, sockets⟩ := run_any run
  exact ⟨fun f member => ⟨sockets.up v f member, (sockets.up v f member).taken⟩,
    fun f member => ⟨sockets.down v f member, (sockets.down v f member).taken⟩⟩

theorem datagrams_taken_oneChip : ∃ t : Emulator, t.up (0, 1) ≠ [] ∧
    (∀ f ∈ t.up (0, 1), f.Upward ∧ f.upward.isSome) ∧
    ∀ f ∈ t.down (0, 1), f.Downward ∧ f.downward.isSome := by
  obtain ⟨t, run, _, waiting, _⟩ := oneChip_run
  exact ⟨t, waiting, datagrams_taken (run.weaken fun _ _ _ => trivial) (0, 1)⟩

/-- Every run of the emulator is a run of the barrier's model in which the applications set
the same entries, once the SDP messages are taken away and the bytes are read. -/
theorem run_system {sdp : SdpDispatcher} {Sets : SpinEmuRoutePacket → Prop}
    (run : Run (Emulator.step k past coreMap) (fun _ a => ∀ v p, a = .setRoute v p → Sets p)
      (initial k sdp) t) :
    Run (System.step k past coreMap) (fun _ b => ∀ v p, b = .appRoute v p → Sets p)
      (System.initial k) (t.system k) := by
  have sends (a : EmulatorAction) : Sends (fun _ => True) a := fun _ _ _ _ _ => trivial
  have simulated : ∃ x, (x = t.system k ∧ Kept k past coreMap (fun _ => True) t) ∧
      Run (System.step k past coreMap) (fun _ b => ∀ v p, b = .appRoute v p → Sets p)
        (System.initial k) x := by
    refine run.simulate (R := fun s x => x = s.system k ∧ Kept k past coreMap (fun _ => True) s)
      ?_ ⟨rfl, kept_initial k past coreMap _ sdp⟩
    rintro s a t _ ⟨rfl, kept⟩ sets step
    obtain ⟨kept, follows⟩ := kept.step (fun _ _ => trivial) (sends a) step
    refine ⟨_, ⟨rfl, kept⟩, ?_⟩
    rcases follows with same | ⟨b, shadows, typed⟩
    · exact same ▸ .refl
    · exact .tail .refl (fun v p same => sets v p (shadows.route v p same)) typed
  obtain ⟨_, ⟨rfl, _⟩, typed⟩ := simulated
  exact typed

theorem run_system_oneChip : ∃ t : Emulator, (t.core (0, 2)).pc = .left ∧ t.up (0, 1) ≠ [] ∧
    Run (System.step 0 (fun _ => 0) fun _ => 6)
      (fun _ b => ∀ v p, b = .appRoute v p → p.entry.sparesBarrier = true)
      (System.initial 0) (t.system 0) := by
  obtain ⟨t, run, _, waiting, left⟩ := oneChip_run
  have spares : Run (Emulator.step 0 (fun _ => 0) fun _ => 6)
      (fun _ a => ∀ v p, a = .setRoute v p → p.entry.sparesBarrier = true)
      (initial 0 (remembering 0)) t := run.weaken fun _ _ sevens => sevens.route
  exact ⟨t, left, waiting, run_system spares⟩

/-- What an application gets has been sent by one: the key, and the payload if the packet
had one. -/
theorem events_sent {sdp : SdpDispatcher} {Sent : BitVec 32 → BitVec 32 → Prop}
    (run : Run (Emulator.step k past coreMap) (fun _ a => ∀ v key data load,
      a = .sendMc v key data load → Sent key (if load = 0 then 0 else data)) (initial k sdp) t)
    (v : Nat × Nat) : ∀ x ∈ t.events v, Sent x.1 x.2 := by
  have kept : Kept k past coreMap (fun m => m.key ∉ barrierKeys → Sent m.key m.payload) t := by
    refine run_kept (fun key known other => absurd known other) (run.weaken ?_)
    intro _ a sends v key data load same _
    have fine := sends v key data load same
    unfold SpinEmuMc.received spin1SendMcPacket
    by_cases none : load = 0
    · rw [if_pos none] at fine
      rw [if_neg (by simp [none])]
      exact fine
    · rw [if_neg none] at fine
      have some : load.toInt ≠ 0 := fun zero => none (BitVec.eq_of_toInt_eq zero)
      rw [if_pos some]
      exact fine
  intro x member
  obtain ⟨m, sent, event⟩ := kept.sockets.events v x member
  unfold mcEvents at event
  split at event
  · cases event
  · rename_i other
    cases List.mem_singleton.mp event
    exact sent other

theorem events_sent_oneChip : ∃ t : Emulator, t.events (0, 2) = [(7, 5)] ∧
    ∀ x ∈ t.events (0, 2), (x.1, x.2) = (7, 5) := by
  obtain ⟨t, run, received, _⟩ := oneChip_run
  exact ⟨t, received, @events_sent _ _ _ _ _ (fun key data => (key, data) = (7, 5))
    (run.weaken fun _ _ sevens => sevens.packet) (0, 2)⟩

end Emulator

/-! The SDP side. -/

namespace Frame

/-- What the requests' model sees of a datagram to the dispatcher. -/
def sdpUp (f : Frame) : Option SdpMsg :=
  match f.upward with
  | some (.sdp m) => some m
  | _ => none

/-- What the requests' model sees of a datagram to a core. -/
def sdpDown (f : Frame) : Option SdpMsg :=
  match f.downward with
  | some (.sdp m) => some m
  | _ => none

theorem sdpUp_ofSdp (stale : Nat → Byte) {m : SdpMsg} (clean : m.Clean) :
    (ofSdp stale m).sdpUp = some m := by
  obtain ⟨m', read, _, same⟩ := upward_ofSdp stale m
  rw [sdpUp, read, same clean]

theorem sdpDown_ofSdp (stale : Nat → Byte) {m : SdpMsg} (clean : m.Clean) :
    (ofSdp stale m).sdpDown = some m := by
  rw [sdpDown, downward_ofSdp stale clean]

theorem sdpUp_ofMc (m : SpinEmuMc) : (ofMc m).sdpUp = none := by
  rw [sdpUp, upward_ofMc]

theorem sdpDown_ofMc (m : SpinEmuMc) : (ofMc m).sdpDown = none := by
  rw [sdpDown, downward_ofMc]

theorem sdpUp_ofRoute {p : SpinEmuRoutePacket} (fits : p.Fits) : (ofRoute p).sdpUp = none := by
  rw [sdpUp, upward_ofRoute fits]

theorem sdpUp_ofFinished : ofFinished.sdpUp = none := by
  rw [sdpUp, upward_ofFinished]

end Frame

namespace Emulator
variable {k : Nat} {past coreMap : Nat → BitVec 32} {s t : Emulator} {a : EmulatorAction}

/-- The part of the emulator that the requests' model describes, with the dispatcher that it
has there. -/
def sdpSystem (s : Emulator) (d : SdpDispatcher) : SdpSystem where
  dispatcher := d
  down id c := (s.down (id, c)).filterMap Frame.sdpDown
  up id c := (s.up (id, c)).filterMap Frame.sdpUp

section Sdp
variable {d : SdpDispatcher} {v : Nat × Nat}

theorem filterMap_setAt {α β : Type} {f : α → Option β} (g : Nat × Nat → List α) (v : Nat × Nat)
    (l : List α) : (fun id c => (Function.update g v l (id, c)).filterMap f) =
      setAt (fun id c => (g (id, c)).filterMap f) v.1 v.2 (l.filterMap f) := by
  funext id c
  rw [setAt_apply]
  by_cases here : (id, c) = v
  · rw [here, Function.update_self, if_pos rfl]
  · rw [Function.update_of_ne here, if_neg here]

theorem filterMap_update_same {α β : Type} {f : α → Option β} {g : Nat × Nat → List α}
    {v : Nat × Nat} {l : List α} (same : l.filterMap f = (g v).filterMap f) (u : Nat × Nat) :
    (Function.update g v l u).filterMap f = (g u).filterMap f := by
  by_cases here : u = v
  · rw [here, Function.update_self, same]
  · rw [Function.update_of_ne here]

/-- Nothing of a step is seen that leaves the SDP messages on the sockets. -/
theorem sdpSystem_same (up : ∀ v, (t.up v).filterMap Frame.sdpUp = (s.up v).filterMap Frame.sdpUp)
    (down : ∀ v, (t.down v).filterMap Frame.sdpDown = (s.down v).filterMap Frame.sdpDown) :
    t.sdpSystem d = s.sdpSystem d := by
  simp only [sdpSystem, up, down]

theorem sdpSystem_send_none {out : List Frame} (none : ∀ f ∈ out, f.sdpUp = none) :
    (s.send v out).sdpSystem d = s.sdpSystem d := by
  refine sdpSystem_same (fun u => filterMap_update_same ?_ u) fun _ => rfl
  rw [List.filterMap_append, List.filterMap_eq_nil_iff.mpr none, List.append_nil]

/-- The requests' model follows a step to a dispatcher that differs at most in who is
running. -/
def Serves (s t : Emulator) (d : SdpDispatcher) : Prop :=
  ∃ d', SdpDispatcher.Agree t.sdp d' ∧
    Run SdpSystem.step (fun _ _ => True) (s.sdpSystem d) (t.sdpSystem d')

theorem Serves.unseen (agree : SdpDispatcher.Agree t.sdp d) (same : t.sdpSystem d = s.sdpSystem d) :
    Serves s t d := ⟨d, agree, same ▸ .refl⟩

theorem Serves.one {d' : SdpDispatcher} {b : SdpAction} (agree : SdpDispatcher.Agree t.sdp d')
    (step : (s.sdpSystem d).step b = some (t.sdpSystem d')) : Serves s t d :=
  ⟨d', agree, .tail .refl trivial step⟩

theorem dispatch_serves {stale : Nat → Byte} (agree : SdpDispatcher.Agree s.sdp d)
    (clean : ∀ id c, ∀ m ∈ s.sdp.sdpQueue id c, m.Clean) (step : Dispatches k stale s t) :
    Serves s t d := by
  have hidden {v : Nat × Nat} {f : Frame} {more : List Frame} (waiting : s.up v = f :: more)
      (unseen : f.sdpUp = none) (u : Nat × Nat) :
      (Function.update s.up v more u).filterMap Frame.sdpUp = (s.up u).filterMap Frame.sdpUp :=
    filterMap_update_same (by rw [waiting, List.filterMap_cons, unseen]) u
  cases step with
  | listened | scanned | scanEmpty | pending | quiet | routed | routeEmpty | sent | sendEmpty
  | flushed => exact .unseen agree rfl
  | recvMc _ waiting read | recvRoute _ waiting read =>
    exact .unseen agree
      (sdpSystem_same (hidden waiting (by rw [Frame.sdpUp, read])) fun _ => rfl)
  | @recvSdp v _ f more m d₁ _ waiting read dispatched =>
    obtain ⟨d₂, dispatched', agree'⟩ := agree.dispatchSdpOne dispatched
    refine .one (b := .forward v.1 v.2) agree' ?_
    simp only [SdpSystem.step, sdpSystem, waiting, List.filterMap_cons, Frame.sdpUp, read,
      dispatched', filterMap_setAt]
    rfl
  | recvFinished _ waiting read =>
    exact .unseen (agree.finished _ _)
      (sdpSystem_same (hidden waiting (by rw [Frame.sdpUp, read])) fun _ => rfl)
  | @route _ _ d' | @send _ _ d' =>
    refine .unseen agree (sdpSystem_same (fun _ => rfl) fun u => ?_)
    have none : ((System.sentTo u d'.trace).map Frame.ofMc).filterMap Frame.sdpDown = [] := by
      rw [List.filterMap_eq_nil_iff]
      intro f member
      obtain ⟨m, _, rfl⟩ := List.mem_map.mp member
      exact Frame.sdpDown_ofMc m
    simp only [deliver, List.filterMap_append, none, List.append_nil]
  | @flush v rest =>
    obtain ⟨msgs, agree'⟩ := agree.flushSdpQueue v.1 v.2
    change _ = s.sdp.sdpQueue v.1 v.2 at msgs
    have back : ((s.sdp.flushSdpQueue v.1 v.2).1.map (Frame.ofSdp stale)).filterMap
        Frame.sdpDown = s.sdp.sdpQueue v.1 v.2 :=
      filterMap_map_eq fun m member => Frame.sdpDown_ofSdp stale (clean v.1 v.2 m member)
    refine .one (b := .flush v.1 v.2) agree' ?_
    simp only [SdpSystem.step, sdpSystem, filterMap_setAt, List.filterMap_append, back, msgs]

/-- The requests' model follows every step in which it has a part. -/
theorem step_serves (kept : Kept k past coreMap (fun _ => True) s) (board : s.sdp.board = square k)
    (agree : SdpDispatcher.Agree s.sdp d) (answering : s.Answering a)
    (step : Acts k past coreMap s a t) : Serves s t d := by
  have one {v : Nat × Nat} {f : Frame} (unseen : f.sdpUp = none) : Serves s (s.send v [f]) d :=
    .unseen agree (sdpSystem_send_none fun _ member => List.mem_singleton.mp member ▸ unseen)
  have hidden {v : Nat × Nat} {f : Frame} {rest : List Frame} (waiting : s.down v = f :: rest)
      (unseen : f.sdpDown = none) (u : Nat × Nat) :
      (Function.update s.down v rest u).filterMap Frame.sdpDown = (s.down u).filterMap Frame.sdpDown :=
    filterMap_update_same (by rw [waiting, List.filterMap_cons, unseen]) u
  cases step with
  | @ether stale g _ received =>
    obtain ⟨d₂, received', agree'⟩ := agree.receiveMsgFromEther received
    refine .one (b := .request stale g) agree' ?_
    simp only [SdpSystem.step, sdpSystem, received']
    rfl
  | @run v m on moved =>
    have hidden : (s.send v (m.out.map Frame.ofDatagram)).sdpSystem d = s.sdpSystem d := by
      refine sdpSystem_send_none fun f member => ?_
      obtain ⟨x, out, rfl⟩ := List.mem_map.mp member
      cases x with
      | mc x => exact Frame.sdpUp_ofMc x
      | route p => exact Frame.sdpUp_ofRoute (kept.linked.fits on moved out)
    exact .unseen agree hidden
  | resend => exact one (Frame.sdpUp_ofMc _)
  | takeMc _ waiting read | skipMc waiting read =>
    exact .unseen agree
      (sdpSystem_same (fun _ => rfl) (hidden waiting (by rw [Frame.sdpDown, read])))
  | @takeSdp v stale mem rawtime f rest m chipID waiting read found =>
    have back : ((readSdp mem rawtime chipID v.2 m).toList.map (Frame.ofSdp stale)).filterMap
        Frame.sdpUp = (readSdp mem rawtime chipID v.2 m).toList :=
      filterMap_map_eq fun reply member => Frame.sdpUp_ofSdp stale
        (readSdp_clean (Frame.clean_of_downward read) (Option.mem_toList.mp member))
    have chip : spin1GetChipId d.board v.1 = some chipID := by
      rw [agree.board, board, found]
    refine .one (b := .read v.1 v.2 mem rawtime) agree ?_
    simp only [SdpSystem.step, sdpSystem, waiting, List.filterMap_cons, Frame.sdpDown, read, send,
      chip, filterMap_setAt, List.filterMap_append, back]
    rfl
  | sendMc => exact one (Frame.sdpUp_ofMc _)
  | setRoute guard =>
    exact one (Frame.sdpUp_ofRoute (fits_of_appEntry (Bool.and_eq_true _ _ ▸ guard).2))
  | sendSdp => cases answering
  | stop => exact one Frame.sdpUp_ofFinished
  | dispatch step => exact dispatch_serves agree kept.sockets.queued step
  | loseMcUp here read =>
    exact .unseen agree (sdpSystem_same (filterMap_update_same
      (filterMap_eraseIdx_none here (by rw [Frame.sdpUp, read]))) fun _ => rfl)
  | @loseSdpUp v n f m here read =>
    have lost : ((s.up v)[n]?).bind Frame.upward = some (.sdp m) := by
      rw [here, Option.bind_some, read]
    exact absurd lost (answering m)
  | loseMcDown here read =>
    exact .unseen agree (sdpSystem_same (fun _ => rfl) (filterMap_update_same
      (filterMap_eraseIdx_none here (by rw [Frame.sdpDown, read]))))

/-- The state of the requests' model that belongs to one of the emulator. -/
def ServedBy (k : Nat) (past coreMap : Nat → BitVec 32) (s : Emulator) (x : SdpSystem) : Prop :=
  Kept k past coreMap (fun _ => True) s ∧ ∃ d, x = s.sdpSystem d ∧ SdpDispatcher.Agree s.sdp d ∧
    d.board = square k ∧ d.initialised = true

/-- Every run of the emulator is a run of the requests' model, once the packets are taken
away and the bytes are read; only who is running may differ. -/
theorem run_sdpSystem {sdp : SdpDispatcher}
    (run : Run (Emulator.step k past coreMap) Answering (initial k sdp) t) :
    ∃ d, SdpDispatcher.Agree t.sdp d ∧
      Run SdpSystem.step (fun _ _ => True) (SdpSystem.booted (initial k sdp).sdp) (t.sdpSystem d) := by
  have simulated : ∃ x, ServedBy k past coreMap t x ∧
      Run SdpSystem.step (fun _ _ => True) (SdpSystem.booted (initial k sdp).sdp) x := by
    refine run.simulate ?_ ⟨kept_initial k past coreMap _ sdp, _, rfl, .refl _, rfl, rfl⟩
    rintro s a t _ ⟨kept, d, rfl, agree, board, ready⟩ answering step
    obtain ⟨d', agree', served⟩ := step_serves kept (agree.board.symm.trans board) agree answering
      (step_acts step)
    have site := SdpSystem.run_site ready served
    obtain ⟨after, _⟩ := kept.step (fun _ _ => trivial) (fun _ _ _ _ _ => trivial) step
    exact ⟨_, ⟨after, d', rfl, agree', site.board.trans board, site.initialised.trans ready⟩, served⟩
  obtain ⟨_, ⟨_, d, rfl, agree, _⟩, served⟩ := simulated
  exact ⟨d, agree, served⟩

theorem run_sdpSystem_oneChip : ∃ (t : Emulator) (d : SdpDispatcher), t.up (0, 1) ≠ [] ∧
    SdpDispatcher.Agree t.sdp d ∧ Run SdpSystem.step (fun _ _ => True)
      (SdpSystem.booted (initial 0 (remembering 0)).sdp) (t.sdpSystem d) := by
  obtain ⟨t, run, _, waiting, _⟩ := oneChip_run
  obtain ⟨d, agree, served⟩ := run_sdpSystem (run.weaken fun _ _ sevens => sevens.answering)
  exact ⟨t, d, waiting, agree, served⟩

end Sdp
end Emulator
end SpinEmu
