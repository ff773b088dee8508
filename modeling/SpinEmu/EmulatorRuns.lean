import SpinEmu.EmulatorFrames
import SpinEmu.BarrierTraffic
import SpinEmu.Requesters

/-! The running emulator against the models of its parts. Without the SDP messages it is the
system of the barrier, without the multicast packets and the routes it is the system of the
requests; what holds in every run of one of them holds in the emulator. -/
namespace SpinEmu
open Dispatcher Lib.Machine

section Lists
variable {α β : Type} {f : α → Option β} {l : List α} {n : Nat} {a : α} {b : β}

theorem filterMap_eraseIdx (here : l[n]? = some a) (seen : f a = some b) :
    (l.filterMap f)[((l.take n).filterMap f).length]? = some b ∧
      (l.eraseIdx n).filterMap f = (l.filterMap f).eraseIdx ((l.take n).filterMap f).length := by
  induction l generalizing n with
  | nil => cases here
  | cons c l ih =>
    cases n with
    | zero =>
      cases here
      simp [seen]
    | succ n =>
      obtain ⟨found, erased⟩ := ih here
      cases other : f c with
      | none => simpa [other] using ⟨found, erased⟩
      | some d => simpa [other] using ⟨found, erased⟩

theorem filterMap_eraseIdx_none (here : l[n]? = some a) (unseen : f a = none) :
    (l.eraseIdx n).filterMap f = l.filterMap f := by
  induction l generalizing n with
  | nil => cases here
  | cons c l ih =>
    cases n with
    | zero =>
      cases here
      simp [unseen]
    | succ n => rw [List.eraseIdx_cons_succ, List.filterMap_cons, List.filterMap_cons, ih here]

theorem filterMap_map_eq {g : β → α} {l : List β} (back : ∀ b ∈ l, f (g b) = some b) :
    (l.map g).filterMap f = l := by
  rw [List.filterMap_map]
  exact (List.filterMap_congr back).trans List.filterMap_some

theorem filterMap_update {ι : Type} [DecidableEq ι] (g : ι → List α) (v : ι) (l : List α) :
    (fun u => (Function.update g v l u).filterMap f) =
      Function.update (fun u => (g u).filterMap f) v (l.filterMap f) :=
  Function.comp_update (List.filterMap f) g v l

end Lists

namespace Frame

/-- What the barrier's model sees of a datagram to the dispatcher. -/
def datagram (f : Frame) : Option Datagram :=
  match f.upward with
  | some (.mc m) => some (.mc m)
  | some (.route p) => some (.route p)
  | _ => none

/-- What the barrier's model sees of a datagram to a core. -/
def mcDown (f : Frame) : Option SpinEmuMc :=
  match f.downward with
  | some (.mc m) => some m
  | _ => none

theorem datagram_ofMc (m : SpinEmuMc) : (ofMc m).datagram = some (.mc m.received) := by
  rw [datagram, upward_ofMc]

theorem datagram_ofRoute {p : SpinEmuRoutePacket} (fits : p.Fits) :
    (ofRoute p).datagram = some (.route p) := by
  rw [datagram, upward_ofRoute fits]

theorem datagram_ofSdp (stale : Nat → Byte) (m : SdpMsg) : (ofSdp stale m).datagram = none := by
  obtain ⟨m', read, _⟩ := upward_ofSdp stale m
  rw [datagram, read]

theorem datagram_ofFinished : ofFinished.datagram = none := by
  rw [datagram, upward_ofFinished]

theorem mcDown_ofMc {m : SpinEmuMc} (canonical : m.Canonical) : (ofMc m).mcDown = some m := by
  rw [mcDown, downward_ofMc, canonical.received]

theorem mcDown_ofSdp (stale : Nat → Byte) {m : SdpMsg} (clean : m.Clean) :
    (ofSdp stale m).mcDown = none := by
  rw [mcDown, downward_ofSdp stale clean]

end Frame

def Phase.toRound (k : Nat) : Phase → Round
  | .round r => r
  | .ether | .flush _ => .scan (scanOrder k)

namespace Emulator

/-- The part of the emulator that the barrier's model describes. -/
def system (k : Nat) (s : Emulator) : System where
  core := s.core
  holder := s.holder
  lock := s.lock
  up v := (s.up v).filterMap Frame.datagram
  down v := (s.down v).filterMap Frame.mcDown
  dispatcher := s.dispatcher
  round := s.phase.toRound k

section System
variable {k : Nat} {past coreMap : Nat → BitVec 32} {s t : Emulator} {v : Nat × Nat}

theorem system_send (s : Emulator) (v : Nat × Nat) (out : List Frame) :
    (s.send v out).system k = (s.system k).send v (out.filterMap Frame.datagram) := by
  simp only [system, send, System.send, filterMap_update, List.filterMap_append]

theorem system_move {m : Move}
    (plain : ∀ d ∈ m.out, (Frame.ofDatagram d).datagram = some d) :
    (s.move v m).system k = (s.system k).move v m := by
  simp only [system, move, send, System.move, System.send, filterMap_update,
    List.filterMap_append, filterMap_map_eq plain]

theorem system_deliver {d : Dispatcher SpinEmuMc}
    (canonical : ∀ u, ∀ m ∈ System.sentTo u d.trace, m.Canonical) :
    (s.deliver d).system k = (s.system k).deliver d := by
  have back (u : Nat × Nat) : ((System.sentTo u d.trace).map Frame.ofMc).filterMap Frame.mcDown =
      System.sentTo u d.trace :=
    filterMap_map_eq fun m member => Frame.mcDown_ofMc (canonical u m member)
  simp only [system, deliver, System.deliver, List.filterMap_append, back]

theorem system_send_none {out : List Frame} (none : out.filterMap Frame.datagram = []) :
    (s.send v out).system k = s.system k := by
  rw [system_send, none, System.send, List.append_nil, Function.update_eq_self]

theorem system_up (l : List Frame) : ({ s with up := Function.update s.up v l } : Emulator).system k =
    { s.system k with
      up := Function.update (s.system k).up v (l.filterMap Frame.datagram) } := by
  simp only [system, filterMap_update]

theorem system_down (l : List Frame) :
    ({ s with down := Function.update s.down v l } : Emulator).system k =
      { s.system k with
        down := Function.update (s.system k).down v (l.filterMap Frame.mcDown) } := by
  simp only [system, filterMap_update]

theorem system_up_same {l : List Frame}
    (same : l.filterMap Frame.datagram = (s.up v).filterMap Frame.datagram) :
    ({ s with up := Function.update s.up v l } : Emulator).system k = s.system k := by
  rw [system_up, same]
  exact congrArg (fun up => { s.system k with up }) (Function.update_eq_self v (s.system k).up)

theorem system_down_same {l : List Frame}
    (same : l.filterMap Frame.mcDown = (s.down v).filterMap Frame.mcDown) :
    ({ s with down := Function.update s.down v l } : Emulator).system k = s.system k := by
  rw [system_down, same]
  exact congrArg (fun down => { s.system k with down })
    (Function.update_eq_self v (s.system k).down)

end System
end Emulator

section Packets
variable {k : Nat} {past coreMap : Nat → BitVec 32} {s t : System} {a : Action}
  {P : SpinEmuMc → Prop}

/-- A core sends the packets of the barrier and no others. -/
theorem CoreStep.mc_out {c i : Nat} {me : Core} {lock : Nat} {holder : Option Nat} {m : Move}
    {x : SpinEmuMc} (moved : CoreStep k past coreMap c i me lock holder m)
    (member : .mc x ∈ m.out) : ∃ key ∈ barrierKeys, x = ⟨key, 0, 0⟩ := by
  cases moved with
  | rdygo | go | rdy2 | rdy1 =>
    cases List.mem_singleton.mp member
    exact ⟨_, by decide, rfl⟩
  | rdy1Route | routesNext => cases List.mem_singleton.mp member
  | lockWon | lockLost | rdy1Cnt | rdy2Cnt | release | routerSeen | mapRoot | mapOther | routesDone
  | startSeveral | startAlone | enterRoot | enterOtherRoot | enterOther | ready | rdygoSeen
  | lockSeen | leave => cases member

/-- Where only packets with a property are sent, only these are on the way. -/
theorem Traffic.only (barrier : ∀ key ∈ barrierKeys, P ⟨key, 0, 0⟩)
    (traffic : Traffic k (fun _ => P) (fun _ => P) s) (sound : Sound k past coreMap s)
    (fine : ∀ v m, a = .appPacket v m → P m) (step : s.step k past coreMap a = some t) :
    Traffic k (fun _ => P) (fun _ => P) t := by
  cases step_acts step with
  | @run v m on moved =>
    have sent : Traffic k (fun _ => P) (fun _ => P) (s.send v m.out) := by
      refine traffic.send fun x member => ?_
      obtain ⟨key, known, rfl⟩ := moved.mc_out member
      exact barrier key known
    exact ⟨sent.up, sent.queue, sent.down⟩
  | read on waiting =>
    exact ⟨traffic.up, traffic.queue, fun u p here => traffic.down u p (mem_update_tail waiting here)⟩
  | resend on pc =>
    refine traffic.send fun x member => ?_
    cases List.mem_singleton.mp member
    exact barrier _ (by decide)
  | dispatch step =>
    exact traffic.dispatch sound ⟨fun _ _ _ fine _ => fine, fun _ _ _ fine _ => fine⟩ step
  | @appPacket v m on other =>
    refine traffic.send fun x member => ?_
    cases List.mem_singleton.mp member
    exact fine v m rfl
  | appRoute on app =>
    refine traffic.send fun x member => ?_
    cases List.mem_singleton.mp member
  | loseUp =>
    exact ⟨fun u m here => traffic.up u m (mem_update_eraseIdx here), traffic.queue, traffic.down⟩
  | loseDown =>
    exact ⟨traffic.up, traffic.queue, fun u m here => traffic.down u m (mem_update_eraseIdx here)⟩

theorem fits_of_appEntry {p : SpinEmuRoutePacket} (app : appEntry p = true) : p.Fits := by
  obtain ⟨low, high⟩ := appEntry_spec app
  have high : p.index < 1024 := high
  simp only [SpinEmuRoutePacket.Fits]
  omega

/-- The routes on the way have an index that fits its field. -/
theorem Sound.fits (sound : Sound k past coreMap s) {v : Nat × Nat} {p : SpinEmuRoutePacket}
    (member : .route p ∈ s.up v) : p.Fits := by
  rcases sound.sent v p member with app | ⟨_, setup⟩
  · exact fits_of_appEntry app
  · have range := setupPackets_index setup
    simp only [SpinEmuRoutePacket.Fits]
    omega

end Packets

namespace Emulator
variable {k : Nat} {past coreMap : Nat → BitVec 32} {s t : Emulator} {a : EmulatorAction}

/-- The packet that an application sends in the barrier's model is the one that arrives,
the entry that it sets there is the one that it sets. -/
structure Shadows (a : EmulatorAction) (b : Action) : Prop where
  packet : ∀ v m, b = .appPacket v m →
    ∃ key data load, a = .sendMc v key data load ∧ m = (spin1SendMcPacket key data load).received
  route : ∀ v p, b = .appRoute v p → a = .setRoute v p

/-- The barrier's model follows a step, or sees nothing of it. -/
def Follows (k : Nat) (past coreMap : Nat → BitVec 32) (a : EmulatorAction) (s t : Emulator) : Prop :=
  t.system k = s.system k ∨
    ∃ b, Shadows a b ∧ (s.system k).step k past coreMap b = some (t.system k)

/-- What the steps of the barrier's model keep. -/
structure Linked (k : Nat) (past coreMap : Nat → BitVec 32) (s : Emulator) : Prop where
  sound : Sound k past coreMap (s.system k)
  traffic : Traffic k (fun _ => SpinEmuMc.Canonical) (fun _ => SpinEmuMc.Canonical) (s.system k)

theorem Linked.follows (linked : Linked k past coreMap s) (follows : Follows k past coreMap a s t) :
    Linked k past coreMap t := by
  rcases follows with same | ⟨b, shadows, step⟩
  · exact ⟨same ▸ linked.sound, same ▸ linked.traffic⟩
  · refine ⟨linked.sound.step step, linked.traffic.only (fun key _ => .inr ⟨rfl, rfl⟩) linked.sound
      (fun v m packet => ?_) step⟩
    obtain ⟨_, _, _, _, rfl⟩ := shadows.packet v m packet
    exact SpinEmuMc.received_canonical _

theorem Linked.fits (linked : Linked k past coreMap s) {v : Nat × Nat} {m : Move}
    (on : active k coreMap v = true)
    (moved : coreMove k past coreMap v.1 v.2 (s.core v) (s.holder v.1) (s.lock v.1) = some m)
    {p : SpinEmuRoutePacket} (member : .route p ∈ m.out) : p.Fits := by
  have typed : (s.system k).step k past coreMap (.run v) = some ((s.system k).move v m) := by
    simp only [System.step]
    rw [if_pos on]
    exact Option.map_eq_some_iff.mpr ⟨m, moved, rfl⟩
  refine (linked.sound.step typed).fits (v := v) ?_
  simp only [System.move, System.send, Function.update_self]
  exact List.mem_append_right _ member

theorem Follows.step {b : Action} (packet : ∀ v m, b ≠ .appPacket v m)
    (route : ∀ v p, b ≠ .appRoute v p)
    (typed : (s.system k).step k past coreMap b = some (t.system k)) :
    Follows k past coreMap a s t :=
  .inr ⟨b, ⟨fun v m same => absurd same (packet v m), fun v p same => absurd same (route v p)⟩,
    typed⟩

/-- The dispatcher goes on in both. -/
theorem dispatch_follows {stale : Nat → Byte} (linked : Linked k past coreMap s)
    (clean : ∀ id c, ∀ m ∈ s.sdp.sdpQueue id c, m.Clean) (step : Dispatches k stale s t) :
    Follows k past coreMap (.dispatch stale) s t := by
  have dispatched {u : Emulator} (same : (s.system k).dispatch k = some (u.system k)) :
      Follows k past coreMap (.dispatch stale) s u :=
    .step (b := .dispatch) (fun _ _ same => by cases same)
      (fun _ _ same => by cases same) same
  have delivered {d : Dispatcher SpinEmuMc}
      (here : (s.system k).dispatch k = some ((s.system k).deliver d)) :
      Follows k past coreMap (.dispatch stale) s (s.deliver d) := by
    have after := linked.traffic.dispatch linked.sound
      ⟨fun _ _ _ fine _ => fine, fun _ _ _ fine _ => fine⟩ here
    have same : (s.deliver d).system k = (s.system k).deliver d :=
      system_deliver fun u m member => after.down u m (List.mem_append_right _ member)
    exact dispatched (same ▸ here)
  cases step with
  | listened phase | flushed phase => exact .inl (by simp only [system, phase, Phase.toRound])
  | scanned phase | routed phase | sent phase =>
    refine dispatched ?_
    simp only [System.dispatch, system, phase, Phase.toRound]
    rfl
  | scanEmpty phase none =>
    refine dispatched ?_
    simp only [System.dispatch, system, phase, Phase.toRound, none, List.filterMap_nil]
    rfl
  | recvMc phase waiting read handled | recvRoute phase waiting read handled =>
    refine dispatched ?_
    simp only [System.dispatch, system, phase, Phase.toRound, waiting, List.filterMap_cons,
      Frame.datagram, read, filterMap_update]
    exact Option.map_eq_some_iff.mpr ⟨_, handled, rfl⟩
  | recvSdp phase waiting read | recvFinished phase waiting read =>
    exact .inl (system_up_same (by rw [waiting, List.filterMap_cons, Frame.datagram, read]))
  | pending phase pending =>
    refine dispatched ?_
    simp only [System.dispatch, system, phase, Phase.toRound, pending, if_true]
    rfl
  | quiet phase quiet =>
    refine dispatched ?_
    simp only [System.dispatch, system, phase, Phase.toRound, quiet]
    rfl
  | routeEmpty phase empty | sendEmpty phase empty =>
    refine dispatched ?_
    simp only [System.dispatch, system, phase, Phase.toRound]
    rw [if_neg empty]
    rfl
  | route phase some handled | send phase some handled =>
    refine delivered ?_
    simp only [System.dispatch, system, phase, Phase.toRound]
    rw [if_pos some]
    exact Option.map_eq_some_iff.mpr ⟨_, handled, rfl⟩
  | @flush v rest phase =>
    have none : ((s.sdp.sdpQueue v.1 v.2).map (Frame.ofSdp stale)).filterMap Frame.mcDown = [] := by
      rw [List.filterMap_eq_nil_iff]
      intro f member
      obtain ⟨m, queued, rfl⟩ := List.mem_map.mp member
      exact Frame.mcDown_ofSdp stale (clean v.1 v.2 m queued)
    left
    simp only [system, SdpDispatcher.flushSdpQueue, filterMap_update, List.filterMap_append, none,
      List.append_nil, phase, Phase.toRound]
    rw [Function.update_eq_self]

/-- The barrier's model follows every step of the emulator. -/
theorem step_follows (linked : Linked k past coreMap s)
    (clean : ∀ id c, ∀ m ∈ s.sdp.sdpQueue id c, m.Clean)
    (step : Acts k past coreMap s a t) : Follows k past coreMap a s t := by
  cases step with
  | ether => exact .inl rfl
  | @run v m on moved =>
    have typed : (s.system k).step k past coreMap (.run v) = some ((s.system k).move v m) := by
      simp only [System.step]
      rw [if_pos on]
      exact Option.map_eq_some_iff.mpr ⟨m, moved, rfl⟩
    refine .step (b := .run v) (fun _ _ same => by cases same)
      (fun _ _ same => by cases same) (typed.trans ?_)
    refine congrArg some (system_move ?_).symm
    intro d member
    cases d with
    | mc x =>
      obtain ⟨key, _, rfl⟩ := (coreMove_step moved).mc_out member
      exact Frame.datagram_ofMc _
    | route p => exact Frame.datagram_ofRoute (linked.fits on moved member)
  | @resend v guard =>
    refine .step (b := .resend v) (fun _ _ same => by cases same)
      (fun _ _ same => by cases same) ?_
    rw [system_send]
    simp only [System.step]
    exact if_pos guard
  | @takeMc v _ _ _ f rest m on waiting read =>
    have front : (s.system k).down v = m :: rest.filterMap Frame.mcDown := by
      simp only [system, waiting, List.filterMap_cons, Frame.mcDown, read]
    refine .step (b := .read v) (fun _ _ same => by cases same)
      (fun _ _ same => by cases same) ?_
    simp only [System.step, on, front]
    simp only [system, filterMap_update]
  | @skipMc v _ _ _ f rest m waiting read =>
    have front : (s.system k).down v = m :: rest.filterMap Frame.mcDown := by
      simp only [system, waiting, List.filterMap_cons, Frame.mcDown, read]
    refine .step (b := .loseDown v 0) (fun _ _ same => by cases same)
      (fun _ _ same => by cases same) ?_
    simp only [System.step, front, List.eraseIdx_cons_zero]
    simp only [system, filterMap_update]
  | takeSdp waiting read =>
    refine .inl ((system_send_none ?_).trans
      (system_down_same (by rw [waiting, List.filterMap_cons, Frame.mcDown, read])))
    rw [List.filterMap_eq_nil_iff]
    intro f member
    obtain ⟨reply, _, rfl⟩ := List.mem_map.mp member
    exact Frame.datagram_ofSdp _ reply
  | @sendMc v key data load guard =>
    refine .inr ⟨.appPacket v (spin1SendMcPacket key data load).received, ?_, ?_⟩
    · refine ⟨fun v' m same => ?_, fun _ _ same => (by cases same)⟩
      cases same
      exact ⟨key, data, load, rfl, rfl⟩
    · simp only [system_send, List.filterMap_cons, Frame.datagram_ofMc, List.filterMap_nil,
        System.step, SpinEmuMc.received_key]
      exact if_pos guard
  | @setRoute v p guard =>
    have fits : p.Fits := fits_of_appEntry (Bool.and_eq_true _ _ ▸ guard).2
    refine .inr ⟨.appRoute v p, ⟨fun _ _ same => (by cases same), fun v' p' same => ?_⟩, ?_⟩
    · cases same
      rfl
    rw [system_send]
    simp only [List.filterMap_cons, Frame.datagram_ofRoute fits, List.filterMap_nil, System.step]
    exact if_pos guard
  | sendSdp =>
    exact .inl (system_send_none (by
      rw [List.filterMap_cons, Frame.datagram_ofSdp, List.filterMap_nil]))
  | stop =>
    exact .inl (system_send_none (by
      rw [List.filterMap_cons, Frame.datagram_ofFinished, List.filterMap_nil]))
  | dispatch step => exact dispatch_follows linked clean step
  | @loseMcUp v n f m here read =>
    have seen : f.datagram = some (.mc m) := by rw [Frame.datagram, read]
    obtain ⟨found, erased⟩ := filterMap_eraseIdx here seen
    refine .step (b := .loseUp v (((s.up v).take n).filterMap Frame.datagram).length)
      (fun _ _ same => by cases same)
      (fun _ _ same => by cases same) ?_
    rw [system_up, erased]
    simp only [System.step, system, found]
  | loseSdpUp here read =>
    exact .inl (system_up_same (filterMap_eraseIdx_none here (by rw [Frame.datagram, read])))
  | @loseMcDown v n f m here read =>
    have seen : f.mcDown = some m := by rw [Frame.mcDown, read]
    obtain ⟨_, erased⟩ := filterMap_eraseIdx here seen
    refine .step (b := .loseDown v (((s.down v).take n).filterMap Frame.mcDown).length)
      (fun _ _ same => by cases same)
      (fun _ _ same => by cases same) ?_
    rw [system_down, erased]
    rfl

end Emulator
end SpinEmu
