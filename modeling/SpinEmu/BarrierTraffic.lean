import SpinEmu.ReadyEntries

/-! Which packets can be where: a property of the packets on a chip that the senders
and the routing keep holds of every packet on the way. -/
namespace SpinEmu
open Lib Lib.Forwarding Dispatcher

/-- `ok` holds of the packets in the sockets to the dispatcher and in the chip
queues, `okDown` of those on their way to a core. -/
structure Traffic (k : Nat) (ok : Nat → SpinEmuMc → Prop) (okDown : Nat × Nat → SpinEmuMc → Prop)
    (s : System) : Prop where
  up : ∀ v m, .mc m ∈ s.up v → ok v.1 m
  queue : Queued ok (s.dispatcher.net (square k))
  down : ∀ v, ∀ m ∈ s.down v, okDown v m

section Traffic
variable {k : Nat} {past coreMap : Nat → BitVec 32} {s t : System} {a : Action}
  {ok ok' : Nat → SpinEmuMc → Prop} {okDown okDown' : Nat × Nat → SpinEmuMc → Prop}

theorem traffic_initial : Traffic k ok okDown (System.initial k) where
  up _ _ h := by cases h
  queue c m h := by
    have empty : ((System.initial k).dispatcher.net (square k)).queue c = [] := by
      simp [net, System.initial, idleDispatcher, SpinEmuMcQueue.contents]
    rw [empty] at h
    cases h
  down _ _ h := by cases h

theorem Traffic.mono (traffic : Traffic k ok okDown s) (weaker : ∀ c m, ok c m → ok' c m)
    (weakerDown : ∀ v m, okDown v m → okDown' v m) : Traffic k ok' okDown' s where
  up v m h := weaker _ _ (traffic.up v m h)
  queue c m h := weaker _ _ (traffic.queue c m h)
  down v m h := weakerDown _ _ (traffic.down v m h)

theorem mem_sentTo {v : Nat × Nat} {m : SpinEmuMc} {calls : List (McEvent SpinEmuMc)} :
    m ∈ System.sentTo v calls ↔ .sent v.1 v.2 m ∈ calls := by
  simp only [System.sentTo, List.mem_filterMap]
  constructor
  · rintro ⟨e, member, hit⟩
    cases e with
    | queued | full => cases hit
    | sent c i p =>
      simp only at hit
      split at hit
      · rename_i here
        cases hit
        subst here
        exact member
      · cases hit
  · exact fun member => ⟨_, member, if_pos rfl⟩

/-- The routing keeps `ok` and delivers what `okDown` allows. -/
structure Carries (k : Nat) (s : System) (ok : Nat → SpinEmuMc → Prop)
    (okDown : Nat × Nat → SpinEmuMc → Prop) : Prop where
  next : ∀ c m u, ok c m →
    u ∈ (mcRouting (square k) s.dispatcher.spinEmuRoutes).next c m → ok u m
  exit : ∀ c m j, ok c m → j ∈ mcExits s.dispatcher.spinEmuRoutes c m.key → okDown (c, j) m

theorem mem_up_of_scanned {v : Nat × Nat} {m : SpinEmuMc} (scanned : s.scanned = some (v, m)) :
    .mc m ∈ s.up v := by
  unfold System.scanned at scanned
  split at scanned
  · split at scanned
    · rename_i waiting
      cases scanned
      exact waiting ▸ List.mem_cons_self
    · cases scanned
  · cases scanned

theorem closed_of_next (next : ∀ c m u, ok c m →
      u ∈ (mcRouting (square k) s.dispatcher.spinEmuRoutes).next c m → ok u m) :
    Closed (mcRouting (square k) s.dispatcher.spinEmuRoutes) (Finset.range (square k).numChips) ok := by
  refine ⟨fun fine target => next _ _ _ fine target, fun fine target => ?_⟩
  obtain ⟨j, link⟩ := mem_next.mp target
  exact mcLink_inside link

/-- The packets in the chip queues when the dispatcher reads only what `ok` allows. -/
theorem Sound.queued_dispatch (sound : Sound k past coreMap s)
    (queued : Queued ok (s.dispatcher.net (square k)))
    (reads : ∀ v m, s.scanned = some (v, m) → ok v.1 m)
    (next : ∀ c m u, ok c m →
      u ∈ (mcRouting (square k) s.dispatcher.spinEmuRoutes).next c m → ok u m)
    (step : s.dispatch k = some t) : Queued ok (t.dispatcher.net (square k)) := by
  obtain ⟨step, _⟩ := dispatch_step sound.round step
  have valid : s.fresh.Valid (square k) := sound.valid
  cases step with
  | skip => exact queued
  | @recvMc v m more d scanned hc hi waiting dispatched =>
    obtain ⟨net, _⟩ := queueMc_net (c := v.1) hc valid dispatched
    intro c p here
    simp only [net] at here
    obtain ⟨extra, grown, new⟩ := enqueue_queue mcFull m (s.fresh.net (square k)) v.1 c
    rw [grown] at here
    rcases List.mem_append.mp here with old | here
    · exact queued c p old
    · obtain ⟨rfl, rfl⟩ := new p here
      exact reads v p scanned
  | recvRoute _ _ _ _ stored =>
    obtain ⟨_, _, rfl⟩ := storeRoute_ok stored
    exact queued
  | @route c d _ hc nonempty routed =>
    obtain ⟨front, fired, _⟩ := routeFront_fires hc valid (sound.queue_pos hc nonempty) routed
    have fire : Step (mcRouting (square k) s.dispatcher.spinEmuRoutes)
        (Finset.range (square k).numChips) (s.fresh.net (square k)) (d.net (square k)) :=
      fired ▸ .fire (Finset.mem_range.mpr hc) front
    exact fire.queued (closed_of_next next) queued
  | @send v d hc low high nonempty sent => exact absurd (sound.coresIdle v.1 hc v.2 low high) nonempty

theorem Traffic.dispatch (traffic : Traffic k ok okDown s) (sound : Sound k past coreMap s)
    (carries : Carries k s ok okDown) (step : s.dispatch k = some t) : Traffic k ok okDown t := by
  have queue := sound.queued_dispatch traffic.queue
    (fun v m scanned => traffic.up v m (mem_up_of_scanned scanned)) carries.next step
  obtain ⟨step, _⟩ := dispatch_step sound.round step
  have valid : s.fresh.Valid (square k) := sound.valid
  cases step with
  | skip => exact ⟨traffic.up, queue, traffic.down⟩
  | recvMc _ _ _ waiting | recvRoute _ _ _ waiting =>
    exact ⟨fun u p here => traffic.up u p (mem_update_tail waiting here), queue, traffic.down⟩
  | @route c d _ hc nonempty routed =>
    obtain ⟨front, fired, _⟩ := routeFront_fires hc valid (sound.queue_pos hc nonempty) routed
    have here : ok c (s.fresh.mcQueue c 0).front := traffic.queue c _ (front ▸ List.mem_cons_self)
    refine ⟨traffic.up, queue, ?_⟩
    intro v m arrived
    rcases List.mem_append.mp arrived with old | new
    · exact traffic.down v m old
    · have sent : .sent v.1 v.2 m ∈ (d.net (square k)).log := mem_sentTo.mp new
      rw [fired] at sent
      rcases route_sent sent with old | ⟨rfl, exit⟩
      · cases old
      · rcases route_packet _ _ _ _ sent with old | same
        · cases old
        · obtain rfl : m = _ := same
          exact carries.exit _ _ _ here exit
  | @send v d hc low high nonempty sent => exact absurd (sound.coresIdle v.1 hc v.2 low high) nonempty

/-- What the cores may send. -/
structure Sends (k : Nat) (past coreMap : Nat → BitVec 32) (s : System)
    (ok : Nat → SpinEmuMc → Prop) : Prop where
  run : ∀ v m x, active k coreMap v = true →
    CoreStep k past coreMap v.1 v.2 (s.core v) (s.lock v.1) (s.holder v.1) m →
    .mc x ∈ m.out → ok v.1 x
  resend : ∀ v, active k coreMap v = true → (s.core v).pc = .waitReady →
    ok v.1 ⟨rdygoKey, 0, 0⟩
  other : ∀ c (m : SpinEmuMc), m.key ∉ barrierKeys → ok c m

theorem Traffic.send {v : Nat × Nat} {out : List Datagram} (traffic : Traffic k ok okDown s)
    (fine : ∀ x, .mc x ∈ out → ok v.1 x) : Traffic k ok okDown (s.send v out) := by
  refine ⟨fun u m here => ?_, traffic.queue, traffic.down⟩
  by_cases same : u = v
  · subst same
    simp only [System.send, Function.update_self] at here
    rcases List.mem_append.mp here with old | new
    · exact traffic.up u m old
    · exact fine m new
  · simp only [System.send, Function.update_of_ne same] at here
    exact traffic.up u m here

theorem Traffic.step (traffic : Traffic k ok okDown s) (sound : Sound k past coreMap s)
    (sends : Sends k past coreMap s ok) (carries : Carries k s ok okDown)
    (step : s.step k past coreMap a = some t) : Traffic k ok okDown t := by
  cases step_acts step with
  | @run v m on moved =>
    have sent := traffic.send fun x here => sends.run v m x on moved here
    exact ⟨sent.up, sent.queue, sent.down⟩
  | read on waiting =>
    exact ⟨traffic.up, traffic.queue, fun u p here => traffic.down u p (mem_update_tail waiting here)⟩
  | @resend v on pc =>
    refine traffic.send fun x here => ?_
    cases List.mem_singleton.mp here
    exact sends.resend v on pc
  | dispatch step => exact traffic.dispatch sound carries step
  | @appPacket v m on other =>
    refine traffic.send fun x here => ?_
    cases List.mem_singleton.mp here
    exact sends.other v.1 m other
  | appRoute on app =>
    refine traffic.send fun x here => ?_
    cases List.mem_singleton.mp here
  | loseUp =>
    exact ⟨fun u m here => traffic.up u m (mem_update_eraseIdx here), traffic.queue, traffic.down⟩
  | loseDown =>
    exact ⟨traffic.up, traffic.queue, fun u m here => traffic.down u m (mem_update_eraseIdx here)⟩

end Traffic
end SpinEmu
