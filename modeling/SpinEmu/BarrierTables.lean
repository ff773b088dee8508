import SpinEmu.BarrierRoles
import SpinEmu.RouterNet
import SpinEmu.Lib.Tally

/-! What stands in the routing tables, on the sockets and in the cores in every state
of the barrier system. -/
namespace SpinEmu
open Dispatcher Lib.Machine

section Board
variable (k : Nat) (past : Nat → BitVec 32) (coreMap : Nat → BitVec 32)

/-- Where the dispatcher stands in its round is on the board. -/
def RoundOk : Round → Prop
  | .scan sockets => ∀ v ∈ sockets, v.1 < (square k).numChips ∧ v.2 < numCpus
  | .test => True
  | .route chips => ∀ c ∈ chips, c < (square k).numChips
  | .send cores => ∀ v ∈ cores, v.1 < (square k).numChips ∧ 1 ≤ v.2 ∧ v.2 < numCpus

/-- The chip and the packet that the dispatcher's next statement routes. -/
def System.routed (s : System) : Option (Nat × SpinEmuMc) :=
  match s.round with
  | .route (c :: _) =>
    let q := s.dispatcher.mcQueue c 0
    if q.len ≠ 0 then some (c, q.front) else none
  | _ => none

/-- The core and the packet that the dispatcher's next statement reads from its socket. -/
def System.scanned (s : System) : Option ((Nat × Nat) × SpinEmuMc) :=
  match s.round with
  | .scan (v :: _) =>
    match s.up v with
    | .mc m :: _ => some (v, m)
    | _ => none
  | _ => none

theorem System.routed_of_scanned {s : System} {x : (Nat × Nat) × SpinEmuMc}
    (scanned : s.scanned = some x) : s.routed = none := by
  unfold System.scanned at scanned
  split at scanned
  · rename_i round
    simp only [System.routed, round]
  · cases scanned

/-- The statements of the dispatcher, with what each has found. -/
inductive DispatchStep (s : System) : System → Prop where
  | skip (pending : Bool) (round : Round) : s.routed = none → DispatchStep s
      { s with dispatcher := { s.fresh with mcPending := pending }, round }
  | recvMc {v m more d} : s.scanned = some (v, m) → v.1 < (square k).numChips → v.2 < numCpus →
      s.up v = .mc m :: more →
      dispatchMc v.1 m s.fresh = .ok d →
      DispatchStep s { s with up := Function.update s.up v more, dispatcher := d }
  | recvRoute {v p more d} : s.routed = none → v.1 < (square k).numChips → v.2 < numCpus →
      s.up v = .route p :: more → storeRoute v.1 p.index p.entry s.fresh = some d →
      DispatchStep s { s with up := Function.update s.up v more, dispatcher := d }
  | route {c d} : s.routed = some (c, (s.dispatcher.mcQueue c 0).front) →
      c < (square k).numChips → (s.dispatcher.mcQueue c 0).len ≠ 0 →
      routeFront (square k) c s.fresh = .ok d → DispatchStep s (s.deliver d)
  | send {v : Nat × Nat} {d} : v.1 < (square k).numChips → 1 ≤ v.2 → v.2 < numCpus →
      (s.dispatcher.mcQueue v.1 v.2).len ≠ 0 → sendFront v.1 v.2 s.fresh = .ok d →
      DispatchStep s (s.deliver d)

variable {k past coreMap} {s t : System}

theorem roundOk_scanOrder : RoundOk k (.scan (scanOrder k)) := by
  intro v hv
  obtain ⟨c, hc, hv⟩ := List.mem_flatMap.mp hv
  obtain ⟨i, hi, rfl⟩ := List.mem_map.mp hv
  exact ⟨List.mem_range.mp hc, List.mem_range.mp hi⟩

theorem roundOk_coreQueues : RoundOk k (.send (coreQueues k)) := by
  intro v hv
  obtain ⟨c, hc, hv⟩ := List.mem_flatMap.mp hv
  obtain ⟨i, hi, rfl⟩ := List.mem_map.mp hv
  obtain ⟨j, hj, rfl⟩ := List.mem_range'.mp hi
  refine ⟨List.mem_range.mp hc, by simp only; omega, ?_⟩
  simp only [numCpus] at hj ⊢
  omega

theorem dispatch_step (ok : RoundOk k s.round) (step : s.dispatch k = some t) :
    DispatchStep k s t ∧ RoundOk k t.round := by
  unfold System.dispatch at step
  split at step
  case h_1 round =>
    have still : s.routed = none := by simp only [System.routed, round]
    exact Option.some.inj step ▸ ⟨.skip s.fresh.mcPending .test still, trivial⟩
  case h_2 v rest round =>
    have still : s.routed = none := by simp only [System.routed, round]
    rw [round] at ok
    have here := ok v List.mem_cons_self
    split at step
    · exact Option.some.inj step ▸ ⟨.skip s.fresh.mcPending (.scan rest) still,
        fun u hu => ok u (List.mem_cons_of_mem _ hu)⟩
    · rename_i m more waiting
      obtain ⟨d, dispatched, rfl⟩ := Option.map_eq_some_iff.mp step
      have next : s.scanned = some (v, m) := by simp only [System.scanned, round, waiting]
      exact ⟨.recvMc next here.1 here.2 waiting (toOption_eq_some dispatched), by rw [round]; exact ok⟩
    · rename_i p more waiting
      obtain ⟨d, stored, rfl⟩ := Option.map_eq_some_iff.mp step
      exact ⟨.recvRoute still here.1 here.2 waiting stored, by rw [round]; exact ok⟩
  case h_3 round =>
    have still : s.routed = none := by simp only [System.routed, round]
    split at step
    · exact Option.some.inj step ▸ ⟨.skip false (.route (List.range (square k).numChips)) still,
        fun c hc => List.mem_range.mp hc⟩
    · exact Option.some.inj step ▸
        ⟨.skip s.fresh.mcPending (.scan (scanOrder k)) still, roundOk_scanOrder⟩
  case h_4 round =>
    have still : s.routed = none := by simp only [System.routed, round]
    exact Option.some.inj step ▸
      ⟨.skip s.fresh.mcPending (.send (coreQueues k)) still, roundOk_coreQueues⟩
  case h_5 c rest round =>
    rw [round] at ok
    split at step
    · rename_i some
      obtain ⟨d, routed, rfl⟩ := Option.map_eq_some_iff.mp step
      have next : s.routed = .some (c, (s.dispatcher.mcQueue c 0).front) := by
        simp only [System.routed, round, if_pos some]
      exact ⟨.route next (ok c List.mem_cons_self) some (toOption_eq_some routed), by
        rw [show (s.deliver d).round = s.round from rfl, round]
        exact ok⟩
    · rename_i none
      have still : s.routed = .none := by simp only [System.routed, round, if_neg none]
      exact Option.some.inj step ▸ ⟨.skip s.fresh.mcPending (.route rest) still,
        fun u hu => ok u (List.mem_cons_of_mem _ hu)⟩
  case h_6 round =>
    have still : s.routed = none := by simp only [System.routed, round]
    exact Option.some.inj step ▸ ⟨.skip s.fresh.mcPending .test still, trivial⟩
  case h_7 v rest round =>
    rw [round] at ok
    have here := ok v List.mem_cons_self
    split at step
    · rename_i some
      obtain ⟨d, sent, rfl⟩ := Option.map_eq_some_iff.mp step
      exact ⟨.send here.1 here.2.1 here.2.2 some (toOption_eq_some sent), by
        rw [show (s.deliver d).round = s.round from rfl, round]
        exact ok⟩
    · have still : s.routed = none := by simp only [System.routed, round]
      exact Option.some.inj step ▸ ⟨.skip s.fresh.mcPending (.send rest) still,
        fun u hu => ok u (List.mem_cons_of_mem _ hu)⟩

variable (k past coreMap)

/-- What entry `i` of chip `c` can hold: the initial entry, an application's, or one
that the root application core of the chip has sent. -/
def EntryOk (c : Nat) (holder : Option Nat) (i : Nat) (e : SpinEmuRoute) : Prop :=
  e = initialRoute ∨ 3 < i ∨
    ∃ r, holder = some r ∧ ∃ p ∈ setupPackets k past coreMap (fun _ => r) c,
      p.index = i ∧ p.entry = e

/-- What the barrier system keeps apart from the counts. -/
structure Sound (s : System) : Prop where
  idle : ∀ v, active k coreMap v = false → (s.core v).pc = .lockTry
  role : ∀ v, Role k past coreMap v (s.core v)
  root : ∀ v, (s.core v).rootAp = true ↔ s.holder v.1 = some v.2
  sent : ∀ v p, Datagram.route p ∈ s.up v → appEntry p = true ∨
    s.holder v.1 = some v.2 ∧ p ∈ setupPackets k past coreMap (fun _ => v.2) v.1
  table : ∀ c i, EntryOk k past coreMap c (s.holder c) i (s.dispatcher.spinEmuRoutes c i)
  valid : s.dispatcher.Valid (square k)
  coresIdle : s.dispatcher.CoresIdle (square k)
  round : RoundOk k s.round

variable {k past coreMap}

theorem idleQueue_valid {π : Type} (cells : Int → π) : (⟨0, 0, cells⟩ : SpinEmuMcQueue π).Valid :=
  ⟨le_rfl, (by decide : (0 : Int) ≤ intMax), le_rfl, (by decide : (0 : Int) ≤ spinEmuMcQueueSize)⟩

theorem sound_initial : Sound k past coreMap (System.initial k) where
  idle _ _ := rfl
  role _ := ⟨rfl, rfl⟩
  root _ := ⟨nofun, nofun⟩
  sent _ _ h := by cases h
  table _ _ := .inl rfl
  valid _ _ _ _ := idleQueue_valid _
  coresIdle _ _ _ _ _ := rfl
  round := roundOk_scanOrder

section Facts
variable {v : Nat × Nat}

theorem Sound.active_of_entered (sound : Sound k past coreMap s) (moved : (s.core v).pc ≠ .lockTry) :
    active k coreMap v = true := by
  by_contra idle
  exact moved (sound.idle v (by simpa using idle))

/-- Whoever holds the lock file of a chip is one of its application cores. -/
theorem Sound.active_of_holder (sound : Sound k past coreMap s) {c r : Nat}
    (holder : s.holder c = some r) : active k coreMap (c, r) = true := by
  apply sound.active_of_entered
  intro pc
  have root := (sound.root (c, r)).mpr holder
  have role := sound.role (c, r)
  simp only [Role, pc] at role
  rw [role.1] at root
  cases root

theorem active_lt (on : active k coreMap v = true) :
    v.1 < (square k).numChips ∧ 1 ≤ v.2 ∧ v.2 < numCpus := by
  simp only [active, runs, Bool.and_eq_true, decide_eq_true_eq] at on
  exact ⟨on.1, on.2.1.1, on.2.1.2⟩

theorem EntryOk.mono {c i : Nat} {holder holder' : Option Nat} {e : SpinEmuRoute}
    (ok : EntryOk k past coreMap c holder i e)
    (kept : ∀ r, holder = some r → holder' = some r) : EntryOk k past coreMap c holder' i e := by
  rcases ok with initial | app | ⟨r, here, p⟩
  · exact .inl initial
  · exact .inr (.inl app)
  · exact .inr (.inr ⟨r, kept r here, p⟩)

theorem appEntry_spec {p : SpinEmuRoutePacket} (app : appEntry p = true) :
    3 < p.index ∧ p.index < numRoutes := by
  simpa only [appEntry, Bool.and_eq_true, decide_eq_true_eq] using app

end Facts

section Steps
variable {v : Nat × Nat}

theorem Sound.queue_pos (sound : Sound k past coreMap s) {c : Nat} (hc : c < (square k).numChips)
    (nonempty : (s.dispatcher.mcQueue c 0).len ≠ 0) : 0 < (s.fresh.mcQueue c 0).len :=
  lt_of_le_of_ne (sound.valid c hc 0 (by decide)).len_nonneg nonempty.symm

/-- A statement of a core's program. -/
theorem Sound.move {m : Move} (sound : Sound k past coreMap s) (on : active k coreMap v = true)
    (step : CoreStep k past coreMap v.1 v.2 (s.core v) (s.lock v.1) (s.holder v.1) m) :
    Sound k past coreMap (s.move v m) := by
  have holder : ∀ c r, s.holder c = some r → (s.move v m).holder c = some r := by
    intro c r held
    by_cases here : c = v.1
    · subst here
      rcases step.holder_eq with ⟨same, _⟩ | ⟨none, _⟩
      · simp only [System.move, Function.update_self, same, held]
      · rw [held] at none
        cases none
    · simpa only [System.move, Function.update_of_ne here] using held
  refine ⟨?_, ?_, ?_, ?_, fun c i => (sound.table c i).mono (holder c), sound.valid, sound.coresIdle,
    sound.round⟩
  · intro u off
    have apart : u ≠ v := by
      rintro rfl
      rw [on] at off
      cases off
    simpa only [System.move, Function.update_of_ne apart] using sound.idle u off
  · intro u
    by_cases here : u = v
    · subst here
      simpa only [System.move, Function.update_self] using (sound.role u).step step
    · simpa only [System.move, Function.update_of_ne here] using sound.role u
  · intro u
    have before := sound.root u
    by_cases here : u = v
    · subst here
      simp only [System.move, Function.update_self]
      rcases step.holder_eq with ⟨same, root | ⟨pc, root⟩⟩ | ⟨_, won, root, _⟩
      · rw [same, root]
        exact before
      · have role := sound.role u
        simp only [Role, pc] at role
        rw [same, root]
        rw [role.1] at before
        exact before
      · rw [won, root]
        exact iff_of_true rfl rfl
    · simp only [System.move, Function.update_of_ne here]
      by_cases chip : u.1 = v.1
      · rw [chip, Function.update_self]
        rw [chip] at before
        rcases step.holder_eq with ⟨same, _⟩ | ⟨none, won, _, _⟩
        · rw [same]
          exact before
        · have other : v.2 ≠ u.2 := fun core => here (Prod.ext chip core.symm)
          rw [won, before, none]
          simp [other]
      · rw [Function.update_of_ne chip]
        exact before
  · intro u p sent
    by_cases here : u = v
    · subst here
      simp only [System.move, System.send, Function.update_self] at sent
      rcases List.mem_append.mp sent with old | new
      · rcases sound.sent u p old with app | ⟨held, packet⟩
        · exact .inl app
        · exact .inr ⟨holder _ _ held, packet⟩
      · rcases step.out_eq (sound.role u) _ new with ⟨q, packet, same, root⟩ | ⟨_, _, other⟩
        · cases same
          exact .inr ⟨holder _ _ ((sound.root u).mp root), packet⟩
        · cases other
    · simp only [System.move, System.send, Function.update_of_ne here] at sent
      rcases sound.sent u p sent with app | ⟨held, packet⟩
      · exact .inl app
      · exact .inr ⟨holder _ _ held, packet⟩

/-- A core's controller thread reads a packet. -/
theorem Sound.read {m : SpinEmuMc} {rest : List SpinEmuMc} (sound : Sound k past coreMap s) :
    Sound k past coreMap { s with
      down := Function.update s.down v rest
      core := Function.update s.core v (readMc m (s.core v)) } := by
  obtain ⟨pc, root, vars, ncores⟩ := readMc_same m (s.core v)
  refine ⟨?_, ?_, ?_, sound.sent, sound.table, sound.valid, sound.coresIdle, sound.round⟩
  · intro u off
    by_cases here : u = v
    · subst here
      simpa only [Function.update_self, pc] using sound.idle u off
    · simpa only [Function.update_of_ne here] using sound.idle u off
  · intro u
    by_cases here : u = v
    · subst here
      simpa only [Function.update_self] using (sound.role u).congr pc root vars ncores
    · simpa only [Function.update_of_ne here] using sound.role u
  · intro u
    by_cases here : u = v
    · subst here
      simpa only [Function.update_self, root] using sound.root u
    · simpa only [Function.update_of_ne here] using sound.root u

/-- Other entries on the sockets are sound when they are applications' or were there
before. -/
theorem Sound.sockets {up : Nat × Nat → List Datagram} {down : Nat × Nat → List SpinEmuMc}
    (sound : Sound k past coreMap s)
    (sent : ∀ v p, Datagram.route p ∈ up v → appEntry p = true ∨ Datagram.route p ∈ s.up v) :
    Sound k past coreMap { s with up, down } := by
  refine ⟨sound.idle, sound.role, sound.root, ?_, sound.table, sound.valid, sound.coresIdle,
    sound.round⟩
  intro v p here
  rcases sent v p here with app | old
  · exact .inl app
  · exact sound.sent v p old

theorem mem_update_tail {α : Type} {f : Nat × Nat → List α} {u : Nat × Nat} {x a : α} {more : List α}
    (waiting : f v = a :: more) (member : x ∈ Function.update f v more u) : x ∈ f u := by
  by_cases here : u = v
  · subst here
    rw [Function.update_self] at member
    exact waiting ▸ List.mem_cons_of_mem _ member
  · rwa [Function.update_of_ne here] at member

theorem mem_update_append {α : Type} {f : Nat × Nat → List α} {u : Nat × Nat} {x a : α}
    (member : x ∈ Function.update f v (f v ++ [a]) u) (other : x ≠ a) : x ∈ f u := by
  by_cases here : u = v
  · subst here
    rw [Function.update_self, List.mem_append, List.mem_singleton] at member
    exact member.resolve_right other
  · rwa [Function.update_of_ne here] at member

theorem mem_update_eraseIdx {α : Type} {f : Nat × Nat → List α} {u : Nat × Nat} {x : α} {n : Nat}
    (member : x ∈ Function.update f v ((f v).eraseIdx n) u) : x ∈ f u := by
  by_cases here : u = v
  · subst here
    rw [Function.update_self] at member
    exact List.mem_of_mem_eraseIdx member
  · rwa [Function.update_of_ne here] at member

/-- A statement of the dispatcher. -/
theorem Sound.dispatch (sound : Sound k past coreMap s) (step : s.dispatch k = some t) :
    Sound k past coreMap t := by
  obtain ⟨step, round⟩ := dispatch_step sound.round step
  have valid : s.fresh.Valid (square k) := sound.valid
  cases step with
  | skip pending next _ =>
    exact ⟨sound.idle, sound.role, sound.root, sound.sent, sound.table, sound.valid,
      sound.coresIdle, round⟩
  | @recvMc v m more d _ hc hi waiting dispatched =>
    obtain ⟨_, keeps⟩ := queueMc_net (c := v.1) hc valid dispatched
    refine ⟨sound.idle, sound.role, sound.root, ?_, ?_, keeps.valid valid, ?_, round⟩
    · exact fun u p here => sound.sent u p (mem_update_tail waiting here)
    · intro c i
      rw [keeps.routes]
      exact sound.table c i
    · intro c hc i low high
      rw [keeps.cores c i (by omega)]
      exact sound.coresIdle c hc i low high
  | @recvRoute v p more d _ hc hi waiting stored =>
    obtain ⟨nonneg, _, rfl⟩ := storeRoute_ok stored
    refine ⟨sound.idle, sound.role, sound.root, ?_, ?_, sound.valid, sound.coresIdle, round⟩
    · exact fun u q here => sound.sent u q (mem_update_tail waiting here)
    · intro c i
      simp only [setRoute_routes]
      split
      · rename_i here
        obtain ⟨rfl, rfl⟩ := here
        rcases sound.sent v p (waiting ▸ List.mem_cons_self) with app | ⟨held, packet⟩
        · obtain ⟨high, _⟩ := appEntry_spec app
          exact .inr (.inl (by omega))
        · exact .inr (.inr ⟨v.2, held, p, packet, (Int.toNat_of_nonneg nonneg).symm, rfl⟩)
      · exact sound.table c i
  | @route c d _ hc nonempty routed =>
    obtain ⟨_, keeps⟩ := routeFront_net hc valid (sound.queue_pos hc nonempty) routed
    refine ⟨sound.idle, sound.role, sound.root, sound.sent, ?_, keeps.valid valid, ?_, round⟩
    · intro c' i
      simp only [System.deliver, keeps.routes]
      exact sound.table c' i
    · intro c' hc' i low high
      simp only [System.deliver]
      rw [keeps.cores c' i (by omega)]
      exact sound.coresIdle c' hc' i low high
  | @send v d hc low high nonempty sent =>
    exact absurd (sound.coresIdle v.1 hc v.2 low high) nonempty

theorem Sound.step {a : Action} (sound : Sound k past coreMap s)
    (step : s.step k past coreMap a = some t) : Sound k past coreMap t := by
  cases step_acts step with
  | run on moved => exact sound.move on moved
  | read on waiting => exact sound.read
  | dispatch step => exact sound.dispatch step
  | resend | appPacket =>
    exact sound.sockets fun u p here => .inr (mem_update_append here nofun)
  | @appRoute v q on app =>
    refine sound.sockets fun u p here => ?_
    by_cases same : p = q
    · exact .inl (same ▸ app)
    · exact .inr (mem_update_append here fun other => same (Datagram.route.inj other))
  | loseUp => exact sound.sockets fun u p here => .inr (mem_update_eraseIdx here)
  | loseDown => exact sound.sockets fun u p here => .inr here

/-- What a step does to a core: its program goes on, a packet is read, or nothing. -/
theorem Sound.step_core {a : Action} (sound : Sound k past coreMap s)
    (step : s.step k past coreMap a = some t) (u : Nat × Nat) :
    t.core u = s.core u ∨ (∃ p ∈ s.down u, t.core u = readMc p (s.core u)) ∨
      active k coreMap u = true ∧ ∃ m,
        CoreStep k past coreMap u.1 u.2 (s.core u) (s.lock u.1) (s.holder u.1) m ∧ t = s.move u m := by
  cases step_acts step with
  | @run v m on moved =>
    by_cases here : u = v
    · subst here
      exact .inr (.inr ⟨on, m, moved, rfl⟩)
    · exact .inl (by simp only [System.move, Function.update_of_ne here])
  | @read v m rest on waiting =>
    by_cases here : u = v
    · subst here
      exact .inr (.inl ⟨m, waiting ▸ List.mem_cons_self, Function.update_self ..⟩)
    · exact .inl (Function.update_of_ne here ..)
  | dispatch step =>
    obtain ⟨step, _⟩ := dispatch_step sound.round step
    cases step <;> exact .inl rfl
  | resend | appPacket | appRoute | loseUp | loseDown => exact .inl rfl

end Steps

theorem SpinEmuRoute.matches_of_spares {e : SpinEmuRoute} {key : BitVec 32}
    (spares : e.sparesBarrier = true) (barrier : key ∈ barrierKeys) : e.matches key = false := by
  have none := List.all_eq_true.mp spares key barrier
  rwa [Bool.not_eq_true'] at none

variable (k past coreMap) in
/-- A sound state in which the application's entries leave the keys of the barrier alone. -/
structure Spared (s : System) : Prop extends Sound k past coreMap s where
  unread : ∀ v p, Datagram.route p ∈ s.up v → 3 < p.index → p.entry.sparesBarrier = true
  entries : ∀ c i, 3 < i → (s.dispatcher.spinEmuRoutes c i).sparesBarrier = true

theorem spared_initial : Spared k past coreMap (System.initial k) where
  toSound := sound_initial
  unread _ _ h := by cases h
  entries _ _ _ := by
    show initialRoute.sparesBarrier = true
    decide

theorem Spared.unread_step {a : Action} (spared : Spared k past coreMap s)
    (spares : a.sparesBarrier = true) (step : s.step k past coreMap a = some t) (u : Nat × Nat)
    (p : SpinEmuRoutePacket) (waiting : Datagram.route p ∈ t.up u) (high : 3 < p.index) :
    p.entry.sparesBarrier = true := by
  have before (old : Datagram.route p ∈ s.up u) := spared.unread u p old high
  cases step_acts step with
  | @run v m on moved =>
    simp only [System.move, System.send] at waiting
    by_cases here : u = v
    · subst here
      rw [Function.update_self, List.mem_append] at waiting
      refine waiting.elim before fun new => ?_
      rcases moved.out_eq (spared.role u) _ new with ⟨q, setup, same, _⟩ | ⟨_, _, other⟩
      · cases same
        have := (setupPackets_index setup).2
        omega
      · cases other
    · rw [Function.update_of_ne here] at waiting
      exact before waiting
  | read | loseDown => exact before waiting
  | resend | appPacket => exact before (mem_update_append waiting nofun)
  | @appRoute v q on app =>
    by_cases same : p = q
    · exact same ▸ spares
    · exact before (mem_update_append waiting fun other => same (Datagram.route.inj other))
  | loseUp => exact before (mem_update_eraseIdx waiting)
  | dispatch step =>
    obtain ⟨step, _⟩ := dispatch_step spared.round step
    cases step with
    | skip | route | send => exact before waiting
    | recvMc _ _ _ front | recvRoute _ _ _ front => exact before (mem_update_tail front waiting)

theorem Spared.entries_dispatch (spared : Spared k past coreMap s) (step : s.dispatch k = some t)
    (c i : Nat) (high : 3 < i) : (t.dispatcher.spinEmuRoutes c i).sparesBarrier = true := by
  obtain ⟨step, _⟩ := dispatch_step spared.round step
  have valid : s.fresh.Valid (square k) := spared.valid
  cases step with
  | skip => exact spared.entries c i high
  | @recvMc v m more d _ hc _ _ dispatched =>
    rw [(queueMc_net (c := v.1) hc valid dispatched).2.routes]
    exact spared.entries c i high
  | @recvRoute v p more d _ _ _ waiting stored =>
    obtain ⟨nonneg, _, rfl⟩ := storeRoute_ok stored
    simp only [setRoute_routes]
    split
    · exact spared.unread v p (waiting ▸ List.mem_cons_self) (by omega)
    · exact spared.entries c i high
  | @route c' d _ hc nonempty routed =>
    simp only [System.deliver]
    rw [(routeFront_net hc valid (spared.queue_pos hc nonempty) routed).2.routes]
    exact spared.entries c i high
  | @send v d hc low high nonempty sent =>
    exact absurd (spared.coresIdle v.1 hc v.2 low high) nonempty

theorem Spared.step {a : Action} (spared : Spared k past coreMap s) (spares : a.sparesBarrier = true)
    (step : s.step k past coreMap a = some t) : Spared k past coreMap t := by
  refine ⟨spared.toSound.step step, spared.unread_step spares step, fun c i high => ?_⟩
  cases step_acts step with
  | dispatch step => exact spared.entries_dispatch step c i high
  | run | read | resend | appPacket | appRoute | loseUp | loseDown => exact spared.entries c i high

end Board
end SpinEmu
