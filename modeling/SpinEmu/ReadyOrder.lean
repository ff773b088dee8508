import SpinEmu.BarrierSafety

/-! The order of the barrier: a ready packet is sent only after the root core that
counts it has set its counters and opened the barrier. -/
namespace SpinEmu
open Lib Lib.Forwarding Dispatcher

/-- The core is in the barrier and, if it is a root core, has opened it to its chip. -/
def Pc.opened : Pc → Bool
  | .sendRdygo | .waitReady | .sendGo | .waitRdygo | .sendRdy2 | .waitGo | .left => true
  | _ => false

def RootIn (s : System) (c : Nat) : Prop :=
  ∃ r, s.holder c = some r ∧ (s.core (c, r)).pc.opened = true

/-- The packets that can be on chip `c`, given the root cores that are in. -/
def mayPass (s : System) (c : Nat) (m : SpinEmuMc) : Prop :=
  (m.key = rdy1Key → RootIn s c) ∧ (m.key = rdygoKey ∨ m.key = rdy2Key → RootIn s 0)

/-- The packets that can be on their way to core `v`. -/
def mayReach (s : System) (v : Nat × Nat) (m : SpinEmuMc) : Prop :=
  (m.key = rdy1Key → RootIn s v.1 ∧ s.holder v.1 = some v.2) ∧ (m.key = rdygoKey → RootIn s 0) ∧
    (m.key = rdy2Key → RootIn s 0 ∧ v.1 = 0 ∧ s.holder v.1 = some v.2)

structure Order (k : Nat) (s : System) : Prop where
  lock : ∀ c, rdygoLck ≤ s.lock c → RootIn s c
  others : ∀ v, (s.core v).rootAp = false → (s.core v).pc = .sendRdy1 ∨ (s.core v).pc.sent = true →
    RootIn s v.1
  flag : ∀ v, (s.core v).barrierRdygo = true → RootIn s 0
  roots : ∀ v, (s.core v).rootAp = true → (s.core v).chipReady → RootIn s 0
  traffic : Traffic k (mayPass s) (mayReach s) s

section Steps
variable {k : Nat} {past coreMap : Nat → BitVec 32} {s t : System} {a : Action} {v : Nat × Nat}
  {me : Core} {lock : Nat} {holder : Option Nat} {m : Move} {c r : Nat}

theorem CoreStep.opened (step : CoreStep k past coreMap v.1 v.2 me lock holder m)
    (opened : me.pc.opened = true) : m.core.pc.opened = true := by
  cases step with
  | rdygo | ready | go | rdygoSeen | rdy2 | rdy1 | leave | enterRoot | enterOtherRoot => rfl
  | lockWon pc | lockLost pc | rdy1Route pc | rdy1Cnt pc | rdy2Cnt pc | release pc | routerSeen pc _
  | mapRoot pc _ _ _ | mapOther pc _ | routesDone pc | routesNext pc | startSeveral pc _ | startAlone pc _
  | enterOther pc _ | lockSeen pc _ =>
    rw [pc] at opened
    cases opened

theorem Sound.holder_step (sound : Sound k past coreMap s)
    (step : s.step k past coreMap a = some t) (held : s.holder c = some r) :
    t.holder c = some r := by
  cases step_acts step with
  | @run v m _ moved =>
    by_cases here : c = v.1
    · subst here
      rcases moved.holder_eq with ⟨same, _⟩ | ⟨free, _⟩
      · simp only [System.move, Function.update_self, same, held]
      · rw [held] at free
        cases free
    · simpa only [System.move, Function.update_of_ne here] using held
  | dispatch step =>
    obtain ⟨step, _⟩ := dispatch_step sound.round step
    cases step <;> exact held
  | read | resend | appPacket | appRoute | loseUp | loseDown => exact held

theorem RootIn.step (inside : RootIn s c) (sound : Sound k past coreMap s)
    (step : s.step k past coreMap a = some t) : RootIn t c := by
  obtain ⟨r, held, opened⟩ := inside
  refine ⟨r, sound.holder_step step held, ?_⟩
  rcases sound.step_core step (c, r) with same | ⟨p, _, read⟩ | ⟨_, m, moved, rfl⟩
  · rwa [same]
  · rwa [read, (readMc_same p _).1]
  · simpa only [System.move, Function.update_self] using moved.opened opened

/-- The lock word of a chip. -/
theorem CoreStep.lock_cases (step : CoreStep k past coreMap v.1 v.2 me lock holder m) :
    m.lock = lock ∨ m.lock = rtrInitLck ∨ me.rootAp = true ∧ m.core.pc.opened = true := by
  cases step with
  | release => exact .inr (.inl rfl)
  | enterRoot pc root | enterOtherRoot pc root => exact .inr (.inr ⟨root, rfl⟩)
  | _ => exact .inl rfl

theorem CoreStep.others (role : Role k past coreMap v me)
    (step : CoreStep k past coreMap v.1 v.2 me lock holder m) (other : m.core.rootAp = false)
    (sends : m.core.pc = .sendRdy1 ∨ m.core.pc.sent = true) :
    rdygoLck ≤ lock ∨ me.rootAp = false ∧ (me.pc = .sendRdy1 ∨ me.pc.sent = true) := by
  cases step with
  | lockSeen pc seen => exact .inl seen
  | rdy1 pc => exact .inr ⟨other, .inl pc⟩
  | leave pc => exact .inr ⟨other, .inr (by rw [pc]; rfl)⟩
  | go pc | rdy2 pc =>
    simp only [Role, pc] at role
    rw [role.2.1] at other
    cases other
  | startSeveral | startAlone | enterRoot | enterOtherRoot | enterOther | rdygo | ready | rdygoSeen | lockWon
  | lockLost | rdy1Route | rdy1Cnt | rdy2Cnt | release | routerSeen | mapRoot | mapOther | routesDone
  | routesNext =>
    rcases sends with pc' | sent
    · cases pc'
    · cases sent

/-- What a core sends for the barrier, with where its program stands. -/
theorem CoreStep.sends (step : CoreStep k past coreMap v.1 v.2 me lock holder m) :
    m.core.barrierRdygo = me.barrierRdygo ∧ ∀ x, .mc x ∈ m.out →
      (x.key = rdygoKey → me.pc = .sendRdygo) ∧ (x.key = rdy1Key → me.pc = .sendRdy1) ∧
        (x.key = rdy2Key → me.pc = .sendRdy2) := by
  cases step with
  | rdygo pc =>
    refine ⟨rfl, fun x out => ?_⟩
    cases List.mem_singleton.mp out
    exact ⟨fun _ => pc, fun key => absurd key (by decide), fun key => absurd key (by decide)⟩
  | rdy1 pc =>
    refine ⟨rfl, fun x out => ?_⟩
    cases List.mem_singleton.mp out
    exact ⟨fun key => absurd key (by decide), fun _ => pc, fun key => absurd key (by decide)⟩
  | rdy2 pc =>
    refine ⟨rfl, fun x out => ?_⟩
    cases List.mem_singleton.mp out
    exact ⟨fun key => absurd key (by decide), fun key => absurd key (by decide), fun _ => pc⟩
  | go pc =>
    refine ⟨rfl, fun x out => ?_⟩
    cases List.mem_singleton.mp out
    exact ⟨fun key => absurd key (by decide), fun key => absurd key (by decide),
      fun key => absurd key (by decide)⟩
  | rdy1Route | routesNext =>
    refine ⟨rfl, fun x out => ?_⟩
    cases List.mem_singleton.mp out
  | startSeveral | startAlone | enterRoot | enterOtherRoot | enterOther | ready | rdygoSeen | lockSeen | lockWon
  | lockLost | rdy1Cnt | rdy2Cnt | release | routerSeen | mapRoot | mapOther | routesDone | leave =>
    exact ⟨rfl, nofun⟩

theorem readMc_rdygo (p : SpinEmuMc) (flag : (readMc p me).barrierRdygo = true) :
    me.barrierRdygo = true ∨ p.key = rdygoKey := by
  unfold readMc at flag
  split_ifs at flag with rdygo
  · exact .inr rdygo
  all_goals exact .inl flag

/-- The root core of chip `(0, 0)` at the places where it sends RDYGO. -/
theorem Sound.rootIn_origin (sound : Sound k past coreMap s)
    (pc : (s.core v).pc = .sendRdygo ∨ (s.core v).pc = .waitReady) : RootIn s 0 := by
  have role := sound.role v
  have known : Several k coreMap ∧ (s.core v).rootAp = true ∧ SetUp k past coreMap v (s.core v).vars ∧
      (s.core v).vars.rootChip = true := by
    rcases pc with pc | pc <;> simpa only [Role, pc] using role
  obtain ⟨several, root, setup, rootChip⟩ := known
  have on := sound.active_of_entered (v := v) (by rcases pc with pc | pc <;> simp [pc])
  rw [setup.rootChip (several_le several) (active_lt on).1, decide_eq_true_iff] at rootChip
  refine ⟨v.2, rootChip ▸ (sound.root v).mp root, ?_⟩
  rw [← rootChip]
  rcases pc with pc | pc <;> rw [pc] <;> rfl

theorem Order.sends (order : Order k s) (sound : Sound k past coreMap s) :
    Sends k past coreMap s (mayPass s) where
  run v m x _ moved out := by
    obtain ⟨rdygo, rdy1, rdy2⟩ := moved.sends.2 x out
    refine ⟨fun key => ?_, ?_⟩
    · have pc := rdy1 key
      have role := sound.role v
      simp only [Role, pc] at role
      exact order.others v role.2 (.inl pc)
    · rintro (key | key)
      · exact sound.rootIn_origin (.inl (rdygo key))
      · have pc := rdy2 key
        have role := sound.role v
        simp only [Role, pc] at role
        exact order.roots v role.2.1 (.inl pc)
  resend v _ pc := ⟨fun key => absurd key (by decide), fun _ => sound.rootIn_origin (.inr pc)⟩
  other c m other := by
    refine ⟨fun key => absurd (key ▸ by decide) other, ?_⟩
    rintro (key | key) <;> exact absurd (key ▸ by decide) other

/-- A root core that is in has found several cores. -/
theorem RootIn.several (inside : RootIn s c) (sound : Sound k past coreMap s) : Several k coreMap := by
  obtain ⟨r, _, opened⟩ := inside
  apply (sound.role (c, r)).several
  cases pc : (s.core (c, r)).pc <;> first
    | rfl
    | (rw [pc] at opened; cases opened)

theorem Spared.carries (spared : Spared k past coreMap s) :
    Carries k s (mayPass s) (mayReach s) where
  next c m u pass target := by
    refine ⟨fun key => ?_, pass.2⟩
    obtain ⟨j, link⟩ := mem_next.mp target
    have link : mcLink (square k) s.dispatcher.spinEmuRoutes m.key c j = some u := link
    rw [key] at link
    cases found : firstMatch (s.dispatcher.spinEmuRoutes c) rdy1Key with
    | none =>
      rw [mcLink_none found] at link
      cases link
    | some e =>
      obtain ⟨r, _, hr, rfl⟩ := spared.rdy1_found found
      have hj := j.isLt
      rw [mcLink_oneBit found (by simp only [numCpus, numLinks] at hr ⊢; omega),
        if_neg (by omega)] at link
      cases link
  exit c m j pass exit := by
    refine ⟨fun key => ?_, fun key => pass.2 (.inl key), fun key => ?_⟩
    · rw [key] at exit
      cases found : firstMatch (s.dispatcher.spinEmuRoutes c) rdy1Key with
      | none =>
        rw [mcExits_none found] at exit
        cases exit
      | some e =>
        obtain ⟨r, held, hr, rfl⟩ := spared.rdy1_found found
        rw [mcExits_oneBit found (by simp only [numCpus, numLinks] at hr ⊢; omega),
          if_pos ⟨by omega, by omega⟩, List.mem_singleton, Nat.add_sub_cancel] at exit
        exact ⟨pass.1 key, exit ▸ held⟩
    · rw [key] at exit
      cases found : firstMatch (s.dispatcher.spinEmuRoutes c) rdy2Key with
      | none =>
        rw [mcExits_none found] at exit
        cases exit
      | some e =>
        have several := (pass.2 (.inr key)).several spared.toSound
        obtain ⟨r, held, hr, rfl⟩ := spared.rdy2_found (several_le several) found
        by_cases origin : c = 0
        · rw [if_pos origin] at found
          rw [mcExits_oneBit found (by simp only [numCpus, numLinks] at hr ⊢; omega),
            if_pos ⟨by omega, by omega⟩, List.mem_singleton, Nat.add_sub_cancel] at exit
          exact ⟨pass.2 (.inr key), origin, exit ▸ held⟩
        · have link := (readyLink k c).isLt
          rw [if_neg origin] at found
          rw [mcExits_oneBit found (by simp only [numLinks] at link; omega),
            if_neg (by omega)] at exit
          cases exit

theorem order_initial : Order k (System.initial k) where
  lock _ high := absurd high (by decide : ¬ rdygoLck ≤ clearLck)
  others _ _ sends := by
    rcases sends with pc | sent
    · cases pc
    · cases sent
  flag _ flag := by cases flag
  roots _ root := by cases root
  traffic := traffic_initial

theorem Order.step (order : Order k s) (spared : Spared k past coreMap s)
    (step : s.step k past coreMap a = some t) : Order k t := by
  have sound := spared.toSound
  have later (c : Nat) (inside : RootIn s c) : RootIn t c := inside.step sound step
  refine ⟨fun c high => ?_, fun v other sends => ?_, fun v flag => ?_, fun v root ready => ?_, ?_⟩
  · cases step_acts step with
    | @run v m _ moved =>
      by_cases here : c = v.1
      · subst here
        simp only [System.move, Function.update_self] at high
        rcases moved.lock_cases with same | low | ⟨root, opened⟩
        · exact later _ (order.lock _ (same ▸ high))
        · rw [low] at high
          exact absurd high (by decide)
        · refine ⟨v.2, sound.holder_step step ((sound.root v).mp root), ?_⟩
          simpa only [System.move, Function.update_self] using opened
      · simp only [System.move, Function.update_of_ne here] at high
        exact later c (order.lock c high)
    | dispatch dispatched =>
      apply later
      obtain ⟨dispatched, _⟩ := dispatch_step sound.round dispatched
      cases dispatched <;> exact order.lock c high
    | read | resend | appPacket | appRoute | loseUp | loseDown => exact later c (order.lock c high)
  · apply later
    rcases sound.step_core step v with same | ⟨p, _, read⟩ | ⟨_, m, moved, rfl⟩
    · rw [same] at other sends
      exact order.others v other sends
    · rw [read, (readMc_same p _).2.1] at other
      rw [read, (readMc_same p _).1] at sends
      exact order.others v other sends
    · simp only [System.move, Function.update_self] at other sends
      rcases moved.others (sound.role v) other sends with seen | ⟨other, sends⟩
      · exact order.lock _ seen
      · exact order.others v other sends
  · apply later
    rcases sound.step_core step v with same | ⟨p, waiting, read⟩ | ⟨_, m, moved, rfl⟩
    · exact order.flag v (same ▸ flag)
    · rcases readMc_rdygo p (read ▸ flag) with old | key
      · exact order.flag v old
      · exact (order.traffic.down v p waiting).2.1 key
    · simp only [System.move, Function.update_self, moved.sends.1] at flag
      exact order.flag v flag
  · apply later
    rcases sound.step_core step v with same | ⟨p, _, read⟩ | ⟨_, m, moved, rfl⟩
    · rw [same] at root ready
      exact order.roots v root ready
    · obtain ⟨pc, rootAp, vars, _⟩ := readMc_same p (s.core v)
      rw [read, rootAp] at root
      rw [read, Core.chipReady, pc, vars] at ready
      exact order.roots v root ready
    · simp only [System.move, Function.update_self] at root ready
      obtain ⟨root, before | ⟨_, _, seen⟩⟩ := moved.chipReady (sound.role v) root ready
      · exact order.roots v root before
      · exact order.flag v seen
  · have held (c r : Nat) (before : s.holder c = some r) : t.holder c = some r :=
      sound.holder_step step before
    refine (order.traffic.step sound (order.sends sound) spared.carries step).mono ?_ ?_
    · exact fun c m pass => ⟨fun key => later c (pass.1 key), fun key => later 0 (pass.2 key)⟩
    · intro v m reach
      refine ⟨fun key => ?_, fun key => later 0 (reach.2.1 key), fun key => ?_⟩
      · obtain ⟨inside, holder⟩ := reach.1 key
        exact ⟨later _ inside, held _ _ holder⟩
      · obtain ⟨inside, origin, holder⟩ := reach.2.2 key
        exact ⟨later 0 inside, origin, held _ _ holder⟩

end Steps
end SpinEmu
