import SpinEmu.BarrierSystem

/-! What a core can do next, and what its variables are at each place of its
program. -/
namespace SpinEmu

section Board
variable (k : Nat) (past : Nat → BitVec 32) (coreMap : Nat → BitVec 32)

/-- There is more than one application core, so that the barrier is used. -/
def Several : Prop := countCores (squareChips k) coreMap > 1

/-- The variables are what `barrier_setup` leaves on a fresh process. -/
def SetUp (v : Nat × Nat) (vars : BarrierVars) : Prop :=
  ∃ packets, barrierSetup (square k) past (squareChips k) coreMap v.1 v.2 {} = some (vars, packets)

def Role (v : Nat × Nat) (me : Core) : Prop :=
  match me.pc with
  | .lockTry | .waitRouter => me.rootAp = false ∧ me.vars = {}
  | .sendRdy1Route | .initRdy1Cnt | .initRdy2Cnt | .releaseRouter =>
    me.rootAp = true ∧ me.vars = {}
  | .setCoreMap => me.vars = {}
  | .sendRoutes packets =>
    Several k coreMap ∧ me.ncores = countCores (squareChips k) coreMap ∧ me.rootAp = true ∧
      ∃ sent, barrierSetup (square k) past (squareChips k) coreMap v.1 v.2 {} =
        some (me.vars, sent ++ packets)
  | .start => me.ncores = countCores (squareChips k) coreMap ∧
      (Several k coreMap → me.rootAp = true → SetUp k past coreMap v me.vars)
  | .alone => ¬ Several k coreMap
  | .barrierWait | .waitGo | .left =>
    Several k coreMap ∧ (me.rootAp = true → SetUp k past coreMap v me.vars)
  | .sendRdygo | .waitReady | .sendGo =>
    Several k coreMap ∧ me.rootAp = true ∧ SetUp k past coreMap v me.vars ∧
      me.vars.rootChip = true
  | .waitRdygo | .sendRdy2 =>
    Several k coreMap ∧ me.rootAp = true ∧ SetUp k past coreMap v me.vars ∧
      me.vars.rootChip = false
  | .waitLock | .sendRdy1 => Several k coreMap ∧ me.rootAp = false

/-- The statements of `coreMove` one by one, with what each has tested. -/
inductive CoreStep (c i : Nat) (me : Core) (lock : Nat) : Option Nat → Move → Prop where
  | lockWon : me.pc = .lockTry → CoreStep c i me lock none
      ⟨{ me with rootAp := true, pc := .sendRdy1Route }, some i, lock, []⟩
  | lockLost {r} : me.pc = .lockTry → CoreStep c i me lock (some r)
      ⟨{ me with rootAp := false, pc := .waitRouter }, some r, lock, []⟩
  | rdy1Route {holder} : me.pc = .sendRdy1Route → CoreStep c i me lock holder
      ⟨{ me with pc := .initRdy1Cnt }, holder, lock, [.route (rdy1Packet past i)]⟩
  | rdy1Cnt {holder} : me.pc = .initRdy1Cnt → CoreStep c i me lock holder
      ⟨{ me with barrierRdy1Cnt := 1, pc := .initRdy2Cnt }, holder, lock, []⟩
  | rdy2Cnt {holder} : me.pc = .initRdy2Cnt → CoreStep c i me lock holder
      ⟨{ me with barrierRdy2Cnt := 1, pc := .releaseRouter }, holder, lock, []⟩
  | release {holder} : me.pc = .releaseRouter → CoreStep c i me lock holder
      ⟨{ me with pc := .setCoreMap }, holder, rtrInitLck, []⟩
  | routerSeen {holder} : me.pc = .waitRouter → rtrInitLck ≤ lock → CoreStep c i me lock holder
      ⟨{ me with pc := .setCoreMap }, holder, lock, []⟩
  | mapRoot {holder vars packets} : me.pc = .setCoreMap → Several k coreMap → me.rootAp = true →
      barrierSetup (square k) past (squareChips k) coreMap c i me.vars = some (vars, packets) →
      CoreStep c i me lock holder
        ⟨{ me with vars, ncores := countCores (squareChips k) coreMap, pc := .sendRoutes packets },
          holder, lock, []⟩
  | mapOther {holder} : me.pc = .setCoreMap → (Several k coreMap → me.rootAp = false) →
      CoreStep c i me lock holder
        ⟨{ me with ncores := countCores (squareChips k) coreMap, pc := .start }, holder, lock, []⟩
  | routesDone {holder} : me.pc = .sendRoutes [] → CoreStep c i me lock holder
      ⟨{ me with pc := .start }, holder, lock, []⟩
  | routesNext {holder p rest} : me.pc = .sendRoutes (p :: rest) → CoreStep c i me lock holder
      ⟨{ me with pc := .sendRoutes rest }, holder, lock, [.route p]⟩
  | startSeveral {holder} : me.pc = .start → me.ncores > 1 → CoreStep c i me lock holder
      ⟨{ me with pc := .barrierWait }, holder, lock, []⟩
  | startAlone {holder} : me.pc = .start → ¬ me.ncores > 1 → CoreStep c i me lock holder
      ⟨{ me with pc := .alone }, holder, lock, []⟩
  | enterRoot {holder} : me.pc = .barrierWait → me.rootAp = true → me.vars.rootChip = true →
      CoreStep c i me lock holder ⟨{ me with pc := .sendRdygo }, holder, rdygoLck, []⟩
  | enterOtherRoot {holder} : me.pc = .barrierWait → me.rootAp = true →
      me.vars.rootChip = false →
      CoreStep c i me lock holder ⟨{ me with pc := .waitRdygo }, holder, rdygoLck, []⟩
  | enterOther {holder} : me.pc = .barrierWait → me.rootAp = false → CoreStep c i me lock holder
      ⟨{ me with pc := .waitLock }, holder, lock, []⟩
  | rdygo {holder} : me.pc = .sendRdygo → CoreStep c i me lock holder
      ⟨{ me with pc := .waitReady }, holder, lock, [barrierPacket rdygoKey]⟩
  | ready {holder} : me.pc = .waitReady → me.vars.myNcores ≤ me.barrierRdy1Cnt →
      me.vars.nchips ≤ me.barrierRdy2Cnt → CoreStep c i me lock holder
        ⟨{ me with pc := .sendGo }, holder, lock, []⟩
  | go {holder} : me.pc = .sendGo → CoreStep c i me lock holder
      ⟨{ me with pc := .waitGo }, holder, lock, [barrierPacket goKey]⟩
  | rdygoSeen {holder} : me.pc = .waitRdygo → me.vars.myNcores ≤ me.barrierRdy1Cnt →
      me.barrierRdygo = true → CoreStep c i me lock holder
        ⟨{ me with pc := .sendRdy2 }, holder, lock, []⟩
  | rdy2 {holder} : me.pc = .sendRdy2 → CoreStep c i me lock holder
      ⟨{ me with pc := .waitGo }, holder, lock, [barrierPacket rdy2Key]⟩
  | lockSeen {holder} : me.pc = .waitLock → rdygoLck ≤ lock → CoreStep c i me lock holder
      ⟨{ me with pc := .sendRdy1 }, holder, lock, []⟩
  | rdy1 {holder} : me.pc = .sendRdy1 → CoreStep c i me lock holder
      ⟨{ me with pc := .waitGo }, holder, lock, [barrierPacket rdy1Key]⟩
  | leave {holder} : me.pc = .waitGo → me.barrierGo = true → CoreStep c i me lock holder
      ⟨{ me with pc := .left }, holder, lock, []⟩

/-- The actions of the system one by one, with what each has tested. -/
inductive Acts (s : System) : Action → System → Prop where
  | run {v m} : active k coreMap v = true →
      CoreStep k past coreMap v.1 v.2 (s.core v) (s.lock v.1) (s.holder v.1) m →
      Acts s (.run v) (s.move v m)
  | read {v m rest} : active k coreMap v = true → s.down v = m :: rest →
      Acts s (.read v) { s with
        down := Function.update s.down v rest
        core := Function.update s.core v (readMc m (s.core v)) }
  | resend {v} : active k coreMap v = true → (s.core v).pc = .waitReady →
      Acts s (.resend v) (s.send v [barrierPacket rdygoKey])
  | dispatch {t} : s.dispatch k = some t → Acts s .dispatch t
  | appPacket {v m} : active k coreMap v = true → m.key ∉ barrierKeys →
      Acts s (.appPacket v m) (s.send v [.mc m])
  | appRoute {v p} : active k coreMap v = true → appEntry p = true →
      Acts s (.appRoute v p) (s.send v [.route p])
  | loseUp {v n m} : (s.up v)[n]? = some (.mc m) → Acts s (.loseUp v n)
      { s with up := Function.update s.up v ((s.up v).eraseIdx n) }
  | loseDown {v n} : Acts s (.loseDown v n)
      { s with down := Function.update s.down v ((s.down v).eraseIdx n) }

variable {k past coreMap} {v : Nat × Nat} {me : Core} {holder : Option Nat} {lock : Nat} {m : Move}

/-- The number of chips of a larger board does not fit into a word. -/
theorem several_le (several : Several k coreMap) : k ≤ 15 := by
  by_contra large
  obtain ⟨n, rfl⟩ : ∃ n, k = n + 16 := ⟨k - 16, by omega⟩
  have none : (squareChips (n + 16)).toNat = 0 := by
    rw [BitVec.toNat_ofNat, Nat.pow_add, Nat.mul_mul_mul_comm]
    exact Nat.mul_mod_left _ _
  rw [Several, countCores, none] at several
  cases several

theorem coreMove_step
    (moved : coreMove k past coreMap v.1 v.2 me holder lock = some m) :
    CoreStep k past coreMap v.1 v.2 me lock holder m := by
  unfold coreMove at moved
  split at moved
  case h_1 pc =>
    cases holder with
    | none =>
      cases moved
      exact .lockWon pc
    | some r =>
      cases moved
      exact .lockLost pc
  case h_2 pc =>
    cases moved
    exact .rdy1Route pc
  case h_3 pc =>
    cases moved
    exact .rdy1Cnt pc
  case h_4 pc =>
    cases moved
    exact .rdy2Cnt pc
  case h_5 pc =>
    cases moved
    exact .release pc
  case h_6 pc =>
    split at moved
    · cases moved
    · rename_i seen
      cases moved
      exact .routerSeen pc (Nat.le_of_not_lt seen)
  case h_7 pc =>
    simp only at moved
    split at moved
    · rename_i both
      simp only [Bool.and_eq_true, decide_eq_true_eq] at both
      obtain ⟨⟨vars, packets⟩, setup, result⟩ := Option.map_eq_some_iff.mp moved
      cases result
      exact .mapRoot pc both.1 both.2 setup
    · rename_i notBoth
      cases moved
      simp only [Bool.and_eq_true, decide_eq_true_eq, not_and, Bool.not_eq_true] at notBoth
      exact .mapOther pc notBoth
  case h_8 pc =>
    cases moved
    exact .routesDone pc
  case h_9 p rest pc =>
    cases moved
    exact .routesNext pc
  case h_10 pc =>
    split at moved
    · rename_i several
      cases moved
      exact .startSeveral pc several
    · rename_i single
      cases moved
      exact .startAlone pc single
  case h_11 pc =>
    split at moved
    · rename_i root
      cases moved
      cases chip : me.vars.rootChip with
      | true => exact .enterRoot pc root chip
      | false => exact .enterOtherRoot pc root chip
    · rename_i other
      cases moved
      exact .enterOther pc (by simpa using other)
  case h_12 pc =>
    cases moved
    exact .rdygo pc
  case h_13 pc =>
    split at moved
    · cases moved
    · rename_i counted
      simp only [Bool.or_eq_true, decide_eq_true_eq, not_or, BitVec.not_lt] at counted
      cases moved
      exact .ready pc counted.1 counted.2
  case h_14 pc =>
    cases moved
    exact .go pc
  case h_15 pc =>
    split at moved
    · cases moved
    · rename_i counted
      simp only [Bool.or_eq_true, decide_eq_true_eq, not_or, BitVec.not_lt, Bool.not_eq_true',
        Bool.not_eq_false] at counted
      cases moved
      exact .rdygoSeen pc counted.1 counted.2
  case h_16 pc =>
    cases moved
    exact .rdy2 pc
  case h_17 pc =>
    split at moved
    · cases moved
    · rename_i seen
      cases moved
      exact .lockSeen pc (Nat.le_of_not_lt seen)
  case h_18 pc =>
    cases moved
    exact .rdy1 pc
  case h_19 pc =>
    split at moved
    · rename_i go
      cases moved
      exact .leave pc go
    · cases moved
  case h_20 => cases moved
  case h_21 => cases moved

theorem Role.step (role : Role k past coreMap v me)
    (step : CoreStep k past coreMap v.1 v.2 me lock holder m) : Role k past coreMap v m.core := by
  cases step with
  | lockWon pc | lockLost pc | rdy1Route pc | rdy1Cnt pc | rdy2Cnt pc =>
    simp only [Role, pc] at role ⊢
    simp [role]
  | release pc | routerSeen pc _ =>
    simp only [Role, pc] at role ⊢
    exact role.2
  | mapRoot pc several root setup =>
    simp only [Role, pc] at role ⊢
    exact ⟨several, trivial, root, [], by rw [← role, setup, List.nil_append]⟩
  | mapOther pc other =>
    simp only [Role, pc] at role ⊢
    refine ⟨trivial, fun several root => ?_⟩
    rw [other several] at root
    cases root
  | routesDone pc =>
    simp only [Role, pc] at role ⊢
    obtain ⟨_, counted, _, sent, setup⟩ := role
    exact ⟨counted, fun _ _ => ⟨sent ++ [], setup⟩⟩
  | @routesNext _ p rest pc =>
    simp only [Role, pc] at role ⊢
    obtain ⟨several, counted, root, sent, setup⟩ := role
    exact ⟨several, counted, root, sent ++ [p], by rw [setup, List.append_assoc]; rfl⟩
  | startSeveral pc more =>
    simp only [Role, pc] at role ⊢
    have several : Several k coreMap := by rwa [role.1] at more
    exact ⟨several, role.2 several⟩
  | startAlone pc single =>
    simp only [Role, pc] at role ⊢
    exact fun several => single (by rw [role.1]; exact several)
  | enterRoot pc root chip | enterOtherRoot pc root chip =>
    simp only [Role, pc] at role ⊢
    exact ⟨role.1, root, role.2 root, chip⟩
  | enterOther pc other =>
    simp only [Role, pc] at role ⊢
    exact ⟨role.1, other⟩
  | rdygo pc | ready pc _ _ | rdygoSeen pc _ _ | lockSeen pc _ | leave pc _ =>
    simp only [Role, pc] at role ⊢
    exact role
  | go pc | rdy2 pc =>
    simp only [Role, pc] at role ⊢
    exact ⟨role.1, fun _ => role.2.2.1⟩
  | rdy1 pc =>
    simp only [Role, pc] at role ⊢
    refine ⟨role.1, fun root => ?_⟩
    rw [role.2] at root
    cases root

theorem step_acts {s t : System} {a : Action} (step : s.step k past coreMap a = some t) :
    Acts k past coreMap s a t := by
  cases a with
  | dispatch => exact .dispatch step
  | loseDown v n => exact Option.some.inj step ▸ .loseDown
  | run v =>
    simp only [System.step] at step
    split at step
    · rename_i on
      obtain ⟨m, moved, rfl⟩ := Option.map_eq_some_iff.mp step
      exact .run on (coreMove_step moved)
    · cases step
  | read v =>
    simp only [System.step] at step
    split at step
    · rename_i m rest on waiting
      exact Option.some.inj step ▸ .read on waiting
    · cases step
  | resend v =>
    simp only [System.step] at step
    split at step
    · rename_i guard
      simp only [Bool.and_eq_true, decide_eq_true_eq] at guard
      exact Option.some.inj step ▸ .resend guard.1 guard.2
    · cases step
  | appPacket v m =>
    simp only [System.step] at step
    split at step
    · rename_i guard
      simp only [Bool.and_eq_true, Bool.not_eq_true', List.contains_eq_mem,
        decide_eq_false_iff_not] at guard
      exact Option.some.inj step ▸ .appPacket guard.1 guard.2
    · cases step
  | appRoute v p =>
    simp only [System.step] at step
    split at step
    · rename_i guard
      simp only [Bool.and_eq_true] at guard
      exact Option.some.inj step ▸ .appRoute guard.1 guard.2
    · cases step
  | loseUp v n =>
    simp only [System.step] at step
    split at step
    · rename_i m lost
      exact Option.some.inj step ▸ .loseUp lost
    · cases step

/-- The flock of a chip is taken once, by the core that becomes the root core. -/
theorem CoreStep.holder_eq (step : CoreStep k past coreMap v.1 v.2 me lock holder m) :
    m.holder = holder ∧ (m.core.rootAp = me.rootAp ∨ me.pc = .lockTry ∧ m.core.rootAp = false) ∨
      holder = none ∧ m.holder = some v.2 ∧ m.core.rootAp = true ∧ me.pc = .lockTry := by
  cases step with
  | lockWon pc => exact .inr ⟨rfl, rfl, rfl, pc⟩
  | lockLost pc => exact .inl ⟨rfl, .inr ⟨pc, rfl⟩⟩
  | _ => exact .inl ⟨rfl, .inl rfl⟩

/-- A core sends the entries of its chip's setup and the packets of the barrier. -/
theorem CoreStep.out_eq (role : Role k past coreMap v me)
    (step : CoreStep k past coreMap v.1 v.2 me lock holder m) : ∀ x ∈ m.out,
      (∃ p ∈ setupPackets k past coreMap (fun _ => v.2) v.1, x = .route p ∧ me.rootAp = true) ∨
      ∃ key ∈ barrierKeys, x = barrierPacket key := by
  intro x hx
  cases step with
  | rdy1Route pc =>
    simp only [Role, pc] at role
    exact .inl ⟨_, List.mem_cons_self, List.mem_singleton.mp hx, role.1⟩
  | @routesNext _ p rest pc =>
    simp only [Role, pc] at role
    obtain ⟨_, _, root, sent, setup⟩ := role
    refine .inl ⟨p, ?_, List.mem_singleton.mp hx, root⟩
    rw [setupPackets, setup]
    exact List.mem_cons_of_mem _ (List.mem_append_right _ List.mem_cons_self)
  | rdygo | go | rdy2 | rdy1 =>
    exact .inr ⟨_, by simp [barrierKeys], List.mem_singleton.mp hx⟩
  | _ => cases hx

/-- What `read_mc` leaves alone. -/
theorem readMc_same (p : SpinEmuMc) (me : Core) :
    (readMc p me).pc = me.pc ∧ (readMc p me).rootAp = me.rootAp ∧ (readMc p me).vars = me.vars ∧
      (readMc p me).ncores = me.ncores := by
  unfold readMc
  split_ifs <;> exact ⟨rfl, rfl, rfl, rfl⟩

/-- What `read_mc` counts. -/
theorem readMc_counts (p : SpinEmuMc) (me : Core) :
    (readMc p me).barrierRdy1Cnt =
        (if p.key = rdy1Key then me.barrierRdy1Cnt + 1 else me.barrierRdy1Cnt) ∧
      (readMc p me).barrierRdy2Cnt =
        (if p.key = rdy2Key then me.barrierRdy2Cnt + 1 else me.barrierRdy2Cnt) := by
  have apart : rdygoKey ≠ rdy1Key ∧ rdygoKey ≠ rdy2Key ∧ goKey ≠ rdy1Key ∧ goKey ≠ rdy2Key ∧
      rdy1Key ≠ rdy2Key := by decide
  obtain ⟨rdygo1, rdygo2, go1, go2, apart⟩ := apart
  unfold readMc
  by_cases rdygo : p.key = rdygoKey
  · simp only [rdygo, if_true, if_neg rdygo1, if_neg rdygo2, and_self]
  · by_cases go : p.key = goKey
    · rw [if_neg rdygo, if_pos go, go, if_neg go1, if_neg go2]
      exact ⟨rfl, rfl⟩
    · by_cases rdy1 : p.key = rdy1Key
      · rw [if_neg rdygo, if_neg go, if_pos rdy1, if_pos rdy1, rdy1, if_neg apart]
        exact ⟨rfl, rfl⟩
      · rw [if_neg rdygo, if_neg go, if_neg rdy1, if_neg rdy1]
        split_ifs <;> exact ⟨rfl, rfl⟩

theorem Role.congr {me me' : Core} (role : Role k past coreMap v me) (pc : me'.pc = me.pc)
    (root : me'.rootAp = me.rootAp) (vars : me'.vars = me.vars) (ncores : me'.ncores = me.ncores) :
    Role k past coreMap v me' := by
  unfold Role at role ⊢
  rw [pc, root, vars, ncores]
  exact role

theorem Role.several (role : Role k past coreMap v me) (entered : me.pc.entered = true) :
    Several k coreMap := by
  cases pc : me.pc <;> simp only [Role, pc] at role <;> first
    | exact role.1
    | (rw [pc] at entered; cases entered)

end Board
end SpinEmu
