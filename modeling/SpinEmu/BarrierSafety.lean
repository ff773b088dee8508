import SpinEmu.BarrierLedger

/-! Barrier safety: the root cores count at least the cores and the chips that have
not yet arrived, so that GO is sent after every core has entered the barrier. -/
namespace SpinEmu
open Lib Lib.Forwarding Lib.Tally Lib.Machine Dispatcher

section SetUp
variable {k : Nat} {past coreMap : Nat → BitVec 32} {v : Nat × Nat} {vars : BarrierVars}

/-- The application cores of a chip. -/
def chipCores (coreMap : Nat → BitVec 32) (c : Nat) : Finset Nat :=
  (Finset.range numCpus).filter fun i => runs coreMap c i = true

theorem card_chipCores (c : Nat) :
    (chipCores coreMap c).card = (List.range numCpus).countP (runs coreMap c) := by
  have same : chipCores coreMap c = ((List.range numCpus).filter (runs coreMap c)).toFinset := by
    ext i
    simp [chipCores]
  rw [same, List.toFinset_card_of_nodup (List.nodup_range.filter _), List.countP_eq_length_filter]

theorem SetUp.rootChip (hk : k ≤ 15) (inside : v.1 < (square k).numChips)
    (setup : SetUp k past coreMap v vars) : vars.rootChip = decide (v.1 = 0) := by
  obtain ⟨packets, setup⟩ := setup
  obtain ⟨hx, hy, here⟩ := Board.coordinates inside
  have values := barrierSetup_square past coreMap hk hx hy v.2 {} rfl rfl rfl
  rw [here, setup] at values
  cases values
  exact packed_origin hk inside

theorem SetUp.nchips (hk : k ≤ 15) (active : AllActive k coreMap) (origin : v.1 = 0)
    (setup : SetUp k past coreMap v vars) : vars.nchips = squareChips k := by
  obtain ⟨packets, setup⟩ := setup
  have inside : 0 < 2 ^ k := Nat.two_pow_pos k
  have address : (0 : BitVec 32) = BitVec.ofNat 32 (0 * 256 + 0) := rfl
  have self : (0 : BitVec 32) = (((0 : BitVec 32) >>> 8) <<< k) ||| (0 &&& 0xff) := by simp
  have values := barrierSetup_square past coreMap hk inside inside v.2 {} address self rfl
  rw [origin, ← Board.chip_origin (square k), values] at setup
  cases setup
  exact countChips_square hk active

/-- A root core counts the cores of its own chip, unless the board is so large that
the chip takes itself for another one. -/
theorem SetUp.myNcores (hk : k ≤ 15) (inside : v.1 < (square k).numChips)
    (near : k ≤ 8 ∨ v.1 = 0) (setup : SetUp k past coreMap v vars) :
    vars.myNcores.toNat = (chipCores coreMap v.1).card := by
  obtain ⟨packets, setup⟩ := setup
  obtain ⟨hx, hy, here⟩ := Board.coordinates inside
  have values := barrierSetup_square past coreMap hk hx hy v.2 {} rfl rfl rfl
  rw [here, setup] at values
  cases values
  have self : (((BitVec.ofNat 32 (v.1 / 2 ^ k * 256 + v.1 % 2 ^ k)) >>> 8 <<< k) |||
      ((BitVec.ofNat 32 (v.1 / 2 ^ k * 256 + v.1 % 2 ^ k)) &&& 0xff)).toNat = v.1 := by
    rcases near with small | origin
    · have side := side_le small
      have square_le : 2 ^ k * 2 ^ k ≤ 256 * 256 := Nat.mul_le_mul side side
      rw [addressX hx hy small, addressY hy small, myChip_square hx hy small, here,
        BitVec.toNat_ofNat, Nat.mod_eq_of_lt]
      rw [square_numChips] at inside
      omega
    · simp [origin]
  have few : (chipCores coreMap v.1).card ≤ numCpus :=
    (Finset.card_filter_le _ _).trans (Finset.card_range _).le
  simp only [numCpus] at few
  change (localCores past (coreMap _ &&& 0xfffffffe) 0).2.toNat = _
  rw [self, localCores_count, countP_runs, ← card_chipCores, BitVec.toNat_add, BitVec.toNat_ofNat,
    show (0 : BitVec 32).toNat = 0 from rfl]
  omega

end SetUp

section Counting
variable {k : Nat} {past coreMap : Nat → BitVec 32} {s : System} {v : Nat × Nat}

/-- The cores of chip `c` have entered the barrier. -/
def ChipIn (k : Nat) (coreMap : Nat → BitVec 32) (s : System) (c : Nat) : Prop :=
  ∀ i, active k coreMap (c, i) = true → (s.core (c, i)).pc.entered = true

def AllIn (k : Nat) (coreMap : Nat → BitVec 32) (s : System) : Prop :=
  ∀ v, active k coreMap v = true → (s.core v).pc.entered = true

theorem Pc.entered_of_sent {pc : Pc} (sent : pc.sent = true) : pc.entered = true := by
  cases pc <;> first | rfl | cases sent

namespace Ready
variable {L : Ready}

/-- The senders whose packets count. -/
def senders (L : Ready) (k : Nat) (s : System) : Finset (Nat × Nat) :=
  (sockets k).filter fun v => (L.live v.1 && L.sender (s.core v) && (s.core v).pc.sent) = true

theorem tally_owed : tally (sockets k) L.owed s.core = (L.senders k s).card :=
  (Finset.card_filter _ _).symm

theorem card_senders (fair : 0 ≤ L.balance k s) (member : v ∈ sockets k) :
    L.counted v (s.core v) ≤ (L.senders k s).card := by
  have own : L.counted v (s.core v) ≤ tally (sockets k) L.counted s.core := le_tally member
  rw [balance, tally_owed] at fair
  omega

end Ready

/-- A root core that has counted all cores of its chip. -/
theorem Sound.chipIn (sound : Sound k past coreMap s) (fair : 0 ≤ (rdy1Ready v.1).balance k s)
    (on : active k coreMap v = true) (root : (s.core v).rootAp = true)
    (entered : (s.core v).pc.entered = true)
    (cores : (s.core v).vars.myNcores.toNat = (chipCores coreMap v.1).card)
    (counted : (s.core v).vars.myNcores ≤ (s.core v).barrierRdy1Cnt) : ChipIn k coreMap s v.1 := by
  have begun : (rdy1Ready v.1).begun (s.core v).pc = true := by
    cases pc : (s.core v).pc <;> first | rfl | (rw [pc] at entered; cases entered)
  have enough := Ready.card_senders fair (Ready.active_socket on)
  have count : (rdy1Ready v.1).counted v (s.core v) = (s.core v).barrierRdy1Cnt.toNat - 1 := by
    rw [Ready.counted, root, begun]
    simp [rdy1Ready]
  rw [count] at enough
  rw [BitVec.le_def, cores] at counted
  have self : v.2 ∈ chipCores coreMap v.1 := by
    obtain ⟨_, _, high⟩ := active_lt on
    simp only [active, Bool.and_eq_true] at on
    exact Finset.mem_filter.mpr ⟨Finset.mem_range.mpr high, on.2⟩
  have subset : (rdy1Ready v.1).senders k s ⊆ {v.1} ×ˢ (chipCores coreMap v.1).erase v.2 := by
    intro u hu
    obtain ⟨member, sent⟩ := Finset.mem_filter.mp hu
    simp only [rdy1Ready, Bool.and_eq_true, beq_iff_eq, Bool.not_eq_true'] at sent
    obtain ⟨⟨chip, other⟩, sent⟩ := sent
    have on := sound.active_of_entered fun pc => by
      rw [pc] at sent
      cases sent
    simp only [active, Bool.and_eq_true] at on
    refine Finset.mem_product.mpr ⟨Finset.mem_singleton.mpr chip, Finset.mem_erase.mpr ⟨?_, ?_⟩⟩
    · intro core
      rw [show u = v from Prod.ext chip core, root] at other
      cases other
    · exact Finset.mem_filter.mpr ⟨Finset.mem_range.mpr (mem_sockets.mp member).2, chip ▸ on.2⟩
  have whole := Finset.eq_of_subset_of_card_le subset (by
    rw [Finset.card_product, Finset.card_singleton, Finset.card_erase_of_mem self]
    omega)
  intro i hi
  by_cases same : i = v.2
  · subst same
    exact entered
  · have member : (v.1, i) ∈ (rdy1Ready v.1).senders k s := by
      obtain ⟨_, _, high⟩ := active_lt hi
      simp only [active, Bool.and_eq_true] at hi
      rw [whole]
      exact Finset.mem_product.mpr ⟨Finset.mem_singleton.mpr rfl, Finset.mem_erase.mpr
        ⟨same, Finset.mem_filter.mpr ⟨Finset.mem_range.mpr high, hi.2⟩⟩⟩
    have sent := (Finset.mem_filter.mp member).2
    simp only [Bool.and_eq_true] at sent
    exact Pc.entered_of_sent sent.2

section Rdy2
variable {live : Nat → Bool} {u : Nat × Nat}

theorem mem_rdy2_senders (member : u ∈ (rdy2Ready live).senders k s) :
    u.1 < (square k).numChips ∧ live u.1 = true ∧ (s.core u).rootAp = true ∧
      (s.core u).vars.rootChip = false ∧ (s.core u).pc.sent = true := by
  obtain ⟨inside, sent⟩ := Finset.mem_filter.mp member
  simp only [rdy2Ready, Bool.and_eq_true, Bool.not_eq_true'] at sent
  exact ⟨(mem_sockets.mp inside).1, sent.1.1, sent.1.2.1, sent.1.2.2, sent.2⟩

/-- One core of a chip sends RDY2. -/
theorem Sound.rdy2_senders_injOn (sound : Sound k past coreMap s) :
    Set.InjOn Prod.fst ((rdy2Ready live).senders k s : Set (Nat × Nat)) := by
  intro u hu w hw chip
  have first := (sound.root u).mp (mem_rdy2_senders hu).2.2.1
  have second := (sound.root w).mp (mem_rdy2_senders hw).2.2.1
  rw [chip, second] at first
  exact Prod.ext chip (Option.some.inj first).symm

end Rdy2

/-- A root core of chip `(0, 0)` that has counted all chips. -/
theorem Sound.chips_sent (hk : k ≤ 15) (sound : Sound k past coreMap s)
    (fair : 0 ≤ (rdy2Ready fun c => !strayChip k c).balance k s)
    (on : active k coreMap v = true) (origin : v.1 = 0) (root : (s.core v).rootAp = true)
    (entered : (s.core v).pc.entered = true) (chips : (s.core v).vars.nchips = squareChips k)
    (counted : (s.core v).vars.nchips ≤ (s.core v).barrierRdy2Cnt) :
    ∀ c < (square k).numChips, c ≠ 0 → strayChip k c = false ∧
      ∃ r, (s.core (c, r)).rootAp = true ∧ (s.core (c, r)).vars.rootChip = false ∧
        (s.core (c, r)).pc.sent = true := by
  have begun : (rdy2Ready fun c => !strayChip k c).begun (s.core v).pc = true := by
    cases pc : (s.core v).pc <;> first | rfl | (rw [pc] at entered; cases entered)
  have enough := Ready.card_senders fair (Ready.active_socket on)
  have count : (rdy2Ready fun c => !strayChip k c).counted v (s.core v) =
      (s.core v).barrierRdy2Cnt.toNat - 1 := by
    rw [Ready.counted, root, begun]
    simp [rdy2Ready, origin]
  rw [BitVec.le_def, chips, squareChips_toNat hk] at counted
  rw [count] at enough
  have single : Set.InjOn Prod.fst
      ((rdy2Ready fun c => !strayChip k c).senders k s : Set (Nat × Nat)) := sound.rdy2_senders_injOn
  have subset : ((rdy2Ready fun c => !strayChip k c).senders k s).image Prod.fst ⊆
      (Finset.range (square k).numChips).erase 0 := by
    intro c hc
    obtain ⟨u, hu, rfl⟩ := Finset.mem_image.mp hc
    obtain ⟨inside, _, rootAp, other, sent⟩ := mem_rdy2_senders hu
    refine Finset.mem_erase.mpr ⟨fun zero => ?_, Finset.mem_range.mpr inside⟩
    have role := sound.role u
    cases pc : (s.core u).pc with
    | waitGo | left =>
      simp only [Role, pc] at role
      rw [(role.2 rootAp).rootChip hk inside, zero] at other
      cases other
    | _ =>
      rw [pc] at sent
      cases sent
  have inside : 0 ∈ Finset.range (square k).numChips :=
    Finset.mem_range.mpr (Nat.mul_pos (Nat.two_pow_pos k) (Nat.two_pow_pos k))
  have whole := Finset.eq_of_subset_of_card_le subset (by
    rw [Finset.card_image_of_injOn single, Finset.card_erase_of_mem inside, Finset.card_range]
    omega)
  intro c hc other
  have member : c ∈ ((rdy2Ready fun c => !strayChip k c).senders k s).image Prod.fst := by
    rw [whole]
    exact Finset.mem_erase.mpr ⟨other, Finset.mem_range.mpr hc⟩
  obtain ⟨u, hu, rfl⟩ := Finset.mem_image.mp member
  obtain ⟨_, near, rootAp, notRoot, sent⟩ := mem_rdy2_senders hu
  exact ⟨by simpa using near, u.2, rootAp, notRoot, sent⟩

end Counting

section Safety
variable {k : Nat} {past coreMap : Nat → BitVec 32} {s t : System} {a : Action} {v : Nat × Nat}
  {me : Core} {lock : Nat} {holder : Option Nat} {m : Move}

theorem CoreStep.entered (step : CoreStep k past coreMap v.1 v.2 me lock holder m)
    (entered : me.pc.entered = true) : m.core.pc.entered = true := by
  cases step with
  | startSeveral | enterRoot | enterOtherRoot | enterOther | rdygo | ready | go | rdygoSeen | rdy2
  | lockSeen | rdy1 | leave => rfl
  | lockWon pc | lockLost pc | rdy1Route pc | rdy1Cnt pc | rdy2Cnt pc | release pc | routerSeen pc _
  | mapRoot pc _ _ _ | mapOther pc _ | routesDone pc | routesNext pc | startAlone pc _ =>
    rw [pc] at entered
    cases entered

theorem Sound.entered_step (sound : Sound k past coreMap s)
    (step : s.step k past coreMap a = some t) (u : Nat × Nat)
    (entered : (s.core u).pc.entered = true) : (t.core u).pc.entered = true := by
  rcases sound.step_core step u with same | ⟨p, _, read⟩ | ⟨_, m, moved, rfl⟩
  · rwa [same]
  · rwa [read, (readMc_same p _).1]
  · simpa only [System.move, Function.update_self] using moved.entered entered

theorem AllIn.step (all : AllIn k coreMap s) (sound : Sound k past coreMap s)
    (step : s.step k past coreMap a = some t) : AllIn k coreMap t :=
  fun v on => sound.entered_step step v (all v on)

/-- The statements that lead to the sending of GO, send it and wait for it. -/
theorem CoreStep.go_cases (step : CoreStep k past coreMap v.1 v.2 me lock holder m) :
    m.core.barrierGo = me.barrierGo ∧
      (m.core.pc = .sendGo → me.pc = .waitReady ∧ me.vars.myNcores ≤ me.barrierRdy1Cnt ∧
        me.vars.nchips ≤ me.barrierRdy2Cnt) ∧
      (m.core.pc = .left → me.barrierGo = true) ∧
      ∀ x, .mc x ∈ m.out → x.key = goKey → me.pc = .sendGo := by
  cases step with
  | ready pc cores chips => exact ⟨rfl, fun _ => ⟨pc, cores, chips⟩, nofun, nofun⟩
  | go pc => exact ⟨rfl, nofun, nofun, fun _ _ _ => pc⟩
  | leave pc go => exact ⟨rfl, nofun, fun _ => go, nofun⟩
  | startSeveral | startAlone | enterRoot | enterOtherRoot | enterOther | rdygoSeen | lockSeen
  | lockWon | lockLost | rdy1Cnt | rdy2Cnt | release | routerSeen | mapRoot | mapOther | routesDone =>
    exact ⟨rfl, nofun, nofun, nofun⟩
  | rdygo | rdy2 | rdy1 =>
    refine ⟨rfl, nofun, nofun, fun x out key => ?_⟩
    cases List.mem_singleton.mp out
    cases key
  | rdy1Route | routesNext =>
    refine ⟨rfl, nofun, nofun, fun x out _ => ?_⟩
    cases List.mem_singleton.mp out

theorem readMc_go (p : SpinEmuMc) (go : (readMc p me).barrierGo = true) :
    me.barrierGo = true ∨ p.key = goKey := by
  unfold readMc at go
  split_ifs at go with rdygo isGo
  · exact .inl go
  · exact .inr isGo
  · exact .inl go
  · exact .inl go
  · exact .inl go

/-- The root core of a chip other than `(0, 0)` has counted the cores of its chip. -/
def Core.chipReady (me : Core) : Prop :=
  me.pc = .sendRdy2 ∨ me.pc.sent = true ∧ me.vars.rootChip = false

theorem CoreStep.chipReady (role : Role k past coreMap v me)
    (step : CoreStep k past coreMap v.1 v.2 me lock holder m) (root : m.core.rootAp = true)
    (ready : m.core.chipReady) :
    me.rootAp = true ∧ (me.chipReady ∨
      me.pc = .waitRdygo ∧ me.vars.myNcores ≤ me.barrierRdy1Cnt ∧ me.barrierRdygo = true) := by
  cases step with
  | rdygoSeen pc cores seen => exact ⟨root, .inr ⟨pc, cores, seen⟩⟩
  | rdy2 pc => exact ⟨root, .inl (.inl pc)⟩
  | leave pc =>
    rcases ready with pc' | ⟨_, other⟩
    · cases pc'
    · exact ⟨root, .inl (.inr ⟨by rw [pc]; rfl, other⟩)⟩
  | go pc =>
    rcases ready with pc' | ⟨_, other⟩
    · cases pc'
    · simp only [Role, pc] at role
      rw [role.2.2.2] at other
      cases other
  | rdy1 pc =>
    simp only [Role, pc] at role
    rw [role.2] at root
    cases root
  | startSeveral | startAlone | enterRoot | enterOtherRoot | enterOther | rdygo | ready | lockSeen
  | lockWon | lockLost | rdy1Route | rdy1Cnt | rdy2Cnt | release | routerSeen | mapRoot | mapOther | routesDone
  | routesNext =>
    rcases ready with pc' | ⟨sent, _⟩
    · cases pc'
    · cases sent

/-- What the barrier keeps so that GO finds every core in it. -/
structure Safe (k : Nat) (past coreMap : Nat → BitVec 32) (s : System) : Prop where
  spared : Spared k past coreMap s
  rdy1 : ∀ c, 0 ≤ (rdy1Ready c).balance k s
  rdy2 : 0 ≤ (rdy2Ready fun c => !strayChip k c).balance k s
  chip : k ≤ 8 → ∀ v, (s.core v).rootAp = true → (s.core v).chipReady → ChipIn k coreMap s v.1
  go : Traffic k (fun _ m => m.key = goKey → AllIn k coreMap s)
    (fun _ m => m.key = goKey → AllIn k coreMap s) s
  flag : ∀ v, (s.core v).barrierGo = true → AllIn k coreMap s
  root : ∀ v, (s.core v).pc = .sendGo → AllIn k coreMap s
  left : ∀ v, (s.core v).pc = .left → AllIn k coreMap s

theorem Safe.sound (safe : Safe k past coreMap s) : Sound k past coreMap s := safe.spared.toSound

theorem safe_initial : Safe k past coreMap (System.initial k) where
  spared := spared_initial
  rdy1 _ := Ready.balance_initial.ge
  rdy2 := Ready.balance_initial.ge
  chip _ _ root _ := by cases root
  go := traffic_initial
  flag _ go := by cases go
  root _ pc := by cases pc
  left _ pc := by cases pc

/-- The root core of chip `(0, 0)` goes on when every core is in the barrier. -/
theorem Safe.allIn (hk : k ≤ 15) (all : AllActive k coreMap) (safe : Safe k past coreMap s)
    (pc : (s.core v).pc = .waitReady) (cores : (s.core v).vars.myNcores ≤ (s.core v).barrierRdy1Cnt)
    (chips : (s.core v).vars.nchips ≤ (s.core v).barrierRdy2Cnt) : AllIn k coreMap s := by
  have on := safe.sound.active_of_entered (v := v) (by rw [pc]; nofun)
  have entered : (s.core v).pc.entered = true := by rw [pc]; rfl
  have role := safe.sound.role v
  simp only [Role, pc] at role
  obtain ⟨_, root, setup, rootChip⟩ := role
  rw [setup.rootChip hk (active_lt on).1, decide_eq_true_iff] at rootChip
  have own := safe.sound.chipIn (safe.rdy1 v.1) on root entered
    (setup.myNcores hk (active_lt on).1 (.inr rootChip)) cores
  have others := safe.sound.chips_sent hk safe.rdy2 on rootChip root entered
    (setup.nchips hk all rootChip) chips
  have small : k ≤ 8 := by
    by_contra large
    obtain ⟨c, inside, other, stray⟩ := exists_strayChip (by omega : 8 < k)
    rw [(others c inside other).1] at stray
    cases stray
  intro u hu
  by_cases origin : u.1 = 0
  · have same : v.1 = u.1 := rootChip.trans origin.symm
    rw [same] at own
    exact own u.2 hu
  · obtain ⟨_, r, rootAp, notRoot, sent⟩ := others u.1 (active_lt hu).1 origin
    exact safe.chip small (u.1, r) rootAp (.inr ⟨sent, notRoot⟩) u.2 hu

theorem Safe.step (hk : k ≤ 15) (all : AllActive k coreMap) (safe : Safe k past coreMap s)
    (spares : a.sparesBarrier = true) (step : s.step k past coreMap a = some t) : Safe k past coreMap t := by
  have later : AllIn k coreMap s → AllIn k coreMap t := fun inside => inside.step safe.sound step
  have laterChip (c : Nat) (inside : ChipIn k coreMap s c) : ChipIn k coreMap t c :=
    fun i on => safe.sound.entered_step step (c, i) (inside i on)
  refine ⟨safe.spared.step spares step, fun c => ?_, ?_, fun small v root ready => ?_, ?_, fun v go => ?_,
    fun v pc => ?_, fun v pc => ?_⟩
  · exact (safe.rdy1 c).trans (Ready.balance_step (Ready.rdy1_fair c) safe.sound
      (fun c m _ => Ready.rdy1_law safe.spared c m) step).1
  · exact safe.rdy2.trans (Ready.balance_step (Ready.rdy2_fair _) safe.sound
      (fun c m _ => Ready.rdy2_law hk (fun c near => by simp [near]) safe.spared c m) step).1
  · apply laterChip
    rcases safe.sound.step_core step v with same | ⟨p, _, read⟩ | ⟨on, m, moved, rfl⟩
    · rw [same] at root ready
      exact safe.chip small v root ready
    · obtain ⟨pc, rootAp, vars, _⟩ := readMc_same p (s.core v)
      rw [read, rootAp] at root
      rw [read, Core.chipReady, pc, vars] at ready
      exact safe.chip small v root ready
    · simp only [System.move, Function.update_self] at root ready
      obtain ⟨root, before | ⟨pc, cores, _⟩⟩ := moved.chipReady (safe.sound.role v) root ready
      · exact safe.chip small v root before
      · have role := safe.sound.role v
        simp only [Role, pc] at role
        exact safe.sound.chipIn (safe.rdy1 v.1) on root (by rw [pc]; rfl)
          (role.2.2.1.myNcores hk (active_lt on).1 (.inl small)) cores
  · have sends : Sends k past coreMap s fun _ m => m.key = goKey → AllIn k coreMap s :=
      ⟨fun v m x _ moved out key => safe.root v (moved.go_cases.2.2.2 x out key),
        fun _ _ _ key => absurd key (by decide), fun _ m other key => absurd (key ▸ by decide) other⟩
    exact (safe.go.step safe.sound sends ⟨fun _ _ _ fine _ => fine, fun _ _ _ fine _ => fine⟩ step).mono
      (fun _ _ fine key => later (fine key)) fun _ _ fine key => later (fine key)
  · apply later
    rcases safe.sound.step_core step v with same | ⟨p, waiting, read⟩ | ⟨_, m, moved, rfl⟩
    · exact safe.flag v (same ▸ go)
    · rcases readMc_go p (read ▸ go) with old | key
      · exact safe.flag v old
      · exact safe.go.down v p waiting key
    · simp only [System.move, Function.update_self, moved.go_cases.1] at go
      exact safe.flag v go
  · apply later
    rcases safe.sound.step_core step v with same | ⟨p, _, read⟩ | ⟨_, m, moved, rfl⟩
    · exact safe.root v (same ▸ pc)
    · exact safe.root v ((readMc_same p _).1 ▸ read ▸ pc)
    · simp only [System.move, Function.update_self] at pc
      obtain ⟨waiting, cores, chips⟩ := moved.go_cases.2.1 pc
      exact safe.allIn hk all waiting cores chips
  · apply later
    rcases safe.sound.step_core step v with same | ⟨p, _, read⟩ | ⟨_, m, moved, rfl⟩
    · exact safe.left v (same ▸ pc)
    · exact safe.left v ((readMc_same p _).1 ▸ read ▸ pc)
    · simp only [System.move, Function.update_self] at pc
      exact safe.flag v (moved.go_cases.2.2.1 pc)

/-- Where the entries that the applications set match no key of the barrier, no core
leaves `barrier_wait` before every core of the core map has entered it. -/
theorem barrier_safe (all : AllActive k coreMap)
    (run : Run (System.step k past coreMap) (fun _ a => a.sparesBarrier = true)
      (System.initial k) s)
    (left : (s.core v).pc = .left) :
    ∀ u, active k coreMap u = true → (s.core u).pc.entered = true := by
  have sound : Sound k past coreMap s :=
    run.invariant (fun sound _ step => sound.step step) sound_initial
  have several := (sound.role v).several (by rw [left]; rfl)
  have hk := several_le several
  have safe : Safe k past coreMap s :=
    run.invariant (fun safe spares step => safe.step hk all spares step) safe_initial
  exact safe.left v left

end Safety

/-- A run of two cores on one chip through the barrier, with an entry of the application. -/
def oneChipActions : List Action :=
  List.replicate 6 (.run (0, 1)) ++ [.appRoute (0, 1) ⟨4, 5, 0xffffffff, 0x80⟩] ++
    List.replicate 7 (.run (0, 1)) ++ List.replicate 7 (.run (0, 2)) ++
    List.replicate 19 .dispatch ++ [.read (0, 1), .run (0, 1), .run (0, 1)] ++
    List.replicate 25 .dispatch ++ [.read (0, 2), .run (0, 2)]

theorem barrier_safe_oneChip :
    ∃ s, Run (System.step 0 (fun _ => 0) fun _ => 6) (fun _ a => a.sparesBarrier = true)
        (System.initial 0) s ∧
      s.dispatcher.spinEmuRoutes 0 4 = ⟨5, 0xffffffff, 0x80⟩ ∧ (s.core (0, 2)).pc = .left ∧
      ∀ u, active 0 (fun _ => 6) u = true → (s.core u).pc.entered = true := by
  obtain ⟨s, run, passes⟩ := exists_checkedRun (System.step 0 (fun _ => 0) fun _ => 6)
    (fun _ a => a.sparesBarrier) (System.initial 0) oneChipActions
    (fun s => s.dispatcher.spinEmuRoutes 0 4 == ⟨5, 0xffffffff, 0x80⟩ && (s.core (0, 2)).pc == .left)
    (by decide +kernel)
  obtain ⟨entry, left⟩ := Bool.and_eq_true_iff.mp passes
  have left : (s.core (0, 2)).pc = .left := eq_of_beq left
  have core : runs (fun _ => 6) 0 1 = true := by decide
  exact ⟨s, run, eq_of_beq entry, left, barrier_safe (fun _ _ => ⟨1, core⟩) run left⟩

/-- Two by two chips: two cores on each of the first two, one on the others. -/
def sixCores (c : Nat) : BitVec 32 := if c ≤ 1 then 6 else 2

/-- Core 2 of chip `(0, 1)` sets a default entry, for core 1 and the link to chip
`(0, 0)`, which its RDY1 packet meets because the dispatcher has passed the socket of
core 1. The default entry of chip `(1, 0)` gives RDYGO to core 1. -/
def foreignReadyActions : List Action := List.flatten
  [List.replicate 12 (.run (0, 1)), List.replicate 5 (.run (2, 1)),
    [.appRoute (2, 1) ⟨4, 0, 0, 0x80⟩], List.replicate 14 .dispatch,
    List.replicate 12 (.run (1, 1)), List.replicate 2 (.run (1, 2)),
    [.appRoute (1, 2) ⟨4, 0, 0, 0xa0⟩], List.replicate 5 (.run (1, 2)),
    List.replicate 100 .dispatch, [.read (0, 1), .read (1, 1)],
    List.replicate 12 (.run (3, 1)), [.run (0, 1)], List.replicate 117 .dispatch,
    [.read (1, 1)], List.replicate 2 (.run (1, 1)), [.read (3, 1)],
    List.replicate 2 (.run (3, 1)), [.read (2, 1)], List.replicate 9 (.run (2, 1)),
    List.replicate 81 .dispatch, List.replicate 3 (.read (0, 1)),
    List.replicate 2 (.run (0, 1)), List.replicate 71 .dispatch, [.read (0, 1), .run (0, 1)]]

/-- The root core of chip `(0, 0)` counts the RDY1 packet of the other chip and leaves
before core 2 of its own chip has begun. -/
theorem barrier_left_early :
    AllActive 1 sixCores ∧
      ∃ s, Run (System.step 1 shiftModulo sixCores) (fun _ _ => True) (System.initial 1) s ∧
        (s.core (0, 1)).pc = .left ∧
        ¬ ∀ u, active 1 sixCores u = true → (s.core u).pc.entered = true := by
  obtain ⟨s, run, passes⟩ := exists_run (System.step 1 shiftModulo sixCores) (fun _ _ => True)
    (System.initial 1) foreignReadyActions
    (fun s => (s.core (0, 1)).pc == .left && (s.core (0, 2)).pc == .lockTry)
    (fun _ _ _ => trivial) (by decide +kernel)
  obtain ⟨left, begun⟩ := Bool.and_eq_true_iff.mp passes
  refine ⟨fun c _ => ⟨1, ?_⟩, s, run, eq_of_beq left, fun all => ?_⟩
  · by_cases near : c ≤ 1 <;> simp [runs, sixCores, near] <;> decide
  · have entered := all (0, 2) (by decide)
    rw [eq_of_beq begun] at entered
    cases entered

end SpinEmu
