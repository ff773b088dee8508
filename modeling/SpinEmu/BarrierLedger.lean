import SpinEmu.BarrierTraffic
import SpinEmu.Lib.Tally

/-! The books of the ready packets: what the senders have sent against what is on
the way and what the root cores have counted. A step loses packets or keeps the
balance. -/
namespace SpinEmu
open Lib Lib.Forwarding Lib.Tally Dispatcher

/-- The core has sent its packet of the barrier and waits for GO or has left. -/
def Pc.sent : Pc → Bool
  | .waitGo | .left => true
  | _ => false

/-- A kind of ready packet: the chips where one counts, the chip whose root core
counts them, the root's counter and from where it is set, and the cores that send. -/
structure Ready where
  key : BitVec 32
  live : Nat → Bool
  home : Nat
  cnt : Core → BitVec 32
  begun : Pc → Bool
  sender : Core → Bool

/-- RDY1 on chip `c`. -/
def rdy1Ready (c : Nat) : Ready where
  key := rdy1Key
  live u := u == c
  home := c
  cnt := Core.barrierRdy1Cnt
  begun
    | .lockTry | .sendRdy1Route | .initRdy1Cnt => false
    | _ => true
  sender me := !me.rootAp

/-- RDY2, with the chips that it is followed over. -/
def rdy2Ready (live : Nat → Bool) : Ready where
  key := rdy2Key
  live
  home := 0
  cnt := Core.barrierRdy2Cnt
  begun
    | .lockTry | .sendRdy1Route | .initRdy1Cnt | .initRdy2Cnt => false
    | _ => true
  sender me := me.rootAp && !me.vars.rootChip

def sockets (k : Nat) : Finset (Nat × Nat) :=
  Finset.range (square k).numChips ×ˢ Finset.range numCpus

theorem mem_sockets {k : Nat} {v : Nat × Nat} :
    v ∈ sockets k ↔ v.1 < (square k).numChips ∧ v.2 < numCpus := by
  simp [sockets]

namespace Ready
variable (L : Ready)

/-- What a packet weighs in a socket or a queue of chip `c`. -/
def weight (c : Nat) (m : SpinEmuMc) : Nat := if L.live c && m.key == L.key then 1 else 0

def sentWeight (v : Nat × Nat) : Datagram → Nat
  | .mc m => L.weight v.1 m
  | .route _ => 0

/-- What a packet weighs once it is on its way to a core. -/
def arrived (v : Nat × Nat) (m : SpinEmuMc) : Nat :=
  if v.1 == L.home && m.key == L.key then 1 else 0

def cost : McEvent SpinEmuMc → Nat
  | .sent c i m => L.arrived (c, i) m
  | _ => 0

/-- What the core has counted besides itself. -/
def counted (v : Nat × Nat) (me : Core) : Nat :=
  if v.1 == L.home && me.rootAp && L.begun me.pc then (L.cnt me).toNat - 1 else 0

def owed (v : Nat × Nat) (me : Core) : Nat :=
  if L.live v.1 && L.sender me && me.pc.sent then 1 else 0

section Balance
variable (k : Nat)

/-- The packets on the way. -/
def flight (s : System) : Nat :=
  tally (sockets k) (weigh L.sentWeight) s.up +
    (s.dispatcher.net (square k)).load (Finset.range (square k).numChips) L.weight +
    tally (sockets k) (weigh L.arrived) s.down

/-- What has been sent and is neither on the way nor counted. -/
def balance (s : System) : Int :=
  tally (sockets k) L.owed s.core - tally (sockets k) L.counted s.core - L.flight k s

variable {k} {L} {s : System} {v : Nat × Nat}

theorem balance_send (member : v ∈ sockets k) (out : List Datagram) :
    L.balance k (s.send v out) + weigh L.sentWeight v out = L.balance k s := by
  have up := tally_update (f := weigh L.sentWeight) (g := s.up) member (s.up v ++ out)
  rw [weigh_append] at up
  simp only [balance, flight, System.send]
  omega

theorem balance_move (member : v ∈ sockets k) (m : Move) :
    L.balance k (s.move v m) + weigh L.sentWeight v m.out + L.counted v m.core +
        L.owed v (s.core v) =
      L.balance k s + L.counted v (s.core v) + L.owed v m.core := by
  have sent := balance_send (L := L) (s := s) member m.out
  have owed := tally_update (f := L.owed) (g := s.core) member m.core
  have counted := tally_update (f := L.counted) (g := s.core) member m.core
  simp only [balance, flight, System.send, System.move] at sent ⊢
  omega

theorem balance_read {m : SpinEmuMc} {rest : List SpinEmuMc} (member : v ∈ sockets k)
    (waiting : s.down v = m :: rest) :
    L.balance k { s with
        down := Function.update s.down v rest
        core := Function.update s.core v (readMc m (s.core v)) } +
          L.counted v (readMc m (s.core v)) + L.owed v (s.core v) =
      L.balance k s + L.arrived v m + L.counted v (s.core v) + L.owed v (readMc m (s.core v)) := by
  have down := tally_update (f := weigh L.arrived) (g := s.down) member rest
  rw [waiting, weigh_cons] at down
  have owed := tally_update (f := L.owed) (g := s.core) member (readMc m (s.core v))
  have counted := tally_update (f := L.counted) (g := s.core) member (readMc m (s.core v))
  simp only [balance, flight]
  omega

theorem balance_loseUp (n : Nat) :
    L.balance k s ≤
      L.balance k { s with up := Function.update s.up v ((s.up v).eraseIdx n) } := by
  have up := tally_update_le (f := weigh L.sentWeight) (g := s.up) (sockets k)
    (weigh_eraseIdx_le (w := L.sentWeight) (v := v) (l := s.up v) n)
  simp only [balance, flight]
  omega

theorem balance_loseDown (n : Nat) :
    L.balance k s ≤
      L.balance k { s with down := Function.update s.down v ((s.down v).eraseIdx n) } := by
  have down := tally_update_le (f := weigh L.arrived) (g := s.down) (sockets k)
    (weigh_eraseIdx_le (w := L.arrived) (v := v) (l := s.down v) n)
  simp only [balance, flight]
  omega

end Balance

section Dispatch
variable {k : Nat} {L : Ready} {past coreMap : Nat → BitVec 32} {s t : System}

theorem sum_sentTo {calls : List (McEvent SpinEmuMc)}
    (inside : ∀ c i m, .sent c i m ∈ calls → (c, i) ∈ sockets k) :
    ∑ v ∈ sockets k, weigh L.arrived v (System.sentTo v calls) = (calls.map L.cost).sum := by
  induction calls with
  | nil => exact Finset.sum_eq_zero fun v _ => rfl
  | cons e calls ih =>
    have rest := ih fun c i m sent => inside c i m (List.mem_cons_of_mem _ sent)
    cases e with
    | queued c m =>
      rw [List.map_cons, List.sum_cons, ← rest]
      exact (Nat.zero_add _).symm
    | full c m =>
      rw [List.map_cons, List.sum_cons, ← rest]
      exact (Nat.zero_add _).symm
    | sent c i m =>
      have member := inside c i m List.mem_cons_self
      have each (v : Nat × Nat) : weigh L.arrived v (System.sentTo v (.sent c i m :: calls)) =
          (if (c, i) = v then L.arrived v m else 0) +
            weigh L.arrived v (System.sentTo v calls) := by
        by_cases here : (c, i) = v
        · simp [System.sentTo, here]
        · simp [System.sentTo, here]
      simp only [each]
      rw [Finset.sum_add_distrib, rest, Finset.sum_ite_eq, if_pos member, List.map_cons,
        List.sum_cons, cost]

theorem flight_deliver {d : Dispatcher SpinEmuMc}
    (inside : ∀ c i m, .sent c i m ∈ d.trace → (c, i) ∈ sockets k) :
    L.flight k (s.deliver d) =
      tally (sockets k) (weigh L.sentWeight) s.up +
        ((d.net (square k)).charge L.cost +
          (d.net (square k)).load (Finset.range (square k).numChips) L.weight) +
        tally (sockets k) (weigh L.arrived) s.down := by
  have down : tally (sockets k) (weigh L.arrived) (s.deliver d).down =
      tally (sockets k) (weigh L.arrived) s.down + (d.net (square k)).charge L.cost := by
    simp only [tally, System.deliver, weigh_append]
    rw [Finset.sum_add_distrib, sum_sentTo inside]
    rfl
  rw [flight, down]
  simp only [System.deliver]
  omega

/-- The law that a routing of packet `m` on chip `c` obeys, with what it loses. -/
def Pays (L : Ready) (k : Nat) (s : System) (toll c : Nat) (m : SpinEmuMc) : Prop :=
  Forwarding.Balanced (mcRouting (square k) s.dispatcher.spinEmuRoutes) L.cost L.weight toll c m

/-- A routing does not lower the balance, and adds its toll to it while no queue is full. -/
theorem balance_route {c toll : Nat} {d : Dispatcher SpinEmuMc} (sound : Sound k past coreMap s)
    (hc : c < (square k).numChips) (nonempty : (s.dispatcher.mcQueue c 0).len ≠ 0)
    (routed : routeFront (square k) c s.fresh = .ok d)
    (pays : L.Pays k s toll c (s.dispatcher.mcQueue c 0).front) :
    L.balance k s ≤ L.balance k (s.deliver d) ∧
      ((∀ e ∈ d.trace, e.isFull = false) →
        L.balance k (s.deliver d) = L.balance k s + toll) := by
  have valid : s.fresh.Valid (square k) := sound.valid
  obtain ⟨front, fired, _⟩ := routeFront_fires hc valid (sound.queue_pos hc nonempty) routed
  have inside : ∀ t ∈ (mcRouting (square k) s.dispatcher.spinEmuRoutes).next c
      (s.dispatcher.mcQueue c 0).front, t ∈ Finset.range (square k).numChips := by
    intro t target
    obtain ⟨j, link⟩ := mem_next.mp target
    exact mcLink_inside link
  have sends : ∀ u i m, .sent u i m ∈ d.trace → (u, i) ∈ sockets k := by
    intro u i m sent
    have sent : .sent u i m ∈ (d.net (square k)).log := sent
    rw [fired] at sent
    rcases route_sent sent with old | ⟨rfl, exit⟩
    · cases old
    · exact mem_sockets.mpr ⟨hc, mem_mcExits exit⟩
  have free : ∀ u m, L.cost (.full u m) = 0 := fun _ _ => rfl
  have paid := fire_balance (R := mcRouting (square k) s.fresh.spinEmuRoutes) free
    (Finset.mem_range.mpr hc) front inside pays
  have start : (s.fresh.net (square k)).load (Finset.range (square k).numChips) L.weight =
      (s.dispatcher.net (square k)).load (Finset.range (square k).numChips) L.weight := rfl
  have blank : (s.fresh.net (square k)).charge L.cost = 0 := rfl
  have after := flight_deliver (L := L) (s := s) sends
  rw [fired] at after
  have cores : (s.deliver d).core = s.core := rfl
  constructor
  · have less := paid.1
    rw [blank, start] at less
    simp only [balance, after, cores]
    simp only [flight]
    omega
  · intro room
    have clear : (((s.fresh.net (square k)).route (mcRouting (square k) s.fresh.spinEmuRoutes) c
        (s.fresh.mcQueue c 0).front).pop c).NoFull := fired ▸ room
    have same := paid.2 clear
    rw [blank, start] at same
    simp only [balance, after, cores]
    simp only [flight]
    omega

theorem balance_dispatch (sound : Sound k past coreMap s) (step : s.dispatch k = some t)
    (law : ∀ c m, s.routed = some (c, m) → ∃ toll, L.Pays k s toll c m) :
    L.balance k s ≤ L.balance k t ∧
      ∀ toll : Nat, (∀ e ∈ t.dispatcher.trace, e.isFull = false) →
        (∀ c m, s.routed = some (c, m) → L.Pays k s toll c m) →
        (s.routed = none → toll = 0) → L.balance k t = L.balance k s + toll := by
  obtain ⟨step, _⟩ := dispatch_step sound.round step
  have valid : s.fresh.Valid (square k) := sound.valid
  have start : (s.fresh.net (square k)).load (Finset.range (square k).numChips) L.weight =
      (s.dispatcher.net (square k)).load (Finset.range (square k).numChips) L.weight := rfl
  cases step with
  | skip _ _ still =>
    refine ⟨le_rfl, fun toll _ _ none => ?_⟩
    rw [none still]
    exact (Int.add_zero _).symm
  | @recvMc v m more d next hc hi waiting dispatched =>
    obtain ⟨net, _⟩ := queueMc_net (c := v.1) hc valid dispatched
    have queued := enqueue_load (w := L.weight) mcFull m (s.fresh.net (square k))
      (Finset.mem_range.mpr hc)
    rw [← net, start] at queued
    have up := tally_update (f := weigh L.sentWeight) (g := s.up) (mem_sockets.mpr ⟨hc, hi⟩) more
    rw [waiting, weigh_cons, sentWeight] at up
    constructor
    · simp only [balance, flight]
      omega
    · intro toll room _ none
      have := none (System.routed_of_scanned next)
      have := queued.2 room
      simp only [balance, flight]
      omega
  | @recvRoute v p more d still hc hi waiting stored =>
    obtain ⟨_, _, rfl⟩ := storeRoute_ok stored
    have up := tally_update (f := weigh L.sentWeight) (g := s.up) (mem_sockets.mpr ⟨hc, hi⟩) more
    rw [waiting, weigh_cons, sentWeight] at up
    have net : ((s.fresh.setRoute v.1 p.index.toNat p.entry).net (square k)).load
        (Finset.range (square k).numChips) L.weight =
      (s.dispatcher.net (square k)).load (Finset.range (square k).numChips) L.weight := rfl
    have same : L.balance k { s with
        up := Function.update s.up v more
        dispatcher := s.fresh.setRoute v.1 p.index.toNat p.entry } = L.balance k s := by
      simp only [balance, flight]
      omega
    refine ⟨same.ge, fun toll _ _ none => ?_⟩
    rw [none still, same]
    exact (Int.add_zero _).symm
  | @route c d next hc nonempty routed =>
    constructor
    · obtain ⟨toll, pays⟩ := law c _ next
      exact (balance_route sound hc nonempty routed pays).1
    · exact fun toll room pays _ => (balance_route sound hc nonempty routed (pays c _ next)).2 room
  | @send v d hc low high nonempty sent => exact absurd (sound.coresIdle v.1 hc v.2 low high) nonempty

end Dispatch

section Laws
variable {k : Nat} {past coreMap : Nat → BitVec 32} {s : System} {L : Ready} {toll c : Nat}
  {m : SpinEmuMc}

theorem pays_iff : L.Pays k s toll c m ↔ L.weight c m = toll +
    ∑ l, (mcLink (square k) s.dispatcher.spinEmuRoutes m.key c l).elim 0 (L.weight · m) +
      ((mcExits s.dispatcher.spinEmuRoutes c m.key).map fun j => L.arrived (c, j) m).sum := by
  simp only [Pays, Forwarding.Balanced, mcRouting, sum_next, cost, Nat.zero_add, key_mc]
  rfl

theorem pays_other (other : m.key ≠ L.key) : L.Pays k s 0 c m := by
  have free (u : Nat) : L.weight u m = 0 := by simp [weight, other]
  have away (j : Nat) : L.arrived (c, j) m = 0 := by simp [arrived, other]
  simp [pays_iff, free, away, elim_zero]

/-- A packet that meets no entry is lost. -/
theorem pays_lost (lost : firstMatch (s.dispatcher.spinEmuRoutes c) m.key = none) :
    L.Pays k s (L.weight c m) c m := by
  simp [pays_iff, mcLink_none lost, mcExits_none lost]

theorem pays_core {past : Nat → BitVec 32} {r : Nat} (hr : r < numCpus)
    (found : firstMatch (s.dispatcher.spinEmuRoutes c) m.key =
      some (barrierEntry m.key (shiftOne past (r + numLinks))))
    (same : L.weight c m = L.arrived (c, r) m) : L.Pays k s 0 c m := by
  have hn : r + numLinks < 32 := by
    simp only [numCpus, numLinks] at hr ⊢
    omega
  rw [pays_iff, sum_oneBit found hn, dif_neg (by omega), mcExits_oneBit found hn,
    if_pos ⟨by omega, by omega⟩, Nat.add_sub_cancel, same]
  simp

theorem pays_link {past : Nat → BitVec 32} {n : Nat} (hn : n < numLinks)
    (found : firstMatch (s.dispatcher.spinEmuRoutes c) m.key =
      some (barrierEntry m.key (shiftOne past n)))
    (lower : L.weight c m = toll + (linkTarget (square k) c ⟨n, hn⟩).elim 0 (L.weight · m)) :
    L.Pays k s toll c m := by
  have word : n < 32 := by
    simp only [numLinks] at hn
    omega
  rw [pays_iff, sum_oneBit found word, dif_pos hn, mcExits_oneBit found word,
    if_neg (by omega), lower]
  simp

/-- An RDY1 packet goes to the root core once the entry of its chip is stored. -/
theorem rdy1_pays {h : Nat} (spared : Spared k past coreMap s) {e : SpinEmuRoute}
    (found : m.key = rdy1Key → firstMatch (s.dispatcher.spinEmuRoutes c) rdy1Key = some e) :
    (rdy1Ready h).Pays k s 0 c m := by
  by_cases ready : m.key = rdy1Key
  · obtain ⟨r, _, hr, rfl⟩ := spared.rdy1_found (found ready)
    apply pays_core hr (ready ▸ found ready)
    simp [weight, arrived, rdy1Ready]
  · exact pays_other ready

/-- An RDY2 packet goes to the root core on chip `(0, 0)`. -/
theorem rdy2_pays_root {live : Nat → Bool} (hk : k ≤ 15) (spared : Spared k past coreMap s)
    (isRdy2 : m.key = rdy2Key) {e : SpinEmuRoute}
    (found : firstMatch (s.dispatcher.spinEmuRoutes 0) rdy2Key = some e) (origin : live 0 = true) :
    (rdy2Ready live).Pays k s 0 0 m := by
  obtain ⟨r, _, hr, rfl⟩ := spared.rdy2_found hk found
  apply pays_core hr (isRdy2 ▸ found)
  simp [weight, arrived, rdy2Ready, isRdy2, origin]

/-- On the other chips it goes over a link, which leads off the board on the stray
chips. -/
theorem rdy2_pays_link {live : Nat → Bool} (hk : k ≤ 15) (spared : Spared k past coreMap s)
    (other : c ≠ 0) (isRdy2 : m.key = rdy2Key) {e : SpinEmuRoute}
    (found : firstMatch (s.dispatcher.spinEmuRoutes c) rdy2Key = some e)
    (lower : (live c).toNat =
      toll + (linkTarget (square k) c (readyLink k c)).elim 0 fun t => (live t).toNat) :
    (rdy2Ready live).Pays k s toll c m := by
  obtain ⟨r, _, hr, rfl⟩ := spared.rdy2_found hk found
  rw [if_neg other, ← isRdy2] at found
  apply pays_link (readyLink k c).isLt found
  have worth (u : Nat) : (rdy2Ready live).weight u m = (live u).toNat := by
    cases here : live u <;> simp [weight, rdy2Ready, isRdy2, here]
  simpa only [worth] using lower

end Laws

/-- What the books need of a kind of ready packet. -/
structure Fair (L : Ready) (k : Nat) (past coreMap : Nat → BitVec 32) : Prop where
  ready : L.key = rdy1Key ∨ L.key = rdy2Key
  read : ∀ m me, L.cnt (readMc m me) = if m.key = L.key then L.cnt me + 1 else L.cnt me
  same : ∀ m me, L.sender (readMc m me) = L.sender me
  move : ∀ {v me holder lock m}, Role k past coreMap v me →
    CoreStep k past coreMap v.1 v.2 me lock holder m →
    weigh L.sentWeight v m.out + L.counted v m.core + L.owed v me =
      L.counted v me + L.owed v m.core

section Kinds
variable {k : Nat} {past coreMap : Nat → BitVec 32}

theorem rdy1_fair (c : Nat) : (rdy1Ready c).Fair k past coreMap where
  ready := .inl rfl
  read m me := (readMc_counts m me).1
  same m me := by simp [rdy1Ready, readMc_same]
  move {v me holder lock m} role step := by
    cases step with
    | lockWon pc | lockLost pc | rdy1Route pc | rdy1Cnt pc | rdy2Cnt pc | release pc
    | routerSeen pc _ | mapRoot pc _ _ _ | mapOther pc _ | routesDone pc | routesNext pc
    | startSeveral pc _ | startAlone pc _ | enterRoot pc _ _ | enterOtherRoot pc _ _
    | enterOther pc _ | rdygo pc | ready pc _ _ | rdygoSeen pc _ _ | lockSeen pc _ | leave pc _ =>
      simp [counted, owed, rdy1Ready, Pc.sent, pc, sentWeight, weight, barrierPacket,
        show rdygoKey ≠ rdy1Key by decide]
    | go pc | rdy2 pc =>
      simp only [Role, pc] at role
      simp [counted, owed, rdy1Ready, Pc.sent, pc, sentWeight, weight, barrierPacket, role,
        show goKey ≠ rdy1Key by decide, show rdy2Key ≠ rdy1Key by decide]
    | rdy1 pc =>
      simp only [Role, pc] at role
      simp [counted, owed, rdy1Ready, Pc.sent, pc, sentWeight, weight, barrierPacket, role]

theorem rdy2_fair (live : Nat → Bool) : (rdy2Ready live).Fair k past coreMap where
  ready := .inr rfl
  read m me := (readMc_counts m me).2
  same m me := by simp [rdy2Ready, readMc_same]
  move {v me holder lock m} role step := by
    cases step with
    | lockWon pc | lockLost pc | rdy1Route pc | rdy1Cnt pc | rdy2Cnt pc | release pc
    | routerSeen pc _ | mapRoot pc _ _ _ | mapOther pc _ | routesDone pc | routesNext pc
    | startSeveral pc _ | startAlone pc _ | enterRoot pc _ _ | enterOtherRoot pc _ _
    | enterOther pc _ | rdygo pc | ready pc _ _ | rdygoSeen pc _ _ | lockSeen pc _ | leave pc _ =>
      simp [counted, owed, rdy2Ready, Pc.sent, pc, sentWeight, weight, barrierPacket,
        show rdygoKey ≠ rdy2Key by decide]
    | go pc | rdy1 pc =>
      simp only [Role, pc] at role
      simp [counted, owed, rdy2Ready, Pc.sent, pc, sentWeight, weight, barrierPacket, role,
        show goKey ≠ rdy2Key by decide, show rdy1Key ≠ rdy2Key by decide]
    | rdy2 pc =>
      simp only [Role, pc] at role
      simp [counted, owed, rdy2Ready, Pc.sent, pc, sentWeight, weight, barrierPacket, role,
        Nat.add_comm]

theorem rdy1_law {s : System} (spared : Spared k past coreMap s) {h : Nat} (c : Nat) (m : SpinEmuMc) :
    ∃ toll, (rdy1Ready h).Pays k s toll c m := by
  by_cases ready : m.key = rdy1Key
  · cases found : firstMatch (s.dispatcher.spinEmuRoutes c) m.key with
    | none => exact ⟨_, pays_lost found⟩
    | some e => exact ⟨0, rdy1_pays spared fun _ => ready ▸ found⟩
  · exact ⟨0, pays_other ready⟩

theorem rdy2_law (hk : k ≤ 15) {live : Nat → Bool}
    (kept : ∀ c, strayChip k c = false → live c = true) {s : System} (spared : Spared k past coreMap s)
    (c : Nat) (m : SpinEmuMc) : ∃ toll, (rdy2Ready live).Pays k s toll c m := by
  by_cases ready : m.key = rdy2Key
  · cases found : firstMatch (s.dispatcher.spinEmuRoutes c) m.key with
    | none => exact ⟨_, pays_lost found⟩
    | some e =>
      rw [ready] at found
      by_cases origin : c = 0
      · subst origin
        exact ⟨0, rdy2_pays_root hk spared ready found (kept 0 (by simp [strayChip]))⟩
      · obtain ⟨r, held, _⟩ := spared.rdy2_found hk found
        have target := readyLink_target (active_lt (spared.active_of_holder held)).1 origin
        refine ⟨_, rdy2_pays_link hk spared origin ready found (Nat.sub_add_cancel ?_).symm⟩
        cases stray : strayChip k c with
        | true =>
          rw [stray, Bool.not_true, Option.isSome_eq_false_iff, Option.isNone_iff_eq_none] at target
          rw [target]
          exact Nat.zero_le _
        | false =>
          rw [kept c stray]
          cases linkTarget (square k) c (readyLink k c) with
          | none => exact Nat.zero_le _
          | some t => exact Bool.toNat_le (live t)
  · exact ⟨0, pays_other ready⟩

end Kinds

section Step
variable {k : Nat} {past coreMap : Nat → BitVec 32} {L : Ready} {s t : System} {a : Action}
  {v : Nat × Nat} {m : SpinEmuMc} {me : Core}

/-- A packet that is read is counted once at most. -/
theorem counted_readMc (fair : L.Fair k past coreMap) :
    L.counted v (readMc m me) ≤ L.counted v me + L.arrived v m ∧
      ((m.key = L.key → v.1 = L.home → me.rootAp = true ∧ L.begun me.pc = true ∧
          1 ≤ (L.cnt me).toNat ∧ (L.cnt me).toNat + 1 < 2 ^ 32) →
        L.counted v (readMc m me) = L.counted v me + L.arrived v m) := by
  obtain ⟨pc, root, _, _⟩ := readMc_same m me
  have more : (L.cnt me + 1).toNat = ((L.cnt me).toNat + 1) % 2 ^ 32 := by
    rw [BitVec.toNat_add]
    rfl
  simp only [counted, arrived, pc, root, fair.read, Bool.and_eq_true, beq_iff_eq]
  by_cases key : m.key = L.key
  · by_cases home : v.1 = L.home
    · have worth : (if v.1 = L.home ∧ m.key = L.key then 1 else 0) = 1 := if_pos ⟨home, key⟩
      rw [if_pos key, worth, more]
      constructor
      · split <;> omega
      · intro counting
        obtain ⟨isRoot, begun, low, high⟩ := counting key home
        rw [if_pos ⟨⟨home, isRoot⟩, begun⟩, if_pos ⟨⟨home, isRoot⟩, begun⟩, Nat.mod_eq_of_lt high]
        omega
    · simp [home]
  · simp [key]

theorem owed_readMc (fair : L.Fair k past coreMap) : L.owed v (readMc m me) = L.owed v me := by
  rw [owed, owed, fair.same, (readMc_same m me).1]

/-- The step loses no packet of the kind. -/
def Intact (L : Ready) (k : Nat) (s t : System) : Action → Prop
  | .read v => ∀ m rest, s.down v = m :: rest →
      L.counted v (readMc m (s.core v)) = L.counted v (s.core v) + L.arrived v m
  | .dispatch => (∀ e ∈ t.dispatcher.trace, e.isFull = false) ∧
      ∀ c m, s.routed = some (c, m) → L.Pays k s 0 c m
  | .loseUp _ _ | .loseDown _ _ => False
  | _ => True

theorem active_socket (on : active k coreMap v = true) : v ∈ sockets k :=
  mem_sockets.mpr ⟨(active_lt on).1, (active_lt on).2.2⟩

/-- No step takes a ready packet twice, and an intact one loses none. -/
theorem balance_step (fair : L.Fair k past coreMap) (sound : Sound k past coreMap s)
    (law : ∀ c m, s.routed = some (c, m) → ∃ toll, L.Pays k s toll c m)
    (step : s.step k past coreMap a = some t) :
    L.balance k s ≤ L.balance k t ∧ (L.Intact k s t a → L.balance k t = L.balance k s) := by
  have same {u : Nat × Nat} (out : List Datagram) (on : active k coreMap u = true)
      (free : weigh L.sentWeight u out = 0) : L.balance k (s.send u out) = L.balance k s := by
    have := balance_send (L := L) (s := s) (active_socket on) out
    omega
  cases step_acts step with
  | @run v m on moved =>
    have books := balance_move (L := L) (s := s) (active_socket on) m
    have even := fair.move (sound.role v) moved
    exact ⟨by omega, fun _ => by omega⟩
  | @read v m rest on waiting =>
    have books := balance_read (L := L) (active_socket on) waiting
    have counts : L.counted v (readMc m (s.core v)) ≤ L.counted v (s.core v) + L.arrived v m :=
      (counted_readMc fair).1
    rw [owed_readMc fair] at books
    refine ⟨by omega, fun intact => ?_⟩
    have := intact m rest waiting
    omega
  | @resend v on _ =>
    have none : weigh L.sentWeight v [barrierPacket rdygoKey] = 0 := by
      rcases fair.ready with key | key <;>
        simp [sentWeight, weight, barrierPacket, key, show rdygoKey ≠ rdy1Key by decide,
          show rdygoKey ≠ rdy2Key by decide]
    have := same _ on none
    exact ⟨this.ge, fun _ => this⟩
  | dispatch step =>
    have books := balance_dispatch sound step law
    refine ⟨books.1, fun intact => ?_⟩
    have same := books.2 0 intact.1 intact.2 fun _ => rfl
    omega
  | @appPacket v m on outside =>
    have other : m.key ≠ L.key := by
      intro key
      apply outside
      rw [key]
      rcases fair.ready with ready | ready <;> rw [ready] <;> decide
    have := same [.mc m] on (by simp [sentWeight, weight, other])
    exact ⟨this.ge, fun _ => this⟩
  | @appRoute v p on _ =>
    have := same [.route p] on (by simp [sentWeight])
    exact ⟨this.ge, fun _ => this⟩
  | @loseUp v n => exact ⟨balance_loseUp n, False.elim⟩
  | @loseDown v n => exact ⟨balance_loseDown n, False.elim⟩

theorem balance_initial : L.balance k (System.initial k) = 0 := by
  have owed : tally (sockets k) L.owed (System.initial k).core = 0 :=
    tally_eq_zero fun v _ => by simp [Ready.owed, System.initial, Pc.sent]
  have counted : tally (sockets k) L.counted (System.initial k).core = 0 :=
    tally_eq_zero fun v _ => by simp [Ready.counted, System.initial]
  have up : tally (sockets k) (weigh L.sentWeight) (System.initial k).up = 0 :=
    tally_eq_zero fun _ _ => rfl
  have down : tally (sockets k) (weigh L.arrived) (System.initial k).down = 0 :=
    tally_eq_zero fun _ _ => rfl
  have load : ((System.initial k).dispatcher.net (square k)).load
      (Finset.range (square k).numChips) L.weight = 0 := by
    apply load_eq_zero
    intro c hc
    simp [net, System.initial, idleDispatcher, SpinEmuMcQueue.contents]
  simp only [balance, flight, owed, counted, up, down, load]
  rfl

end Step
end Ready
end SpinEmu
