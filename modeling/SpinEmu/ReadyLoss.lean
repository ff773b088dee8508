import SpinEmu.EntryBooks
import SpinEmu.ReadyOrder

/-! A step that finds nothing full loses a ready packet exactly when it routes one that
needs an entry which the dispatcher has not read. -/
namespace SpinEmu
open Lib Lib.Forwarding Lib.Tally Lib.Machine Dispatcher

namespace Ready
variable (L : Ready)

/-- Every packet that was sent is on its way or counted. -/
def Even (k : Nat) (s : System) : Prop :=
  (L.senders k s).card = L.flight k s + tally (sockets k) L.counted s.core

variable {L} {k : Nat} {s : System}

theorem even_iff : L.Even k s ↔ L.balance k s = 0 := by
  rw [Even, balance, tally_owed]
  omega

end Ready

abbrev rdy2All : Ready := rdy2Ready fun _ => true

def Accounted (k : Nat) (s : System) : Prop := (∀ c, (rdy1Ready c).Even k s) ∧ rdy2All.Even k s

section Guards
variable (k : Nat) (past coreMap : Nat → BitVec 32)

/-- No socket and no queue is found full. -/
def System.calm (s : System) : Action → Bool
  | .loseUp _ _ | .loseDown _ _ => false
  | .dispatch => (s.dispatch k).all fun t => t.dispatcher.trace.all fun e => !e.isFull
  | _ => true

/-- The dispatcher has read the entry that a ready packet needs before it routes the
packet, and no RDY2 packet is on a chip from where it leaves the board. -/
def System.entryRead (s : System) : Action → Bool
  | .dispatch =>
    match s.routed with
    | none => true
    | some (c, m) =>
      if m.key = rdy1Key then s.stored c 2
      else if m.key = rdy2Key then s.stored c 3 && !strayChip k c
      else true
  | _ => true

end Guards

/-- A root core has set the counters that are open to packets. -/
def Core.counting (me : Core) : Prop :=
  me.rootAp = true → ((rdy1Ready 0).begun me.pc = true → 1 ≤ me.barrierRdy1Cnt.toNat) ∧
    (rdy2All.begun me.pc = true → 1 ≤ me.barrierRdy2Cnt.toNat)

structure Kept (k : Nat) (past coreMap : Nat → BitVec 32) (s : System) : Prop where
  spared : Spared k past coreMap s
  order : Order k s
  entries : Several k coreMap → EntryBooks 2 s ∧ EntryBooks 3 s
  counting : ∀ v, (s.core v).counting
  even : Accounted k s

theorem Kept.sound {k : Nat} {past coreMap : Nat → BitVec 32} {s : System}
    (kept : Kept k past coreMap s) : Sound k past coreMap s := kept.spared.toSound

section Steps
variable {k : Nat} {past coreMap : Nat → BitVec 32} {s t : System} {a : Action} {v : Nat × Nat}
  {me : Core} {lock : Nat} {holder : Option Nat} {m : Move} {c : Nat} {p : SpinEmuMc}

theorem begun_of_opened {pc : Pc} (opened : pc.opened = true) :
    (rdy1Ready c).begun pc = true ∧ rdy2All.begun pc = true := by
  cases pc <;> first
    | exact ⟨rfl, rfl⟩
    | cases opened

theorem CoreStep.counting (role : Role k past coreMap v me)
    (step : CoreStep k past coreMap v.1 v.2 me lock holder m) (before : me.counting) :
    m.core.counting := by
  intro root
  cases step with
  | lockWon | rdy1Route => exact ⟨nofun, nofun⟩
  | lockLost => cases root
  | rdy1Cnt => exact ⟨fun _ => le_rfl, nofun⟩
  | rdy2Cnt pc =>
    have counts := before root
    rw [pc] at counts
    exact ⟨fun _ => counts.1 rfl, fun _ => le_rfl⟩
  | routerSeen pc _ =>
    simp only [Role, pc] at role
    rw [show me.rootAp = true from root] at role
    cases role.1
  | release pc | mapRoot pc _ _ _ | mapOther pc _ | routesDone pc | routesNext pc | startSeveral pc _
  | startAlone pc _ | enterRoot pc _ _ | enterOtherRoot pc _ _ | enterOther pc _ | rdygo pc
  | ready pc _ _ | go pc | rdygoSeen pc _ _ | rdy2 pc | lockSeen pc _ | rdy1 pc | leave pc _ =>
    have counts := before root
    rw [pc] at counts
    exact ⟨fun _ => counts.1 rfl, fun _ => counts.2 rfl⟩

theorem rdy1_senders_card : ((rdy1Ready c).senders k s).card ≤ numCpus := by
  have subset : (rdy1Ready c).senders k s ⊆ {c} ×ˢ Finset.range numCpus := by
    intro u hu
    obtain ⟨member, sent⟩ := Finset.mem_filter.mp hu
    simp only [rdy1Ready, Bool.and_eq_true, beq_iff_eq] at sent
    exact Finset.mem_product.mpr ⟨Finset.mem_singleton.mpr sent.1.1,
      Finset.mem_range.mpr (mem_sockets.mp member).2⟩
  have bound := Finset.card_le_card subset
  rwa [Finset.card_product, Finset.card_singleton, Finset.card_range, Nat.one_mul] at bound

theorem Sound.rdy2_senders_card (sound : Sound k past coreMap s) :
    (rdy2All.senders k s).card ≤ (square k).numChips := by
  have subset : (rdy2All.senders k s).image Prod.fst ⊆ Finset.range (square k).numChips := by
    intro c hc
    obtain ⟨u, hu, rfl⟩ := Finset.mem_image.mp hc
    exact Finset.mem_range.mpr (mem_rdy2_senders hu).1
  have bound := Finset.card_le_card subset
  rwa [Finset.card_image_of_injOn sound.rdy2_senders_injOn, Finset.card_range] at bound

/-- The root core can count what is on its way to it. -/
theorem Kept.room (kept : Kept k past coreMap s) (waiting : p ∈ s.down v) :
    (p.key = rdy1Key → (s.core v).rootAp = true ∧ (rdy1Ready v.1).begun (s.core v).pc = true ∧
      1 ≤ (s.core v).barrierRdy1Cnt.toNat ∧ (s.core v).barrierRdy1Cnt.toNat + 1 < 2 ^ 32) ∧
    (p.key = rdy2Key → v.1 = 0 ∧ (s.core v).rootAp = true ∧ rdy2All.begun (s.core v).pc = true ∧
      1 ≤ (s.core v).barrierRdy2Cnt.toNat ∧ (s.core v).barrierRdy2Cnt.toNat + 1 < 2 ^ 32) := by
  obtain ⟨rdy1, _, rdy2⟩ := kept.order.traffic.down v p waiting
  have socket {r : Nat} (held : s.holder v.1 = some r) (core : r = v.2) : v ∈ sockets k :=
    Ready.active_socket (core ▸ kept.sound.active_of_holder held)
  constructor
  · intro key
    obtain ⟨⟨r, held, opened⟩, mine⟩ := rdy1 key
    obtain rfl : r = v.2 := Option.some.inj (held.symm.trans mine)
    have root := (kept.sound.root v).mpr mine
    have begun := (begun_of_opened (c := v.1) opened).1
    have low := (kept.counting v root).1 begun
    have fair : 0 ≤ (rdy1Ready v.1).balance k s := (Ready.even_iff.mp (kept.even.1 v.1)).ge
    have bound := (Ready.card_senders fair (socket held rfl)).trans rdy1_senders_card
    have count : (rdy1Ready v.1).counted v (s.core v) = (s.core v).barrierRdy1Cnt.toNat - 1 := by
      have begun : (rdy1Ready v.1).begun (s.core v).pc = true := begun
      rw [Ready.counted, root, begun]
      simp [rdy1Ready]
    simp only [count, numCpus] at bound
    exact ⟨root, begun, low, by omega⟩
  · intro key
    obtain ⟨⟨r, held, opened⟩, origin, mine⟩ := rdy2 key
    have several : Several k coreMap := RootIn.several ⟨r, held, opened⟩ kept.sound
    rw [← origin] at held opened
    obtain rfl : r = v.2 := Option.some.inj (held.symm.trans mine)
    have root := (kept.sound.root v).mpr mine
    have begun := (begun_of_opened (c := v.1) opened).2
    have low := (kept.counting v root).2 begun
    have fair : 0 ≤ rdy2All.balance k s := (Ready.even_iff.mp kept.even.2).ge
    have bound := (Ready.card_senders fair (socket held rfl)).trans kept.sound.rdy2_senders_card
    have count : rdy2All.counted v (s.core v) = (s.core v).barrierRdy2Cnt.toNat - 1 := by
      have begun : rdy2All.begun (s.core v).pc = true := begun
      rw [Ready.counted, root, begun]
      simp [rdy2Ready, origin]
    have side := numChips_le (several_le several)
    rw [count] at bound
    exact ⟨origin, root, begun, low, by omega⟩

theorem Sound.routed_mem (sound : Sound k past coreMap s) (next : s.routed = some (c, p)) :
    p ∈ (s.dispatcher.net (square k)).queue c := by
  unfold System.routed at next
  split at next
  · rename_i c' rest round
    simp only at next
    split at next
    · rename_i nonempty
      cases next
      have ok := sound.round
      rw [round] at ok
      have hc : c < (square k).numChips := ok c List.mem_cons_self
      have here : (s.dispatcher.net (square k)).queue c = (s.dispatcher.mcQueue c 0).contents := by
        simp [net, hc]
      have pos : 0 < (s.dispatcher.mcQueue c 0).len := sound.queue_pos hc nonempty
      rw [here, SpinEmuMcQueue.contents_front _ pos]
      exact List.mem_cons_self
    · cases next
  · cases next

/-- A ready packet that is routed meets its entry exactly when the dispatcher has
read the entry. -/
theorem Kept.found_iff (kept : Kept k past coreMap s) (next : s.routed = some (c, p)) :
    (p.key = rdy1Key →
      ((∃ e, firstMatch (s.dispatcher.spinEmuRoutes c) rdy1Key = some e) ↔ s.stored c 2 = true)) ∧
    (p.key = rdy2Key →
      ((∃ e, firstMatch (s.dispatcher.spinEmuRoutes c) rdy2Key = some e) ↔ s.stored c 3 = true)) := by
  have pass := kept.order.traffic.queue c p (kept.sound.routed_mem next)
  constructor
  · intro key
    have serves : Serves rdy1Key 2 := .inl ⟨rfl, rfl⟩
    have several := (pass.1 key).several kept.sound
    exact (kept.spared.found_iff serves).trans
      ((kept.entries several).1.stored_iff kept.sound serves).symm
  · intro key
    have serves : Serves rdy2Key 3 := .inr ⟨rfl, rfl⟩
    have several := (pass.2 (.inr key)).several kept.sound
    exact (kept.spared.found_iff serves).trans
      ((kept.entries several).2.stored_iff kept.sound serves).symm

theorem eq_none_of_exists_iff {α : Type} {x : Option α} {b : Bool}
    (found : (∃ e, x = some e) ↔ b = true) (none : b = false) : x = .none := by
  by_contra hit
  have := found.mp (Option.ne_none_iff_exists'.mp hit)
  rw [none] at this
  cases this

/-- An RDY1 packet is lost on its chip, and only there, when the entry is missing. -/
theorem Kept.rdy1_toll (kept : Kept k past coreMap s) (next : s.routed = some (c, p)) (h : Nat) :
    (rdy1Ready h).Pays k s (if p.key = rdy1Key ∧ s.stored c 2 = false ∧ c = h then 1 else 0) c p := by
  by_cases key : p.key = rdy1Key
  · have found := (kept.found_iff next).1 key
    cases stored : s.stored c 2 with
    | true =>
      obtain ⟨e, hit⟩ := found.mpr stored
      simpa using Ready.rdy1_pays (h := h) kept.spared fun _ => hit
    | false =>
      have lost : firstMatch (s.dispatcher.spinEmuRoutes c) p.key = none :=
        key ▸ eq_none_of_exists_iff found stored
      have toll : (rdy1Ready h).weight c p =
          if p.key = rdy1Key ∧ false = false ∧ c = h then 1 else 0 := by
        simp [Ready.weight, rdy1Ready, key]
      exact toll ▸ Ready.pays_lost lost
  · rw [if_neg fun both => key both.1]
    exact Ready.pays_other key

theorem Kept.rdy2_toll (kept : Kept k past coreMap s) (next : s.routed = some (c, p)) :
    rdy2All.Pays k s
      (if p.key = rdy2Key ∧ (s.stored c 3 && !strayChip k c) = false then 1 else 0) c p := by
  by_cases key : p.key = rdy2Key
  · have found := (kept.found_iff next).2 key
    have pass := kept.order.traffic.queue c p (kept.sound.routed_mem next)
    have hk := several_le ((pass.2 (.inr key)).several kept.sound)
    cases stored : s.stored c 3 with
    | true =>
      obtain ⟨e, hit⟩ := found.mpr stored
      by_cases origin : c = 0
      · subst origin
        have pays : rdy2All.Pays k s 0 0 p := Ready.rdy2_pays_root hk kept.spared key hit rfl
        simpa [strayChip] using pays
      · obtain ⟨r, held, _⟩ := kept.spared.rdy2_found hk hit
        have target := readyLink_target (active_lt (kept.sound.active_of_holder held)).1 origin
        refine Ready.rdy2_pays_link hk kept.spared origin key hit ?_
        cases stray : strayChip k c with
        | true =>
          rw [stray, Bool.not_true, Option.isSome_eq_false_iff, Option.isNone_iff_eq_none] at target
          simp [key, target]
        | false =>
          rw [stray, Bool.not_false, Option.isSome_iff_exists] at target
          obtain ⟨t, target⟩ := target
          simp [target]
    | false =>
      have lost : firstMatch (s.dispatcher.spinEmuRoutes c) p.key = none :=
        key ▸ eq_none_of_exists_iff found stored
      have toll : rdy2All.weight c p =
          if p.key = rdy2Key ∧ (false && !strayChip k c) = false then 1 else 0 := by
        simp [Ready.weight, rdy2Ready, key]
      exact toll ▸ Ready.pays_lost lost
  · rw [if_neg fun both => key both.1]
    exact Ready.pays_other key

/-- A step other than the dispatcher's loses no ready packet. -/
theorem Kept.intact (kept : Kept k past coreMap s) (calm : s.calm k a = true)
    (other : a ≠ .dispatch) (step : s.step k past coreMap a = some t) : Accounted k t := by
  constructor
  · intro h
    have fair : (rdy1Ready h).Fair k past coreMap := Ready.rdy1_fair h
    have even := Ready.even_iff.mp (kept.even.1 h)
    refine Ready.even_iff.mpr (even ▸ (Ready.balance_step fair kept.sound
      (fun c m next => ⟨_, kept.rdy1_toll next h⟩) step).2 ?_)
    cases a with
    | read v =>
      intro m rest waiting
      apply (Ready.counted_readMc fair).2
      rintro key rfl
      exact (kept.room (waiting ▸ List.mem_cons_self)).1 key
    | dispatch => exact absurd rfl other
    | loseUp | loseDown => cases calm
    | run | resend | appPacket | appRoute => trivial
  · have fair : rdy2All.Fair k past coreMap := Ready.rdy2_fair _
    have even := Ready.even_iff.mp kept.even.2
    refine Ready.even_iff.mpr (even ▸ (Ready.balance_step fair kept.sound
      (fun c m next => ⟨_, kept.rdy2_toll next⟩) step).2 ?_)
    cases a with
    | read v =>
      intro m rest waiting
      apply (Ready.counted_readMc fair).2
      intro key _
      exact ((kept.room (waiting ▸ List.mem_cons_self)).2 key).2
    | dispatch => exact absurd rfl other
    | loseUp | loseDown => cases calm
    | run | resend | appPacket | appRoute => trivial

/-- A step that finds nothing full loses a ready packet exactly when it routes one
out of order. -/
theorem Kept.accounted_iff (kept : Kept k past coreMap s) (calm : s.calm k a = true)
    (step : s.step k past coreMap a = some t) : Accounted k t ↔ s.entryRead k a = true := by
  by_cases other : a ≠ .dispatch
  · refine iff_of_true (kept.intact calm other step) ?_
    cases a <;> first | rfl | exact absurd rfl other
  · obtain rfl : a = .dispatch := not_not.mp other
    have step : s.dispatch k = some t := step
    have room : ∀ e ∈ t.dispatcher.trace, e.isFull = false := by
      simpa only [System.calm, step, Option.all_some, List.all_eq_true, Bool.not_eq_true'] using calm
    have books1 (h toll : Nat) := (Ready.balance_dispatch kept.sound step
      fun c m next => ⟨_, kept.rdy1_toll next h⟩).2 toll room
    have books2 (toll : Nat) := (Ready.balance_dispatch kept.sound step
      fun c m next => ⟨_, kept.rdy2_toll next⟩).2 toll room
    have even1 (h : Nat) := Ready.even_iff.mp (kept.even.1 h)
    have even2 := Ready.even_iff.mp kept.even.2
    simp only [Accounted, Ready.even_iff]
    cases next : s.routed with
    | none =>
      have order : s.entryRead k .dispatch = true := by simp only [System.entryRead, next]
      have still {L : Ready} : ∀ c m, s.routed = some (c, m) → L.Pays k s 0 c m := by
        intro c m routed
        rw [next] at routed
        cases routed
      refine iff_of_true ⟨fun h => ?_, ?_⟩ order
      · have := books1 h 0 still fun _ => rfl
        rw [even1] at this
        exact this
      · have := books2 0 still fun _ => rfl
        rw [even2] at this
        exact this
    | some routed =>
      obtain ⟨c, m⟩ := routed
      have after1 (h : Nat) : (rdy1Ready h).balance k t =
          ((if m.key = rdy1Key ∧ s.stored c 2 = false ∧ c = h then 1 else 0 : Nat) : Int) := by
        have paid := books1 h _ (fun c' m' routed => by
          rw [next] at routed
          cases routed
          exact kept.rdy1_toll next h) fun none => by
            rw [next] at none
            cases none
        rwa [even1, zero_add] at paid
      have after2 : rdy2All.balance k t =
          ((if m.key = rdy2Key ∧ (s.stored c 3 && !strayChip k c) = false then 1 else 0 : Nat) : Int) := by
        have paid := books2 _ (fun c' m' routed => by
          rw [next] at routed
          cases routed
          exact kept.rdy2_toll next) fun none => by
            rw [next] at none
            cases none
        rwa [even2, zero_add] at paid
      simp only [System.entryRead, next, after1, after2]
      have apart : rdy1Key ≠ rdy2Key := by decide
      by_cases rdy1 : m.key = rdy1Key
      · cases stored : s.stored c 2 <;> simp [rdy1, apart]
      · by_cases rdy2 : m.key = rdy2Key
        · cases good : s.stored c 3 && !strayChip k c <;> simp [rdy2, apart.symm]
        · simp [rdy1, rdy2]

theorem kept_initial : Kept k past coreMap (System.initial k) where
  spared := spared_initial
  order := order_initial
  entries _ := ⟨entryBooks_initial, entryBooks_initial⟩
  counting _ root := by cases root
  even := ⟨fun _ => Ready.even_iff.mpr Ready.balance_initial, Ready.even_iff.mpr Ready.balance_initial⟩

theorem Kept.step (kept : Kept k past coreMap s) (calm : s.calm k a = true)
    (spares : a.sparesBarrier = true) (entryRead : s.entryRead k a = true)
    (step : s.step k past coreMap a = some t) : Kept k past coreMap t := by
  refine ⟨kept.spared.step spares step, kept.order.step kept.spared step, fun several => ?_, fun v => ?_,
    (kept.accounted_iff calm step).mpr entryRead⟩
  · obtain ⟨rdy1, rdy2⟩ := kept.entries several
    exact ⟨rdy1.step kept.sound several (.inl ⟨rfl, rfl⟩) step,
      rdy2.step kept.sound several (.inr ⟨rfl, rfl⟩) step⟩
  · rcases kept.sound.step_core step v with same | ⟨p, waiting, read⟩ | ⟨_, m, moved, rfl⟩
    · rw [same]
      exact kept.counting v
    · obtain ⟨pc, root, _, _⟩ := readMc_same p (s.core v)
      obtain ⟨cnt1, cnt2⟩ := readMc_counts p (s.core v)
      obtain ⟨room1, room2⟩ := kept.room waiting
      intro isRoot
      rw [read, root] at isRoot
      obtain ⟨low1, low2⟩ := kept.counting v isRoot
      have one : (1 : BitVec 32).toNat = 1 := rfl
      rw [read, pc, cnt1, cnt2]
      constructor
      · intro begun
        have := low1 begun
        split
        · rename_i key
          obtain ⟨_, _, _, high⟩ := room1 key
          rw [BitVec.toNat_add, one, Nat.mod_eq_of_lt high]
          omega
        · exact this
      · intro begun
        have := low2 begun
        split
        · rename_i key
          obtain ⟨_, _, _, _, high⟩ := room2 key
          rw [BitVec.toNat_add, one, Nat.mod_eq_of_lt high]
          omega
        · exact this
    · simp only [System.move, Function.update_self]
      exact moved.counting (kept.sound.role v) (kept.counting v)

end Steps
end SpinEmu
