import SpinEmu.ReadyLoss

/-! No ready packet is lost when no scan of the sockets leaves behind an entry that a
packet read in the same scan needs. Nothing in the barrier keeps a scan from it. -/
namespace SpinEmu
open Lib Lib.Forwarding Lib.Machine Dispatcher

section Schedule

/-- The scan has yet to drain the socket of core `v`. -/
def System.ahead (s : System) (v : Nat × Nat) : Bool :=
  match s.round with
  | .scan sockets => sockets.contains v
  | _ => false

/-- The root core of chip `c` has sent entry `i`, and the scan has not left the datagram
behind: it was read, or the socket is yet to be drained. -/
def System.inTime (s : System) (c i : Nat) : Bool :=
  match s.holder c with
  | none => false
  | some r => (s.core (c, r)).pc.due i == 0 &&
      ((s.up (c, r)).all (fun x => !isEntry i x) || s.ahead (c, r))

/-- The chips that an RDY2 packet on chip `c` comes to over `fuel` links at most. -/
def rdy2Way (k : Nat) : Nat → Nat → List Nat
  | 0, c => [c]
  | fuel + 1, c =>
    c :: if c = 0 then [] else (linkTarget (square k) c (readyLink k c)).elim [] (rdy2Way k fuel)

/-- The chips that an RDY2 packet of chip `c` comes to: every link leads to a lower number. -/
def rdy2Chips (k c : Nat) : List Nat := rdy2Way k c c

/-- The scan has left no entry behind that a packet on chip `c` needs, and the packet will
not leave the board. -/
def System.onTime (k : Nat) (s : System) (c : Nat) (m : SpinEmuMc) : Bool :=
  if m.key = rdy1Key then s.inTime c 2
  else if m.key = rdy2Key then (rdy2Chips k c).all fun u => s.inTime u 3 && !strayChip k u
  else true

/-- A ready packet that the dispatcher reads from a socket is on time. -/
def System.inOrder (k : Nat) (s : System) : Action → Bool
  | .dispatch => s.scanned.all fun (v, m) => s.onTime k v.1 m
  | _ => true

end Schedule

theorem System.inTime_of_stored {s : System} {c i : Nat} (stored : s.stored c i = true) :
    s.inTime c i = true := by
  unfold System.stored at stored
  unfold System.inTime
  cases holder : s.holder c with
  | none =>
    rw [holder] at stored
    cases stored
  | some r =>
    simp only [holder, Bool.and_eq_true] at stored ⊢
    exact ⟨stored.1, Bool.or_eq_true_iff.mpr (.inl stored.2)⟩

theorem System.ahead_of_routed {s : System} {x : Nat × SpinEmuMc} (next : s.routed = some x)
    (v : Nat × Nat) : s.ahead v = false := by
  unfold System.routed at next
  unfold System.ahead
  split at next
  · rename_i round
    rw [round]
  · cases next

/-- Outside a scan the entries in time have been read. -/
theorem System.stored_of_inTime {s : System} {c i : Nat} (inTime : s.inTime c i = true)
    (behind : ∀ v, s.ahead v = false) : s.stored c i = true := by
  unfold System.inTime at inTime
  unfold System.stored
  cases holder : s.holder c with
  | none =>
    rw [holder] at inTime
    cases inTime
  | some r => simpa only [holder, behind, Bool.or_false] using inTime

section Way
variable {k c t u : Nat}

theorem readyLink_lower (hc : c < (square k).numChips) (other : c ≠ 0)
    (target : linkTarget (square k) c (readyLink k c) = some t) : t < c := by
  obtain ⟨hx, hy, here⟩ := Board.coordinates hc
  have whole := Nat.div_add_mod' c (2 ^ k)
  have link : p2pLink ((c / 2 ^ k * 256 + c % 2 ^ k) / 256) ((c / 2 ^ k * 256 + c % 2 ^ k) % 256) =
      readyLink k c := rfl
  generalize readyLink k c = j at link target
  rw [← here] at target
  obtain ⟨x, y, _, inY, rfl, stepX, stepY⟩ := (linkTarget_eq_some hx hy j).mp target
  show x * 2 ^ k + y < c
  have west (left : c / 2 ^ k = x + 1) : x * 2 ^ k + y < c := by
    rw [left, Nat.succ_mul] at whole
    have inY : y < 2 ^ k := inY
    omega
  unfold p2pLink at link
  split at link
  · obtain rfl : j = 4 := Fin.ext link.symm
    simp only [linkStep] at stepX
    exact west (by omega)
  · split at link
    · obtain rfl : j = 3 := Fin.ext link.symm
      simp only [linkStep] at stepX
      exact west (by omega)
    · split at link
      · obtain rfl : j = 5 := Fin.ext link.symm
        simp only [linkStep] at stepX stepY
        have column : c / 2 ^ k = x := by omega
        rw [column] at whole
        omega
      · have origin : c / 2 ^ k = 0 := by omega
        rw [origin, Nat.zero_mul] at whole
        omega

theorem mem_rdy2Way_self (fuel : Nat) : c ∈ rdy2Way k fuel c := by
  cases fuel <;> exact List.mem_cons_self

theorem rdy2Way_mono {less more : Nat} (enough : less ≤ more) (member : u ∈ rdy2Way k less c) :
    u ∈ rdy2Way k more c := by
  induction less generalizing more c with
  | zero =>
    cases List.mem_singleton.mp member
    exact mem_rdy2Way_self more
  | succ less ih =>
    obtain ⟨rest, rfl⟩ : ∃ rest, more = rest + 1 := ⟨more - 1, by omega⟩
    simp only [rdy2Way] at member ⊢
    rcases List.mem_cons.mp member with rfl | later
    · exact List.mem_cons_self
    · refine List.mem_cons_of_mem _ ?_
      split at later
      · cases later
      · rename_i other
        rw [if_neg other]
        cases target : linkTarget (square k) c (readyLink k c) with
        | none =>
          rw [target] at later
          cases later
        | some t =>
          rw [target] at later
          exact ih (by omega) later

/-- The way of a packet goes on behind the next link. -/
theorem rdy2Chips_next (hc : c < (square k).numChips) (other : c ≠ 0)
    (target : linkTarget (square k) c (readyLink k c) = some t) (member : u ∈ rdy2Chips k t) :
    u ∈ rdy2Chips k c := by
  have lower := readyLink_lower hc other target
  obtain ⟨fuel, rfl⟩ : ∃ fuel, c = fuel + 1 := ⟨c - 1, by omega⟩
  rw [rdy2Chips, rdy2Way, if_neg other, target]
  exact List.mem_cons_of_mem _ (rdy2Way_mono (by omega) member)

end Way

section Steps
variable {k : Nat} {past coreMap : Nat → BitVec 32} {s t : System} {a : Action} {key : BitVec 32}
  {c i r : Nat} {v : Nat × Nat}

/-- A barrier entry in a table is not taken away again. -/
theorem Sound.filled_step (sound : Sound k past coreMap s) (serves : Serves key i)
    (filled : s.dispatcher.spinEmuRoutes c i ≠ initialRoute)
    (step : s.step k past coreMap a = some t) : t.dispatcher.spinEmuRoutes c i ≠ initialRoute := by
  cases step_acts step with
  | run | read | resend | appPacket | appRoute | loseUp | loseDown => exact filled
  | dispatch step =>
    obtain ⟨step, _⟩ := dispatch_step sound.round step
    have valid : s.fresh.Valid (square k) := sound.valid
    cases step with
    | skip => exact filled
    | @recvMc v m more d _ hc _ _ dispatched =>
      rw [(queueMc_net (c := v.1) hc valid dispatched).2.routes]
      exact filled
    | @recvRoute v p more d _ _ _ waiting stored =>
      obtain ⟨nonneg, _, rfl⟩ := storeRoute_ok stored
      simp only [setRoute_routes]
      split
      · exact sound.entry_filled serves (waiting ▸ List.mem_cons_self) (by omega)
      · exact filled
    | @route c' d _ hc nonempty routed =>
      simp only [System.deliver]
      rw [(routeFront_net hc valid (sound.queue_pos hc nonempty) routed).2.routes]
      exact filled
    | @send v d hc low high nonempty sent =>
      exact absurd (sound.coresIdle v.1 hc v.2 low high) nonempty

theorem Kept.stored_step (kept : Kept k past coreMap s) (after : Kept k past coreMap t)
    (several : Several k coreMap) (serves : Serves key i) (stored : s.stored c i = true)
    (step : s.step k past coreMap a = some t) : t.stored c i = true := by
  have books : EntryBooks i s ∧ EntryBooks i t := by
    rcases serves with ⟨_, rfl⟩ | ⟨_, rfl⟩
    · exact ⟨(kept.entries several).1, (after.entries several).1⟩
    · exact ⟨(kept.entries several).2, (after.entries several).2⟩
  rw [books.1.stored_iff kept.sound serves] at stored
  exact (books.2.stored_iff after.sound serves).mpr (kept.sound.filled_step serves stored step)

/-- An entry that the root core has sent is not sent again. -/
theorem Sound.due_step (sound : Sound k past coreMap s) (several : Several k coreMap)
    (serves : Serves key i) (held : s.holder c = some r)
    (sent : (s.core (c, r)).pc.due i = 0) (step : s.step k past coreMap a = some t) :
    (t.core (c, r)).pc.due i = 0 := by
  have index : i = 2 ∨ i = 3 := serves.imp And.right And.right
  rcases sound.step_core step (c, r) with same | ⟨p, _, read⟩ | ⟨_, m, moved, rfl⟩
  · rw [same, sent]
  · rw [read, (readMc_same p _).1, sent]
  · have due := moved.due several index (sound.role _) ((sound.root (c, r)).mpr held)
    simp only [System.move, Function.update_self]
    omega

/-- The scan goes on to the next socket when it has drained one. -/
theorem ahead_dispatch (step : s.dispatch k = some t) (ahead : s.ahead v = true) :
    t.ahead v = true ∨ s.up v = [] ∧ t.up = s.up := by
  unfold System.ahead at ahead
  split at ahead
  · rename_i sockets round
    cases sockets with
    | nil => cases ahead
    | cons u rest =>
      simp only [System.dispatch, round] at step
      split at step
      · rename_i drained
        cases step
        by_cases here : v = u
        · exact .inr ⟨here ▸ drained, rfl⟩
        · refine .inl ?_
          have later := List.mem_of_ne_of_mem here (List.contains_iff_mem.mp ahead)
          simpa only [System.ahead] using List.contains_iff_mem.mpr later
      all_goals
        obtain ⟨d, _, rfl⟩ := Option.map_eq_some_iff.mp step
        exact .inl (by simpa only [System.ahead, round] using ahead)
  · cases ahead

theorem ahead_step (other : a ≠ .dispatch) (step : s.step k past coreMap a = some t) :
    t.ahead v = s.ahead v := by
  cases step_acts step with
  | dispatch => exact absurd rfl other
  | run | read | resend | appPacket | appRoute | loseUp | loseDown => rfl

/-- An entry stays in time: it is read before the scan ends. -/
theorem Kept.inTime_step (kept : Kept k past coreMap s) (after : Kept k past coreMap t)
    (several : Several k coreMap) (serves : Serves key i) (inTime : s.inTime c i = true)
    (step : s.step k past coreMap a = some t) : t.inTime c i = true := by
  unfold System.inTime at inTime
  cases holder : s.holder c with
  | none =>
    rw [holder] at inTime
    cases inTime
  | some r =>
    simp only [holder, Bool.and_eq_true, beq_iff_eq, Bool.or_eq_true] at inTime
    obtain ⟨sent, read | ahead⟩ := inTime
    · have stored : s.stored c i = true := by
        simp only [System.stored, holder, sent, read, beq_self_eq_true, Bool.and_self]
      exact System.inTime_of_stored (kept.stored_step after several serves stored step)
    · have due := kept.sound.due_step several serves holder sent step
      have held := kept.sound.holder_step step holder
      simp only [System.inTime, held, due, beq_self_eq_true, Bool.true_and, Bool.or_eq_true]
      by_cases other : a = .dispatch
      · subst other
        rcases ahead_dispatch step ahead with still | ⟨drained, same⟩
        · exact .inr still
        · exact .inl (by rw [same, drained]; rfl)
      · exact .inr (ahead_step other step ▸ ahead)

/-- The ready packets in the chip queues are on time. -/
def Timely (k : Nat) (s : System) : Prop :=
  Queued (fun c m => s.onTime k c m = true) (s.dispatcher.net (square k))

theorem timely_initial : Timely k (System.initial k) := by
  have traffic : Traffic k (fun c m => (System.initial k).onTime k c m = true) (fun _ _ => True)
      (System.initial k) := traffic_initial
  exact traffic.queue

theorem Kept.onTime_step {m : SpinEmuMc} (kept : Kept k past coreMap s) (after : Kept k past coreMap t)
    (several : m.key = rdy1Key ∨ m.key = rdy2Key → Several k coreMap)
    (onTime : s.onTime k c m = true) (step : s.step k past coreMap a = some t) :
    t.onTime k c m = true := by
  unfold System.onTime at onTime ⊢
  split
  · rename_i key
    rw [if_pos key] at onTime
    exact kept.inTime_step after (several (.inl key)) (.inl ⟨rfl, rfl⟩) onTime step
  · rename_i other
    rw [if_neg other] at onTime
    split
    · rename_i key
      rw [if_pos key] at onTime
      refine List.all_eq_true.mpr fun u member => ?_
      obtain ⟨inTime, onBoard⟩ := Bool.and_eq_true_iff.mp (List.all_eq_true.mp onTime u member)
      exact Bool.and_eq_true_iff.mpr
        ⟨kept.inTime_step after (several (.inr key)) (.inr ⟨rfl, rfl⟩) inTime step, onBoard⟩
    · rfl

/-- What is on time on a chip is on time on the next one. -/
theorem Kept.onTime_next {m : SpinEmuMc} {u : Nat} (kept : Kept k past coreMap s)
    (pass : mayPass s c m) (onTime : s.onTime k c m = true)
    (target : u ∈ (mcRouting (square k) s.dispatcher.spinEmuRoutes).next c m) :
    s.onTime k u m = true := by
  obtain ⟨j, link⟩ := mem_next.mp target
  have link : mcLink (square k) s.dispatcher.spinEmuRoutes m.key c j = some u := link
  unfold System.onTime at onTime ⊢
  by_cases rdy1 : m.key = rdy1Key
  · rw [rdy1] at link
    cases found : firstMatch (s.dispatcher.spinEmuRoutes c) rdy1Key with
    | none =>
      rw [mcLink_none found] at link
      cases link
    | some e =>
      obtain ⟨r, _, hr, rfl⟩ := kept.spared.rdy1_found found
      have hj := j.isLt
      rw [mcLink_oneBit found (by simp only [numCpus, numLinks] at hr ⊢; omega),
        if_neg (by omega)] at link
      cases link
  · rw [if_neg rdy1] at onTime ⊢
    by_cases rdy2 : m.key = rdy2Key
    · rw [if_pos rdy2] at onTime ⊢
      have several := (pass.2 (.inr rdy2)).several kept.sound
      rw [rdy2] at link
      cases found : firstMatch (s.dispatcher.spinEmuRoutes c) rdy2Key with
      | none =>
        rw [mcLink_none found] at link
        cases link
      | some e =>
        obtain ⟨r, held, hr, rfl⟩ := kept.spared.rdy2_found (several_le several) found
        have hj := j.isLt
        by_cases origin : c = 0
        · rw [if_pos origin] at found
          rw [mcLink_oneBit found (by simp only [numCpus, numLinks] at hr ⊢; omega),
            if_neg (by omega)] at link
          cases link
        · have small := (readyLink k c).isLt
          rw [if_neg origin] at found
          rw [mcLink_oneBit found (by simp only [numLinks] at small; omega)] at link
          split at link
          · rename_i same
            obtain rfl : readyLink k c = j := Fin.ext same
            have hc := (active_lt (kept.sound.active_of_holder held)).1
            exact List.all_eq_true.mpr fun w member => List.all_eq_true.mp onTime w
              (rdy2Chips_next hc origin link member)
          · cases link
    · rw [if_neg rdy2]

theorem Kept.timely_step (kept : Kept k past coreMap s) (after : Kept k past coreMap t)
    (timely : Timely k s) (inOrder : s.inOrder k a = true)
    (step : s.step k past coreMap a = some t) : Timely k t := by
  have moved : Queued (fun c m => mayPass s c m ∧ s.onTime k c m = true)
      (t.dispatcher.net (square k)) := by
    have queued : Queued (fun c m => mayPass s c m ∧ s.onTime k c m = true)
        (s.dispatcher.net (square k)) :=
      fun c m member => ⟨kept.order.traffic.queue c m member, timely c m member⟩
    cases step_acts step with
    | dispatch step =>
      refine kept.sound.queued_dispatch queued (fun v m scanned => ?_) (fun c m u fine target => ?_) step
      · exact ⟨kept.order.traffic.up v m (mem_up_of_scanned scanned), by
          simpa only [System.inOrder, scanned, Option.all_some] using inOrder⟩
      · exact ⟨kept.spared.carries.next c m u fine.1 target, kept.onTime_next fine.1 fine.2 target⟩
    | run | read | resend | appPacket | appRoute | loseUp | loseDown => exact queued
  intro c m member
  obtain ⟨pass, onTime⟩ := moved c m member
  refine kept.onTime_step after (fun ready => ?_) onTime step
  rcases ready with rdy1 | rdy2
  · exact (pass.1 rdy1).several kept.sound
  · exact (pass.2 (.inr rdy2)).several kept.sound

/-- A packet that is on time meets the entry it needs. -/
theorem Kept.entryRead_of_timely (kept : Kept k past coreMap s) (timely : Timely k s) :
    s.entryRead k a = true := by
  cases a with
  | dispatch =>
    simp only [System.entryRead]
    cases next : s.routed with
    | none => rfl
    | some routed =>
      obtain ⟨c, m⟩ := routed
      have behind (v : Nat × Nat) : s.ahead v = false := System.ahead_of_routed next v
      have onTime : s.onTime k c m = true := timely c m (kept.sound.routed_mem next)
      unfold System.onTime at onTime
      simp only
      split
      · rename_i key
        rw [if_pos key] at onTime
        exact System.stored_of_inTime onTime behind
      · rename_i other
        rw [if_neg other] at onTime
        split
        · rename_i key
          rw [if_pos key] at onTime
          obtain ⟨inTime, onBoard⟩ :=
            Bool.and_eq_true_iff.mp (List.all_eq_true.mp onTime c (mem_rdy2Way_self c))
          exact Bool.and_eq_true_iff.mpr ⟨System.stored_of_inTime inTime behind, onBoard⟩
        · rfl
  | run | read | resend | appPacket | appRoute | loseUp | loseDown => rfl

theorem Kept.timely_run (kept : Kept k past coreMap s) (timely : Timely k s)
    (calm : s.calm k a = true) (spares : a.sparesBarrier = true) (inOrder : s.inOrder k a = true)
    (step : s.step k past coreMap a = some t) : Kept k past coreMap t ∧ Timely k t := by
  have after := kept.step calm spares (kept.entryRead_of_timely timely) step
  exact ⟨after, kept.timely_step after timely inOrder step⟩

/-- In a run that finds nothing full and in which no scan leaves behind an entry that a
ready packet of the scan needs, each ready packet that is routed meets the entry of its
chip's root core and every ready packet sent is on its way or counted. -/
theorem readyPackets_kept
    (run : Run (System.step k past coreMap) (fun s a =>
      s.calm k a = true ∧ a.sparesBarrier = true ∧ s.inOrder k a = true) (System.initial k) s) :
    Accounted k s ∧
    ∀ c m, s.routed = some (c, m) → m.key = rdy1Key ∨ m.key = rdy2Key →
      ∃ r, s.holder c = some r ∧ ∃ p ∈ setupPackets k past coreMap (fun _ => r) c,
        firstMatch (s.dispatcher.spinEmuRoutes c) m.key = some p.entry := by
  obtain ⟨kept, timely⟩ : Kept k past coreMap s ∧ Timely k s :=
    run.invariant (I := fun s => Kept k past coreMap s ∧ Timely k s)
      (fun both ok step => both.1.timely_run both.2 ok.1 ok.2.1 ok.2.2 step)
      ⟨kept_initial, timely_initial⟩
  refine ⟨kept.even, fun c m next ready => ?_⟩
  have order := kept.entryRead_of_timely (a := .dispatch) timely
  have meets : ∃ e, firstMatch (s.dispatcher.spinEmuRoutes c) m.key = some e := by
    simp only [System.entryRead, next] at order
    obtain ⟨found1, found2⟩ := kept.found_iff next
    rcases ready with key | key
    · rw [if_pos key] at order
      rw [key]
      exact (found1 key).mpr order
    · rw [if_neg (by rw [key]; decide), if_pos key, Bool.and_eq_true] at order
      rw [key]
      exact (found2 key).mpr order.1
  obtain ⟨e, found⟩ := meets
  have barrier : m.key ∈ barrierKeys := by
    rcases ready with key | key <;> rw [key] <;> decide
  obtain ⟨r, held, _, p, member, same, _⟩ := kept.spared.found barrier found
  exact ⟨r, held, p, member, same ▸ found⟩

end Steps

/-- The six cores send their entries and their RDY1 packets before the first scan, the
root cores of chips `(0, 1)` and `(1, 1)` their RDY2 packets before the second. -/
def earlyEntryActions : List Action := List.flatten
  [List.replicate 13 (.run (0, 1)), List.replicate 12 (.run (1, 1)),
    List.replicate 12 (.run (2, 1)), List.replicate 12 (.run (3, 1)),
    List.replicate 7 (.run (0, 2)), List.replicate 7 (.run (1, 2)),
    List.replicate 129 .dispatch, List.replicate 2 (.read (1, 1)),
    List.replicate 2 (.run (1, 1)), [.read (3, 1)], List.replicate 2 (.run (3, 1)),
    List.replicate 75 .dispatch, List.replicate 3 (.read (0, 1))]

theorem readyPackets_kept_fourChips :
    ∃ s, Run (System.step 1 shiftModulo sixCores)
        (fun s a => s.calm 1 a = true ∧ a.sparesBarrier = true ∧ s.inOrder 1 a = true)
        (System.initial 1) s ∧
      (s.core (0, 1)).barrierRdy1Cnt = 2 ∧ (s.core (0, 1)).barrierRdy2Cnt = 3 ∧ Accounted 1 s := by
  obtain ⟨s, run, counted⟩ := exists_checkedRun (System.step 1 shiftModulo sixCores)
    (fun s a => s.calm 1 a && (a.sparesBarrier && s.inOrder 1 a)) (System.initial 1)
    earlyEntryActions
    (fun s => (s.core (0, 1)).barrierRdy1Cnt == 2 && (s.core (0, 1)).barrierRdy2Cnt == 3)
    (by decide +kernel)
  have run := run.weaken fun s a all =>
    (Bool.and_eq_true_iff.mp all).imp_right Bool.and_eq_true_iff.mp
  obtain ⟨rdy1, rdy2⟩ := Bool.and_eq_true_iff.mp counted
  exact ⟨s, run, eq_of_beq rdy1, eq_of_beq rdy2, (readyPackets_kept run).1⟩

instance (L : Ready) (k : Nat) (s : System) : Decidable (L.Even k s) :=
  inferInstanceAs (Decidable (_ = _))

/-- The dispatcher has passed the socket of core 1 when that core sends its RDY1 entry,
and reads the RDY1 packet of core 2 in the same scan. -/
def lateEntryActions : List Action :=
  List.replicate 2 .dispatch ++ List.replicate 12 (.run (0, 1)) ++
    List.replicate 7 (.run (0, 2)) ++ List.replicate 9 .dispatch

theorem rdy1_lost :
    ∃ s t, Run (System.step 0 (fun _ => 0) fun _ => 6) (fun s a => s.calm 0 a = true)
        (System.initial 0) s ∧
      s.routed = some (0, ⟨rdy1Key, 0, 0⟩) ∧
      firstMatch (s.dispatcher.spinEmuRoutes 0) rdy1Key = none ∧
      s.calm 0 .dispatch = true ∧ s.step 0 (fun _ => 0) (fun _ => 6) .dispatch = some t ∧
      ¬ Accounted 0 t := by
  obtain ⟨s, run, lost⟩ := exists_checkedRun (System.step 0 (fun _ => 0) fun _ => 6)
    (fun s a => s.calm 0 a) (System.initial 0) lateEntryActions
    (fun s => s.routed == some (0, ⟨rdy1Key, 0, 0⟩) &&
      (firstMatch (s.dispatcher.spinEmuRoutes 0) rdy1Key).isNone && s.calm 0 .dispatch &&
      (s.step 0 (fun _ => 0) (fun _ => 6) .dispatch).any fun t => !decide ((rdy1Ready 0).Even 0 t))
    (by decide +kernel)
  simp only [Bool.and_eq_true, beq_iff_eq, Option.isNone_iff_eq_none, Option.any_eq_true,
    Bool.not_eq_true', decide_eq_false_iff_not] at lost
  obtain ⟨⟨⟨next, none⟩, calm⟩, t, step, uneven⟩ := lost
  exact ⟨s, t, run, next, none, calm, step, fun even => uneven (even.1 0)⟩

end SpinEmu
