import SpinEmu.ReadyEntries

/-! The barrier entries on their way to the tables: each is yet to be sent by its
root core, unread in that core's socket or stored, and only one of these. -/
namespace SpinEmu
open Lib Lib.Forwarding Dispatcher

/-- How often the root core has yet to send its entry of index 2 or 3. -/
def Pc.due (i : Nat) : Pc → Nat
  | .sendRdy1Route => 1
  | .initRdy1Cnt | .initRdy2Cnt | .releaseRouter | .setCoreMap => if i = 2 then 0 else 1
  | .sendRoutes packets => packets.countP fun p => p.index == (i : Int)
  | _ => 0

def isEntry (i : Nat) : Datagram → Bool
  | .route p => p.index == (i : Int)
  | .mc _ => false

/-- The table entries that serve the ready packets. -/
def Serves (key : BitVec 32) (i : Nat) : Prop := key = rdy1Key ∧ i = 2 ∨ key = rdy2Key ∧ i = 3

/-- The root core of chip `c` has sent entry `i` and the dispatcher has read it. -/
def System.stored (s : System) (c i : Nat) : Bool :=
  match s.holder c with
  | none => false
  | some r => (s.core (c, r)).pc.due i == 0 && (s.up (c, r)).all fun x => !isEntry i x

def System.filled (s : System) (c i : Nat) : Nat :=
  if s.dispatcher.spinEmuRoutes c i = initialRoute then 0 else 1

/-- The books of entry `i`. -/
def EntryBooks (i : Nat) (s : System) : Prop :=
  ∀ c r, s.holder c = some r →
    (s.core (c, r)).pc.due i + (s.up (c, r)).countP (isEntry i) + s.filled c i = 1

section Entries
variable {k : Nat} {past coreMap : Nat → BitVec 32} {s t : System} {a : Action} {v : Nat × Nat}
  {me : Core} {lock : Nat} {holder : Option Nat} {m : Move} {key : BitVec 32} {c i r : Nat}

theorem Serves.key_mem (serves : Serves key i) : key ∈ barrierKeys := by
  rcases serves with ⟨rfl, _⟩ | ⟨rfl, _⟩ <;> decide

theorem Serves.index_le (serves : Serves key i) : i ≤ 3 := by
  rcases serves with ⟨_, rfl⟩ | ⟨_, rfl⟩ <;> decide

/-- The entry of a chip for a key is the one at the key's index. -/
theorem matches_iff_index (serves : Serves key i) {p : SpinEmuRoutePacket}
    (member : p ∈ setupPackets k past coreMap (fun _ => r) c) :
    p.entry.matches key = true ↔ p.index = (i : Int) := by
  have shape : ∃ key' route, p.entry = barrierEntry key' route ∧
      (key' = rdy1Key ∧ p.index = 2 ∨ key' = rdygoKey ∧ p.index = 1 ∨
        key' = rdy2Key ∧ p.index = 3 ∨ key' = goKey ∧ p.index = 0) := by
    rcases mem_setupPackets member with rfl | ⟨route, rfl | rfl | rfl⟩
    · exact ⟨_, _, rfl, .inl ⟨rfl, rfl⟩⟩
    · exact ⟨_, _, rfl, .inr (.inl ⟨rfl, rfl⟩)⟩
    · exact ⟨_, _, rfl, .inr (.inr (.inl ⟨rfl, rfl⟩))⟩
    · exact ⟨_, _, rfl, .inr (.inr (.inr ⟨rfl, rfl⟩))⟩
  obtain ⟨key', route, entry, index⟩ := shape
  rw [entry, barrierEntry_matches, beq_iff_eq]
  rcases serves with ⟨rfl, rfl⟩ | ⟨rfl, rfl⟩ <;>
    rcases index with ⟨rfl, index⟩ | ⟨rfl, index⟩ | ⟨rfl, index⟩ | ⟨rfl, index⟩ <;>
    rw [index] <;> decide

/-- A ready packet meets an entry exactly when the table holds one at its index. -/
theorem Spared.found_iff (spared : Spared k past coreMap s) (serves : Serves key i) :
    (∃ e, firstMatch (s.dispatcher.spinEmuRoutes c) key = some e) ↔
      s.dispatcher.spinEmuRoutes c i ≠ initialRoute := by
  constructor
  · rintro ⟨e, found⟩ initial
    obtain ⟨hit, j, here⟩ := firstMatch_some found
    rcases here ▸ spared.table c j with none | high | ⟨r, _, p, member, index, same⟩
    · rw [none, initialRoute_matches] at hit
      cases hit
    · rw [SpinEmuRoute.matches_of_spares (here ▸ spared.entries c j high) serves.key_mem] at hit
      cases hit
    · rw [← same, matches_iff_index serves member, index] at hit
      rw [Int.ofNat_inj.mp hit, initial] at here
      rw [← here] at same
      have stored := (matches_iff_index serves member).mpr (index.trans hit)
      rw [same, initialRoute_matches] at stored
      cases stored
  · intro filled
    rcases spared.table c i with initial | high | ⟨r, _, p, member, index, same⟩
    · exact absurd initial filled
    · exact absurd serves.index_le (by omega)
    · have hit := (matches_iff_index serves member).mpr index
      rw [same] at hit
      apply Option.ne_none_iff_exists'.mp
      intro none
      have := firstMatch_eq_none.mp none i (serves.index_le.trans_lt (by decide))
      rw [hit] at this
      cases this

theorem EntryBooks.stored_iff (books : EntryBooks i s) (sound : Sound k past coreMap s)
    (serves : Serves key i) :
    s.stored c i = true ↔ s.dispatcher.spinEmuRoutes c i ≠ initialRoute := by
  unfold System.stored
  cases holder : s.holder c with
  | none =>
    refine iff_of_false Bool.false_ne_true fun filled => filled ?_
    rcases sound.table c i with initial | high | ⟨r, held, _⟩
    · exact initial
    · exact absurd serves.index_le (by omega)
    · rw [holder] at held
      cases held
  | some r =>
    have one := books c r holder
    have none : (s.up (c, r)).all (fun x => !isEntry i x) = true ↔
        (s.up (c, r)).countP (isEntry i) = 0 := by
      simp [List.countP_eq_zero]
    simp only [Bool.and_eq_true, beq_iff_eq, none]
    unfold System.filled at one
    split at one
    · rename_i initial
      exact iff_of_false (by omega) (fun filled => filled initial)
    · rename_i filled
      exact iff_of_true (by omega) filled

/-- A root core's statement sends an entry or leaves it to be sent. -/
theorem CoreStep.due (several : Several k coreMap) (index : i = 2 ∨ i = 3)
    (role : Role k past coreMap v me) (root : me.rootAp = true)
    (step : CoreStep k past coreMap v.1 v.2 me lock holder m) :
    m.core.pc.due i + m.out.countP (isEntry i) = me.pc.due i := by
  cases step with
  | lockWon pc | lockLost pc =>
    simp only [Role, pc] at role
    rw [role.1] at root
    cases root
  | rdy1Route pc =>
    rw [pc]
    rcases index with rfl | rfl <;> simp [Pc.due, isEntry, rdy1Packet]
  | rdy1Cnt pc | rdy2Cnt pc | release pc | routesDone pc | startSeveral pc _ | startAlone pc _
  | enterRoot pc _ _ | enterOtherRoot pc _ _ | enterOther pc _ | ready pc _ _ | rdygoSeen pc _ _
  | lockSeen pc _ | leave pc _ =>
    rw [pc]
    rfl
  | routerSeen pc _ =>
    simp only [Role, pc] at role
    rw [role.1] at root
    cases root
  | mapRoot pc _ _ setup =>
    obtain ⟨rdygo, rdy2, go, rfl⟩ := barrierSetup_packets setup
    rw [pc]
    rcases index with rfl | rfl <;> simp [Pc.due]
  | mapOther pc other =>
    rw [other several] at root
    cases root
  | @routesNext _ p rest pc =>
    rw [pc]
    simp only [Pc.due, List.countP_cons, List.countP_nil, isEntry, Nat.zero_add]
    rfl
  | rdygo pc | go pc | rdy2 pc | rdy1 pc =>
    rw [pc]
    simp [Pc.due, isEntry, barrierPacket]

theorem Sound.unread_eq_zero (sound : Sound k past coreMap s) (low : i ≤ 3)
    (other : s.holder v.1 ≠ some v.2) : (s.up v).countP (isEntry i) = 0 := by
  refine List.countP_eq_zero.mpr fun x member hit => ?_
  cases x with
  | mc m => cases hit
  | route p =>
    rcases sound.sent v p member with app | ⟨held, _⟩
    · have := (appEntry_spec app).1
      simp only [isEntry, beq_iff_eq] at hit
      omega
    · exact other held

theorem entryBooks_initial : EntryBooks i (System.initial k) := fun _ _ held => nomatch held

theorem EntryBooks.send (books : EntryBooks i s) {x : Datagram} (other : isEntry i x = false) :
    EntryBooks i (s.send v [x]) := by
  intro c r held
  have one := books c r held
  have same : ((s.send v [x]).up (c, r)).countP (isEntry i) = (s.up (c, r)).countP (isEntry i) := by
    by_cases here : (c, r) = v
    · rw [here]
      simp [System.send, other]
    · simp only [System.send, Function.update_of_ne here]
  rw [same]
  exact one

theorem EntryBooks.move (books : EntryBooks i s) (sound : Sound k past coreMap s)
    (several : Several k coreMap) (index : i = 2 ∨ i = 3)
    (step : CoreStep k past coreMap v.1 v.2 (s.core v) (s.lock v.1) (s.holder v.1) m) :
    EntryBooks i (s.move v m) := by
  intro c r held
  have low : i ≤ 3 := by omega
  by_cases here : v = (c, r)
  · subst here
    have core : (s.move (c, r) m).core (c, r) = m.core := Function.update_self ..
    have up : (s.move (c, r) m).up (c, r) = s.up (c, r) ++ m.out := Function.update_self ..
    have table : (s.move (c, r) m).filled c i = s.filled c i := rfl
    have won : m.holder = some r := by
      simpa only [System.move, Function.update_self] using held
    rw [core, up, table, List.countP_append]
    by_cases before : s.holder c = some r
    · have one := books c r before
      have due := step.due several index (sound.role _) ((sound.root (c, r)).mpr before)
      omega
    · rcases step.holder_eq with ⟨same, _⟩ | ⟨free, _⟩
      · exact absurd (same.symm.trans won) before
      · have free : s.holder c = none := free
        have unread := sound.unread_eq_zero (v := (c, r)) low before
        have initial : s.dispatcher.spinEmuRoutes c i = initialRoute := by
          rcases sound.table c i with initial | high | ⟨r', held', _⟩
          · exact initial
          · omega
          · rw [free] at held'
            cases held'
        rw [unread, System.filled, if_pos initial]
        have step : CoreStep k past coreMap c r (s.core (c, r)) (s.lock c) (s.holder c) m := step
        rw [free] at step
        cases step with
        | lockWon pc => rfl
        | _ => cases won
  · have before : s.holder c = some r := by
      by_cases chip : c = v.1
      · subst chip
        simp only [System.move, Function.update_self] at held
        rcases step.holder_eq with ⟨same, _⟩ | ⟨_, won, _⟩
        · rw [← same, held]
        · rw [won] at held
          exact absurd (show v = (v.1, r) from Prod.ext rfl (Option.some.inj held)) here
      · simpa only [System.move, Function.update_of_ne chip] using held
    have one := books c r before
    have core : (s.move v m).core (c, r) = s.core (c, r) := Function.update_of_ne (Ne.symm here) ..
    have up : (s.move v m).up (c, r) = s.up (c, r) := Function.update_of_ne (Ne.symm here) ..
    rw [core, up]
    exact one

/-- A datagram for a barrier entry fills the entry. -/
theorem Sound.entry_filled (sound : Sound k past coreMap s) (serves : Serves key i)
    {p : SpinEmuRoutePacket} (waiting : .route p ∈ s.up v) (index : p.index = (i : Int)) :
    p.entry ≠ initialRoute := by
  intro initial
  rcases sound.sent v p waiting with app | ⟨_, member⟩
  · have := (appEntry_spec app).1
    have := serves.index_le
    omega
  · have hit := (matches_iff_index serves member).mpr index
    rw [initial, initialRoute_matches] at hit
    cases hit

theorem EntryBooks.dispatch (books : EntryBooks i s) (sound : Sound k past coreMap s)
    (serves : Serves key i) (step : s.dispatch k = some t) : EntryBooks i t := by
  obtain ⟨step, _⟩ := dispatch_step sound.round step
  have valid : s.fresh.Valid (square k) := sound.valid
  have low := serves.index_le
  cases step with
  | skip => exact books
  | @recvMc v m more d _ hc hi waiting dispatched =>
    obtain ⟨_, keeps⟩ := queueMc_net (c := v.1) hc valid dispatched
    intro c r held
    have one := books c r held
    have table : System.filled { s with
        up := Function.update s.up v more
        dispatcher := d } c i = s.filled c i := by
      simp only [System.filled, keeps.routes]
      rfl
    rw [table]
    by_cases here : (c, r) = v
    · subst here
      rw [waiting] at one
      simpa [isEntry] using one
    · simpa only [Function.update_of_ne here] using one
  | @recvRoute v p more d _ hc hi waiting stored =>
    obtain ⟨nonneg, _, rfl⟩ := storeRoute_ok stored
    intro c r held
    have one := books c r held
    have table : System.filled { s with
        up := Function.update s.up v more
        dispatcher := s.fresh.setRoute v.1 p.index.toNat p.entry } c i =
        if c = v.1 ∧ i = p.index.toNat then (if p.entry = initialRoute then 0 else 1)
        else s.filled c i := by
      simp only [System.filled, setRoute_routes]
      split <;> rfl
    rw [table]
    by_cases here : v = (c, r)
    · subst here
      rw [waiting, List.countP_cons] at one
      simp only [Function.update_self, true_and]
      by_cases same : i = p.index.toNat
      · have index : p.index = (i : Int) := by omega
        have filled := sound.entry_filled serves (waiting ▸ List.mem_cons_self) index
        rw [if_pos (by simpa [isEntry] using index)] at one
        rw [if_pos same, if_neg filled]
        omega
      · have other : ¬ isEntry i (.route p) = true := by
          simp only [isEntry, beq_iff_eq]
          omega
        rw [if_neg other] at one
        rw [if_neg same]
        exact one
    · have other : ¬ (c = v.1 ∧ i = p.index.toNat) := by
        rintro ⟨chip, same⟩
        rcases sound.sent v p (waiting ▸ List.mem_cons_self) with app | ⟨held', _⟩
        · have := (appEntry_spec app).1
          omega
        · rw [← chip, held] at held'
          exact here (Prod.ext chip.symm (Option.some.inj held').symm)
      rw [if_neg other]
      simpa only [Function.update_of_ne (Ne.symm here)] using one
  | @route c d _ hc nonempty routed =>
    obtain ⟨_, keeps⟩ := routeFront_net hc valid (sound.queue_pos hc nonempty) routed
    intro c' r held
    have one := books c' r held
    have table : System.filled (s.deliver d) c' i = s.filled c' i := by
      simp only [System.filled, System.deliver, keeps.routes]
      rfl
    rw [table]
    exact one
  | @send v d hc low high nonempty sent => exact absurd (sound.coresIdle v.1 hc v.2 low high) nonempty

theorem EntryBooks.step (books : EntryBooks i s) (sound : Sound k past coreMap s)
    (several : Several k coreMap) (serves : Serves key i)
    (step : s.step k past coreMap a = some t) : EntryBooks i t := by
  have index : i = 2 ∨ i = 3 := serves.imp And.right And.right
  cases step_acts step with
  | run _ moved => exact books.move sound several index moved
  | @read v m rest =>
    intro c r held
    have one := books c r held
    have pc : (Function.update s.core v (readMc m (s.core v)) (c, r)).pc = (s.core (c, r)).pc := by
      by_cases here : (c, r) = v
      · subst here
        rw [Function.update_self, (readMc_same m _).1]
      · rw [Function.update_of_ne here]
    simp only [pc]
    exact one
  | resend | appPacket => exact books.send rfl
  | dispatch step => exact books.dispatch sound serves step
  | appRoute _ app =>
    have := (appEntry_spec app).1
    have := serves.index_le
    exact books.send (beq_eq_false_iff_ne.mpr (by omega))
  | @loseUp v n m lost =>
    intro c r held
    have one := books c r held
    by_cases here : (c, r) = v
    · subst here
      have same : ((s.up (c, r)).eraseIdx n).countP (isEntry i) =
          (s.up (c, r)).countP (isEntry i) := by
        obtain ⟨inside, here⟩ := List.getElem?_eq_some_iff.mp lost
        have all := (List.getElem_cons_eraseIdx_perm inside).countP_eq (isEntry i)
        rwa [here, List.countP_cons, if_neg (by simp [isEntry]), Nat.add_zero] at all
      simp only [Function.update_self, same]
      exact one
    · simp only [Function.update_of_ne here]
      exact one
  | loseDown => exact books

end Entries
end SpinEmu
