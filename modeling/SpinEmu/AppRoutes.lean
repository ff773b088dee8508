import SpinEmu.BarrierSetup
import SpinEmu.Lib.Machine

/-! `spin1_set_mc_table_entry` beside the entries that the runtime installs. The
cores of a chip send their entries over their own sockets, and the dispatcher
stores them in the order in which it reads the sockets. -/
namespace SpinEmu
open Lib.Machine

abbrev success : BitVec 32 := 1
abbrev failure : BitVec 32 := 0

abbrev sysMcEntries : BitVec 32 := 1
abbrev appMcEntries : BitVec 32 := 1024 - sysMcEntries

/-- The arguments of one call of `spin1_set_mc_table_entry`. -/
structure TableCall where
  entry : BitVec 32
  key : BitVec 32
  mask : BitVec 32
  route : BitVec 32
  deriving DecidableEq, Repr

/-- `spin1_set_mc_table_entry`: the status it returns and the datagram it sends. -/
def spin1SetMcTableEntry (c : TableCall) : BitVec 32 × Option SpinEmuRoutePacket :=
  if c.entry < appMcEntries then
    (success, some ⟨(c.entry + sysMcEntries).toInt, c.key, c.mask, c.route⟩)
  else (failure, none)

/-- Who has sent a datagram. The datagram does not tell. -/
inductive Origin where
  | runtime
  | application
  deriving DecidableEq, Repr

/-- One chip: what the root application core has yet to send for the runtime, the
unread datagrams of the cores, and the dispatcher. -/
structure RouteSystem where
  unsent : List SpinEmuRoutePacket
  socket : Nat → List (Origin × SpinEmuRoutePacket)
  dispatcher : Dispatcher SpinEmuMc

inductive RouteAction where
  | runtime
  | call (core : Nat) (c : TableCall)
  | recv (core : Nat)

namespace RouteSystem
variable (chip root : Nat)

def send (s : RouteSystem) (core : Nat) (origin : Origin) (p : SpinEmuRoutePacket) : RouteSystem :=
  { s with socket := Function.update s.socket core (s.socket core ++ [(origin, p)]) }

def step (s : RouteSystem) : RouteAction → Option RouteSystem
  | .runtime =>
    match s.unsent with
    | [] => none
    | p :: rest => some ({ s with unsent := rest }.send root .runtime p)
  | .call core c =>
    match (spin1SetMcTableEntry c).2 with
    | none => some s
    | some p => some (s.send core .application p)
  | .recv core =>
    match s.socket core with
    | [] => none
    | (_, p) :: rest =>
      (s.dispatcher.storeRoute chip p.index p.entry).map fun d =>
        { s with socket := Function.update s.socket core rest, dispatcher := d }

/-- Nothing is sent yet, and the tables are as `cmd_p2pc` leaves them. -/
def start (packets : List SpinEmuRoutePacket) (d : Dispatcher SpinEmuMc) : RouteSystem where
  unsent := packets
  socket _ := []
  dispatcher := { d with spinEmuRoutes := fun _ _ => initialRoute }

/-- The dispatcher has read the runtime's packet `p`. -/
def Stored (s : RouteSystem) (p : SpinEmuRoutePacket) : Prop :=
  p ∉ s.unsent ∧ (Origin.runtime, p) ∉ s.socket root

instance (s : RouteSystem) (p : SpinEmuRoutePacket) : Decidable (s.Stored root p) :=
  inferInstanceAs (Decidable (_ ∧ _))

/-- The applications make only the given calls, from any core and at any time. -/
def Makes (calls : Set TableCall) (_ : RouteSystem) : RouteAction → Prop
  | .call _ c => c ∈ calls
  | _ => True

/-- What an application may rely on whatever calls of a set are made. -/
structure KeepsRuntime (packets : List SpinEmuRoutePacket) (calls : Set TableCall)
    (d : Dispatcher SpinEmuMc) : Prop where
  kept : ∀ s, Run (step chip root) (Makes calls) (start packets d) s →
    ∀ p ∈ packets, s.Stored root p → s.dispatcher.spinEmuRoutes chip p.index.toNat = p.entry ∧
      firstMatch (s.dispatcher.spinEmuRoutes chip) p.entry.key = some p.entry
  status : ∀ c ∈ calls, (spin1SetMcTableEntry c).1 = success ↔
    ∃ p, (spin1SetMcTableEntry c).2 = some p ∧ ∃ i < numRoutes, ∀ d : Dispatcher SpinEmuMc,
      d.storeRoute chip p.index p.entry = some (d.setRoute chip i ⟨c.key, c.mask, c.route⟩)
  unchanged : ∀ c ∈ calls, (spin1SetMcTableEntry c).1 = failure →
    ∀ s core, step chip root s (.call core c) = some s

/-- The call leaves the indices of the runtime alone, or repeats its entry. -/
def Harmless (packets : List SpinEmuRoutePacket) (c : TableCall) : Prop :=
  3 ≤ c.entry ∨ ∃ p ∈ packets, p.index = c.entry.toNat + 1 ∧ p.entry = ⟨c.key, c.mask, c.route⟩

end RouteSystem

section Call
variable {c : TableCall}

theorem spin1SetMcTableEntry_lt (h : c.entry.toNat < 1023) :
    spin1SetMcTableEntry c = (success, some ⟨c.entry.toNat + 1, c.key, c.mask, c.route⟩) := by
  have bound : appMcEntries.toNat = 1023 := rfl
  have one : sysMcEntries.toNat = 1 := rfl
  have size : (c.entry + sysMcEntries).toNat = c.entry.toNat + 1 := by
    rw [BitVec.toNat_add, one, Nat.mod_eq_of_lt (by omega)]
  have index : (c.entry + sysMcEntries).toInt = c.entry.toNat + 1 := by
    rw [BitVec.toInt_eq_toNat_of_lt (by omega), size]
    rfl
  rw [spin1SetMcTableEntry, if_pos (by rw [BitVec.lt_def, bound]; exact h), index]

theorem spin1SetMcTableEntry_ge (h : 1023 ≤ c.entry.toNat) :
    spin1SetMcTableEntry c = (failure, none) := by
  have bound : appMcEntries.toNat = 1023 := rfl
  rw [spin1SetMcTableEntry, if_neg (by rw [BitVec.lt_def, bound]; omega)]

end Call

/-- The entries of the runtime stand at four indices and have keys of their own. -/
structure RuntimeEntries (packets : List SpinEmuRoutePacket) : Prop where
  range : ∀ p ∈ packets, 0 ≤ p.index ∧ p.index ≤ 3
  covers : ∀ i : Int, 0 ≤ i → i ≤ 3 → ∃ p ∈ packets, p.index = i
  index_inj : ∀ p ∈ packets, ∀ q ∈ packets, p.index = q.index → p = q
  key_inj : ∀ p ∈ packets, ∀ q ∈ packets, q.entry.matches p.entry.key = true ↔ p = q

theorem runtimeEntries {b : Board} {past : Nat → BitVec 32} {chips : BitVec 32}
    {coreMap : Nat → BitVec 32} {chip core : Nat} {vars v : BarrierVars}
    {ps : List SpinEmuRoutePacket}
    (setup : barrierSetup b past chips coreMap chip core vars = some (v, ps)) :
    RuntimeEntries (rdy1Packet past core :: ps) := by
  obtain ⟨rdygo, rdy2, go, rfl⟩ := barrierSetup_packets setup
  constructor
  · simp [rdy1Packet]
  · intro i low high
    obtain rfl | rfl | rfl | rfl : i = 0 ∨ i = 1 ∨ i = 2 ∨ i = 3 := by omega
    all_goals simp [rdy1Packet]
  · simp [rdy1Packet]
  · simp only [rdy1Packet, List.forall_mem_cons, barrierEntry_matches, barrierEntry_key]
    simp [goKey, rdygoKey, rdy1Key, rdy2Key]

namespace RouteSystem
variable {chip root : Nat} {packets : List SpinEmuRoutePacket} {calls : Set TableCall}
  {d : Dispatcher SpinEmuMc}

theorem mem_send {s : RouteSystem} {core core' : Nat} {origin : Origin} {p : SpinEmuRoutePacket}
    {m : Origin × SpinEmuRoutePacket} :
    m ∈ (s.send core origin p).socket core' ↔
      m ∈ s.socket core' ∨ core' = core ∧ m = (origin, p) := by
  by_cases same : core' = core
  · subst same
    simp [send]
  · simp [send, same]

/-- While the calls are harmless, the runtime's four indices hold nothing but the
runtime's entries. -/
structure Sound (chip root : Nat) (packets : List SpinEmuRoutePacket) (s : RouteSystem) : Prop where
  unsent : ∀ p ∈ s.unsent, p ∈ packets
  socket : ∀ core, ∀ m ∈ s.socket core,
    m.2 ∈ packets ∨ m.1 = .application ∧ 3 < m.2.index
  table : ∀ i : Nat, i ≤ 3 → s.dispatcher.spinEmuRoutes chip i = initialRoute ∨
    ∃ p ∈ packets, p.index = i ∧ s.dispatcher.spinEmuRoutes chip i = p.entry
  stored : ∀ p ∈ packets, s.Stored root p →
    s.dispatcher.spinEmuRoutes chip p.index.toNat = p.entry

theorem sound_start (nonempty : ∀ p ∈ packets, p ∈ (start packets d).unsent) :
    Sound chip root packets (start packets d) where
  unsent _ hp := hp
  socket _ m hm := by cases hm
  table _ _ := .inl rfl
  stored p hp stored := absurd (nonempty p hp) stored.1

/-- What the dispatcher stores on a read. -/
theorem storeRoute_some {e d' : Dispatcher SpinEmuMc} {p : SpinEmuRoutePacket}
    (h : e.storeRoute chip p.index p.entry = some d') : 0 ≤ p.index ∧ ∀ i : Nat,
      d'.spinEmuRoutes chip i = if (i : Int) = p.index then p.entry else e.spinEmuRoutes chip i := by
  obtain ⟨nonneg, _, rfl⟩ := Dispatcher.storeRoute_ok h
  refine ⟨nonneg, fun i => ?_⟩
  have same : (i : Int) = p.index ↔ chip = chip ∧ i = p.index.toNat := by omega
  rw [Dispatcher.setRoute_routes, if_congr same rfl rfl]

/-- A harmless call sends an entry of the runtime, or one that is out of its indices. -/
theorem harmless_sends {c : TableCall} {p : SpinEmuRoutePacket} (harmless : Harmless packets c)
    (sends : (spin1SetMcTableEntry c).2 = some p) : p ∈ packets ∨ 3 < p.index := by
  by_cases low : c.entry.toNat < 1023
  · rw [spin1SetMcTableEntry_lt low] at sends
    cases sends
    rcases harmless with high | ⟨q, hq, index, entry⟩
    · have three : (3 : BitVec 32).toNat = 3 := rfl
      rw [BitVec.le_def, three] at high
      exact .inr (by simp only; omega)
    · exact .inl (by rw [← index, ← entry]; exact hq)
  · rw [spin1SetMcTableEntry_ge (by omega)] at sends
    cases sends

/-- An entry in a socket that has an index of the runtime is the runtime's. -/
theorem Sound.mine (entries : RuntimeEntries packets) {s : RouteSystem}
    (sound : Sound chip root packets s) {core : Nat} {origin : Origin} {p q : SpinEmuRoutePacket}
    (waits : (origin, p) ∈ s.socket core) (hq : q ∈ packets) (same : q.index = p.index) :
    q = p := by
  rcases sound.socket core (origin, p) waits with known | ⟨_, high⟩
  · exact entries.index_inj q hq p known same
  · have := (entries.range q hq).2
    simp only at high
    omega

/-- The dispatcher stores what is first in a socket. -/
theorem Sound.recv (entries : RuntimeEntries packets) {s t : RouteSystem} {core : Nat}
    (sound : Sound chip root packets s) (step : step chip root s (.recv core) = some t) :
    Sound chip root packets t := by
  simp only [RouteSystem.step] at step
  split at step
  · cases step
  · rename_i origin p rest waiting
    obtain ⟨d', stores, result⟩ := Option.map_eq_some_iff.mp step
    cases result
    obtain ⟨nonneg, table⟩ := storeRoute_some stores
    have first : (origin, p) ∈ s.socket core := waiting ▸ List.mem_cons_self
    have older {core' : Nat} {m : Origin × SpinEmuRoutePacket}
        (hm : m ∈ Function.update s.socket core rest core') : m ∈ s.socket core' := by
      by_cases same : core' = core
      · subst same
        rw [Function.update_self] at hm
        exact waiting ▸ List.mem_cons_of_mem _ hm
      · rwa [Function.update_of_ne same] at hm
    refine ⟨sound.unsent, fun core' m hm => sound.socket core' m (older hm), ?_, ?_⟩
    · intro i low
      simp only [table]
      split
      · rename_i here
        obtain ⟨q, hq, at_i⟩ := entries.covers i (by omega) (by omega)
        have same := sound.mine entries first hq (at_i.trans here)
        exact .inr ⟨q, hq, at_i, congrArg SpinEmuRoutePacket.entry same.symm⟩
      · exact sound.table i low
    · rintro q hq ⟨sent, read⟩
      have index : ((q.index.toNat : Nat) : Int) = q.index :=
        Int.toNat_of_nonneg (entries.range q hq).1
      simp only [table, index]
      split
      · rename_i here
        rw [sound.mine entries first hq here]
      · rename_i apart
        refine sound.stored q hq ⟨sent, fun unread => read ?_⟩
        by_cases same : core = root
        · subst same
          rw [waiting] at unread
          rcases List.mem_cons.mp unread with here | later
          · cases here
            exact absurd rfl apart
          · simpa using later
        · simpa [Function.update_of_ne (Ne.symm same)] using unread

theorem Sound.step (entries : RuntimeEntries packets)
    (harmless : ∀ c ∈ calls, Harmless packets c) {s t : RouteSystem} {a : RouteAction}
    (sound : Sound chip root packets s) (made : Makes calls s a)
    (step : step chip root s a = some t) : Sound chip root packets t := by
  cases a with
  | runtime =>
    simp only [RouteSystem.step] at step
    split at step
    · cases step
    · rename_i p rest unsent
      cases step
      have first : p ∈ packets := sound.unsent p (unsent ▸ List.mem_cons_self)
      refine ⟨fun q hq => sound.unsent q (unsent ▸ List.mem_cons_of_mem _ hq), ?_, sound.table, ?_⟩
      · intro core m hm
        rcases mem_send.mp hm with old | ⟨_, rfl⟩
        · exact sound.socket core m old
        · exact .inl first
      · rintro q hq ⟨sent, read⟩
        have unread : (Origin.runtime, q) ∉ s.socket root := fun old => read (mem_send.mpr (.inl old))
        have other : q ≠ p := by
          rintro rfl
          exact read (mem_send.mpr (.inr ⟨rfl, rfl⟩))
        refine sound.stored q hq ⟨?_, unread⟩
        rw [unsent]
        exact fun old => (List.mem_cons.mp old).elim other sent
  | call core c =>
    simp only [RouteSystem.step] at step
    split at step
    · cases step
      exact sound
    · rename_i p sends
      cases step
      refine ⟨sound.unsent, ?_, sound.table, ?_⟩
      · intro core' m hm
        rcases mem_send.mp hm with old | ⟨_, rfl⟩
        · exact sound.socket core' m old
        · exact (harmless_sends (harmless c made) sends).imp_right fun high => ⟨rfl, high⟩
      · rintro q hq ⟨sent, read⟩
        exact sound.stored q hq ⟨sent, fun old => read (mem_send.mpr (.inl old))⟩
  | recv core => exact sound.recv entries step

/-- A stored entry of the runtime is the first one that its key matches. -/
theorem Sound.first {s : RouteSystem} (entries : RuntimeEntries packets)
    (sound : Sound chip root packets s) {p : SpinEmuRoutePacket} (hp : p ∈ packets)
    (stored : s.Stored root p) :
    firstMatch (s.dispatcher.spinEmuRoutes chip) p.entry.key = some p.entry := by
  have range := entries.range p hp
  have here := sound.stored p hp stored
  rw [← here]
  apply firstMatch_of_first (by simp only [numRoutes]; omega)
  · rw [here]
    exact (entries.key_inj p hp p hp).mpr rfl
  · intro i before
    rcases sound.table i (by omega) with initial | ⟨q, hq, index, entry⟩
    · rw [initial, initialRoute_matches]
    · rw [entry, Bool.eq_false_iff, here]
      intro hit
      have same := (entries.key_inj p hp q hq).mp hit
      rw [same] at before
      omega

/-- The runtime can send all of its entries before anything else happens. -/
theorem run_send (s : RouteSystem) : ∃ t, Run (RouteSystem.step chip root) (Makes calls) s t ∧
    t.unsent = [] ∧ t.socket root = s.socket root ++ s.unsent.map (Origin.runtime, ·) := by
  cases unsent : s.unsent with
  | nil => exact ⟨s, .refl, unsent, by simp⟩
  | cons p rest =>
    obtain ⟨t, run, done, sent⟩ := run_send (({ s with unsent := rest } : RouteSystem).send root .runtime p)
    have first : RouteSystem.step chip root s .runtime =
        some (({ s with unsent := rest } : RouteSystem).send root .runtime p) := by
      simp only [RouteSystem.step, unsent]
    refine ⟨t, (Run.tail .refl trivial first).trans run, done, ?_⟩
    rw [sent]
    simp [send]
termination_by s.unsent.length
decreasing_by simp [send, unsent]

/-- The dispatcher can read what the root application core has sent. -/
theorem run_read {s : RouteSystem} (range : ∀ m ∈ s.socket root, 0 ≤ m.2.index ∧ m.2.index < numRoutes) :
    ∃ t, Run (RouteSystem.step chip root) (Makes calls) s t ∧ t.unsent = s.unsent ∧
      t.socket root = [] := by
  obtain ⟨n, size⟩ : ∃ n, (s.socket root).length = n := ⟨_, rfl⟩
  induction n generalizing s with
  | zero => exact ⟨s, .refl, rfl, List.length_eq_zero_iff.mp size⟩
  | succ n ih =>
    cases waiting : s.socket root with
    | nil => simp [waiting] at size
    | cons m rest =>
      have inside := range m (waiting ▸ List.mem_cons_self)
      let next : RouteSystem := { s with
        socket := Function.update s.socket root rest
        dispatcher := s.dispatcher.setRoute chip m.2.index.toNat m.2.entry }
      have first : RouteSystem.step chip root s (.recv root) = some next := by
        simp only [RouteSystem.step, waiting, Dispatcher.storeRoute, if_pos inside, Option.map_some]
        rfl
      have here : next.socket root = rest := Function.update_self ..
      obtain ⟨t, run, same, empty⟩ := ih (s := next)
        (fun m hm => range m (waiting ▸ List.mem_cons_of_mem _ (here ▸ hm)))
        (by rw [here]; simpa [waiting] using size)
      exact ⟨t, (Run.tail .refl trivial first).trans run, same, empty⟩

/-- A call that is not harmless replaces an entry of the runtime. -/
theorem harmless_of_kept (entries : RuntimeEntries packets) {c : TableCall} (made : c ∈ calls)
    (keeps : KeepsRuntime chip root packets calls d) : Harmless packets c := by
  by_contra harms
  obtain ⟨low, other⟩ := not_or.mp harms
  have three : (3 : BitVec 32).toNat = 3 := rfl
  rw [BitVec.le_def, three] at low
  obtain ⟨p, hp, index⟩ := entries.covers (c.entry.toNat + 1) (by omega) (by omega)
  obtain ⟨s, sends, sent, waiting⟩ := @run_send chip root calls (start packets d)
  have range : ∀ m ∈ s.socket root, 0 ≤ m.2.index ∧ m.2.index < numRoutes := by
    intro m hm
    rw [waiting] at hm
    obtain ⟨q, hq, rfl⟩ := List.mem_map.mp hm
    have := entries.range q hq
    simp only [numRoutes]
    omega
  obtain ⟨t, reads, same, empty⟩ := @run_read chip root calls s range
  let packet : SpinEmuRoutePacket := ⟨c.entry.toNat + 1, c.key, c.mask, c.route⟩
  have call : RouteSystem.step chip root t (.call root c) = some (t.send root .application packet) := by
    simp only [RouteSystem.step, spin1SetMcTableEntry_lt (by omega : c.entry.toNat < 1023)]
    rfl
  have socket : (t.send root .application packet).socket root = [(.application, packet)] := by
    simp [send, empty]
  let last : RouteSystem := { t.send root .application packet with
    socket := Function.update (t.send root .application packet).socket root []
    dispatcher := t.dispatcher.setRoute chip (c.entry.toNat + 1) packet.entry }
  have read : RouteSystem.step chip root (t.send root .application packet) (.recv root) = some last := by
    simp only [RouteSystem.step, socket, Dispatcher.storeRoute]
    rw [if_pos (by simp only [numRoutes, packet]; omega)]
    rfl
  have making : Makes calls t (.call root c) := made
  have reading : Makes calls (t.send root .application packet) (.recv root) := trivial
  have run := ((sends.trans reads).tail making call).tail reading read
  have stored : last.Stored root p := by
    refine ⟨?_, ?_⟩
    · rw [show last.unsent = [] from same.trans sent]
      exact List.not_mem_nil
    · rw [show last.socket root = [] from Function.update_self ..]
      exact List.not_mem_nil
  have kept := (keeps.kept last run p hp stored).1
  refine other ⟨p, hp, index, ?_⟩
  rw [← kept, show p.index.toNat = c.entry.toNat + 1 by omega]
  simp [last, Dispatcher.setRoute, packet]

end RouteSystem

open RouteSystem in
/-- The calls that applications make leave the runtime's entries alone, whenever
they are made, if and only if none of them writes another entry to index 1, 2 or 3. -/
theorem app_routes_kept_iff {b : Board} {past : Nat → BitVec 32} {chips : BitVec 32}
    {coreMap : Nat → BitVec 32} {chip root : Nat} {vars v : BarrierVars}
    {ps : List SpinEmuRoutePacket}
    (setup : barrierSetup b past chips coreMap chip root vars = some (v, ps))
    (calls : Set TableCall) (d : Dispatcher SpinEmuMc) :
    KeepsRuntime chip root (rdy1Packet past root :: ps) calls d ↔
      ∀ c ∈ calls, Harmless (rdy1Packet past root :: ps) c := by
  have entries := runtimeEntries setup
  constructor
  · exact fun keeps c made => harmless_of_kept entries made keeps
  · intro harmless
    refine ⟨?_, ?_, ?_⟩
    · intro s run p hp stored
      have sound := run.invariant (I := Sound chip root (rdy1Packet past root :: ps))
        (fun sound made step => sound.step entries harmless made step)
        (sound_start fun _ hp => hp)
      exact ⟨sound.stored p hp stored, sound.first entries hp stored⟩
    · intro c _
      by_cases low : c.entry.toNat < 1023
      · rw [spin1SetMcTableEntry_lt low]
        refine iff_of_true rfl ⟨_, rfl, c.entry.toNat + 1, by simp only [numRoutes]; omega, fun d => ?_⟩
        rw [Dispatcher.storeRoute, if_pos (by simp only [numRoutes]; omega)]
        rfl
      · rw [spin1SetMcTableEntry_ge (by omega)]
        refine iff_of_false (by decide) ?_
        rintro ⟨p, sends, _⟩
        cases sends
    · intro c _ failed s core
      by_cases low : c.entry.toNat < 1023
      · rw [spin1SetMcTableEntry_lt low] at failed
        cases failed
      · simp only [RouteSystem.step, spin1SetMcTableEntry_ge (by omega : 1023 ≤ c.entry.toNat)]

/-- What the runtime sends on a board of one chip with application cores 1 and 2. -/
def oneChip : List SpinEmuRoutePacket :=
  rdy1Packet (fun _ => 0) 1 :: ((barrierSetup ⟨1, 1⟩ (fun _ => 0) 1 (fun _ => 6) 0 1 {}).elim [] (·.2))

theorem app_routes_kept_iff_oneChip :
    RouteSystem.KeepsRuntime 0 1 oneChip {⟨3, 5, 0xffffffff, 1⟩} idleDispatcher ↔
      ∀ c ∈ ({⟨3, 5, 0xffffffff, 1⟩} : Set TableCall), RouteSystem.Harmless oneChip c :=
  app_routes_kept_iff
    (show barrierSetup ⟨1, 1⟩ (fun _ => 0) 1 (fun _ => 6) 0 1 {} = some _ from rfl) _ _

/-- The call with entry 0 takes the index of RDYGO. -/
theorem app_route_displaces_rdygo :
    ¬ RouteSystem.KeepsRuntime 0 1 oneChip {⟨0, 5, 0xffffffff, 1⟩} idleDispatcher := by
  intro keeps
  let packet : SpinEmuRoutePacket := ⟨1, barrierEntry rdygoKey 0⟩
  obtain ⟨s, run, check⟩ := exists_run (RouteSystem.step 0 1)
    (RouteSystem.Makes {⟨0, 5, 0xffffffff, 1⟩}) (RouteSystem.start oneChip idleDispatcher)
    (List.replicate 4 .runtime ++ List.replicate 4 (.recv 1) ++
      [.call 2 ⟨0, 5, 0xffffffff, 1⟩, .recv 2])
    (fun s => decide (s.Stored 1 packet) &&
      s.dispatcher.spinEmuRoutes 0 1 == ⟨5, 0xffffffff, 1⟩)
    (by
      intro t a ha
      simp only [List.mem_append, List.mem_replicate, List.mem_cons, List.not_mem_nil, or_false] at ha
      rcases ha with (⟨_, rfl⟩ | ⟨_, rfl⟩) | rfl | rfl
      · exact trivial
      · exact trivial
      · exact rfl
      · exact trivial)
    (by decide)
  simp only [Bool.and_eq_true, decide_eq_true_eq, beq_iff_eq] at check
  have member : packet ∈ oneChip := by decide
  have kept := (keeps.kept s run packet member check.1).1
  rw [show packet.index.toNat = 1 from rfl, check.2] at kept
  exact absurd kept (by decide)

end SpinEmu
