import SpinEmu.Router

/-! The router as a store-and-forward network: on a board whose queues are well
formed, the routing of one packet is one firing of the network whose links are
those that the first matching entries select. -/
namespace SpinEmu
open Lib Lib.Forwarding Lib.Program Lib.LinkGraph

variable {π : Type}

/-- Where a packet of the given key is forwarded over link `j` of chip `c`. -/
def mcLink (b : Board) (routes : Nat → Nat → SpinEmuRoute) (key : BitVec 32) (c : Nat)
    (j : Fin numLinks) : Option Nat :=
  (firstMatch (routes c) key).bind fun r => if testBit r.route j then linkTarget b c j else none

/-- The cores of chip `c` that receive a packet of the given key. -/
def mcExits (routes : Nat → Nat → SpinEmuRoute) (c : Nat) (key : BitVec 32) : List Nat :=
  match firstMatch (routes c) key with
  | none => []
  | some r => (List.range numCpus).filter fun j => testBit r.route (j + numLinks)

/-- Core `j` of chip `c` is among them. -/
def selected (routes : Nat → Nat → SpinEmuRoute) (key : BitVec 32) (c j : Nat) : Bool :=
  j < numCpus && (firstMatch (routes c) key).any fun r => testBit r.route (j + numLinks)

def mcFull (_ : Nat) (len : Nat) : Bool := spinEmuMcQueueSize ≤ len

def mcRouting [McPacket π] (b : Board) (routes : Nat → Nat → SpinEmuRoute) : Routing Nat π Nat :=
  alongLinks (fun m => mcLink b routes (McPacket.key m)) (fun c m => mcExits routes c (McPacket.key m))
    mcFull

section FirstMatch
variable {b : Board} {routes : Nat → Nat → SpinEmuRoute} {key : BitVec 32} {c : Nat}
  {r : SpinEmuRoute}

theorem mcLink_none (found : firstMatch (routes c) key = none) :
    mcLink b routes key c = fun _ => none := by
  funext j
  rw [mcLink, found, Option.bind_none]

theorem mcLink_some (found : firstMatch (routes c) key = some r) :
    mcLink b routes key c =
      fun j : Fin numLinks => if testBit r.route j then linkTarget b c j else none := by
  funext j
  rw [mcLink, found, Option.bind_some]

theorem mcExits_none (found : firstMatch (routes c) key = none) : mcExits routes c key = [] := by
  rw [mcExits, found]

theorem mcExits_some (found : firstMatch (routes c) key = some r) :
    mcExits routes c key =
      (List.range numCpus).filter fun j => testBit r.route (j + numLinks) := by
  rw [mcExits, found]

end FirstMatch

section Links
variable {b : Board} {routes : Nat → Nat → SpinEmuRoute} {key : BitVec 32} {c t : Nat}
  {j : Fin numLinks}

theorem mcLink_linkTarget (step : mcLink b routes key c j = some t) :
    linkTarget b c j = some t := by
  obtain ⟨r, _, selected⟩ := Option.bind_eq_some_iff.mp step
  split at selected
  · exact selected
  · cases selected

theorem mcLink_inside (step : mcLink b routes key c j = some t) :
    t ∈ Finset.range b.numChips :=
  Finset.mem_range.mpr (linkTarget_inside (mcLink_linkTarget step)).2.1

theorem mcLink_grounded (v : Nat) :
    Grounded (mcLink b routes key) v ↔ ¬ ReachesCycle (mcLink b routes key) v :=
  grounded_iff (Finset.range b.numChips).finite_toSet (fun _ _ _ step => mcLink_inside step) v

end Links

theorem mem_mcExits {routes : Nat → Nat → SpinEmuRoute} {c j : Nat} {key : BitVec 32}
    (member : j ∈ mcExits routes c key) : j < numCpus := by
  unfold mcExits at member
  split at member
  · cases member
  · exact List.mem_range.mp (List.mem_filter.mp member).1

theorem count_mcExits (routes : Nat → Nat → SpinEmuRoute) (c : Nat) (key : BitVec 32) (j : Nat) :
    (mcExits routes c key).count j = if selected routes key c j then 1 else 0 := by
  cases found : firstMatch (routes c) key with
  | none => simp [mcExits_none found, selected, found]
  | some r =>
    rw [mcExits_some found]
    have distinct : ((List.range numCpus).filter fun j => testBit r.route (j + numLinks)).Nodup :=
      List.nodup_range.filter _
    by_cases member : j ∈ (List.range numCpus).filter fun j => testBit r.route (j + numLinks)
    · rw [List.count_eq_one_of_mem distinct member,
        if_pos (by simpa [selected, found] using member)]
    · rw [List.count_eq_zero_of_not_mem member,
        if_neg (by simpa [selected, found] using member)]

namespace Dispatcher
variable (b : Board)

/-- The queues of the board's chips and the calls recorded so far. -/
def net (d : Dispatcher π) : Net Nat π Nat where
  queue c := if c < b.numChips then (d.mcQueue c 0).contents else []
  log := d.trace

def Valid (d : Dispatcher π) : Prop := ∀ c < b.numChips, ∀ i < numCpus, (d.mcQueue c i).Valid

/-- The queues of the cores are empty, as `dispatch_mc` leaves them. -/
def CoresIdle (d : Dispatcher π) : Prop :=
  ∀ c < b.numChips, ∀ i, 1 ≤ i → i < numCpus → (d.mcQueue c i).len = 0

/-- What a routing step of chip `c` leaves alone, and what it can only do by
setting `mc_pending`. -/
structure Keeps (c : Nat) (d d' : Dispatcher π) : Prop where
  valid : d.Valid b → d'.Valid b
  cores : ∀ v i, i ≠ 0 → d'.mcQueue v i = d.mcQueue v i
  routes : d'.spinEmuRoutes = d.spinEmuRoutes
  quiet : d'.mcPending = false →
    d.mcPending = false ∧ ∀ v, v ≠ c → d'.mcQueue v 0 = d.mcQueue v 0

variable {b}

theorem Keeps.of_same {c : Nat} {d d' : Dispatcher π} (queues : d'.mcQueue = d.mcQueue)
    (routes : d'.spinEmuRoutes = d.spinEmuRoutes) (pending : d'.mcPending = d.mcPending) :
    Keeps b c d d' where
  valid h v hv i hi := queues ▸ h v hv i hi
  cores v i _ := by rw [queues]
  routes := routes
  quiet h := ⟨pending ▸ h, fun v _ => by rw [queues]⟩

theorem Keeps.refl {c : Nat} (d : Dispatcher π) : Keeps b c d d := .of_same rfl rfl rfl

theorem Keeps.trans {c : Nat} {d e f : Dispatcher π} (first : Keeps b c d e)
    (second : Keeps b c e f) : Keeps b c d f where
  valid h := second.valid (first.valid h)
  cores v i hi := (second.cores v i hi).trans (first.cores v i hi)
  routes := second.routes.trans first.routes
  quiet h := by
    obtain ⟨middle, same⟩ := second.quiet h
    obtain ⟨start, same'⟩ := first.quiet middle
    exact ⟨start, fun v hv => (same v hv).trans (same' v hv)⟩

@[simp] theorem record_mcQueue (d : Dispatcher π) (e : McEvent π) :
    (d.record e).mcQueue = d.mcQueue := rfl
@[simp] theorem record_spinEmuRoutes (d : Dispatcher π) (e : McEvent π) :
    (d.record e).spinEmuRoutes = d.spinEmuRoutes := rfl
@[simp] theorem record_mcPending (d : Dispatcher π) (e : McEvent π) :
    (d.record e).mcPending = d.mcPending := rfl

theorem setQueue_self (d : Dispatcher π) (c i : Nat) (q : SpinEmuMcQueue π) :
    (d.setQueue c i q).mcQueue c i = q :=
  (setQueue_mcQueue d c i q c i).trans (if_pos rfl)

theorem setQueue_of_ne (d : Dispatcher π) {c i c' i' : Nat} (q : SpinEmuMcQueue π)
    (apart : c' ≠ c ∨ i' ≠ i) : (d.setQueue c i q).mcQueue c' i' = d.mcQueue c' i' := by
  rw [setQueue_mcQueue, if_neg]
  intro here
  obtain ⟨chip, core⟩ := Prod.mk.inj here
  exact apart.elim (· chip) (· core)

theorem setQueue_valid {d : Dispatcher π} {c i : Nat} {q : SpinEmuMcQueue π} (valid : d.Valid b)
    (kept : q.Valid) : (d.setQueue c i q).Valid b := by
  intro v hv k hk
  by_cases same : v = c ∧ k = i
  · obtain ⟨rfl, rfl⟩ := same
    rwa [setQueue_self]
  · rw [setQueue_of_ne d q (by tauto)]
    exact valid v hv k hk

/-- Replacing the queue of one chip replaces that queue of the network. -/
theorem setQueue_net (d : Dispatcher π) {c : Nat} (hc : c < b.numChips) (q : SpinEmuMcQueue π) :
    ((d.setQueue c 0 q).net b).queue = Function.update (d.net b).queue c q.contents := by
  funext v
  by_cases same : v = c
  · subst same
    simp [net, setQueue_self, hc]
  · simp [net, setQueue_of_ne d q (.inl same), Function.update_of_ne same]

theorem queueMc_net {d d' : Dispatcher π} {c t : Nat} {m : π} (ht : t < b.numChips)
    (valid : d.Valid b) (h : d.queueMc t 0 m = .ok d') :
    d'.net b = (d.net b).enqueue mcFull m t ∧ Keeps b c d d' := by
  have nonneg := (valid t ht 0 (by decide)).len_nonneg
  have size : mcFull t ((d.net b).queue t).length = true ↔
      spinEmuMcQueueSize ≤ (d.mcQueue t 0).len := by
    simp only [net, ht, if_true, SpinEmuMcQueue.length_contents, mcFull, decide_eq_true_eq]
    omega
  simp only [queueMc] at h
  split at h
  · rename_i full
    cases h
    refine ⟨?_, .of_same rfl rfl rfl⟩
    rw [Net.enqueue, if_pos (size.mpr full)]
    rfl
  · rename_i room
    obtain ⟨q, pushed, result⟩ := bind_ok h
    cases result
    obtain ⟨kept, longer⟩ := (d.mcQueue t 0).push_contents (valid t ht 0 (by decide))
      (by omega) pushed
    constructor
    · rw [Net.enqueue, if_neg (by rw [size]; omega)]
      refine Net.ext ?_ rfl
      have := setQueue_net d ht q
      rw [longer] at this
      simpa [net, ht] using this
    · exact ⟨fun _ => setQueue_valid valid kept, fun v i hi => setQueue_of_ne d q (.inr hi), rfl,
        nofun⟩

/-- The targets that the selected links of a list lead to. -/
def selectedTargets (b : Board) (c : Nat) (r : SpinEmuRoute) (js : List (Fin numLinks)) : List Nat :=
  js.filterMap fun j : Fin numLinks => if testBit r.route j then linkTarget b c j else none

theorem routeLink_net [McPacket π] {d d' : Dispatcher π} {c : Nat} {r : SpinEmuRoute} {m : π}
    {j : Fin numLinks} (valid : d.Valid b) (h : routeLink b c r m d j = .ok d') :
    d'.net b = (selectedTargets b c r [j]).foldl (Net.enqueue mcFull m) (d.net b) ∧
      Keeps b c d d' := by
  by_cases bit : testBit r.route j = true
  · simp only [routeLink, bit, Bool.not_true, Bool.false_eq_true, if_false] at h
    split at h
    · rename_i outside
      cases h
      have target : linkTarget b c j = none := by simp [linkTarget, outside]
      exact ⟨by simp [selectedTargets, target], .refl d⟩
    · rename_i inside
      have target : linkTarget b c j = some (channelTargets b c j).toNat := by
        simp [linkTarget, inside]
      obtain ⟨same, keeps⟩ := queueMc_net (linkTarget_inside target).2.1 valid h
      exact ⟨by simpa [selectedTargets, bit, target] using same, keeps⟩
  · have bit : testBit r.route j = false := by simpa using bit
    simp only [routeLink, bit, Bool.not_false, if_true] at h
    cases h
    exact ⟨by simp [selectedTargets, bit], .refl d⟩

theorem routeLinks_net [McPacket π] {d d' : Dispatcher π} {c : Nat} {r : SpinEmuRoute} {m : π}
    {js : List (Fin numLinks)} (valid : d.Valid b)
    (h : js.foldlM (routeLink b c r m) d = .ok d') :
    d'.net b = (selectedTargets b c r js).foldl (Net.enqueue mcFull m) (d.net b) ∧
      Keeps b c d d' := by
  induction js generalizing d with
  | nil =>
    cases h
    exact ⟨rfl, .refl _⟩
  | cons j js ih =>
    rw [List.foldlM_cons] at h
    obtain ⟨e, first, rest⟩ := bind_ok h
    obtain ⟨one, keeps⟩ := routeLink_net valid first
    obtain ⟨all, keeps'⟩ := ih (keeps.valid valid) rest
    refine ⟨?_, keeps.trans keeps'⟩
    rw [all, one, ← List.foldl_append]
    rw [selectedTargets, selectedTargets, ← List.filterMap_append]
    rfl

theorem routeCores_same (c : Nat) (r : SpinEmuRoute) (m : π) (js : List Nat)
    (d : Dispatcher π) :
    js.foldl (routeCore c r m) d =
      { d with trace := d.trace ++
          (js.filter fun j => testBit r.route (j + numLinks)).map (.sent c · m) } := by
  induction js generalizing d with
  | nil => simp
  | cons j js ih =>
    rw [List.foldl_cons, ih]
    by_cases bit : testBit r.route (j + numLinks) = true
    · simp [routeCore, bit, spinEmuSendMc, record]
    · simp [routeCore, bit]

/-- The routing of a packet is the network's. -/
theorem routeMc_net [McPacket π] {d d' : Dispatcher π} {c : Nat} {m : π} (valid : d.Valid b)
    (h : routeMc b c m d = .ok d') :
    d'.net b = (d.net b).route (mcRouting b d.spinEmuRoutes) c m ∧ Keeps b c d d' := by
  unfold routeMc at h
  split at h
  · rename_i found
    cases h
    refine ⟨?_, .refl d⟩
    have targets : (mcRouting b d.spinEmuRoutes).next c m = [] := by
      simp only [mcRouting, alongLinks, mcLink_none found, List.filterMap_none]
    have exits : (mcRouting b d.spinEmuRoutes).exits c m = [] := mcExits_none found
    rw [Net.route, targets, exits, Net.send, List.map_nil, List.append_nil, List.foldl_nil]
  · rename_i r found
    obtain ⟨e, links, cores⟩ := bind_ok h
    cases cores
    obtain ⟨same, keeps⟩ := routeLinks_net valid links
    rw [routeCores_same]
    refine ⟨?_, keeps.trans (.of_same rfl rfl rfl)⟩
    have targets : (mcRouting b d.spinEmuRoutes).next c m =
        selectedTargets b c r (List.finRange numLinks) := by
      simp only [mcRouting, alongLinks, mcLink_some found, selectedTargets]
    have exits : (mcRouting b d.spinEmuRoutes).exits c m =
        (List.range numCpus).filter fun j => testBit r.route (j + numLinks) :=
      mcExits_some found
    rw [Net.route, targets, exits]
    exact congrArg (fun n : Net Nat π Nat => n.send c m _) same

/-- A turn of `route_one_mc_queue` routes the packet at the front and removes it. -/
theorem routeFront_fires [McPacket π] {d d' : Dispatcher π} {c : Nat} (hc : c < b.numChips)
    (valid : d.Valid b) (some : 0 < (d.mcQueue c 0).len) (h : routeFront b c d = .ok d') :
    (d.net b).queue c = (d.mcQueue c 0).front :: (d.mcQueue c 0).contents.tail ∧
      d'.net b =
        ((d.net b).route (mcRouting b d.spinEmuRoutes) c (d.mcQueue c 0).front).pop c ∧
      Keeps b c d d' := by
  obtain ⟨e, routed, h⟩ := bind_ok h
  obtain ⟨q, advanced, h⟩ := bind_ok h
  cases h
  obtain ⟨same, keeps⟩ := routeMc_net valid routed
  have here : (d.net b).queue c = (d.mcQueue c 0).contents := by simp [net, hc]
  have front : (d.mcQueue c 0).contents =
      (d.mcQueue c 0).front :: (d.mcQueue c 0).contents.tail := (d.mcQueue c 0).contents_front some
  let R : Routing Nat π Nat := mcRouting b d.spinEmuRoutes
  obtain ⟨extra, kept, _⟩ := enqueueAll_queue R.full (d.mcQueue c 0).front
    (R.next c (d.mcQueue c 0).front) (d.net b) c
  have still : (e.mcQueue c 0).contents = (d.mcQueue c 0).contents ++ extra := by
    have later : (e.net b).queue c = (e.mcQueue c 0).contents := by simp [net, hc]
    rw [← later, same, ← here, ← kept]
    rfl
  have nonempty : 0 < (e.mcQueue c 0).len := by
    have sizes := congrArg List.length still
    simp only [SpinEmuMcQueue.length_contents, List.length_append] at sizes
    omega
  obtain ⟨validq, popped⟩ := (e.mcQueue c 0).advance_contents
    (keeps.valid valid c hc 0 (by decide)) nonempty advanced
  refine ⟨here.trans front, ?_, ?_⟩
  · rw [← same]
    refine Net.ext ?_ rfl
    have later : (e.net b).queue c = (e.mcQueue c 0).contents := by simp [net, hc]
    rw [setQueue_net e hc q, Net.pop, later, popped, List.tail_cons]
  · exact keeps.trans ⟨fun valid => setQueue_valid valid validq,
      fun v i hi => setQueue_of_ne e q (.inr hi), rfl,
      fun quiet => ⟨quiet, fun v hv => setQueue_of_ne e q (.inl hv)⟩⟩

/-- That is one firing of the network. -/
theorem routeFront_net [McPacket π] {d d' : Dispatcher π} {c : Nat} (hc : c < b.numChips)
    (valid : d.Valid b) (some : 0 < (d.mcQueue c 0).len) (h : routeFront b c d = .ok d') :
    Step (mcRouting b d.spinEmuRoutes) (Finset.range b.numChips) (d.net b) (d'.net b) ∧
      Keeps b c d d' := by
  obtain ⟨front, fired, keeps⟩ := routeFront_fires hc valid some h
  exact ⟨fired ▸ .fire (Finset.mem_range.mpr hc) front, keeps⟩

end Dispatcher
end SpinEmu
