import SpinEmu.Router

/-! Marks on packets. The flush copies packets without looking past their key,
so a run on marked packets is a run on the packets themselves, and the marks
tell equal packets apart. -/
namespace SpinEmu
open Lib Lib.Forwarding Lib.Program

variable {π ρ : Type}

theorem map_bind {ε α α' β β' : Type} {h : α → α'} {h' : β → β'} {x : Except ε α}
    {g : α → Except ε β} {g' : α' → Except ε β'} (same : ∀ a, g' (h a) = (g a).map h') :
    (x.map h >>= g') = (x >>= g).map h' := by
  cases x with
  | error e => rfl
  | ok a => exact same a

namespace Dispatcher

def map (f : π → ρ) (d : Dispatcher π) : Dispatcher ρ where
  spinEmuRoutes := d.spinEmuRoutes
  mcQueue c i := (d.mcQueue c i).map f
  mcPending := d.mcPending
  trace := d.trace.map (Event.map f)

variable (f : π → ρ)

theorem map_setQueue (d : Dispatcher π) (c i : Nat) (q : SpinEmuMcQueue π) :
    (d.map f).setQueue c i (q.map f) = (d.setQueue c i q).map f := by
  simp only [setQueue, map, Dispatcher.mk.injEq, true_and, and_true]
  funext v k
  simp only [update_table]
  split
  · rfl
  · rfl

theorem map_record (d : Dispatcher π) (e : McEvent π) :
    (d.map f).record (e.map f) = (d.record e).map f := by
  simp [map, record]

theorem map_spinEmuSendMc (d : Dispatcher π) (c i : Nat) (m : π) :
    (d.map f).spinEmuSendMc c i (f m) = (d.spinEmuSendMc c i m).map f :=
  map_record f d (.sent c i m)

theorem map_queueMc (d : Dispatcher π) (c i : Nat) (m : π) :
    (d.map f).queueMc c i (f m) = (d.queueMc c i m).map (map f) := by
  simp only [queueMc]
  have len : ((d.map f).mcQueue c i).len = (d.mcQueue c i).len := rfl
  rw [len]
  split
  · exact congrArg Except.ok (map_record f d (.full c m))
  · rw [show ((d.map f).mcQueue c i).push (f m) = ((d.mcQueue c i).push m).map _ from
      SpinEmuMcQueue.push_map f _ m]
    apply map_bind
    intro q
    rw [map_setQueue]
    exact congrArg (fun e : Dispatcher ρ => Except.ok { e with mcPending := true })
      (map_record f (d.setQueue c i q) (.queued c m))

section Routing
variable [McPacket π] [McPacket ρ] {b : Board} {f}

omit [McPacket π] [McPacket ρ] in
theorem map_routeLink (d : Dispatcher π) (c : Nat) (r : SpinEmuRoute)
    (m : π) (j : Fin numLinks) :
    routeLink b c r (f m) (d.map f) j = (routeLink b c r m d j).map (map f) := by
  simp only [routeLink]
  split
  · rfl
  · split
    · rfl
    · exact map_queueMc f d _ 0 m

omit [McPacket π] [McPacket ρ] in
theorem map_routeLinks (c : Nat) (r : SpinEmuRoute) (m : π) (js : List (Fin numLinks))
    (d : Dispatcher π) :
    js.foldlM (routeLink b c r (f m)) (d.map f) = (js.foldlM (routeLink b c r m) d).map (map f) := by
  induction js generalizing d with
  | nil => rfl
  | cons j js ih =>
    rw [List.foldlM_cons, List.foldlM_cons, map_routeLink]
    exact map_bind fun d => ih d

omit [McPacket π] [McPacket ρ] in
theorem map_routeCores (c : Nat) (r : SpinEmuRoute) (m : π) (js : List Nat) (d : Dispatcher π) :
    js.foldl (routeCore c r (f m)) (d.map f) = (js.foldl (routeCore c r m) d).map f := by
  induction js generalizing d with
  | nil => rfl
  | cons j js ih =>
    have one : routeCore c r (f m) (d.map f) j = (routeCore c r m d j).map f := by
      simp only [routeCore]
      split
      · rfl
      · exact map_spinEmuSendMc f d c j m
    rw [List.foldl_cons, List.foldl_cons, one, ih]

variable (keys : ∀ m, McPacket.key (f m) = McPacket.key m)
include keys

theorem map_routeMc (c : Nat) (m : π) (d : Dispatcher π) :
    routeMc b c (f m) (d.map f) = (routeMc b c m d).map (map f) := by
  unfold routeMc
  rw [keys, show (d.map f).spinEmuRoutes = d.spinEmuRoutes from rfl]
  split
  · rfl
  · rename_i r _
    rw [map_routeLinks]
    apply map_bind
    intro e
    exact congrArg Except.ok (map_routeCores c r m (List.range numCpus) e)

theorem map_routeFront (c : Nat) (d : Dispatcher π) :
    routeFront b c (d.map f) = (routeFront b c d).map (map f) := by
  unfold routeFront
  rw [show ((d.map f).mcQueue c 0).front = f (d.mcQueue c 0).front from rfl, map_routeMc keys]
  apply map_bind
  intro e
  rw [show ((e.map f).mcQueue c 0).advance = (e.mcQueue c 0).advance.map _ from
    SpinEmuMcQueue.advance_map f _]
  apply map_bind
  intro q
  exact congrArg Except.ok (map_setQueue f e c 0 q)

omit [McPacket π] [McPacket ρ] keys in
theorem map_sendFront (c i : Nat) (d : Dispatcher π) :
    sendFront c i (d.map f) = (sendFront c i d).map (map f) := by
  unfold sendFront
  dsimp only
  rw [show ((d.map f).mcQueue c i).front = f (d.mcQueue c i).front from rfl, map_spinEmuSendMc]
  rw [show (((d.spinEmuSendMc c i (d.mcQueue c i).front).map f).mcQueue c i).advance =
    ((d.spinEmuSendMc c i (d.mcQueue c i).front).mcQueue c i).advance.map _ from
      SpinEmuMcQueue.advance_map f _]
  apply map_bind
  intro q
  exact congrArg Except.ok (map_setQueue f _ c i q)

/-- A flush of marked packets is a flush of the packets. -/
theorem flushMcQueues_maps :
    Maps (map f) (flushMcQueues b : Program Fault (Dispatcher π)) (flushMcQueues b) := by
  have drain (c : Nat) : Maps (map f) (routeOneMcQueue (π := π) b c) (routeOneMcQueue b c) :=
    maps_while (fun _ => rfl) (maps_act (map_routeFront keys c))
  have send (c i : Nat) : Maps (map f) (flushOneMcQueue (π := π) c i) (flushOneMcQueue c i) :=
    maps_while (fun _ => rfl) (maps_act (map_sendFront c i))
  have clear (d : Dispatcher π) : (.ok { d.map f with mcPending := false } : Result Fault _) =
      (Except.ok { d with mcPending := false }).map (map f) := rfl
  apply maps_while (fun _ => rfl)
  apply maps_seq (maps_act clear)
  apply maps_seq (maps_forRange drain _)
  exact maps_forRange (fun c => maps_forRange (fun i => send c (i + 1)) _) _

end Routing

/-- Every queued packet marked with the chip and the cell that it stands in. -/
def marked (d : Dispatcher π) : Dispatcher (π × Nat × Int) where
  spinEmuRoutes := d.spinEmuRoutes
  mcQueue c i := { d.mcQueue c i with queue := fun k => ((d.mcQueue c i).queue k, c, k) }
  mcPending := d.mcPending
  trace := []

theorem marked_map {d : Dispatcher π} (fresh : d.trace = []) : d.marked.map Prod.fst = d := by
  cases d
  cases fresh
  rfl

theorem mem_marked {d : Dispatcher π} {c : Nat} {p : π × Nat × Int}
    (queued : p ∈ (d.marked.mcQueue c 0).contents) :
    p = ((d.mcQueue c 0).queue p.2.2, c, p.2.2) := by
  obtain ⟨i, _, rfl⟩ := List.mem_map.mp queued
  rfl

/-- No two queued packets bear the same mark. -/
theorem marked_nodup {d : Dispatcher π} {c : Nat} (valid : (d.mcQueue c 0).Valid) :
    (d.marked.mcQueue c 0).contents.Nodup := by
  refine List.Nodup.map_on ?_ List.nodup_range
  intro i hi k hk same
  have := valid.len_nonneg
  have := valid.len_le
  have hi : i < (d.mcQueue c 0).len.toNat := List.mem_range.mp hi
  have hk : k < (d.mcQueue c 0).len.toNat := List.mem_range.mp hk
  exact SpinEmuMcQueue.cell_inj valid (by omega) (by omega) (congrArg (·.2.2) same)

end Dispatcher
end SpinEmu
