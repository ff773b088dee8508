import SpinEmu.Scheduler
import SpinEmu.Lib.Tally

/-! The order in which the loop of `spin1_start` takes the event types, and how it gets to
a given one when nothing else happens. -/
namespace SpinEmu
namespace Scheduler
open Lib Lib.Heap Lib.Tally

/-- The loop takes type `e` before type `i`: of equal numbers the later type wins. -/
def Prefers (s : Scheduler) (e i : EventId) : Prop :=
  (s.priority e).toInt < (s.priority i).toInt ∨
    (s.priority e).toInt = (s.priority i).toInt ∧ i.val < e.val

instance (s : Scheduler) (e i : EventId) : Decidable (s.Prefers e i) :=
  inferInstanceAs (Decidable (_ ∨ _))

section Order
variable {s : Scheduler} {e i k : EventId}

theorem Prefers.asymm (first : s.Prefers e i) : ¬ s.Prefers i e := by
  unfold Prefers at *
  omega

theorem prefers_total (apart : e ≠ i) : s.Prefers e i ∨ s.Prefers i e := by
  have := Fin.val_ne_of_ne apart
  unfold Prefers
  omega

/-- Of the types with the least number that the loop has seen it keeps the last one. -/
theorem scan_last (l : List EventId) (sorted : l.Pairwise fun i k => i.val < k.val)
    (found : (l.foldl s.scanEvent (intMax, none)).2 = some e) :
    ∀ i ∈ l, s.Ready i → (s.priority i).toInt = (s.priority e).toInt → i.val ≤ e.val := by
  induction l using List.reverseRecOn generalizing e with
  | nil => exact fun _ member => absurd member List.not_mem_nil
  | append_singleton l k ih =>
    rw [List.foldl_append, List.foldl_cons, List.foldl_nil] at found
    obtain ⟨front, -, before⟩ := List.pairwise_append.mp sorted
    have best := s.scan_best l
    generalize l.foldl s.scanEvent (intMax, none) = seen at found best ih
    intro i member ready same
    unfold scanEvent at found
    split at found
    · rename_i skip
      rcases List.mem_append.mp member with earlier | last
      · exact ih front found i earlier ready same
      · rw [List.mem_singleton.mp last] at ready
        exact absurd skip (not_or.mpr ready)
    · split at found
      · rename_i higher
        rcases List.mem_append.mp member with earlier | last
        · exact ih front found i earlier ready same
        · rw [found] at best
          rw [List.mem_singleton.mp last, ← best.1] at same
          omega
      · cases found
        rcases List.mem_append.mp member with earlier | last
        · exact (before i earlier k (List.mem_singleton_self k)).le
        · rw [List.mem_singleton.mp last]

theorem finRange_sorted (n : Nat) : (List.finRange n).Pairwise fun i k => i.val < k.val := by
  rw [List.pairwise_iff_getElem]
  intro i k _ _ less
  simpa using less

/-- The selected type is preferred over all others that are ready. -/
theorem selectEvent_prefers (selected : s.selectEvent = some e) (ready : s.Ready i)
    (apart : i ≠ e) : s.Prefers e i := by
  have least := (selectEvent_some selected).2 i ready
  have last := scan_last _ (finRange_sorted _) selected i (List.mem_finRange i) ready
  have := Fin.val_ne_of_ne apart
  unfold Prefers
  omega

/-- While a type is ready, the loop selects it or one that it prefers. -/
theorem selectEvent_of_ready (ready : s.Ready i) :
    ∃ e, s.selectEvent = some e ∧ s.Ready e ∧ (e = i ∨ s.Prefers e i) := by
  cases selected : s.selectEvent with
  | none => exact absurd ready (selectEvent_none.mp selected i)
  | some e =>
    refine ⟨e, rfl, (selectEvent_some selected).1, ?_⟩
    by_cases here : i = e
    · exact .inl here.symm
    · exact .inr (selectEvent_prefers selected ready here)

end Order

section Queue
variable {s : Scheduler} {l : EventId → List Nat} {e : EventId}

/-- A queue holds what has been appended to it and not dispatched. -/
theorem Consistent.queue_ne_none (consistent : s.Consistent l) :
    s.queue e ≠ none ↔ (s.dispatched e).length < (s.appended e).length := by
  have chain := consistent.queues.chain e
  rw [Ne, chain.eq_none_iff, consistent.history e, List.length_append]
  cases shape : l e with
  | nil => simp [values]
  | cons a rest =>
    rw [shape] at chain
    obtain ⟨-, node, found, -⟩ := chain
    simp [values, found]

theorem Consistent.dispatched_le (consistent : s.Consistent l) (e : EventId) :
    (s.dispatched e).length ≤ (s.appended e).length := by
  rw [consistent.history e, List.length_append]
  exact Nat.le_add_right _ _

theorem length_dispatched (f : EventId → List QEvent) (e i : EventId) (x : QEvent) :
    (Function.update f e (f e ++ [x]) i).length =
      (f i).length + if WorkerPlace.selected e = .selected i then 1 else 0 := by
  by_cases here : i = e
  · subst here
    simp
  · have apart : ¬ WorkerPlace.selected e = .selected i := by
      rintro ⟨⟩
      exact here rfl
    rw [Function.update_of_ne here, if_neg apart, Nat.add_zero]

/-- The removal of an event that has been selected. -/
theorem Consistent.dequeue (consistent : s.Consistent l) (selected : s.worker = .selected e) :
    ∃ t l' x, s.step .dequeue = some t ∧ t.Consistent l' ∧ t.worker = .selecting ∧
      t.cback = s.cback ∧ t.priority = s.priority ∧ t.heap = s.heap ∧ t.appended = s.appended ∧
      t.dispatched = Function.update s.dispatched e (s.dispatched e ++ [x]) := by
  obtain ⟨t, l', result, kept⟩ := dequeue_consistent consistent selected
  have taken : s.step .dequeue = some t := by rwa [step, selected]
  obtain ⟨minev, node, same, rfl⟩ := dequeue_cases taken
  rw [selected] at same
  cases same
  exact ⟨_, l', node.val, taken, kept, rfl, rfl, rfl, rfl, rfl, rfl⟩

/-- The worker's loop, with nothing else happening. -/
def Loops (s : Scheduler) : Action → Prop
  | .select => s.worker = .selecting
  | .dequeue => s.worker ≠ .selecting
  | _ => False

theorem loops_dequeue (selected : s.worker = .selected e) : s.Loops .dequeue := by
  rw [Loops, selected]
  exact WorkerPlace.noConfusion

/-- The loop has gone on from `s` to `t` without an event of type `g`, or of one behind it. -/
structure Advanced (g : EventId) (s t : Scheduler) : Prop where
  cback : t.cback = s.cback
  priority : t.priority = s.priority
  appended : t.appended = s.appended
  dispatched : ∀ e, e = g ∨ s.Prefers g e → t.dispatched e = s.dispatched e

theorem Advanced.prefers {s t : Scheduler} {g : EventId} (advanced : Advanced g s t)
    (e i : EventId) : t.Prefers e i ↔ s.Prefers e i := by
  unfold Prefers
  rw [advanced.priority]

theorem Advanced.trans {s t u : Scheduler} {g : EventId} (front : Advanced g s t)
    (back : Advanced g t u) : Advanced g s u := by
  refine ⟨back.cback.trans front.cback, back.priority.trans front.priority,
    back.appended.trans front.appended, fun e behind => ?_⟩
  exact (back.dispatched e (behind.imp_right (front.prefers g e).mpr)).trans
    (front.dispatched e behind)

/-- The events of all queues together. -/
def events (f : EventId → List QEvent) : Nat := tally Finset.univ (fun _ l => l.length) f

theorem Consistent.events_le (consistent : s.Consistent l) :
    events s.dispatched ≤ events s.appended := by
  unfold events tally
  exact Finset.sum_le_sum fun e _ => consistent.dispatched_le e

theorem events_dispatched (f : EventId → List QEvent) (e : EventId) (x : QEvent) :
    events (Function.update f e (f e ++ [x])) = events f + 1 := by
  have sum := tally_update (f := fun _ (l : List QEvent) => l.length) (g := f)
    (Finset.mem_univ e) (f e ++ [x])
  rw [List.length_append, List.length_singleton] at sum
  unfold events
  omega

open Lib.Machine in
/-- The loop comes to every type that is ready, by way of types that it prefers. -/
theorem exists_selected {g : EventId} (consistent : s.Consistent l)
    (idle : s.worker = .selecting) (ready : s.Ready g) :
    ∃ t l', Run step Loops s t ∧ t.Consistent l' ∧ t.worker = .selected g ∧ Advanced g s t := by
  -- each turn that selects another type leaves one event less
  have choose : s.Loops .select := idle
  induction left : events s.appended - events s.dispatched using Nat.strong_induction_on
    generalizing s l with
  | _ n ih =>
    obtain ⟨e, selected, -, here | before⟩ := selectEvent_of_ready ready
    · subst here
      obtain ⟨t, l', taken, kept⟩ := step_consistent consistent (a := .select) idle
      cases taken
      refine ⟨_, l', .tail .refl choose rfl, kept, ?_, ⟨rfl, rfl, rfl, fun _ _ => rfl⟩⟩
      rw [select, selected]
      rfl
    · obtain ⟨t, l', taken, kept⟩ := step_consistent consistent (a := .select) idle
      cases taken
      have place : s.select.worker = .selected e := by
        rw [select, selected]
        rfl
      obtain ⟨u, l'', x, taken, sorted, resting, cback, priority, -, appended, dispatched⟩ :=
        kept.dequeue place
      have two : Run step Loops s u :=
        .tail (.tail .refl choose rfl) (loops_dequeue place) taken
      have advanced : Advanced g s u := by
        refine ⟨cback, priority, appended, fun k behind => ?_⟩
        have apart : k ≠ e := by
          rintro rfl
          rcases behind with rfl | after
          · exact before.asymm before
          · exact before.asymm after
        rw [dispatched, Function.update_of_ne apart]
        rfl
      have still : u.Ready g := by
        refine ⟨cback ▸ ready.1, sorted.queue_ne_none.mpr ?_⟩
        rw [appended, advanced.dispatched g (.inl rfl)]
        exact consistent.queue_ne_none.mp ready.2
      have fewer : events u.appended - events u.dispatched < n := by
        have bound := sorted.events_le
        have grown : events u.dispatched = events s.dispatched + 1 := by
          rw [dispatched]
          exact events_dispatched s.dispatched e x
        have same : events u.appended = events s.appended := by
          rw [appended]
          rfl
        omega
      obtain ⟨v, l''', rest, final, chosen, later⟩ := ih _ fewer sorted resting still resting rfl
      exact ⟨v, l''', two.trans rest, final, chosen, advanced.trans later⟩

end Queue
end Scheduler
end SpinEmu
