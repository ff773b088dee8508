import Mathlib.Data.Option.Basic
import Mathlib.Tactic.Common

/-! Runs of a machine that is given by a partial step function. A guard says which
steps a run may take, so that an assumption about the steps and an assumption
about the environment have one form. -/
namespace Lib.Machine
variable {σ α : Type}

/-- `t` is reached from `s` by steps that the guard `ok` allows. -/
inductive Run (step : σ → α → Option σ) (ok : σ → α → Prop) (s : σ) : σ → Prop where
  | refl : Run step ok s s
  | tail {t a u} : Run step ok s t → ok t a → step t a = some u → Run step ok s u

variable {step : σ → α → Option σ} {ok ok' : σ → α → Prop} {s t u : σ}

theorem Run.trans (front : Run step ok s t) (back : Run step ok t u) : Run step ok s u := by
  induction back with
  | refl => exact front
  | tail _ allowed last ih => exact ih.tail allowed last

theorem Run.weaken (weaker : ∀ t a, ok t a → ok' t a) (run : Run step ok s t) :
    Run step ok' s t := by
  induction run with
  | refl => exact .refl
  | tail _ allowed last ih => exact ih.tail (weaker _ _ allowed) last

theorem Run.invariant {I : σ → Prop} (keeps : ∀ {t a u}, I t → ok t a → step t a = some u → I u)
    (run : Run step ok s t) (start : I s) : I t := by
  induction run with
  | refl => exact start
  | tail _ allowed last ih => exact keeps ih allowed last

/-- Every run of the machine is followed by a run of another one, if every step is. -/
theorem Run.simulate {τ β : Type} {step' : τ → β → Option τ} {allowed : τ → β → Prop}
    {R : σ → τ → Prop} {x : τ} (follows : ∀ {s a t x}, R s x → ok s a → step s a = some t →
      ∃ y, R t y ∧ Run step' allowed x y)
    (run : Run step ok s t) (start : R s x) : ∃ y, R t y ∧ Run step' allowed x y := by
  induction run with
  | refl => exact ⟨x, start, .refl⟩
  | tail _ fine last ih =>
    obtain ⟨y, related, front⟩ := ih
    obtain ⟨z, related', back⟩ := follows related fine last
    exact ⟨z, related', front.trans back⟩

/-- The state after the given actions. -/
def follow (step : σ → α → Option σ) : σ → List α → Option σ
  | s, [] => some s
  | s, a :: as => (step s a).bind (follow step · as)

theorem follow_append (s : σ) (as bs : List α) :
    follow step s (as ++ bs) = (follow step s as).bind (follow step · bs) := by
  induction as generalizing s with
  | nil => rfl
  | cons a as ih =>
    simp only [List.cons_append, follow, Option.bind_assoc]
    exact congrArg _ (funext ih)

theorem run_of_follow {as : List α} (all : ∀ t, ∀ a ∈ as, ok t a)
    (followed : follow step s as = some t) : Run step ok s t := by
  induction as generalizing s with
  | nil =>
    cases followed
    exact .refl
  | cons a as ih =>
    obtain ⟨next, first, rest⟩ := Option.bind_eq_some_iff.mp followed
    have one : Run step ok s next := .tail .refl (all s a List.mem_cons_self) first
    exact one.trans (ih (fun t b hb => all t b (List.mem_cons_of_mem _ hb)) rest)

/-- A check that the state after the actions passes gives a reachable state that
passes it. -/
theorem exists_run (step : σ → α → Option σ) (ok : σ → α → Prop) (s : σ) (as : List α)
    (check : σ → Bool) (all : ∀ t, ∀ a ∈ as, ok t a)
    (passes : (follow step s as).any check = true) : ∃ t, Run step ok s t ∧ check t = true := by
  cases followed : follow step s as with
  | none =>
    rw [followed] at passes
    cases passes
  | some t =>
    rw [followed] at passes
    exact ⟨t, run_of_follow all followed, passes⟩

/-- The state after the given actions, if each of them passes a check. -/
def followIf (step : σ → α → Option σ) (ok : σ → α → Bool) : σ → List α → Option σ
  | s, [] => some s
  | s, a :: as => if ok s a then (step s a).bind (followIf step ok · as) else none

/-- `t` is reached from `s` by the given actions, which the guard `ok` allows. -/
inductive Trace (step : σ → α → Option σ) (ok : σ → α → Prop) (s : σ) : List α → σ → Prop where
  | nil : Trace step ok s [] s
  | snoc {as t a u} : Trace step ok s as t → ok t a → step t a = some u →
      Trace step ok s (as ++ [a]) u

section Trace
variable {as bs : List α}

theorem Trace.run (trace : Trace step ok s as t) : Run step ok s t := by
  induction trace with
  | nil => exact .refl
  | snoc _ allowed last ih => exact ih.tail allowed last

theorem Trace.append (front : Trace step ok s as t) (back : Trace step ok t bs u) :
    Trace step ok s (as ++ bs) u := by
  induction back with
  | nil => rwa [List.append_nil]
  | snoc _ allowed last ih =>
    rw [← List.append_assoc]
    exact ih.snoc allowed last

theorem Trace.weaken (weaker : ∀ t a, ok t a → ok' t a) (trace : Trace step ok s as t) :
    Trace step ok' s as t := by
  induction trace with
  | nil => exact .nil
  | snoc _ allowed last ih => exact ih.snoc (weaker _ _ allowed) last

theorem Trace.invariant {I : List α → σ → Prop}
    (keeps : ∀ {as t a u}, I as t → ok t a → step t a = some u → I (as ++ [a]) u)
    (trace : Trace step ok s as t) (start : I [] s) : I as t := by
  induction trace with
  | nil => exact start
  | snoc _ allowed last ih => exact keeps ih allowed last

theorem trace_of_followIf {ok : σ → α → Bool} (followed : followIf step ok s as = some t) :
    Trace step (fun s a => ok s a = true) s as t := by
  induction as generalizing s with
  | nil =>
    cases followed
    exact .nil
  | cons a as ih =>
    simp only [followIf] at followed
    split at followed
    · rename_i allowed
      obtain ⟨next, first, rest⟩ := Option.bind_eq_some_iff.mp followed
      have one : Trace step (fun s a => ok s a = true) s [a] next := Trace.nil.snoc allowed first
      exact one.append (ih rest)
    · cases followed

theorem exists_trace (step : σ → α → Option σ) (ok : σ → α → Bool) (s : σ) (as : List α)
    (check : σ → Bool) (passes : (followIf step ok s as).any check = true) :
    ∃ t, Trace step (fun s a => ok s a = true) s as t ∧ check t = true := by
  cases followed : followIf step ok s as with
  | none =>
    rw [followed] at passes
    cases passes
  | some t =>
    rw [followed] at passes
    exact ⟨t, trace_of_followIf followed, passes⟩

end Trace

theorem exists_checkedRun (step : σ → α → Option σ) (ok : σ → α → Bool) (s : σ) (as : List α)
    (check : σ → Bool) (passes : (followIf step ok s as).any check = true) :
    ∃ t, Run step (fun s a => ok s a = true) s t ∧ check t = true := by
  obtain ⟨t, trace, checked⟩ := exists_trace step ok s as check passes
  exact ⟨t, trace.run, checked⟩

end Lib.Machine
