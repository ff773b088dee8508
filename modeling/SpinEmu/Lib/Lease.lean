import Mathlib.Data.List.Induction
import Mathlib.Tactic.Common

/-! Histories of a pool of resources: one is granted by the pool, claimed by name, or
released. A pool that grants only what nobody holds never grants a resource twice
without a release between. -/
namespace Lib.Lease

inductive Event (ι : Type) where
  | granted (i : ι)
  | claimed (i : ι)
  | released (i : ι)
  deriving DecidableEq, Repr

variable {ι : Type} [DecidableEq ι]

/-- What is held after an event, when `held` were before. -/
def Event.apply (held : ι → Bool) : Event ι → ι → Bool
  | .granted i, k | .claimed i, k => held k || k = i
  | .released i, k => held k && !decide (k = i)

/-- The resources in use after a history, oldest event first. -/
def held (history : List (Event ι)) : ι → Bool := history.foldl Event.apply fun _ => false

@[simp] theorem held_nil (i : ι) : held [] i = false := rfl

@[simp] theorem held_snoc (history : List (Event ι)) (e : Event ι) (i : ι) :
    held (history ++ [e]) i = e.apply (held history) i := by
  rw [held, List.foldl_append]
  rfl

/-- No event grants a resource that is in use. -/
def Fresh (history : List (Event ι)) : Prop :=
  ∀ before i after, history = before ++ .granted i :: after → held before i = false

theorem Fresh.nil : Fresh ([] : List (Event ι)) := by
  intro before i after shape
  cases before <;> cases shape

theorem Fresh.snoc {history : List (Event ι)} {e : Event ι} (fresh : Fresh history)
    (free : ∀ i, e = .granted i → held history i = false) : Fresh (history ++ [e]) := by
  intro before i after shape
  rcases List.eq_nil_or_concat after with none | ⟨front, last, rfl⟩
  · subst none
    obtain ⟨same, here⟩ := List.append_inj' shape rfl
    cases here
    exact same ▸ free i rfl
  · rw [List.concat_eq_append, ← List.cons_append, ← List.append_assoc] at shape
    exact fresh before i front (List.append_inj' shape rfl).1

/-- What is held stays held until it is released. -/
theorem held_append {before : List (Event ι)} {i : ι} (holds : held before i = true)
    (after : List (Event ι)) (kept : .released i ∉ after) : held (before ++ after) i = true := by
  induction after using List.reverseRecOn with
  | nil => rwa [List.append_nil]
  | append_singleton after e ih =>
    have earlier := ih fun member => kept (List.mem_append_left _ member)
    rw [← List.append_assoc, held_snoc]
    cases e with
    | granted k => simp [Event.apply, earlier]
    | claimed k => simp [Event.apply, earlier]
    | released k =>
      have other : i ≠ k := by
        rintro rfl
        exact kept (List.mem_append_right _ List.mem_cons_self)
      simp [Event.apply, earlier, other]

/-- Between two grants of a resource it has been released. -/
theorem Fresh.released_between {before between after : List (Event ι)} {i : ι}
    (fresh : Fresh (before ++ .granted i :: (between ++ .granted i :: after))) :
    .released i ∈ between := by
  by_contra kept
  have taken : held (before ++ [.granted i]) i = true := by simp [Event.apply]
  have still := held_append taken between kept
  have free := fresh (before ++ [.granted i] ++ between) i after (by simp)
  rw [still] at free
  cases free

end Lib.Lease
