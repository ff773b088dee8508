import Mathlib.Algebra.BigOperators.Group.List.Basic
import Mathlib.Algebra.Order.Monoid.Canonical.Defs
import Mathlib.Order.CompletePartialOrder
import Mathlib.Order.Interval.Set.Disjoint

/-! Blocks that are handed out one behind the other. They never overlap, and they end
where the position and what was asked for say. -/
namespace Lib.Bump
variable {M : Type} [AddCommMonoid M]

/-- The blocks, each with its first position and its size. -/
def blocks : M → List M → List (M × M)
  | _, [] => []
  | p, n :: sizes => (p, n) :: blocks (p + n) sizes

@[simp] theorem blocks_nil (p : M) : blocks p [] = [] := rfl

@[simp] theorem blocks_cons (p n : M) (sizes : List M) :
    blocks p (n :: sizes) = (p, n) :: blocks (p + n) sizes := rfl

section Order
variable [LinearOrder M] {p top : M} {sizes : List M} {b : M × M}

/-- When too much is asked for, some request is the first that goes past the top. -/
theorem exists_overrun (start : p ≤ top) (excess : top < p + sizes.sum) :
    ∃ front n back, sizes = front ++ n :: back ∧ p + front.sum ≤ top ∧
      top < p + front.sum + n := by
  induction sizes generalizing p with
  | nil => exact absurd excess (not_lt.mpr (by simpa using start))
  | cons n sizes ih =>
    by_cases here : top < p + n
    · exact ⟨[], n, sizes, rfl, by simpa using start, by simpa using here⟩
    · rw [List.sum_cons, ← add_assoc] at excess
      obtain ⟨front, m, back, rfl, low, high⟩ := ih (not_lt.mp here) excess
      refine ⟨n :: front, m, back, rfl, ?_, ?_⟩
      · rwa [List.sum_cons, ← add_assoc]
      · rwa [List.sum_cons, ← add_assoc]

/-- What a block covers. -/
def extent (b : M × M) : Set M := Set.Ico b.1 (b.1 + b.2)

variable [CanonicallyOrderedAdd M]

theorem start_le (member : b ∈ blocks p sizes) : p ≤ b.1 := by
  induction sizes generalizing p with
  | nil => cases member
  | cons n sizes ih =>
    rcases List.mem_cons.mp member with rfl | later
    · exact le_rfl
    · exact le_self_add.trans (ih later)

theorem end_le (member : b ∈ blocks p sizes) : b.1 + b.2 ≤ p + sizes.sum := by
  induction sizes generalizing p with
  | nil => cases member
  | cons n sizes ih =>
    rw [List.sum_cons, ← add_assoc]
    rcases List.mem_cons.mp member with rfl | later
    · exact le_self_add
    · exact ih later

theorem blocks_disjoint (p : M) (sizes : List M) :
    (blocks p sizes).Pairwise fun b c => Disjoint (extent b) (extent c) := by
  induction sizes generalizing p with
  | nil => exact .nil
  | cons n sizes ih =>
    refine List.pairwise_cons.mpr ⟨fun c later => ?_, ih (p + n)⟩
    exact Set.Ico_disjoint_Ico.mpr (le_max_of_le_right (min_le_of_left_le (start_le later)))

end Order
end Lib.Bump
