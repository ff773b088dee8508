import Mathlib.Data.List.Basic

/-! What a cell holds after a history of operations, any of which may write it. -/
namespace Lib
variable {α V : Type} {writes : α → Option V} {x : V}

/-- The value of the last operation to write, or the first value if there is none. -/
def lastWrite (writes : α → Option V) (x : V) (ops : List α) : V :=
  (ops.reverse.findSome? writes).getD x

theorem lastWrite_concat (ops : List α) (a : α) :
    lastWrite writes x (ops ++ [a]) = (writes a).getD (lastWrite writes x ops) := by
  unfold lastWrite
  rw [List.reverse_append, List.reverse_singleton, List.singleton_append, List.findSome?_cons]
  cases writes a <;> rfl

end Lib
