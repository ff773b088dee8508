import Mathlib.Logic.Function.Basic
import Mathlib.Data.List.Range
import Mathlib.Tactic.Common

/-! Blocks of memory with a size and with contents that nothing is known about until
they are written, and arrays of pointers to such blocks. An access outside a block
is the failure of `Option`. -/
namespace Lib

structure Block (α : Type) where
  size : Nat
  cell : Nat → α

namespace Block
variable {α σ : Type}

def read (b : Block α) (i : Nat) : Option α := if i < b.size then some (b.cell i) else none

def write (b : Block α) (i : Nat) (x : α) : Option (Block α) :=
  if i < b.size then some { b with cell := Function.update b.cell i x } else none

/-- `a[c][i]`. -/
def read₂ (a : Block (Block α)) (c i : Nat) : Option α := (a.read c).bind (·.read i)

/-- `a[c][i] = x;` -/
def write₂ (a : Block (Block α)) (c i : Nat) (x : α) : Option (Block (Block α)) := do
  let row ← a.read c
  let row ← row.write i x
  a.write c row

/-- `for (c = 0; c < n; c++) a[c] = malloc(width);` for an array of `n` pointers. The
memory held `pointers` and `cells` before. -/
def allocate (n width : Nat) (pointers : Nat → Block α) (cells : Nat → Nat → α) :
    Option (Block (Block α)) :=
  (List.range n).foldlM (fun a c => a.write c ⟨width, cells c⟩) ⟨n, pointers⟩

/-- `for (c = 0; c < n; c++) for (i = 0; i < width; i++) a[c][i] = f(c, i);` -/
def fill (n width : Nat) (f : Nat → Nat → α) (a : Block (Block α)) : Option (Block (Block α)) :=
  (List.range n).foldlM (fun a c => (List.range width).foldlM (fun a i => a.write₂ c i (f c i)) a) a

/-- A loop whose body keeps `P`, at the number of iterations done, succeeds with
`P` at the end. -/
theorem foldlM_range {P : Nat → σ → Prop} {body : σ → Nat → Option σ} {n : Nat} {s : σ}
    (start : P 0 s) (keeps : ∀ k < n, ∀ s, P k s → ∃ t, body s k = some t ∧ P (k + 1) t) :
    ∃ t, (List.range n).foldlM body s = some t ∧ P n t := by
  induction n with
  | zero => exact ⟨s, rfl, start⟩
  | succ n ih =>
    obtain ⟨t, front, now⟩ := ih fun k before => keeps k (by omega)
    obtain ⟨u, last, done⟩ := keeps n (by omega) t now
    refine ⟨u, ?_, done⟩
    rw [List.range_succ, List.foldlM_append, front, Option.bind_eq_bind, Option.bind_some,
      List.foldlM_cons, last]
    rfl

/-- `n` rows of the given width. -/
structure Shaped (n width : Nat) (a : Block (Block α)) : Prop where
  size : a.size = n
  row : ∀ c < n, (a.cell c).size = width

section Rows
variable {n width c i : Nat} {a : Block (Block α)}

theorem Shaped.read₂ (shaped : Shaped n width a) (hc : c < n) (hi : i < width) :
    a.read₂ c i = some ((a.cell c).cell i) := by
  rw [Block.read₂, Block.read, if_pos (shaped.size ▸ hc), Option.bind_some, Block.read,
    if_pos (shaped.row c hc ▸ hi)]

/-- A write stays within the rows and changes one cell. -/
theorem Shaped.write₂ (shaped : Shaped n width a) (hc : c < n) (hi : i < width) (x : α) :
    ∃ b, a.write₂ c i x = some b ∧ Shaped n width b ∧
      ∀ c' i', (b.cell c').cell i' = if c' = c ∧ i' = i then x else (a.cell c').cell i' := by
  have inRow : i < (a.cell c).size := shaped.row c hc ▸ hi
  have inside : c < a.size := shaped.size ▸ hc
  refine ⟨⟨a.size, Function.update a.cell c
      ⟨(a.cell c).size, Function.update (a.cell c).cell i x⟩⟩, ?_,
    ⟨shaped.size, fun c' hc' => ?_⟩, fun c' i' => ?_⟩
  · simp only [Block.write₂, Block.read, Block.write, if_pos inside, if_pos inRow,
      Option.bind_eq_bind, Option.bind_some]
  · by_cases same : c' = c
    · simp [same, shaped.row c hc]
    · simp [same, shaped.row c' hc']
  · by_cases same : c' = c
    · simp [same, Function.update_apply]
    · simp [same]

theorem allocate_spec (pointers : Nat → Block α) (cells : Nat → Nat → α) :
    ∃ a, allocate n width pointers cells = some a ∧ Shaped n width a ∧
      ∀ c < n, ∀ i, (a.cell c).cell i = cells c i := by
  let P (k : Nat) (a : Block (Block α)) : Prop :=
    a.size = n ∧ ∀ c < k, a.cell c = ⟨width, cells c⟩
  obtain ⟨a, ends, size, rows⟩ : ∃ a, allocate n width pointers cells = some a ∧ P n a := by
    refine foldlM_range ⟨rfl, fun _ none => absurd none (Nat.not_lt_zero _)⟩ ?_
    rintro k before a ⟨size, rows⟩
    refine ⟨{ a with cell := Function.update a.cell k ⟨width, cells k⟩ }, if_pos (by omega), size,
      fun c hc => ?_⟩
    by_cases last : c = k
    · simp [last]
    · simp [last, rows c (by omega)]
  exact ⟨a, ends, ⟨size, fun c hc => by rw [rows c hc]⟩, fun c hc i => by rw [rows c hc]⟩

theorem fill_spec (f : Nat → Nat → α) (shaped : Shaped n width a) :
    ∃ b, fill n width f a = some b ∧ Shaped n width b ∧
      ∀ c < n, ∀ i < width, (b.cell c).cell i = f c i := by
  refine foldlM_range (P := fun k b => Shaped n width b ∧
    ∀ c < k, ∀ i < width, (b.cell c).cell i = f c i)
    ⟨shaped, fun _ none => absurd none (Nat.not_lt_zero _)⟩ ?_
  rintro k hk a ⟨shaped, done⟩
  let P (j : Nat) (b : Block (Block α)) : Prop :=
    Shaped n width b ∧ (∀ c < k, ∀ i < width, (b.cell c).cell i = f c i) ∧
      ∀ i < j, (b.cell k).cell i = f k i
  obtain ⟨b, ends, shaped, before, row⟩ : ∃ b,
      (List.range width).foldlM (fun a i => a.write₂ k i (f k i)) a = some b ∧ P width b := by
    refine foldlM_range ⟨shaped, done, fun _ none => absurd none (Nat.not_lt_zero _)⟩ ?_
    rintro j hj a ⟨shaped, before, row⟩
    obtain ⟨b, written, shaped, cells⟩ := shaped.write₂ hk hj (f k j)
    refine ⟨b, written, shaped, fun c hc i hi => ?_, fun i hi => ?_⟩
    · rw [cells, if_neg (by omega), before c hc i hi]
    · rw [cells]
      split
      · rename_i here
        rw [here.2]
      · rename_i other
        exact row i (by omega)
  refine ⟨b, ends, shaped, fun c hc i hi => ?_⟩
  by_cases last : c = k
  · exact last ▸ row i hi
  · exact before c (by omega) i hi

end Rows
end Block
end Lib
