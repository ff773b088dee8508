import SpinEmu.Basic
import Mathlib.Data.List.OfFn
import Mathlib.Logic.Function.Basic

/-! The ring buffer `struct spin_emu_mc_queue`, with its position and length as
C integers and the cells of `queue[]` as memory that an index selects. Within
its bounds the buffer is a first-in first-out list. -/
namespace SpinEmu

structure SpinEmuMcQueue (π : Type) where
  pos : Int
  len : Int
  queue : Int → π

namespace SpinEmuMcQueue
variable {π ρ : Type}

/-- The part of `queue_mc` that follows the test for a full queue. -/
def push (q : SpinEmuMcQueue π) (m : π) : Except Fault (SpinEmuMcQueue π) := do
  let back ← addInt q.pos q.len
  let idx := back.tmod spinEmuMcQueueSize
  let len ← addInt q.len 1
  return { q with queue := Function.update q.queue idx m, len }

/-- The packet that a drain loop handles next. -/
def front (q : SpinEmuMcQueue π) : π := q.queue (q.pos.tmod spinEmuMcQueueSize)

/-- `q->pos++; q->len--;` -/
def advance (q : SpinEmuMcQueue π) : Except Fault (SpinEmuMcQueue π) := do
  let pos ← addInt q.pos 1
  let len ← addInt q.len (-1)
  return { q with pos, len }

def map (f : π → ρ) (q : SpinEmuMcQueue π) : SpinEmuMcQueue ρ := { q with queue := f ∘ q.queue }

/-- The state of a queue that only `queue_mc` and the drain loops have touched. -/
structure Valid (q : SpinEmuMcQueue π) : Prop where
  pos_nonneg : 0 ≤ q.pos
  pos_le : q.pos ≤ intMax
  len_nonneg : 0 ≤ q.len
  len_le : q.len ≤ spinEmuMcQueueSize

/-- The cell of the packet that is `i` places behind the front. -/
def cell (q : SpinEmuMcQueue π) (i : Nat) : Int := (q.pos + i).tmod spinEmuMcQueueSize

/-- The queued packets, oldest first. -/
def contents (q : SpinEmuMcQueue π) : List π :=
  (List.range q.len.toNat).map fun i => q.queue (q.cell i)

@[simp] theorem length_contents (q : SpinEmuMcQueue π) : q.contents.length = q.len.toNat := by
  simp [contents]

theorem contents_eq_nil {q : SpinEmuMcQueue π} (valid : q.Valid) :
    q.contents = [] ↔ q.len = 0 := by
  have := valid.len_nonneg
  rw [← List.length_eq_zero_iff, length_contents]
  omega

theorem contents_front (q : SpinEmuMcQueue π) (some : 0 < q.len) :
    q.contents = q.front :: q.contents.tail := by
  obtain ⟨n, size⟩ : ∃ n, q.len.toNat = n + 1 := ⟨q.len.toNat - 1, by omega⟩
  simp [contents, size, List.range_succ_eq_map, front, cell]

theorem push_map (f : π → ρ) (q : SpinEmuMcQueue π) (m : π) :
    (q.map f).push (f m) = (q.push m).map (map f) := by
  simp only [push, map, bind, Except.bind]
  cases addInt q.pos q.len with
  | error e => rfl
  | ok back =>
    cases addInt q.len 1 with
    | error e => rfl
    | ok len =>
      simp only [pure, Except.pure, Except.map, map, Function.comp_update]

theorem advance_map (f : π → ρ) (q : SpinEmuMcQueue π) :
    (q.map f).advance = q.advance.map (map f) := by
  simp only [advance, map, bind, Except.bind]
  cases addInt q.pos 1 with
  | error e => rfl
  | ok pos =>
    cases addInt q.len (-1) with
    | error e => rfl
    | ok len => rfl

section Valid
variable {q q' : SpinEmuMcQueue π} {m : π}

theorem push_ok (nonneg : 0 ≤ q.len) (h : q.push m = .ok q') :
    q.pos + q.len ≤ intMax ∧
      q' = { q with queue := Function.update q.queue (q.cell q.len.toNat) m, len := q.len + 1 } := by
  simp only [push, bind, Except.bind] at h
  cases back : addInt q.pos q.len with
  | error e => simp [back] at h
  | ok z =>
    obtain ⟨rfl, bound⟩ := addInt_ok back
    cases longer : addInt q.len 1 with
    | error e => simp [back, longer] at h
    | ok n =>
      obtain ⟨rfl, _⟩ := addInt_ok longer
      simp only [back, longer, pure, Except.pure, Except.ok.injEq] at h
      refine ⟨bound, ?_⟩
      rw [← h, cell, Int.toNat_of_nonneg nonneg]

theorem advance_ok (h : q.advance = .ok q') :
    q.pos + 1 ≤ intMax ∧ q' = { q with pos := q.pos + 1, len := q.len - 1 } := by
  simp only [advance, bind, Except.bind] at h
  cases later : addInt q.pos 1 with
  | error e => simp [later] at h
  | ok pos =>
    obtain ⟨rfl, bound⟩ := addInt_ok later
    cases shorter : addInt q.len (-1) with
    | error e => simp [later, shorter] at h
    | ok len =>
      obtain ⟨rfl, _⟩ := addInt_ok shorter
      simp only [later, shorter, pure, Except.pure, Except.ok.injEq] at h
      exact ⟨bound, h.symm⟩

theorem push_isOk (valid : q.Valid) (room : q.len < spinEmuMcQueueSize)
    (fits : q.pos + q.len ≤ intMax) : ∃ q', q.push m = .ok q' := by
  have pos := valid.pos_nonneg
  have len := valid.len_nonneg
  simp only [spinEmuMcQueueSize] at room
  have back := addInt_eq_ok (by omega) fits
  have longer : addInt q.len 1 = .ok (q.len + 1) :=
    addInt_eq_ok (by omega) (by simp only [intMax]; omega)
  simp only [push, back, longer, bind, Except.bind]
  exact ⟨_, rfl⟩

theorem advance_isOk (valid : q.Valid) (fits : q.pos + 1 ≤ intMax) :
    ∃ q', q.advance = .ok q' := by
  have pos := valid.pos_nonneg
  have nonneg := valid.len_nonneg
  have len := valid.len_le
  simp only [spinEmuMcQueueSize] at len
  have later := addInt_eq_ok (by omega) fits
  have shorter : addInt q.len (-1) = .ok (q.len + -1) :=
    addInt_eq_ok (by omega) (by simp only [intMax]; omega)
  simp only [advance, later, shorter, bind, Except.bind]
  exact ⟨_, rfl⟩

theorem cell_inj (valid : q.Valid) {i k : Nat} (hi : (i : Int) < spinEmuMcQueueSize)
    (hk : (k : Int) < spinEmuMcQueueSize) (same : q.cell i = q.cell k) : i = k := by
  have := valid.pos_nonneg
  simp only [cell, spinEmuMcQueueSize] at *
  rw [Int.tmod_eq_emod_of_nonneg (by omega), Int.tmod_eq_emod_of_nonneg (by omega)] at same
  omega

/-- An enqueue on a queue with room appends the packet. -/
theorem push_contents (valid : q.Valid) (room : q.len < spinEmuMcQueueSize)
    (h : q.push m = .ok q') : q'.Valid ∧ q'.contents = q.contents ++ [m] := by
  have nonneg := valid.len_nonneg
  obtain ⟨_, rfl⟩ := push_ok nonneg h
  refine ⟨⟨valid.pos_nonneg, valid.pos_le, by simp; omega, by simp; omega⟩, ?_⟩
  have size : (q.len + 1).toNat = q.len.toNat + 1 := by omega
  simp only [contents, size, List.range_succ, List.map_append, List.map_cons, List.map_nil]
  congr 1
  · apply List.map_congr_left
    intro i hi
    have hi := List.mem_range.mp hi
    apply Function.update_of_ne
    intro same
    have := cell_inj valid (by omega) (by omega) same
    omega
  · simp [cell]

/-- Removing the front packet leaves the packets behind it. -/
theorem advance_contents (valid : q.Valid) (some : 0 < q.len) (h : q.advance = .ok q') :
    q'.Valid ∧ q.contents = q.front :: q'.contents := by
  have := valid.pos_nonneg
  have := valid.len_le
  obtain ⟨bound, rfl⟩ := advance_ok h
  refine ⟨⟨by simp; omega, bound, by simp; omega, by simp; omega⟩, ?_⟩
  obtain ⟨n, size⟩ : ∃ n, q.len.toNat = n + 1 := ⟨q.len.toNat - 1, by omega⟩
  have rest : (q.len - 1).toNat = n := by omega
  simp only [contents, size, rest, List.range_succ_eq_map, List.map_cons, List.map_map]
  congr 1
  · simp [front, cell]
  · apply List.map_congr_left
    intro i _
    simp only [Function.comp_apply, cell]
    congr 2
    push_cast
    omega

end Valid
end SpinEmuMcQueue
end SpinEmu
