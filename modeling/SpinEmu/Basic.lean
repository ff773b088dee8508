import Mathlib.Algebra.Ring.Int.Defs
import Mathlib.Data.Nat.Notation
import Mathlib.Logic.Function.Basic
import Mathlib.Tactic.Common

/-! Constants and records of `spin_emu.h` that the router and the application
interface share. A C `uint` is a 32-bit vector where its bits matter and a
natural number where it is an index or a count. -/
namespace SpinEmu

abbrev numCpus : Nat := 8
abbrev numLinks : Nat := 6
abbrev numRoutes : Nat := 1024
def spinEmuMcQueueSize : Int := 1024

structure SpinEmuRoute where
  key : BitVec 32
  mask : BitVec 32
  route : BitVec 32
  deriving DecidableEq, Repr

structure SpinEmuMc where
  key : BitVec 32
  payload : BitVec 32
  hasPayload : Int
  deriving DecidableEq, Repr

/-- The packet contents that routing depends on. The router copies everything
else unseen, so that a packet may carry marks that the source does not have. -/
class McPacket (π : Type) where
  key : π → BitVec 32

instance : McPacket SpinEmuMc := ⟨SpinEmuMc.key⟩
instance {τ : Type} [McPacket π] : McPacket (π × τ) := ⟨fun m => McPacket.key m.1⟩

@[simp] theorem key_mc (m : SpinEmuMc) : McPacket.key m = m.key := rfl
@[simp] theorem key_marked {π τ : Type} [McPacket π] (m : π × τ) :
    McPacket.key m = McPacket.key m.1 := rfl

/-- `NUM_CHIPS_X` and `NUM_CHIPS_Y`. -/
structure Board where
  numChipsX : Nat
  numChipsY : Nat
  deriving DecidableEq, Repr

def Board.numChips (b : Board) : Nat := b.numChipsX * b.numChipsY

/-- Undefined behaviour that a run can meet. -/
inductive Fault where
  | intOverflow
  deriving DecidableEq, Repr

def intMax : Int := 2 ^ 31 - 1

/-- Addition of C `int` values; a sum outside the type's range is undefined. -/
def addInt (x y : Int) : Except Fault Int :=
  if -2 ^ 31 ≤ x + y ∧ x + y ≤ intMax then .ok (x + y) else .error .intOverflow

theorem addInt_ok {x y z : Int} (h : addInt x y = .ok z) : z = x + y ∧ x + y ≤ intMax := by
  unfold addInt at h
  split at h
  · rename_i range
    exact ⟨(Except.ok.inj h).symm, range.2⟩
  · contradiction

theorem addInt_eq_ok {x y : Int} (low : -2 ^ 31 ≤ x + y) (high : x + y ≤ intMax) :
    addInt x y = .ok (x + y) := if_pos ⟨low, high⟩

theorem bind_ok {ε α β : Type} {x : Except ε α} {f : α → Except ε β} {y : β}
    (h : x >>= f = .ok y) : ∃ a, x = .ok a ∧ f a = .ok y := by
  cases x with
  | error e => contradiction
  | ok a => exact ⟨a, rfl, h⟩

theorem toOption_eq_some {ε α : Type} {x : Except ε α} {a : α} (h : x.toOption = some a) :
    x = .ok a := by
  cases x with
  | error e => cases h
  | ok b =>
    cases h
    rfl

/-- A table with one row and column for each chip and core, after an assignment. -/
theorem update_table {α : Type} (table : Nat → Nat → α) (id c : Nat) (v : α) (id' c' : Nat) :
    Function.update table id (Function.update (table id) c v) id' c' =
      if (id', c') = (id, c) then v else table id' c' := by
  by_cases chip : id' = id
  · subst chip
    by_cases core : c' = c
    · subst core
      simp
    · simp [core]
  · simp [chip]

/-- The value `1 << count`. Past the word's width C leaves it undefined; `past`
is what the machine then yields. -/
def shiftOne (past : Nat → BitVec 32) (count : Nat) : BitVec 32 :=
  if count < 32 then 1#32 <<< count else past count

theorem shiftOne_of_lt {past : Nat → BitVec 32} {count : Nat} (h : count < 32) :
    shiftOne past count = 1#32 <<< count := if_pos h

/-- `word & (1 << bit)`, as a truth value. -/
def testBit (word : BitVec 32) (bit : Nat) : Bool := (word &&& (1#32 <<< bit)) != 0#32

theorem testBit_eq (word : BitVec 32) {bit : Nat} (h : bit < 32) :
    testBit word bit = word.getLsbD bit := by
  have masked (i : Nat) : (word &&& (1#32 <<< bit)).getLsbD i =
      (decide (i = bit) && word.getLsbD bit) := by
    by_cases same : i = bit
    · subst same
      simp [h]
    · have apart : i < bit ∨ 0 < i - bit := by omega
      simp only [BitVec.getLsbD_and, BitVec.getLsbD_shiftLeft, BitVec.getLsbD_one, same, decide_false,
        Bool.false_and]
      rcases apart with low | high
      · simp [low]
      · have : i - bit ≠ 0 := by omega
        simp [this]
  rw [testBit, Bool.eq_iff_iff, bne_iff_ne]
  constructor
  · intro nonzero
    by_contra off
    apply nonzero
    apply BitVec.eq_of_getLsbD_eq
    intro i _
    rw [masked]
    simp [Bool.eq_false_iff.mpr off]
  · intro on zero
    have := masked bit
    rw [zero, on] at this
    simp at this

end SpinEmu
