import Mathlib.Data.List.Basic
import Mathlib.Tactic.Common

/-! A stream that is taken in pieces of at most `cap` elements, by a reader that gives
up at the first piece that is not full. -/
namespace Lib.BlockStream

/-- What one read into a buffer of `cap` elements can give. -/
abbrev Piece (α : Type) (cap : Nat) : Type := { piece : List α // piece.length ≤ cap }

variable {α : Type} {cap : Nat}

def sent (reads : List (Piece α cap)) : List α := reads.flatMap Subtype.val

/-- What the reader gets to see. -/
def delivered : List (Piece α cap) → List α
  | [] => []
  | piece :: reads =>
    if piece.val.length = cap then piece.val ++ delivered reads else piece.val

/-- Nothing comes after a piece that is not full. -/
def Unbroken (reads : List (Piece α cap)) : Prop :=
  ∀ front piece back, reads = front ++ piece :: back → piece.val.length < cap → sent back = []

/-- The pieces in which a whole list comes. -/
def pieces (pos : 0 < cap) : List α → List (Piece α cap)
  | [] => []
  | x :: xs =>
    ⟨(x :: xs).take cap, List.length_take_le _ _⟩ :: pieces pos ((x :: xs).drop cap)
termination_by list => list.length
decreasing_by
  rw [List.length_drop, List.length_cons]
  omega

@[simp] theorem sent_cons (piece : Piece α cap) (reads : List (Piece α cap)) :
    sent (piece :: reads) = piece.val ++ sent reads := rfl

theorem Unbroken.of_cons {piece : Piece α cap} {reads : List (Piece α cap)}
    (unbroken : Unbroken (piece :: reads)) : Unbroken reads := by
  rintro front short back rfl
  exact unbroken (piece :: front) short back rfl

/-- The reader sees everything exactly if nothing comes after a piece that is not full. -/
theorem delivered_eq_sent_iff (reads : List (Piece α cap)) :
    delivered reads = sent reads ↔ Unbroken reads := by
  constructor
  · intro all front short back split less
    subst split
    induction front with
    | nil =>
      rw [List.nil_append, delivered, if_neg (Nat.ne_of_lt less), sent_cons] at all
      exact List.self_eq_append_right.mp all
    | cons piece front ih =>
      rw [List.cons_append, delivered, sent_cons] at all
      by_cases full : piece.val.length = cap
      · rw [if_pos full] at all
        exact ih (List.append_cancel_left all)
      · rw [if_neg full] at all
        have none : sent (front ++ short :: back) = [] := List.self_eq_append_right.mp all
        rw [sent, List.flatMap_append, List.flatMap_cons] at none
        exact (List.append_eq_nil_iff.mp (List.append_eq_nil_iff.mp none).2).2
  · intro unbroken
    induction reads with
    | nil => rfl
    | cons piece reads ih =>
      rw [delivered, sent_cons]
      split
      · rw [ih unbroken.of_cons]
      · rename_i short
        rw [unbroken [] piece reads rfl (Nat.lt_of_le_of_ne piece.property short), List.append_nil]

theorem delivered_pieces (pos : 0 < cap) (list : List α) : delivered (pieces pos list) = list := by
  fun_induction pieces pos list with
  | case1 => rfl
  | case2 x xs ih =>
    rw [delivered]
    split
    · rw [ih, List.take_append_drop]
    · rename_i short
      have all : (x :: xs).length ≤ cap := by
        simp only [List.length_take] at short
        omega
      exact List.take_of_length_le all

end Lib.BlockStream
