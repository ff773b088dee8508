import Mathlib.Data.List.TakeWhile
import Mathlib.Data.Nat.Notation
import Mathlib.Algebra.Order.Ring.Int
import Mathlib.Tactic.Common

/-! Integers as decimal text: what `%d` prints and what `atoi` reads. -/
namespace Lib.Decimal

/-- `%d`. -/
def print : Int → List Char
  | .ofNat n => Nat.toDigits 10 n
  | .negSucc n => '-' :: Nat.toDigits 10 (n + 1)

def isSpace (c : Char) : Bool := c == ' ' || (9 ≤ c.toNat && c.toNat ≤ 13)

/-- The number that the leading digits stand for. -/
def digits (text : List Char) : Nat := Nat.ofDigitChars 10 (text.takeWhile Char.isDigit) 0

/-- `atoi`: white space, a sign, digits; what follows the digits is ignored. -/
def read (text : List Char) : Int :=
  match text.dropWhile isSpace with
  | '-' :: rest => -(digits rest : Int)
  | '+' :: rest => digits rest
  | rest => digits rest

theorem digits_toDigits (n : Nat) : digits (Nat.toDigits 10 n) = n := by
  have all : (Nat.toDigits 10 n).takeWhile Char.isDigit = Nat.toDigits 10 n := by
    rw [List.takeWhile_eq_self_iff]
    exact fun c member => Nat.isDigit_of_mem_toDigits (by decide) le_rfl member
  rw [digits, all, Nat.ofDigitChars_ten_toDigits]

theorem read_of_digit {c : Char} {rest : List Char} (digit : c.isDigit = true) :
    read (c :: rest) = digits (c :: rest) := by
  have range : 48 ≤ c.toNat ∧ c.toNat ≤ 57 := by
    simp only [Char.isDigit, Bool.and_eq_true, decide_eq_true_eq, ge_iff_le,
      UInt32.le_iff_toNat_le] at digit
    exact digit
  have text : isSpace c = false := by
    have blank : c ≠ ' ' := by
      rintro rfl
      simp at range
    simp only [isSpace, beq_eq_false_iff_ne.mpr blank, Bool.false_or, Bool.and_eq_false_iff,
      decide_eq_false_iff_not]
    omega
  rw [read, List.dropWhile_cons_of_neg (by simp [text])]
  split
  · rename_i same
    cases same
    cases digit
  · rename_i same
    cases same
    cases digit
  · rfl

/-- Reading gives back what was printed. -/
theorem read_print (n : Int) : read (print n) = n := by
  cases n with
  | ofNat n =>
    obtain ⟨c, rest, shape⟩ := List.exists_cons_of_ne_nil (Nat.toDigits_ne_nil (b := 10) (n := n))
    have digit : c.isDigit = true :=
      Nat.isDigit_of_mem_toDigits (by decide) le_rfl (shape ▸ List.mem_cons_self)
    rw [print, shape, read_of_digit digit, ← shape, digits_toDigits]
    rfl
  | negSucc n =>
    have sign : isSpace '-' = false := by decide
    simp only [print, read, List.dropWhile_cons, sign, Bool.false_eq_true, if_false]
    rw [digits_toDigits]
    rfl

/-- A number of at most `k` digits takes at most one character more. -/
theorem length_print {n : Int} {k : Nat} (pos : 0 < k) (small : n.natAbs < 10 ^ k) :
    (print n).length ≤ k + 1 := by
  cases n with
  | ofNat n => exact ((Nat.length_toDigits_le_iff (by decide) pos).mpr small).trans k.le_succ
  | negSucc n => exact Nat.succ_le_succ ((Nat.length_toDigits_le_iff (by decide) pos).mpr small)

end Lib.Decimal
