import Mathlib.Data.BitVec
import Mathlib.Logic.Equiv.Defs
import Mathlib.Tactic.Common

/-! Formats of byte strings. A format has one string for each value and takes no other
strings; small formats are put together to larger ones. -/
namespace Lib

structure Format (α : Type) where
  encode : α → List (BitVec 8)
  decode : List (BitVec 8) → Option α
  decode_encode (a : α) : decode (encode a) = some a
  encode_decode {l : List (BitVec 8)} {a : α} : decode l = some a → encode a = l

namespace Format
variable {α β : Type} {f : Format α} {g : Format β} {l : List (BitVec 8)} {a : α} {n : Nat}

theorem decode_eq_some : f.decode l = some a ↔ l = f.encode a := by
  constructor
  · exact fun read => (f.encode_decode read).symm
  · rintro rfl
    exact f.decode_encode a

/-- All strings of the format have this length. -/
def Fixed (f : Format α) (n : Nat) : Prop := ∀ a, (f.encode a).length = n

theorem Fixed.length (fixed : f.Fixed n) (read : f.decode l = some a) : l.length = n :=
  f.encode_decode read ▸ fixed a

theorem Fixed.decode_eq_none (fixed : f.Fixed n) (other : l.length ≠ n) : f.decode l = none := by
  cases read : f.decode l with
  | none => rfl
  | some a => exact absurd (fixed.length read) other

/-- The strings of the format, for values with the same content. -/
def iso (f : Format α) (e : α ≃ β) : Format β where
  encode b := f.encode (e.symm b)
  decode l := (f.decode l).map e
  decode_encode b := by rw [f.decode_encode, Option.map_some, e.apply_symm_apply]
  encode_decode read := by
    obtain ⟨a, here, rfl⟩ := Option.map_eq_some_iff.mp read
    rw [e.symm_apply_apply]
    exact f.encode_decode here

theorem Fixed.iso (fixed : f.Fixed n) (e : α ≃ β) : (f.iso e).Fixed n := fun b => fixed (e.symm b)

/-- One string behind another. The first one says where it ends. -/
def pair (f : Format α) (g : Format β) (fixed : f.Fixed n) : Format (α × β) where
  encode a := f.encode a.1 ++ g.encode a.2
  decode l := (f.decode (l.take n)).bind fun a => (g.decode (l.drop n)).map (a, ·)
  decode_encode a := by
    rw [List.take_left' (fixed a.1), List.drop_left' (fixed a.1), f.decode_encode, g.decode_encode]
    rfl
  encode_decode read := by
    obtain ⟨a, first, rest⟩ := Option.bind_eq_some_iff.mp read
    obtain ⟨b, second, rfl⟩ := Option.map_eq_some_iff.mp rest
    rw [f.encode_decode first, g.encode_decode second, List.take_append_drop]

theorem Fixed.pair {k : Nat} (fixed : f.Fixed n) (rest : g.Fixed k) :
    (f.pair g fixed).Fixed (n + k) := by
  intro a
  rw [Format.pair, List.length_append, fixed, rest]

/-- Either of two formats. No string belongs to both. -/
def either (f : Format α) (g : Format β) (apart : ∀ a b, f.encode a ≠ g.encode b) :
    Format (α ⊕ β) where
  encode := Sum.elim f.encode g.encode
  decode l := ((f.decode l).map .inl).or ((g.decode l).map .inr)
  decode_encode := by
    rintro (a | b)
    · rw [Sum.elim_inl, f.decode_encode]
      rfl
    · have foreign : f.decode (g.encode b) = none := by
        cases read : f.decode (g.encode b) with
        | none => rfl
        | some a => exact absurd (f.encode_decode read) (apart a b)
      rw [Sum.elim_inr, foreign, g.decode_encode]
      rfl
  encode_decode {l} x read := by
    cases first : f.decode l with
    | some a =>
      rw [first] at read
      cases read
      exact f.encode_decode first
    | none =>
      rw [first] at read
      obtain ⟨b, second, rfl⟩ := Option.map_eq_some_iff.mp read
      exact g.encode_decode second

theorem apart_of_fixed {k : Nat} (fixed : f.Fixed n) (rest : g.Fixed k) (differ : n ≠ k)
    (a : α) (b : β) : f.encode a ≠ g.encode b := by
  intro same
  exact differ ((fixed a).symm.trans ((congrArg List.length same).trans (rest b)))

/-- The strings of the format behind a mark. -/
def tagged (t : BitVec 8) (f : Format α) : Format α where
  encode a := t :: f.encode a
  decode
    | [] => none
    | t' :: l => if t' = t then f.decode l else none
  decode_encode a := (if_pos rfl).trans (f.decode_encode a)
  encode_decode {l} a read := by
    cases l with
    | nil => cases read
    | cons t' l =>
      dsimp only at read
      split at read
      · rename_i same
        rw [same, f.encode_decode read]
      · cases read

theorem cons_eq_tagged {t : BitVec 8} : t :: l = (tagged t f).encode a ↔ f.decode l = some a :=
  (List.cons_inj_right t).trans decode_eq_some.symm

/-! Words, the low byte first. -/

def wordBytes (w : BitVec 32) : List (BitVec 8) :=
  [w.setWidth 8, (w >>> 8).setWidth 8, (w >>> 16).setWidth 8, (w >>> 24).setWidth 8]

def ofWordBytes : List (BitVec 8) → Option (BitVec 32)
  | [a, b, c, d] => some ((d ++ c) ++ (b ++ a))
  | _ => none

theorem toNat_append_four (a b c d : BitVec 8) : ((d ++ c) ++ (b ++ a)).toNat =
    a.toNat + 256 * (b.toNat + 256 * (c.toNat + 256 * d.toNat)) := by
  have two (x y : BitVec 8) : (x ++ y).toNat = x.toNat * 256 + y.toNat := by
    rw [BitVec.toNat_append, ← Nat.shiftLeft_add_eq_or_of_lt y.isLt, Nat.shiftLeft_eq]
  rw [BitVec.toNat_append, ← Nat.shiftLeft_add_eq_or_of_lt (b ++ a).isLt, Nat.shiftLeft_eq, two, two]
  omega

def word : Format (BitVec 32) where
  encode := wordBytes
  decode := ofWordBytes
  decode_encode w := by
    have := w.isLt
    rw [wordBytes, ofWordBytes, Option.some.injEq]
    apply BitVec.eq_of_toNat_eq
    simp only [toNat_append_four, BitVec.toNat_setWidth, BitVec.toNat_ushiftRight,
      Nat.shiftRight_eq_div_pow]
    omega
  encode_decode {l} w read := by
    unfold ofWordBytes at read
    split at read
    · rename_i a b c d
      cases read
      have := a.isLt
      have := b.isLt
      have := c.isLt
      have := d.isLt
      simp only [wordBytes, List.cons.injEq, and_true]
      refine ⟨?_, ?_, ?_, ?_⟩ <;> apply BitVec.eq_of_toNat_eq <;>
        simp only [toNat_append_four, BitVec.toNat_setWidth, BitVec.toNat_ushiftRight,
          Nat.shiftRight_eq_div_pow] <;> omega
    · cases read

theorem word_fixed : word.Fixed 4 := fun _ => rfl

end Format
end Lib
