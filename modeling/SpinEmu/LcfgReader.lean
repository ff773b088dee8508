import SpinEmu.Lib.BlockStream
import Mathlib.Data.BitVec

/-! The buffer through which the configuration file is read. A C character is the
character of its code, so that a text is what the file holds byte by byte. -/
namespace SpinEmu.Lcfg
open Lib

/-- `BUFFER_SIZE`. -/
def bufferSize : Nat := 0xff

/-- What `read` gives in one call. -/
abbrev Piece : Type := BlockStream.Piece Char bufferSize

/-- The part of `lcfg_scanner` that `lcfg_scanner_buffer_fill` works on. -/
structure Reader where
  /-- What the calls of `read` that are still to come give; after them comes nothing. -/
  reads : List Piece
  buffer : List Char
  offset : Nat
  size : Nat
  eof : Bool
  size_le : size ≤ bufferSize
  length_buffer : buffer.length = bufferSize
  offset_le : eof = true ∨ offset ≤ size

namespace Reader

/-- `lcfg_scanner_new`. -/
def new (reads : List Piece) : Reader where
  reads
  buffer := List.replicate bufferSize '\x00'
  offset := 0
  size := 0
  eof := false
  size_le := Nat.zero_le _
  length_buffer := List.length_replicate
  offset_le := .inr le_rfl

/-- `lcfg_scanner_buffer_fill`, for a `read` that does not fail. -/
def bufferFill (r : Reader) : Reader :=
  match r.reads with
  | [] => { r with size := 0, eof := true, size_le := Nat.zero_le _, offset_le := .inl rfl }
  | piece :: reads =>
    if piece.val.length = 0 then
      { r with reads, size := 0, eof := true, size_le := Nat.zero_le _, offset_le := .inl rfl }
    else
      { r with
        reads
        buffer := piece.val ++ r.buffer.drop piece.val.length
        size := piece.val.length
        offset := 0
        size_le := piece.property
        length_buffer := by
          rw [List.length_append, List.length_drop, r.length_buffer]
          exact Nat.add_sub_cancel' piece.property
        offset_le := .inr (Nat.zero_le _) }

/-- The buffer is filled again when it has been used up. -/
def refill (r : Reader) : Reader :=
  if r.size = 0 ∨ r.offset = bufferSize then r.bufferFill else r

def stop (r : Reader) : Reader := { r with eof := true, offset_le := .inl rfl }

/-- `lcfg_scanner_char_eof`. -/
def charEof (r : Reader) : Reader :=
  if r.eof then r
  else
    let r := r.refill
    if r.size < bufferSize ∧ r.offset = r.size then r.stop else r

/-- What the reader is still to deliver. -/
def unread (r : Reader) : List Char :=
  if r.eof then []
  else (r.buffer.take r.size).drop r.offset ++
    if r.size = 0 ∨ r.size = bufferSize then BlockStream.delivered r.reads else []

@[simp] theorem unread_new (reads : List Piece) :
    (new reads).unread = BlockStream.delivered reads := by
  simp [unread, new]

theorem offset_le_size {r : Reader} (more : r.eof = false) : r.offset ≤ r.size := by
  rcases r.offset_le with ended | le
  · rw [more] at ended
    cases ended
  · exact le

theorem unread_fill (r : Reader) (more : r.eof = false) :
    r.bufferFill.unread = BlockStream.delivered r.reads := by
  unfold bufferFill
  split
  · rename_i none
    rw [none]
    rfl
  · rename_i piece reads shape
    rw [shape, BlockStream.delivered]
    by_cases none : piece.val.length = 0
    · rw [if_pos none, if_neg (by rw [none]; decide), List.eq_nil_of_length_eq_zero none]
      rfl
    · rw [if_neg none]
      simp only [unread, more, Bool.false_eq_true, if_false, none, false_or, List.drop_zero,
        List.take_left']
      split
      · rfl
      · rw [List.append_nil]

/-- A refill happens when the buffer has been used up. -/
theorem unread_bufferFill {r : Reader} (more : r.eof = false)
    (used : r.size = 0 ∨ r.offset = bufferSize) : r.bufferFill.unread = r.unread := by
  have le := offset_le_size more
  have full := r.size_le
  have empty : (r.buffer.take r.size).drop r.offset = [] := by
    rw [List.drop_eq_nil_iff, List.length_take]
    rcases used with none | all <;> omega
  have rest : r.size = 0 ∨ r.size = bufferSize := used.imp_right fun all => by omega
  rw [unread_fill r more, unread, more, if_neg Bool.false_ne_true, empty, if_pos rest,
    List.nil_append]

theorem bufferFill_more {r : Reader} (more : r.bufferFill.eof = false) :
    r.bufferFill.offset < r.bufferFill.size := by
  unfold bufferFill at more ⊢
  split at more
  · cases more
  · rename_i piece reads shape
    by_cases none : piece.val.length = 0
    · rw [if_pos none] at more
      cases more
    · simp only [none, if_false]
      exact Nat.pos_of_ne_zero none

theorem unread_of_more {r : Reader} (more : r.eof = false) :
    r.unread = (r.buffer.take r.size).drop r.offset ++
      if r.size = 0 ∨ r.size = bufferSize then BlockStream.delivered r.reads else [] := by
  rw [unread, more, if_neg Bool.false_ne_true]

theorem unread_of_offset_lt {r : Reader} (more : r.eof = false) (inside : r.offset < r.size) :
    r.unread = r.buffer.getD r.offset '\x00' :: r.unread.tail := by
  have bound : r.offset < (r.buffer.take r.size).length := by
    rw [List.length_take, r.length_buffer]
    exact lt_min inside (inside.trans_le r.size_le)
  rw [unread_of_more more, List.drop_eq_getElem_cons bound, List.getElem_take, List.cons_append, List.tail_cons, List.getD_eq_getElem?_getD,
    List.getElem?_eq_getElem, Option.getD_some]

/-- After a refill there is something to read, or the file has ended, or the last piece
was not full and has been used up. -/
theorem refill_spec {r : Reader} (more : r.eof = false) :
    r.refill.unread = r.unread ∧ (r.refill.eof = true ∨ r.refill.offset < r.refill.size ∨
      0 < r.refill.size ∧ r.refill.size < bufferSize ∧ r.refill.offset = r.refill.size) := by
  by_cases used : r.size = 0 ∨ r.offset = bufferSize
  · rw [refill, if_pos used]
    refine ⟨unread_bufferFill more used, ?_⟩
    cases ended : r.bufferFill.eof with
    | true => exact .inl rfl
    | false => exact .inr (.inl (bufferFill_more ended))
  · rw [refill, if_neg used]
    have le := offset_le_size more
    have full := r.size_le
    exact ⟨rfl, .inr (by omega)⟩

theorem unread_of_short {r : Reader} (pos : 0 < r.size) (short : r.size < bufferSize)
    (used : r.offset = r.size) : r.unread = [] := by
  rw [unread]
  split
  · rfl
  · rw [if_neg (by omega), List.append_nil, List.drop_eq_nil_iff, List.length_take]
    omega

/-- Asking for the end of the file loses nothing, and the answer is right. -/
theorem charEof_spec (r : Reader) :
    r.charEof.unread = r.unread ∧ (r.charEof.eof = true ↔ r.unread = []) ∧
      (r.charEof.eof = false → r.charEof.offset < r.charEof.size) := by
  by_cases ended : r.eof = true
  · rw [charEof, if_pos ended]
    refine ⟨rfl, ⟨fun _ => by rw [unread, if_pos ended], fun _ => ended⟩, fun more => ?_⟩
    rw [ended] at more
    cases more
  rw [charEof, if_neg ended]
  obtain ⟨same, place⟩ := refill_spec (Bool.eq_false_of_not_eq_true ended)
  dsimp only
  generalize r.refill = f at same place ⊢
  by_cases last : f.size < bufferSize ∧ f.offset = f.size
  · have none : f.unread = [] := by
      rcases place with stopped | inside | short
      · rw [unread, if_pos stopped]
      · exact absurd last.2 inside.ne
      · exact unread_of_short short.1 last.1 last.2
    rw [if_pos last, ← same, none]
    exact ⟨rfl, ⟨fun _ => rfl, fun _ => rfl⟩, fun more => nomatch more⟩
  · have inside (more : f.eof = false) : f.offset < f.size := by
      rcases place with stopped | inside | short
      · rw [more] at stopped
        cases stopped
      · exact inside
      · exact absurd short.2 last
    rw [if_neg last, ← same]
    refine ⟨rfl, ⟨fun stopped => by rw [unread, if_pos stopped], fun none => ?_⟩, inside⟩
    by_contra more
    have more := Bool.eq_false_of_not_eq_true more
    rw [unread_of_offset_lt more (inside more)] at none
    cases none

/-- One character further. -/
def next (r : Reader) (inside : r.offset < r.size) : Reader :=
  { r with offset := r.offset + 1, offset_le := .inr inside }

theorem unread_next {r : Reader} (more : r.eof = false) (inside : r.offset < r.size) :
    (r.next inside).unread = r.unread.tail := by
  have bound : r.offset < (r.buffer.take r.size).length := by
    rw [List.length_take, r.length_buffer]
    exact lt_min inside (inside.trans_le r.size_le)
  rw [unread_of_more more, List.drop_eq_getElem_cons bound]
  exact unread_of_more more

section
variable {r : Reader} {c : Char} {rest : List Char}

theorem charEof_more (left : r.unread = c :: rest) : r.charEof.eof = false := by
  cases ended : r.charEof.eof with
  | false => rfl
  | true =>
    rw [r.charEof_spec.2.1.mp ended] at left
    cases left

theorem getD_charEof (left : r.unread = c :: rest) :
    r.charEof.buffer.getD r.charEof.offset '\x00' = c := by
  have more := charEof_more left
  have same := unread_of_offset_lt more (r.charEof_spec.2.2 more)
  rw [r.charEof_spec.1, left] at same
  exact (List.cons.inj same).1.symm

theorem unread_next_charEof (left : r.unread = c :: rest)
    (inside : r.charEof.offset < r.charEof.size) : (r.charEof.next inside).unread = rest := by
  rw [unread_next (charEof_more left), r.charEof_spec.1, left, List.tail_cons]

end

end Reader

end SpinEmu.Lcfg
