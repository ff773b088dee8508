import SpinEmu.LcfgText

/-! What is reported about a file that is rejected. The scanner names the character at
fault by its line and column; the messages of the parser about a token are lost. -/
namespace SpinEmu.Lcfg
open Lib

/-- The line and the column behind a text, as the `short` counters show them. -/
def lineAfter (text : List Char) : BitVec 16 := BitVec.ofNat 16 (1 + text.count '\n')

def colAfter (text : List Char) : BitVec 16 :=
  BitVec.ofNat 16 (1 + (text.reverse.takeWhile (· != '\n')).length)

namespace Lexer
variable {l : Lexer} {c : Char} {read text : List Char}

/-- The counters show the place behind what has been read. -/
def Placed (l : Lexer) (read : List Char) : Prop :=
  l.line = lineAfter read ∧ l.col = colAfter read

theorem turn_place (l : Lexer) (c : Char) :
    (l.turn c).1.line = l.line ∧ (l.turn c).1.col = l.col := by
  unfold turn
  split
  · split <;> try exact ⟨rfl, rfl⟩
    split <;> exact ⟨rfl, rfl⟩
  · split
    · exact ⟨rfl, rfl⟩
    · split <;> exact ⟨rfl, rfl⟩
  · dsimp only
    split <;> exact ⟨rfl, rfl⟩
  · dsimp only
    split <;> exact ⟨rfl, rfl⟩
  · dsimp only
    split
    · exact ⟨rfl, rfl⟩
    · split <;> exact ⟨rfl, rfl⟩
  · split <;> exact ⟨rfl, rfl⟩
  · dsimp only
    split
    · exact ⟨rfl, rfl⟩
    · split <;> exact ⟨rfl, rfl⟩
  · dsimp only
    split <;> exact ⟨rfl, rfl⟩
  · dsimp only
    split <;> exact ⟨rfl, rfl⟩
  · dsimp only
    split <;> exact ⟨rfl, rfl⟩
  · exact ⟨rfl, rfl⟩

theorem lineAfter_concat (text : List Char) (c : Char) :
    lineAfter (text ++ [c]) = if c = '\n' then lineAfter text + 1 else lineAfter text := by
  rw [lineAfter, lineAfter, List.count_append, List.count_singleton]
  by_cases newline : c = '\n'
  · rw [if_pos newline, if_pos (beq_iff_eq.mpr newline), ← Nat.add_assoc, BitVec.ofNat_add]
    rfl
  · rw [if_neg newline, if_neg (by simpa using newline), Nat.add_zero]

theorem colAfter_concat (text : List Char) (c : Char) :
    colAfter (text ++ [c]) = if c = '\n' then 1 else colAfter text + 1 := by
  rw [colAfter, colAfter, List.reverse_append, List.reverse_singleton, List.singleton_append,
    List.takeWhile_cons]
  by_cases newline : c = '\n'
  · rw [if_pos newline, if_neg (by simpa using newline)]
    rfl
  · rw [if_neg newline, if_pos (by simpa using newline), List.length_cons, ← Nat.add_assoc,
      BitVec.ofNat_add]
    rfl

theorem Placed.step (placed : Placed l read) (c : Char) :
    Placed (l.step c).1 (if (l.step c).2 then read ++ [c] else read) := by
  obtain ⟨line, col⟩ := placed
  obtain ⟨line', col'⟩ := l.turn_place c
  rw [Lexer.step]
  dsimp only
  cases (l.turn c).2 with
  | false => exact ⟨line'.trans line, col'.trans col⟩
  | true =>
    rw [if_pos rfl, if_pos rfl, Placed, lineAfter_concat, colAfter_concat, ← line, ← col, ← line',
      ← col', advance]
    split <;> exact ⟨rfl, rfl⟩

end Lexer

/-- An error of the scanner at a character of the text. -/
def AtFault (whole : List Char) (error : LcfgError) : Prop :=
  ∃ read c rest, whole = read ++ c :: rest ∧
    (error = .invalidCharacter c (lineAfter read) (colAfter read) ∨
      error = .invalidEscape c (lineAfter read) (colAfter read))

/-- What the scanner reports about a text: the character at fault with its place, or the
place of the end. -/
def Fault (whole : List Char) (error : LcfgError) : Prop :=
  AtFault whole error ∨ error = .prematureEnd (lineAfter whole) (colAfter whole)

namespace Lexer
variable {l : Lexer} {c : Char} {read text : List Char}

end Lexer
namespace Scanner
variable {s : Scanner} {whole : List Char}

/-- The counters show how much of the text has been read. -/
def Placed (s : Scanner) (whole : List Char) : Prop :=
  ∃ read, whole = read ++ s.reader.unread ∧ s.lexer.Placed read

end Scanner

namespace Parser

end Parser

end SpinEmu.Lcfg
