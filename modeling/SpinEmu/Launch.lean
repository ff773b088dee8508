import SpinEmu.BarrierSetup
import SpinEmu.Lib.Decimal

/-! Starting an application: `cmd_as` prints the emulator's configuration into `argv`,
and the application's `main` reads it back. Most of it goes into variables of `main`
that hide the ones the other files read. -/
namespace SpinEmu
open Lib

/-- The variables of a process that the functions of the application interface read.
`NUM_CHIPS` is the product of the board's sides. -/
structure EmuVars where
  spinEmuChip : Int
  spinEmuCore : Int
  board : Board
  slowDownTimer : Int
  spinEmuTmpdir : List Char
  deriving DecidableEq, Repr

/-- What `execv` leaves: every variable is 0. -/
def EmuVars.cleared : EmuVars := ⟨0, 0, ⟨0, 0⟩, 0, []⟩

/-- The variables that `main` declares itself. -/
structure AppLocals where
  numChipsX : Int
  numChipsY : Int
  numChips : Int
  slowDownTimer : Int
  deriving DecidableEq, Repr

/-- `PATH_MAX`. -/
abbrev pathMax : Nat := 4096

/-- `snprintf` into a buffer of `size` characters, the last one a zero. -/
def snprintf (size : Nat) (text : List Char) : List Char := text.take (size - 1)

/-- The `argv` of `cmd_as`. -/
def cmdAsArgv (v : EmuVars) : List (List Char) :=
  [snprintf 12 (Decimal.print v.spinEmuChip), snprintf 12 (Decimal.print v.spinEmuCore),
    snprintf 12 (Decimal.print v.board.numChipsX), snprintf 12 (Decimal.print v.board.numChipsY),
    snprintf pathMax v.spinEmuTmpdir, snprintf 12 (Decimal.print v.slowDownTimer)]

/-- The beginning of the application's `main`. -/
def appMain (argv : List (List Char)) (v : EmuVars) : AppLocals × EmuVars :=
  let arg i := argv.getD i []
  let numChipsX := Decimal.read (arg 2)
  let numChipsY := Decimal.read (arg 3)
  ({ numChipsX, numChipsY
     numChips := numChipsX * numChipsY
     slowDownTimer := Decimal.read (arg 5) },
    { v with
      spinEmuChip := Decimal.read (arg 0)
      spinEmuCore := Decimal.read (arg 1)
      spinEmuTmpdir := arg 4 })

/-- A core of the emulator that starts an application. Its numbers are C integers. -/
structure LaunchingCore where
  board : Board
  chip : Nat
  core : Nat
  slowDownTimer : Int
  tmpdir : List Char
  board_fits : (board.numChips : Int) ≤ intMax
  chip_inside : chip < board.numChips
  core_inside : core < numCpus
  timer_fits : -2 ^ 31 ≤ slowDownTimer ∧ slowDownTimer ≤ intMax
  tmpdir_fits : tmpdir.length < pathMax

namespace LaunchingCore

def vars (l : LaunchingCore) : EmuVars := ⟨l.chip, l.core, l.board, l.slowDownTimer, l.tmpdir⟩

/-- The application as it begins, with the variables that `main` hides. -/
def started (l : LaunchingCore) : AppLocals × EmuVars := appMain (cmdAsArgv l.vars) .cleared

end LaunchingCore

/-- The application reads the variables of the core that started it, and so its chip
has the coordinates that it has there. -/
structure SeesConfiguration (launching app : EmuVars) : Prop where
  chip : app.spinEmuChip = launching.spinEmuChip
  core : app.spinEmuCore = launching.spinEmuCore
  board : app.board = launching.board
  timer : app.slowDownTimer = launching.slowDownTimer
  address : ∃ x y, chipMyX launching.board launching.spinEmuChip = some x ∧
    chipMyY launching.board launching.spinEmuChip = some y ∧
    spin1GetChipId app.board app.spinEmuChip.toNat = some (BitVec.ofInt 32 (x * 2 ^ 8 + y))

section Decoding

/-- A C integer fits the buffers and is read back. -/
theorem read_snprintf {n : Int} (low : -2 ^ 31 ≤ n) (high : n ≤ intMax) :
    Decimal.read (snprintf 12 (Decimal.print n)) = n := by
  simp only [intMax] at high
  have short := Decimal.length_print (n := n) (k := 10) (by decide) (by omega)
  rw [snprintf, List.take_of_length_le short, Decimal.read_print]

theorem read_snprintf_nat {n : Nat} (small : (n : Int) ≤ intMax) :
    Decimal.read (snprintf 12 (Decimal.print n)) = n := read_snprintf (by omega) small

theorem Board.sides_le {b : Board} {c : Nat} (inside : c < b.numChips) :
    b.numChipsX ≤ b.numChips ∧ b.numChipsY ≤ b.numChips := by
  have pos : 0 < b.numChipsX * b.numChipsY := Nat.lt_of_le_of_lt (Nat.zero_le c) inside
  exact ⟨Nat.le_mul_of_pos_right _ (Nat.pos_of_mul_pos_left pos),
    Nat.le_mul_of_pos_left _ (Nat.pos_of_mul_pos_right pos)⟩

namespace LaunchingCore
variable (l : LaunchingCore)

/-- Every number arrives, in the variables of `main` or in those of the process. -/
theorem started_eq : l.started =
    (⟨l.board.numChipsX, l.board.numChipsY, l.board.numChips, l.slowDownTimer⟩,
      { EmuVars.cleared with
        spinEmuChip := l.chip, spinEmuCore := l.core, spinEmuTmpdir := l.tmpdir }) := by
  have board := l.board_fits
  have chip := l.chip_inside
  have core := l.core_inside
  obtain ⟨sideX, sideY⟩ := Board.sides_le chip
  have small : ((numCpus : Nat) : Int) ≤ intMax := by decide
  have path : snprintf pathMax l.tmpdir = l.tmpdir :=
    List.take_of_length_le (Nat.le_pred_of_lt l.tmpdir_fits)
  simp only [started, appMain, cmdAsArgv, vars, List.getD_cons_zero, List.getD_cons_succ, path,
    read_snprintf_nat (show (l.chip : Int) ≤ intMax by omega),
    read_snprintf_nat (show (l.core : Int) ≤ intMax by omega),
    read_snprintf_nat (show (l.board.numChipsX : Int) ≤ intMax by omega),
    read_snprintf_nat (show (l.board.numChipsY : Int) ≤ intMax by omega),
    read_snprintf l.timer_fits.1 l.timer_fits.2, Board.numChips, Nat.cast_mul]

end LaunchingCore
end Decoding

/-- The decoded numbers are those of the core that starts the application, but the
size of the board and the timer's factor never come to the variables that the
interface reads: the chip's address is asked for in vain. -/
theorem configuration_unseen (l : LaunchingCore) :
    l.started.1 = ⟨l.board.numChipsX, l.board.numChipsY, l.board.numChips, l.slowDownTimer⟩ ∧
      l.started.2.spinEmuChip = l.chip ∧ l.started.2.spinEmuCore = l.core ∧
      spin1GetChipId l.started.2.board l.started.2.spinEmuChip.toNat = none ∧
      ¬ SeesConfiguration l.vars l.started.2 := by
  rw [l.started_eq]
  refine ⟨rfl, rfl, rfl, ?_, fun sees => ?_⟩
  · simp [spin1GetChipId, EmuVars.cleared, chipMyX, Board.numChips]
  · have empty : (⟨0, 0⟩ : Board) = l.board := sees.board
    have inside := l.chip_inside
    rw [← empty] at inside
    exact absurd inside (Nat.not_lt_zero _)

/-- Core 1 of the only chip, with the default timer. -/
def firstCore : LaunchingCore where
  board := ⟨1, 1⟩
  chip := 0
  core := 1
  slowDownTimer := 1
  tmpdir := ['/', 't', 'm', 'p']
  board_fits := by decide
  chip_inside := by decide
  core_inside := by decide
  timer_fits := by decide
  tmpdir_fits := by decide

theorem firstCore_unseen : ¬ SeesConfiguration firstCore.vars firstCore.started.2 := by
  intro sees
  have side : firstCore.started.2.board.numChipsX = 1 := by rw [sees.board]; rfl
  cases side

end SpinEmu
