import SpinEmu.LcfgReader
import SpinEmu.Lib.Decimal
import Mathlib.Data.BitVec

/-! The scanner of the configuration language: the automaton of
`lcfg_scanner_token_read`, run over the buffered file. -/
namespace SpinEmu.Lcfg
open Lib

/-- `enum lcfg_status`. -/
inductive Status where
  | ok
  | error
  deriving DecidableEq, Repr

/-- `enum lcfg_token_type`. -/
inductive TokenType where
  | nullToken
  | identifier
  | equals
  | string
  | sbracketOpen
  | sbracketClose
  | comma
  | braceOpen
  | braceClose
  deriving DecidableEq, Repr

/-- `lcfg_token_map`. -/
def tokenMap : TokenType → String
  | .nullToken => "null_token"
  | .identifier => "T_IDENTIFIER"
  | .equals => "`='"
  | .string => "T_STRING"
  | .sbracketOpen => "`['"
  | .sbracketClose => "`]'"
  | .comma => "`,'"
  | .braceOpen => "`\x7b'"
  | .braceClose => "`\x7d'"

/-- `struct lcfg_token`. The positions are of the type `short`. -/
structure Token where
  type : TokenType
  string : List Char
  line : BitVec 16
  col : BitVec 16
  deriving DecidableEq, Repr

/-- What `lcfg_error_set` was called with last. -/
inductive LcfgError where
  | none
  | openFailed (reason : String)
  | readBeyondEof
  | peekBeyondEof
  | tokenBeyondEof
  | invalidCharacter (c : Char) (line col : BitVec 16)
  | prematureEnd (line col : BitVec 16)
  | invalidEscape (c : Char) (line col : BitVec 16)
  | invalidHex (c : Char) (line col : BitVec 16)
  | invalidToken (type : TokenType) (line col : BitVec 16) (expected : String)
  | unterminated
  | traversalAborted
  deriving DecidableEq, Repr

/-- A C string ends at its first zero character. -/
def cstr (text : List Char) : List Char := text.takeWhile (· != '\x00')

/-- `0x%02x` for a `char`, which is signed. -/
def hexCode (c : Char) : List Char :=
  "0x".toList ++
    (Nat.toDigits 16 (if c.toNat < 128 then c.toNat else 2 ^ 32 - 256 + c.toNat)).leftpad 2 '0'

def isPrint (c : Char) : Bool := 32 ≤ c.toNat && c.toNat < 127

def LcfgError.text : LcfgError → List Char
  | .none => []
  | .openFailed reason => "open(): ".toList ++ reason.toList
  | .readBeyondEof => "cannot read beyond eof".toList
  | .peekBeyondEof => "cannot peek beyond eof".toList
  | .tokenBeyondEof => "cannot access tokenstream beyond eof".toList
  | .invalidCharacter c line col =>
    "parse error: invalid input character `".toList ++ [if isPrint c then c else '.'] ++
      "' (".toList ++ hexCode c ++ ") near line ".toList ++ Decimal.print line.toInt ++
      ", col ".toList ++ Decimal.print col.toInt
  | .prematureEnd line col =>
    "parse error: premature end of file near line ".toList ++ Decimal.print line.toInt ++
      ", col ".toList ++ Decimal.print col.toInt
  | .invalidEscape c line col =>
    "invalid string escape sequence `".toList ++ [c] ++ "' near line ".toList ++
      Decimal.print line.toInt ++ ", col ".toList ++ Decimal.print col.toInt
  | .invalidHex c line col =>
    "invalid hex escape sequence `".toList ++ [c] ++ "' on line ".toList ++
      Decimal.print line.toInt ++ " column ".toList ++ Decimal.print col.toInt
  | .invalidToken type line col expected =>
    "invalid token (".toList ++ (tokenMap type).toList ++ ") near line ".toList ++
      Decimal.print line.toInt ++ " column ".toList ++ Decimal.print col.toInt ++
      ": expected ".toList ++ expected.toList
  | .unterminated => "unexpected end of file: unterminated list/map?".toList
  | .traversalAborted => "configuration value traversal aborted upon user request".toList

/-- `lcfg_error_get`. The text is cut to the 255 bytes of the buffer. -/
def LcfgError.get (e : LcfgError) : List Char := cstr (e.text.take 254)

/-- `isalpha` and `isalnum` in the C locale, and the two characters more of an identifier. -/
def identRest (c : Char) : Bool := c.isAlphanum || c == '-' || c == '_'

/-- The value of a hexadecimal digit; `isxdigit` is that there is one. -/
def xdigit (c : Char) : Option Nat :=
  if c.isDigit then some (c.toNat - '0'.toNat)
  else if 'a' ≤ c ∧ c ≤ 'f' then some (c.toNat - 'a'.toNat + 10)
  else if 'A' ≤ c ∧ c ≤ 'F' then some (c.toNat - 'A'.toNat + 10)
  else none

/-- `strtoul(text, NULL, 16)` of a text too short to overflow: white space, a sign, `0x`
before a digit, digits. What a minus sign negates is unsigned. -/
def strtoul (text : List Char) : BitVec 64 :=
  let text := (cstr text).dropWhile Decimal.isSpace
  let minus := text.head? == some '-'
  let text := if minus || text.head? == some '+' then text.tail else text
  let text := match text with
    | '0' :: x :: d :: rest =>
      if (x == 'x' || x == 'X') && (xdigit d).isSome then d :: rest else text
    | _ => text
  let n := ((text.map xdigit).takeWhile Option.isSome).foldl
    (fun (n : BitVec 64) d => 16 * n + BitVec.ofNat 64 (d.getD 0)) 0
  if minus then -n else n

/-- `\\xHH` in a string: the number is stored as a `char`. -/
def hexChar (first second : Char) : Char :=
  Char.ofNat ((strtoul [first, second]).setWidth 8).toNat

/-- `enum scanner_state`. -/
inductive ScannerState where
  | start
  | commStart
  | inOneline
  | inMultiline
  | multilineEnd
  | inIdentifier
  | inStr
  | inEsc
  | escHexExpFirst
  | escHexExpSecond
  | invalid
  deriving DecidableEq, Repr

/-- What the automaton works on: its locals `state` and `hex[0]`, and the fields of
`lcfg_scanner` apart from the buffer. -/
structure Lexer where
  state : ScannerState
  hex : Char
  line : BitVec 16
  col : BitVec 16
  preparedToken : Token
  error : LcfgError
  deriving DecidableEq, Repr

namespace Lexer

def setType (l : Lexer) (type : TokenType) : Lexer :=
  { l with preparedToken := { l.preparedToken with type } }

def setString (l : Lexer) (string : List Char) : Lexer :=
  { l with preparedToken := { l.preparedToken with string } }

/-- `lcfg_string_cat_char` on the string of the token. -/
def cat (l : Lexer) (c : Char) : Lexer := l.setString (l.preparedToken.string ++ [c])

def fail (l : Lexer) (error : LcfgError) : Lexer := { l with error, state := .invalid }

/-- The switch of `lcfg_scanner_token_read`, with the value of `consume`. -/
def turn (l : Lexer) (c : Char) : Lexer × Bool :=
  match l.state with
  | .start =>
    match c with
    | ' ' | '\t' | '\r' | '\n' => (l, true)
    | '=' => (l.setType .equals, true)
    | '[' => (l.setType .sbracketOpen, true)
    | ']' => (l.setType .sbracketClose, true)
    | '\x7b' => (l.setType .braceOpen, true)
    | '\x7d' => (l.setType .braceClose, true)
    | ',' => (l.setType .comma, true)
    | '/' => ({ l with state := .commStart }, true)
    | '"' => ({ l.setString [] with state := .inStr }, true)
    | c =>
      if c.isAlpha then ({ l.setString [c] with state := .inIdentifier }, true)
      else (l.fail (.invalidCharacter c l.line l.col), true)
  | .commStart =>
    if c = '/' then ({ l with state := .inOneline }, true)
    else if c = '*' then ({ l with state := .inMultiline }, true)
    else (l.fail (.invalidCharacter c l.line l.col), true)
  | .inOneline => (if c = '\n' then { l with state := .start } else l, true)
  | .inMultiline => (if c = '*' then { l with state := .multilineEnd } else l, true)
  | .multilineEnd =>
    (if c = '/' then { l with state := .start }
      else if c ≠ '*' then { l with state := .inMultiline } else l, true)
  | .inIdentifier =>
    if identRest c then (l.cat c, true) else ({ l.setType .identifier with state := .start }, false)
  | .inStr =>
    (if c = '"' then { l.setType .string with state := .start }
      else if c = '\\' then { l with state := .inEsc } else l.cat c, true)
  | .inEsc =>
    let l := { l with state := .inStr }
    match c with
    | '"' => (l.cat '"', true)
    | 'n' => (l.cat '\n', true)
    | 't' => (l.cat '\t', true)
    | 'r' => (l.cat '\r', true)
    | '0' => (l.cat '\x00', true)
    | '\\' => (l.cat '\\', true)
    | 'x' => ({ l with state := .escHexExpFirst }, true)
    | c => (l.fail (.invalidEscape c l.line l.col), true)
  -- the state `invalid` that a wrong digit leads to is overwritten at once
  | .escHexExpFirst =>
    let l := if (xdigit c).isNone then l.fail (.invalidHex c l.line l.col) else l
    ({ l with hex := c, state := .escHexExpSecond }, true)
  | .escHexExpSecond =>
    let l := if (xdigit c).isNone then l.fail (.invalidHex c l.line l.col) else l
    ({ l.cat (hexChar l.hex c) with state := .inStr }, true)
  | .invalid => (l, true)

/-- The position of a token is that of the character read last. -/
def mark (l : Lexer) : Lexer :=
  { l with preparedToken := { l.preparedToken with line := l.line, col := l.col } }

def advance (l : Lexer) (c : Char) : Lexer :=
  if c = '\n' then { l with line := l.line + 1, col := 1 } else { l with col := l.col + 1 }

def stops (l : Lexer) : Bool := l.preparedToken.type != .nullToken || l.state == .invalid

end Lexer

/-- `struct lcfg_scanner`. -/
structure Scanner where
  reader : Reader
  lexer : Lexer

namespace Scanner

def setError (s : Scanner) (error : LcfgError) : Scanner :=
  { s with lexer := { s.lexer with error } }

/-- `lcfg_scanner_char_peek`. -/
def charPeek (s : Scanner) (c : Char) : Status × Char × Scanner :=
  let s := { s with reader := s.reader.charEof }
  if s.reader.eof then (.error, c, s.setError .peekBeyondEof)
  else (.ok, s.reader.buffer.getD s.reader.offset '\x00', s)

/-- `lcfg_scanner_char_read`. -/
def charRead (s : Scanner) (c : Char) : Status × Char × Scanner :=
  if more : s.reader.charEof.eof = false then
    (.ok, s.reader.charEof.buffer.getD s.reader.charEof.offset '\x00',
      { s with reader := s.reader.charEof.next (s.reader.charEof_spec.2.2 more) })
  else (.error, c, { s with reader := s.reader.charEof }.setError .readBeyondEof)

/-- The body of the loop of `lcfg_scanner_token_read`. -/
def pass (s : Scanner) (c : Char) : Scanner × Char :=
  let (_, c, s) := s.charPeek c
  let (lexer, consume) := s.lexer.turn c
  let s := { s with lexer := lexer.mark }
  if consume then
    let (_, c, s) := s.charRead c
    ({ s with lexer := s.lexer.advance c }, c)
  else (s, c)

end Scanner

/-- The effect of one character on the automaton, and whether it was consumed. -/
def Lexer.step (l : Lexer) (c : Char) : Lexer × Bool :=
  ((if (l.turn c).2 then (l.turn c).1.mark.advance c else (l.turn c).1.mark), (l.turn c).2)

namespace Scanner
variable {s : Scanner} {c x : Char} {rest : List Char}

theorem pass_spec (left : s.reader.unread = x :: rest) :
    (s.pass c).1.lexer = (s.lexer.step x).1 ∧
      (s.pass c).1.reader.unread = if (s.lexer.step x).2 then rest else x :: rest := by
  have more := Reader.charEof_more left
  have first := Reader.getD_charEof left
  have again : s.reader.charEof.unread = x :: rest := s.reader.charEof_spec.1.trans left
  have peek : s.charPeek c = (.ok, x, { s with reader := s.reader.charEof }) := by
    simp only [charPeek, more, first, Bool.false_eq_true, if_false]
  rw [pass, peek, Lexer.step]
  cases consume : (s.lexer.turn x).2 with
  | false =>
    simp only [consume, Bool.false_eq_true, if_false]
    exact ⟨trivial, again⟩
  | true =>
    simp only [consume, if_true, charRead]
    rw [dif_pos (Reader.charEof_more again)]
    have same := Reader.getD_charEof again
    exact ⟨by rw [same], Reader.unread_next_charEof again
      (Reader.charEof_spec _ |>.2.2 (Reader.charEof_more again))⟩

end Scanner

namespace Lexer

/-- A character is left for the next token only behind an identifier. -/
theorem turn_consume (l : Lexer) (c : Char) :
    (l.turn c).2 = (l.state != .inIdentifier || identRest c) := by
  unfold turn
  cases l.state with
  | start =>
    dsimp only
    split <;> first | rfl | (split <;> rfl)
  | inIdentifier =>
    dsimp only
    cases identRest c <;> rfl
  | inEsc =>
    dsimp only
    split <;> rfl
  | commStart =>
    dsimp only
    split
    · rfl
    · split <;> rfl
  | _ => rfl

theorem step_stops {l : Lexer} {c : Char} (kept : (l.step c).2 = false) :
    (l.step c).1.stops = true := by
  have inside : l.state = .inIdentifier ∧ identRest c = false := by
    have shape := l.turn_consume c
    rw [show (l.turn c).2 = false from kept] at shape
    have parts := Bool.or_eq_false_iff.mp shape.symm
    exact ⟨by simpa using parts.1, parts.2⟩
  rw [step, show (l.turn c).2 = false from kept, if_neg Bool.false_ne_true]
  unfold turn
  simp only [inside.1, inside.2, Bool.false_eq_true, if_false]
  rfl

/-- What the automaton makes of a text, and what it leaves of it. -/
def run (l : Lexer) : List Char → Lexer × List Char
  | [] => (l, [])
  | c :: rest =>
    if (l.step c).1.stops then ((l.step c).1, if (l.step c).2 then rest else c :: rest)
    else run (l.step c).1 rest

end Lexer

namespace Scanner
variable {s : Scanner} {c : Char}

def charEof (s : Scanner) : Scanner := { s with reader := s.reader.charEof }

@[simp] theorem charEof_lexer (s : Scanner) : s.charEof.lexer = s.lexer := rfl

theorem exists_unread (more : s.charEof.reader.eof = false) :
    ∃ x rest, s.reader.unread = x :: rest := by
  cases left : s.reader.unread with
  | nil =>
    rw [charEof, s.reader.charEof_spec.2.1.mpr left] at more
    cases more
  | cons x rest => exact ⟨x, rest, rfl⟩

theorem pass_unread_lt (more : s.charEof.reader.eof = false)
    (on : (s.charEof.pass c).1.lexer.stops = false) :
    (s.charEof.pass c).1.reader.unread.length < s.reader.unread.length := by
  obtain ⟨x, rest, left⟩ := exists_unread more
  have again : s.charEof.reader.unread = x :: rest := s.reader.charEof_spec.1.trans left
  obtain ⟨lexer, unread⟩ := pass_spec (c := c) again
  rw [lexer] at on
  rw [unread, left]
  split
  · exact Nat.lt_succ_self _
  · rename_i kept
    rw [Lexer.step_stops (Bool.eq_false_of_not_eq_true kept)] at on
    cases on

/-- The loop of `lcfg_scanner_token_read`. -/
def tokenReadLoop (s : Scanner) (c : Char) : Scanner :=
  if _ : s.charEof.reader.eof = false then
    if _ : (s.charEof.pass c).1.lexer.stops = false then
      tokenReadLoop (s.charEof.pass c).1 (s.charEof.pass c).2
    else (s.charEof.pass c).1
  else s.charEof
termination_by s.reader.unread.length
decreasing_by exact pass_unread_lt ‹_› ‹_›

/-- The buffer does not matter: the loop does what the automaton does on the text. -/
theorem tokenReadLoop_spec (s : Scanner) (c : Char) :
    (s.tokenReadLoop c).lexer = (s.lexer.run s.reader.unread).1 ∧
      (s.tokenReadLoop c).reader.unread = (s.lexer.run s.reader.unread).2 := by
  fun_induction tokenReadLoop s c with
  | case1 s c more on ih =>
    obtain ⟨x, rest, left⟩ := exists_unread more
    have again : s.charEof.reader.unread = x :: rest := s.reader.charEof_spec.1.trans left
    obtain ⟨lexer, unread⟩ := pass_spec (c := c) again
    rw [charEof_lexer] at lexer unread
    rw [lexer] at on ih
    have consumed : (s.lexer.step x).2 = true := by
      by_contra kept
      rw [Lexer.step_stops (Bool.eq_false_of_not_eq_true kept)] at on
      cases on
    rw [unread, if_pos consumed] at ih
    rw [left, Lexer.run, if_neg (by rw [on]; exact Bool.false_ne_true)]
    exact ih
  | case2 s c more off =>
    obtain ⟨x, rest, left⟩ := exists_unread more
    have again : s.charEof.reader.unread = x :: rest := s.reader.charEof_spec.1.trans left
    obtain ⟨lexer, unread⟩ := pass_spec (c := c) again
    rw [charEof_lexer] at lexer unread
    rw [lexer] at off
    rw [left, Lexer.run, if_pos (Bool.eq_true_of_not_eq_false off)]
    exact ⟨lexer, unread⟩
  | case3 s c ended =>
    have none := s.reader.charEof_spec.2.1.mp (Bool.eq_true_of_not_eq_false ended)
    rw [none]
    exact ⟨rfl, s.reader.charEof_spec.1.trans none⟩

/-- `lcfg_scanner_token_read`. -/
def tokenRead (s : Scanner) : Status × Scanner :=
  let s := { s with lexer := { s.lexer with state := .start }.setType .nullToken }
  let s := s.tokenReadLoop '\x00'
  if s.lexer.state = .start then (.ok, s)
  else if s.lexer.state = .invalid then (.error, s)
  else (.error, s.setError (.prematureEnd s.lexer.line s.lexer.col))

/-- `lcfg_scanner_has_next`. -/
def hasNext (s : Scanner) : Bool := s.lexer.preparedToken.type != .nullToken

/-- `lcfg_scanner_next_token`, with what `t` held before. -/
def nextToken (s : Scanner) (t : Token) : Status × Token × Scanner :=
  if s.hasNext then (s.tokenRead.1, s.lexer.preparedToken, s.tokenRead.2)
  else (.error, t, s.setError .tokenBeyondEof)

/-- `lcfg_scanner_new`. -/
def new (reads : List Piece) : Scanner where
  reader := .new reads
  lexer := {
    state := .start
    hex := '\x00'
    line := 1
    col := 1
    preparedToken := { type := .nullToken, string := [], line := 0, col := 0 }
    error := .none }

end Scanner
end SpinEmu.Lcfg
