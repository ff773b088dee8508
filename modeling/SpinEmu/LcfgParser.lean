import SpinEmu.LcfgTokens

/-! The parser of the configuration language: the push down automaton of
`lcfg_parser_parse`, fed by the scanner one token ahead. -/
namespace SpinEmu.Lcfg
open Lib

/-- The states of the push down automaton. -/
inductive ParserState where
  | topLevel
  | expEquals
  | expValue
  | inList
  | inMap
  | invalid
  deriving DecidableEq, Repr

structure StateElement where
  s : ParserState
  listCounter : Nat
  deriving DecidableEq, Repr

/-- The loop of `lcfg_string_rfind`, from place `i - 1` down. -/
def rfindBelow (s : List Char) (c : Char) : Nat → Option Nat
  | 0 => none
  | i + 1 => if s[i]? = some c then some i else rfindBelow s c i

/-- `lcfg_string_rfind`. -/
def stringRfind (s : List Char) (c : Char) : Option Nat := rfindBelow s c s.length

/-- `PATH_PUSH_STR`; `PATH_PUSH_INT` pushes the decimal digits. -/
def pathPush (path part : List Char) : List Char :=
  (if path.length ≠ 0 then path ++ ['.'] else path) ++ part

/-- `PATH_POP`. -/
def pathPop (path : List Char) : List Char :=
  match stringRfind path '.' with
  | some i => path.take i
  | none => path.take 0

/-- `lcfg_string_cat_uint` on an empty string. -/
def catUint (i : Nat) : List Char := Nat.toDigits 10 i

/-- The locals of `lcfg_parser_parse`, and the values that `lcfg_parser_add_value` has
stored. The top of the stack comes first. -/
structure Pda where
  stack : List StateElement
  currentPath : List Char
  values : List (List Char × List Char)
  deriving DecidableEq, Repr

namespace Pda

def start : Pda := { stack := [⟨.topLevel, 0⟩], currentPath := [], values := [] }

/-- `STATE_STACK_PUSH`. -/
def push (p : Pda) (s : ParserState) : Pda := { p with stack := ⟨s, 0⟩ :: p.stack }

/-- `lcfg_parser_add_value` with the current path. -/
def addValue (p : Pda) (value : List Char) : Pda :=
  { p with values := p.values ++ [(cstr p.currentPath, value)] }

/-- One token. The error is that of `lcfg_error_set`, if it is called. -/
def step (p : Pda) (t : Token) : Pda × Option LcfgError :=
  match p.stack with
  | [] => (p, none)
  | top :: below =>
    let become (s : ParserState) : Pda := { p with stack := { top with s } :: below }
    let fail (expected : String) : Pda × Option LcfgError :=
      (become .invalid, some (.invalidToken t.type t.line t.col expected))
    -- the next place of a list
    let item : Pda := { p with
      stack := { top with listCounter := top.listCounter + 1 } :: below
      currentPath := pathPush p.currentPath (catUint top.listCounter) }
    match top.s with
    | .topLevel =>
      if t.type = .identifier then
        ({ p with currentPath := pathPush p.currentPath (cstr t.string) }.push .expEquals, none)
      else fail "identifier"
    | .inMap =>
      if t.type = .identifier then
        ({ p with currentPath := pathPush p.currentPath (cstr t.string) }.push .expEquals, none)
      else if t.type = .braceClose then
        ({ p with stack := below, currentPath := pathPop p.currentPath }, none)
      else fail "identifier or `\x7d'"
    | .expEquals => if t.type = .equals then (become .expValue, none) else fail "`='"
    | .expValue =>
      if t.type = .string then
        ({ p.addValue t.string with stack := below, currentPath := pathPop p.currentPath }, none)
      else if t.type = .sbracketOpen then (become .inList, none)
      else if t.type = .braceOpen then (become .inMap, none)
      else fail "string, `[' or `\x7b'"
    | .inList =>
      if t.type = .comma then (p, none)
      else if t.type = .string then
        ({ item.addValue t.string with currentPath := pathPop item.currentPath }, none)
      else if t.type = .sbracketOpen then (item.push .inList, none)
      else if t.type = .braceOpen then (item.push .inMap, none)
      else if t.type = .sbracketClose then
        ({ p with stack := below, currentPath := pathPop p.currentPath }, none)
      else fail "string, `[', `\x7b', `,' or `]'"
    | .invalid => (p, none)

def isInvalid (p : Pda) : Bool := p.stack.head?.any (·.s == .invalid)

/-- `state_stack[ssi].s == top_level && ssi == 0`. -/
def accepts (p : Pda) : Bool := p.stack.head?.any (·.s == .topLevel) && p.stack.length == 1

end Pda

/-- The part of `lcfg_parser` that parsing works on. -/
structure Parser where
  scanner : Scanner
  pda : Pda

theorem Spells.length_lt {text rest : List Char} {x : Lexeme} (h : Spells text x rest) :
    rest.length < text.length := by
  cases h <;> simp only [List.length_cons, List.length_append] <;> omega

theorem Gives.length_lt {text rest : List Char} {x : Lexeme} (h : Gives text x rest) :
    rest.length < text.length := by
  obtain ⟨gap, spelt, _, spells, rfl⟩ := h
  have shorter := spells.length_lt
  rw [List.length_append]
  omega

namespace Scanner

/-- What is still to come, the prepared token included. -/
def ahead (s : Scanner) : Nat := s.reader.unread.length + s.hasNext.toNat

theorem tokenRead_ahead_lt {s : Scanner} (more : s.hasNext = true) (ok : s.tokenRead.1 = .ok) :
    s.tokenRead.2.ahead < s.ahead := by
  rw [ahead, ahead, more]
  rcases tokenRead_sound ok with gap | ⟨x, rest, gives⟩
  · obtain ⟨_, null, none⟩ := tokenRead_gap gap
    rw [none, hasNext, null]
    exact Nat.lt_add_left _ Nat.zero_lt_one
  · obtain ⟨_, _, left⟩ := tokenRead_gives gives
    have shorter := gives.length_lt
    have bit : s.tokenRead.2.hasNext.toNat ≤ 1 := Bool.toNat_le _
    rw [left, Bool.toNat_true]
    omega

end Scanner

namespace Parser

def step (p : Parser) (t : Token) : Parser where
  scanner := match (p.pda.step t).2 with
    | some error => p.scanner.setError error
    | none => p.scanner
  pda := (p.pda.step t).1

theorem step_ahead (p : Parser) (t : Token) : (p.step t).scanner.ahead = p.scanner.ahead := by
  rw [step]
  dsimp only
  split <;> rfl

/-- The loop of `lcfg_parser_parse`. It fails where the scanner does. -/
def parseLoop (p : Parser) (t : Token) : Status × Parser :=
  if _ : p.scanner.hasNext = true ∧ p.pda.isInvalid = false then
    if _ : (p.scanner.nextToken t).1 = .ok then
      parseLoop ({ p with scanner := (p.scanner.nextToken t).2.2 }.step (p.scanner.nextToken t).2.1)
        (p.scanner.nextToken t).2.1
    else (.error, { p with scanner := (p.scanner.nextToken t).2.2 })
  else (.ok, p)
termination_by p.scanner.ahead
decreasing_by
  rename_i more ok
  rw [step_ahead]
  simp only [Scanner.nextToken, more.1, if_true] at ok ⊢
  exact Scanner.tokenRead_ahead_lt more.1 ok

/-- `lcfg_parser_parse`; what `t` holds before the first token does not matter. -/
def parse (s : Scanner) (t : Token) : Status × Parser :=
  if s.tokenRead.1 = .ok then
    let result := parseLoop { scanner := s.tokenRead.2, pda := .start } t
    if result.1 = .ok then
      if result.2.pda.accepts then (.ok, result.2)
      else (.error, { result.2 with scanner := result.2.scanner.setError .unterminated })
    else result
  else (.error, { scanner := s.tokenRead.2, pda := .start })

end Parser

/-- The token of a lexeme, with no position. -/
def Lexeme.token (x : Lexeme) : Token where
  type := x.type
  string := match x with
    | .identifier name => name
    | .string value => value
    | _ => []
  line := 0
  col := 0

namespace Pda
variable {p : Pda} {t : Token} {x : Lexeme} {xs : List Lexeme}

/-- The automaton on tokens without positions. -/
def read (p : Pda) (xs : List Lexeme) : Pda := xs.foldl (fun p x => (p.step x.token).1) p

@[simp] theorem read_nil (p : Pda) : p.read [] = p := rfl

@[simp] theorem read_cons (p : Pda) (x : Lexeme) (xs : List Lexeme) :
    p.read (x :: xs) = (p.step x.token).1.read xs := rfl

theorem read_append (p : Pda) (xs ys : List Lexeme) : p.read (xs ++ ys) = (p.read xs).read ys :=
  List.foldl_append

/-- Only the type of a token matters, and the text of an identifier or a string. -/
theorem step_congr {t u : Token} (type : t.type = u.type)
    (text : t.type = .identifier ∨ t.type = .string → t.string = u.string) :
    (p.step t).1 = (p.step u).1 := by
  unfold step
  split
  · rfl
  · simp only [type] at text
    split <;> simp only [type] <;> grind

theorem step_lexeme (lexeme : t.lexeme = some x) : (p.step t).1 = (p.step x.token).1 := by
  unfold Token.lexeme at lexeme
  split at lexeme <;> cases lexeme
  all_goals
    rename_i type
    exact step_congr type fun text => by simp_all [Lexeme.token]

theorem isInvalid_read (invalid : p.isInvalid = true) : p.read xs = p := by
  induction xs with
  | nil => rfl
  | cons x xs ih =>
    have stuck : (p.step x.token).1 = p := by
      unfold isInvalid at invalid
      unfold step
      cases shape : p.stack with
      | nil => rfl
      | cons top below =>
        rw [shape] at invalid
        simp only [List.head?_cons, Option.any_some, beq_iff_eq] at invalid
        simp only [invalid]
    rw [read_cons, stuck, ih]

theorem not_invalid_of_accepts (accepts : p.accepts = true) : p.isInvalid = false := by
  unfold Pda.accepts at accepts
  unfold isInvalid
  cases shape : p.stack with
  | nil => rfl
  | cons top below =>
    rw [shape] at accepts
    simp only [List.head?_cons, Option.any_some, Bool.and_eq_true, beq_iff_eq] at accepts ⊢
    rw [accepts.1]
    rfl

end Pda

namespace Scanner

/-- The tokens still to come, the prepared one first. -/
def Ahead (s : Scanner) (xs : List Lexeme) : Prop :=
  (s.lexer.preparedToken.lexeme = none ∧ xs = []) ∨
    ∃ x rest, s.lexer.preparedToken.lexeme = some x ∧ xs = x :: rest ∧ Text s.reader.unread rest

variable {s : Scanner} {x : Lexeme} {xs : List Lexeme}

theorem hasNext_iff (s : Scanner) : s.hasNext = true ↔ s.lexer.preparedToken.lexeme ≠ none := by
  rw [hasNext, Token.lexeme]
  cases s.lexer.preparedToken.type <;> simp

theorem ahead_of_tokenRead (ahead : s.tokenRead.2.Ahead xs) (ok : s.tokenRead.1 = .ok) :
    Text s.reader.unread xs := by
  rcases tokenRead_sound ok with gap | ⟨x, rest, gives⟩
  · obtain ⟨_, null, left⟩ := tokenRead_gap gap
    rcases ahead with ⟨_, rfl⟩ | ⟨y, ys, lexeme, _, _⟩
    · exact .done gap
    · rw [Token.lexeme, null] at lexeme
      cases lexeme
  · obtain ⟨_, lexeme, left⟩ := tokenRead_gives gives
    rcases ahead with ⟨none, _⟩ | ⟨y, ys, lexeme', rfl, text⟩
    · rw [lexeme] at none
      cases none
    · cases lexeme.symm.trans lexeme'
      exact .token gives (left ▸ text)

theorem tokenRead_text (text : Text s.reader.unread xs) :
    s.tokenRead.1 = .ok ∧ s.tokenRead.2.Ahead xs := by
  cases text with
  | done gap =>
    obtain ⟨ok, null, _⟩ := tokenRead_gap gap
    exact ⟨ok, .inl ⟨by rw [Token.lexeme, null], rfl⟩⟩
  | token gives rest =>
    obtain ⟨ok, lexeme, left⟩ := tokenRead_gives gives
    exact ⟨ok, .inr ⟨_, _, lexeme, rfl, left ▸ rest⟩⟩

end Scanner

namespace Parser
variable {p : Parser} {s : Scanner} {t : Token} {x : Lexeme} {xs : List Lexeme}

@[simp] theorem step_ahead_iff (p : Parser) (t : Token) (xs : List Lexeme) :
    (p.step t).scanner.Ahead xs ↔ p.scanner.Ahead xs := by
  rw [step]
  dsimp only
  split <;> rfl

/-- If the loop ends well, the tokens were all read, and by the automaton. -/
theorem parseLoop_sound (ok : (p.parseLoop t).1 = .ok)
    (valid : (p.parseLoop t).2.pda.isInvalid = false) :
    ∃ xs, p.scanner.Ahead xs ∧ (p.parseLoop t).2.pda = p.pda.read xs := by
  fun_induction parseLoop p t with
  | case1 p t more next ih =>
    obtain ⟨xs, ahead, result⟩ := ih ok valid
    rw [step_ahead_iff] at ahead
    simp only [Scanner.nextToken, more.1, if_true] at next ahead
    obtain ⟨x, lexeme⟩ := Option.ne_none_iff_exists'.mp (p.scanner.hasNext_iff.mp more.1)
    refine ⟨x :: xs, .inr ⟨x, xs, lexeme, rfl, Scanner.ahead_of_tokenRead ahead next⟩, ?_⟩
    rw [result, Pda.read_cons, ← Pda.step_lexeme lexeme]
    simp only [step, Scanner.nextToken, more.1, if_true]
  | case2 p t more failed => cases ok
  | case3 p t ended =>
    have none : p.scanner.lexer.preparedToken.lexeme = none := by
      by_contra some'
      exact ended ⟨p.scanner.hasNext_iff.mpr some', valid⟩
    exact ⟨[], .inl ⟨none, rfl⟩, rfl⟩

theorem parseLoop_complete (ahead : p.scanner.Ahead xs)
    (valid : (p.pda.read xs).isInvalid = false) :
    (p.parseLoop t).1 = .ok ∧ (p.parseLoop t).2.pda = p.pda.read xs := by
  induction xs generalizing p t with
  | nil =>
    have none : p.scanner.lexer.preparedToken.lexeme = none := by
      rcases ahead with ⟨none, _⟩ | ⟨x, rest, _, same, _⟩
      · exact none
      · cases same
    have ended : ¬ (p.scanner.hasNext = true ∧ p.pda.isInvalid = false) := fun more =>
      p.scanner.hasNext_iff.mp more.1 none
    rw [parseLoop, dif_neg ended]
    exact ⟨rfl, rfl⟩
  | cons x xs ih =>
    rcases ahead with ⟨_, same⟩ | ⟨y, rest, lexeme, same, text⟩
    · cases same
    cases same
    have more : p.scanner.hasNext = true :=
      p.scanner.hasNext_iff.mpr (by rw [lexeme]; exact Option.some_ne_none x)
    have live : p.pda.isInvalid = false := by
      by_contra dead
      rw [Pda.isInvalid_read (Bool.eq_true_of_not_eq_false dead)] at valid
      exact dead valid
    obtain ⟨next, ahead⟩ := Scanner.tokenRead_text text
    have token : p.scanner.nextToken t =
        (.ok, p.scanner.lexer.preparedToken, p.scanner.tokenRead.2) := by
      rw [Scanner.nextToken, if_pos more, next]
    rw [parseLoop, dif_pos ⟨more, live⟩, token, dif_pos rfl]
    rw [Pda.read_cons, ← Pda.step_lexeme lexeme] at valid ⊢
    exact ih ((step_ahead_iff _ _ _).mpr ahead) valid

/-- Parsing succeeds exactly on the texts whose tokens the automaton accepts, and stores
the values that the automaton collects. -/
theorem parse_stores_iff {values : List (List Char × List Char)} :
    (parse s t).1 = .ok ∧ (parse s t).2.pda.values = values ↔
      ∃ xs, Text s.reader.unread xs ∧ (Pda.start.read xs).accepts = true ∧
        (Pda.start.read xs).values = values := by
  constructor
  · rintro ⟨ok, stored⟩
    unfold parse at ok stored
    by_cases first : s.tokenRead.1 = .ok
    · rw [if_pos first] at ok stored
      dsimp only at ok stored
      by_cases ended : (parseLoop { scanner := s.tokenRead.2, pda := .start } t).1 = .ok
      · rw [if_pos ended] at ok stored
        by_cases accepts : (parseLoop { scanner := s.tokenRead.2, pda := .start } t).2.pda.accepts
        · rw [if_pos accepts] at stored
          obtain ⟨xs, ahead, result⟩ :=
            parseLoop_sound ended (Pda.not_invalid_of_accepts accepts)
          exact ⟨xs, Scanner.ahead_of_tokenRead ahead first, result ▸ accepts, result ▸ stored⟩
        · rw [if_neg accepts] at ok
          cases ok
      · rw [if_neg ended] at ok
        exact absurd ok ended
    · rw [if_neg first] at ok
      cases ok
  · rintro ⟨xs, text, accepts, stored⟩
    obtain ⟨first, ahead⟩ := Scanner.tokenRead_text text
    obtain ⟨ended, result⟩ := parseLoop_complete (p := { scanner := s.tokenRead.2, pda := .start })
      (t := t) ahead (Pda.not_invalid_of_accepts accepts)
    unfold parse
    rw [if_pos first]
    dsimp only
    rw [if_pos ended, result, if_pos accepts]
    exact ⟨rfl, by rw [result]; exact stored⟩

end Parser
end SpinEmu.Lcfg
