import SpinEmu.LcfgScanner
import Mathlib.Data.List.Infix

/-! The tokens of the configuration language as a grammar on characters, with what is
left of the text in view, and that the automaton reads exactly this grammar. -/
namespace SpinEmu.Lcfg

/-- A token without its position. Only identifiers and strings have a text of their own. -/
inductive Lexeme where
  | identifier (name : List Char)
  | string (value : List Char)
  | equals
  | sbracketOpen
  | sbracketClose
  | comma
  | braceOpen
  | braceClose
  deriving DecidableEq, Repr

def Token.lexeme (t : Token) : Option Lexeme :=
  match t.type with
  | .nullToken => none
  | .identifier => some (.identifier t.string)
  | .string => some (.string t.string)
  | .equals => some .equals
  | .sbracketOpen => some .sbracketOpen
  | .sbracketClose => some .sbracketClose
  | .comma => some .comma
  | .braceOpen => some .braceOpen
  | .braceClose => some .braceClose

def Lexeme.type : Lexeme → TokenType
  | .identifier _ => .identifier
  | .string _ => .string
  | .equals => .equals
  | .sbracketOpen => .sbracketOpen
  | .sbracketClose => .sbracketClose
  | .comma => .comma
  | .braceOpen => .braceOpen
  | .braceClose => .braceClose

def isBlank (c : Char) : Bool := c == ' ' || c == '\t' || c == '\r' || c == '\n'

def symbol : Char → Option Lexeme
  | '=' => some .equals
  | '[' => some .sbracketOpen
  | ']' => some .sbracketClose
  | '\x7b' => some .braceOpen
  | '\x7d' => some .braceClose
  | ',' => some .comma
  | _ => none

/-- The escapes of one letter. -/
def unescape : Char → Option Char
  | '"' => some '"'
  | 'n' => some '\n'
  | 't' => some '\t'
  | 'r' => some '\r'
  | '0' => some '\x00'
  | '\\' => some '\\'
  | _ => none

/-- Blanks and comments. -/
inductive Gap : List Char → Prop where
  | nil : Gap []
  | blank {c rest} : isBlank c = true → Gap rest → Gap (c :: rest)
  | oneline {body rest} : '\n' ∉ body → Gap rest → Gap ('/' :: '/' :: (body ++ '\n' :: rest))
  | multiline {body rest} : ¬ ['*', '/'] <:+: body → Gap rest →
      Gap ('/' :: '*' :: (body ++ '*' :: '/' :: rest))

/-- What stands between quotes, and the value it denotes. Any two characters do after
`\x`. -/
inductive Quoted : List Char → List Char → Prop where
  | nil : Quoted [] []
  | plain {c source value} : c ≠ '"' → c ≠ '\\' → Quoted source value →
      Quoted (c :: source) (c :: value)
  | escape {c d source value} : unescape c = some d → Quoted source value →
      Quoted ('\\' :: c :: source) (d :: value)
  | hex (a b : Char) {source value} : Quoted source value →
      Quoted ('\\' :: 'x' :: a :: b :: source) (hexChar a b :: value)

/-- The text starts with the lexeme, and this is left. An identifier is as long as it can
be, and something has to follow it. -/
inductive Spells : List Char → Lexeme → List Char → Prop where
  | symbol {c x rest} : symbol c = some x → Spells (c :: rest) x rest
  | string {source value rest} : Quoted source value →
      Spells ('"' :: (source ++ '"' :: rest)) (.string value) rest
  | identifier {c tail e rest} : c.isAlpha = true → (∀ d ∈ tail, identRest d = true) →
      identRest e = false → Spells (c :: (tail ++ e :: rest)) (.identifier (c :: tail)) (e :: rest)

/-- The text is a gap, the lexeme and what is left. -/
def Gives (text : List Char) (x : Lexeme) (rest : List Char) : Prop :=
  ∃ gap spelt, Gap gap ∧ Spells spelt x rest ∧ text = gap ++ spelt

/-- The text is the given tokens, with gaps. -/
inductive Text : List Char → List Lexeme → Prop where
  | done {gap} : Gap gap → Text gap []
  | token {text x rest xs} : Gives text x rest → Text rest xs → Text text (x :: xs)

theorem Gap.append {front back : List Char} (hf : Gap front) (hb : Gap back) :
    Gap (front ++ back) := by
  induction hf with
  | nil => exact hb
  | blank blank _ ih => exact .blank blank ih
  | @oneline body rest inside _ ih =>
    have shape : '/' :: '/' :: (body ++ '\n' :: rest) ++ back =
        '/' :: '/' :: (body ++ '\n' :: (rest ++ back)) := by simp
    exact shape ▸ .oneline inside ih
  | @multiline body rest inside _ ih =>
    have shape : '/' :: '*' :: (body ++ '*' :: '/' :: rest) ++ back =
        '/' :: '*' :: (body ++ '*' :: '/' :: (rest ++ back)) := by simp
    exact shape ▸ .multiline inside ih

theorem Quoted.append {s₁ v₁ s₂ v₂ : List Char} (h₁ : Quoted s₁ v₁) (h₂ : Quoted s₂ v₂) :
    Quoted (s₁ ++ s₂) (v₁ ++ v₂) := by
  induction h₁ with
  | nil => exact h₂
  | plain quote slash _ ih => exact .plain quote slash ih
  | escape known _ ih => exact .escape known ih
  | hex a b _ ih => exact .hex a b ih

namespace Lexer
variable {l : Lexer} {c : Char} {rest : List Char}

/-- The automaton is in this state with this text of the token so far. -/
structure At (l : Lexer) (state : ScannerState) (string : List Char) : Prop where
  state : l.state = state
  type : l.preparedToken.type = .nullToken
  string : l.preparedToken.string = string

theorem run_cons (on : (l.step c).1.stops = false) : l.run (c :: rest) = (l.step c).1.run rest := by
  rw [run, on, if_neg Bool.false_ne_true]

@[simp] theorem step_state (l : Lexer) (c : Char) : (l.step c).1.state = (l.turn c).1.state := by
  rw [step, advance]
  split
  · split <;> rfl
  · rfl

@[simp] theorem step_hex (l : Lexer) (c : Char) : (l.step c).1.hex = (l.turn c).1.hex := by
  rw [step, advance]
  split
  · split <;> rfl
  · rfl

@[simp] theorem step_type (l : Lexer) (c : Char) :
    (l.step c).1.preparedToken.type = (l.turn c).1.preparedToken.type := by
  rw [step, advance]
  split
  · split <;> rfl
  · rfl

@[simp] theorem step_string (l : Lexer) (c : Char) :
    (l.step c).1.preparedToken.string = (l.turn c).1.preparedToken.string := by
  rw [step, advance]
  split
  · split <;> rfl
  · rfl

/-- Reading this much takes the one state to the other, whatever follows. -/
def Leads (l : Lexer) (source : List Char) (l' : Lexer) : Prop :=
  ∀ rest, l.run (source ++ rest) = l'.run rest

theorem Leads.trans {l l' l'' : Lexer} {front back : List Char} (hf : Leads l front l')
    (hb : Leads l' back l'') : Leads l (front ++ back) l'' := by
  intro rest
  rw [List.append_assoc, hf, hb]

theorem At.step {state : ScannerState} {string : List Char} (at' : At (l.turn c).1 state string)
    (live : state ≠ .invalid) : Leads l [c] (l.step c).1 ∧ At (l.step c).1 state string := by
  have reached : At (l.step c).1 state string :=
    ⟨by rw [step_state, at'.state], by rw [step_type, at'.type], by rw [step_string, at'.string]⟩
  have on : (l.step c).1.stops = false := by
    rw [stops, reached.type, reached.state]
    simpa using live
  exact ⟨fun rest => run_cons on, reached⟩

section Transitions
variable {string : List Char}

theorem turn_blank (h : At l .start string) (blank : isBlank c = true) :
    At (l.turn c).1 .start string := by
  simp only [isBlank, Bool.or_eq_true, beq_iff_eq] at blank
  obtain ⟨state, type, text⟩ := h
  rcases blank with ((rfl | rfl) | rfl) | rfl <;>
    exact ⟨by simp [turn, state], by simp [turn, state, type], by simp [turn, state, text]⟩

theorem turn_slash (h : At l .start string) : At (l.turn '/').1 .commStart string := by
  obtain ⟨state, type, text⟩ := h
  simp only [turn, state]
  exact ⟨rfl, type, text⟩

theorem turn_alpha (h : At l .start string) (alpha : c.isAlpha = true) :
    At (l.turn c).1 .inIdentifier [c] := by
  obtain ⟨state, type, text⟩ := h
  unfold turn
  simp only [state]
  split <;> try exact absurd alpha (by decide)
  rw [if_pos alpha]
  exact ⟨rfl, type, rfl⟩

theorem turn_commStart (h : At l .commStart string) :
    At (l.turn '/').1 .inOneline string ∧ At (l.turn '*').1 .inMultiline string := by
  obtain ⟨state, type, text⟩ := h
  simp only [turn, state]
  exact ⟨⟨rfl, type, text⟩, rfl, type, text⟩

theorem turn_oneline (h : At l .inOneline string) :
    At (l.turn c).1 (if c = '\n' then .start else .inOneline) string := by
  obtain ⟨state, type, text⟩ := h
  simp only [turn, state]
  split
  · exact ⟨rfl, type, text⟩
  · exact ⟨state, type, text⟩

theorem turn_multiline (h : At l .inMultiline string) :
    At (l.turn c).1 (if c = '*' then .multilineEnd else .inMultiline) string := by
  obtain ⟨state, type, text⟩ := h
  simp only [turn, state]
  split
  · exact ⟨rfl, type, text⟩
  · exact ⟨state, type, text⟩

theorem turn_multilineEnd (h : At l .multilineEnd string) :
    At (l.turn c).1 (if c = '/' then .start else if c = '*' then .multilineEnd else .inMultiline)
      string := by
  obtain ⟨state, type, text⟩ := h
  simp only [turn, state]
  split
  · exact ⟨rfl, type, text⟩
  · by_cases star : c = '*'
    · rw [if_neg (not_not_intro star), if_pos star]
      exact ⟨state, type, text⟩
    · rw [if_pos star, if_neg star]
      exact ⟨rfl, type, text⟩

theorem turn_identifier (h : At l .inIdentifier string) (inside : identRest c = true) :
    At (l.turn c).1 .inIdentifier (string ++ [c]) := by
  obtain ⟨state, type, text⟩ := h
  simp only [turn, state, inside, if_true]
  exact ⟨state, type, congrArg (· ++ [c]) text⟩

theorem turn_quote (h : At l .start string) : At (l.turn '"').1 .inStr [] := by
  obtain ⟨state, type, text⟩ := h
  simp only [turn, state]
  exact ⟨rfl, type, rfl⟩

theorem turn_plain (h : At l .inStr string) (quote : c ≠ '"') (slash : c ≠ '\\') :
    At (l.turn c).1 .inStr (string ++ [c]) := by
  obtain ⟨state, type, text⟩ := h
  simp only [turn, state, quote, slash, if_false]
  exact ⟨state, type, congrArg (· ++ [c]) text⟩

theorem turn_backslash (h : At l .inStr string) : At (l.turn '\\').1 .inEsc string := by
  obtain ⟨state, type, text⟩ := h
  simp only [turn, state]
  exact ⟨rfl, type, text⟩

theorem turn_escape {d : Char} (h : At l .inEsc string) (known : unescape c = some d) :
    At (l.turn c).1 .inStr (string ++ [d]) := by
  obtain ⟨state, type, text⟩ := h
  unfold unescape at known
  split at known <;> cases known <;> simp only [turn, state] <;>
    exact ⟨rfl, type, congrArg (· ++ [_]) text⟩

theorem turn_hex (h : At l .inEsc string) : At (l.turn 'x').1 .escHexExpFirst string := by
  obtain ⟨state, type, text⟩ := h
  simp only [turn, state]
  exact ⟨rfl, type, text⟩

theorem turn_hexFirst (h : At l .escHexExpFirst string) :
    At (l.turn c).1 .escHexExpSecond string ∧ (l.turn c).1.hex = c := by
  obtain ⟨state, type, text⟩ := h
  simp only [turn, state]
  split <;> exact ⟨⟨rfl, type, text⟩, trivial⟩

theorem turn_hexSecond (h : At l .escHexExpSecond string) :
    At (l.turn c).1 .inStr (string ++ [hexChar l.hex c]) := by
  obtain ⟨state, type, text⟩ := h
  simp only [turn, state]
  split <;> exact ⟨rfl, type, congrArg (· ++ [_]) text⟩

end Transitions

/-! What the automaton does on a piece of the grammar. -/

section Complete
variable {string : List Char}

theorem oneline_leads {body : List Char} (h : At l .inOneline string) (inside : '\n' ∉ body) :
    ∃ l', Leads l (body ++ ['\n']) l' ∧ At l' .start string := by
  induction body generalizing l with
  | nil => exact ⟨_, (turn_oneline h).step (by decide)⟩
  | cons c body ih =>
    have other : c ≠ '\n' := fun same => inside (same ▸ List.mem_cons_self)
    have stay := turn_oneline (c := c) h
    rw [if_neg other] at stay
    obtain ⟨first, reached⟩ := stay.step (by decide)
    obtain ⟨l', back, done⟩ := ih reached fun member => inside (List.mem_cons_of_mem _ member)
    exact ⟨l', first.trans back, done⟩

/-- Inside a comment the end is looked for, with a star behind or not. -/
theorem multiline_leads {body : List Char} (inside : ¬ ['*', '/'] <:+: body)
    (h : At l .inMultiline string ∨ At l .multilineEnd string ∧ body.head? ≠ some '/') :
    ∃ l', Leads l (body ++ ['*', '/']) l' ∧ At l' .start string := by
  induction body generalizing l with
  | nil =>
    have star : At (l.turn '*').1 .multilineEnd string := by
      rcases h with open' | ⟨end', _⟩
      · exact turn_multiline open'
      · exact turn_multilineEnd end'
    obtain ⟨first, reached⟩ := star.step (by decide)
    obtain ⟨second, done⟩ := (turn_multilineEnd (c := '/') reached).step (by decide)
    exact ⟨_, first.trans second, done⟩
  | cons c body ih =>
    have rest : ¬ ['*', '/'] <:+: body := fun part =>
      inside (part.trans (List.suffix_cons c body).isInfix)
    by_cases star : c = '*'
    · subst star
      have next : body.head? ≠ some '/' := by
        intro slash
        obtain ⟨tail, rfl⟩ := List.head?_eq_some_iff.mp slash
        exact inside (List.prefix_append ['*', '/'] tail).isInfix
      have reach : At (l.turn '*').1 .multilineEnd string := by
        rcases h with open' | ⟨end', _⟩
        · exact turn_multiline open'
        · exact turn_multilineEnd end'
      obtain ⟨first, reached⟩ := reach.step (by decide)
      obtain ⟨l', back, done⟩ := ih rest (.inr ⟨reached, next⟩)
      exact ⟨l', first.trans back, done⟩
    · have reach : At (l.turn c).1 .inMultiline string := by
        rcases h with open' | ⟨end', other⟩
        · have stay := turn_multiline (c := c) open'
          rwa [if_neg star] at stay
        · have stay := turn_multilineEnd (c := c) end'
          rwa [if_neg (fun slash => other (by rw [slash]; rfl)), if_neg star] at stay
      obtain ⟨first, reached⟩ := reach.step (by decide)
      obtain ⟨l', back, done⟩ := ih rest (.inl reached)
      exact ⟨l', first.trans back, done⟩

theorem gap_leads {gap : List Char} (h : At l .start string) (blanks : Gap gap) :
    ∃ l', Leads l gap l' ∧ At l' .start string := by
  induction blanks generalizing l with
  | nil => exact ⟨l, fun _ => rfl, h⟩
  | blank blank _ ih =>
    obtain ⟨first, reached⟩ := (turn_blank h blank).step (by decide)
    obtain ⟨l', back, done⟩ := ih reached
    exact ⟨l', first.trans back, done⟩
  | @oneline body rest inside _ ih =>
    obtain ⟨first, begun⟩ := (turn_slash h).step (by decide)
    obtain ⟨second, inBody⟩ := (turn_commStart begun).1.step (by decide)
    obtain ⟨l₁, third, over'⟩ := oneline_leads inBody inside
    obtain ⟨l', back, done⟩ := ih over'
    refine ⟨l', ?_, done⟩
    simpa using first.trans (second.trans (third.trans back))
  | @multiline body rest inside _ ih =>
    obtain ⟨first, begun⟩ := (turn_slash h).step (by decide)
    obtain ⟨second, inBody⟩ := (turn_commStart begun).2.step (by decide)
    obtain ⟨l₁, third, over'⟩ := multiline_leads inside (.inl inBody)
    obtain ⟨l', back, done⟩ := ih over'
    refine ⟨l', ?_, done⟩
    simpa using first.trans (second.trans (third.trans back))

theorem quoted_leads {source value : List Char} (h : At l .inStr string)
    (quoted : Quoted source value) :
    ∃ l', Leads l source l' ∧ At l' .inStr (string ++ value) := by
  induction quoted generalizing l string with
  | nil => exact ⟨l, fun _ => rfl, by rwa [List.append_nil]⟩
  | @plain c source value quote slash _ ih =>
    obtain ⟨first, reached⟩ := (turn_plain h quote slash).step (by decide)
    obtain ⟨l', back, done⟩ := ih reached
    exact ⟨l', first.trans back, by simpa using done⟩
  | @escape c d source value known _ ih =>
    obtain ⟨first, begun⟩ := (turn_backslash h).step (by decide)
    obtain ⟨second, reached⟩ := (turn_escape begun known).step (by decide)
    obtain ⟨l', back, done⟩ := ih reached
    exact ⟨l', first.trans (second.trans back), by simpa using done⟩
  | @hex a b source value _ ih =>
    obtain ⟨first, begun⟩ := (turn_backslash h).step (by decide)
    obtain ⟨second, atFirst⟩ := (turn_hex begun).step (by decide)
    obtain ⟨turned, digit⟩ := turn_hexFirst (c := a) atFirst
    obtain ⟨third, atSecond⟩ := turned.step (by decide)
    obtain ⟨fourth, reached⟩ := (turn_hexSecond (c := b) atSecond).step (by decide)
    rw [step_hex, digit] at reached
    obtain ⟨l', back, done⟩ := ih reached
    refine ⟨l', ?_, by simpa using done⟩
    simpa using first.trans (second.trans (third.trans (fourth.trans back)))

theorem identifier_leads {tail : List Char} (h : At l .inIdentifier string)
    (inside : ∀ d ∈ tail, identRest d = true) :
    ∃ l', Leads l tail l' ∧ At l' .inIdentifier (string ++ tail) := by
  induction tail generalizing l string with
  | nil => exact ⟨l, fun _ => rfl, by rwa [List.append_nil]⟩
  | cons d tail ih =>
    obtain ⟨first, reached⟩ := (turn_identifier h (inside d List.mem_cons_self)).step (by decide)
    obtain ⟨l', back, done⟩ := ih reached fun e member => inside e (List.mem_cons_of_mem _ member)
    exact ⟨l', first.trans back, by simpa using done⟩

/-- The token is complete. -/
structure Ended (l : Lexer) (x : Lexeme) : Prop where
  state : l.state = .start
  lexeme : l.preparedToken.lexeme = some x

theorem Ended.stops {x : Lexeme} (ended : Ended l x) : l.stops = true := by
  have some' := ended.lexeme
  rw [Token.lexeme] at some'
  rw [Lexer.stops]
  cases type : l.preparedToken.type with
  | nullToken =>
    rw [type] at some'
    cases some'
  | _ => rfl

theorem Ended.step {x : Lexeme} (ended : Ended (l.turn c).1 x) : Ended (l.step c).1 x := by
  have text := ended.lexeme
  simp only [Token.lexeme] at text
  exact ⟨by rw [step_state, ended.state], by simp only [Token.lexeme, step_type, step_string, text]⟩

theorem Ended.run {x : Lexeme} (ended : Ended (l.turn c).1 x) (rest : List Char) :
    Ended (l.run (c :: rest)).1 x ∧
      (l.run (c :: rest)).2 = if (l.turn c).2 then rest else c :: rest := by
  rw [Lexer.run, if_pos ended.step.stops]
  exact ⟨ended.step, rfl⟩

/-- A lexeme that the text starts with is what the automaton reads. -/
theorem spells_complete {text : List Char} {x : Lexeme} (h : At l .start string)
    (spelt : Spells text x rest) : Ended (l.run text).1 x ∧ (l.run text).2 = rest := by
  cases spelt with
  | @symbol c _ _ known =>
    have turned : Ended (l.turn c).1 x ∧ (l.turn c).2 = true := by
      obtain ⟨state, type, text⟩ := h
      unfold Lcfg.symbol at known
      split at known <;> cases known <;> simp only [turn, state] <;>
        exact ⟨⟨state, rfl⟩, trivial⟩
    obtain ⟨ended, left⟩ := turned.1.run rest
    rw [turned.2] at left
    exact ⟨ended, left⟩
  | @string source value _ quoted =>
    obtain ⟨first, opened⟩ := (turn_quote h).step (by decide)
    obtain ⟨l', inside, reached⟩ := quoted_leads opened quoted
    have turned : Ended (l'.turn '"').1 (.string value) ∧ (l'.turn '"').2 = true := by
      obtain ⟨state, type, text⟩ := reached
      simp only [turn, state]
      exact ⟨⟨rfl, congrArg (some ∘ Lexeme.string) text⟩, trivial⟩
    obtain ⟨ended, left⟩ := turned.1.run rest
    rw [turned.2] at left
    have whole := first.trans inside ('"' :: rest)
    rw [List.append_assoc] at whole
    rw [show '"' :: (source ++ '"' :: rest) = ['"'] ++ (source ++ '"' :: rest) from rfl, whole]
    exact ⟨ended, left⟩
  | @identifier c tail e rest alpha inside outside =>
    obtain ⟨first, opened⟩ := (turn_alpha h alpha).step (by decide)
    obtain ⟨l', middle, reached⟩ := identifier_leads opened inside
    have turned : Ended (l'.turn e).1 (.identifier (c :: tail)) ∧ (l'.turn e).2 = false := by
      obtain ⟨state, type, text⟩ := reached
      simp only [turn, state, outside, Bool.false_eq_true, if_false]
      exact ⟨⟨rfl, congrArg (some ∘ Lexeme.identifier) text⟩, trivial⟩
    obtain ⟨ended, left⟩ := turned.1.run rest
    rw [turned.2] at left
    have whole := first.trans middle (e :: rest)
    rw [List.append_assoc] at whole
    rw [show c :: (tail ++ e :: rest) = [c] ++ (tail ++ e :: rest) from rfl, whole]
    exact ⟨ended, left⟩

end Complete

/-! What has been read is a gap and the beginning of a token. -/

inductive Held : ScannerState → Char → List Char → List Char → Prop where
  | start {hex string gap} : Gap gap → Held .start hex string gap
  | commStart {hex string gap} : Gap gap → Held .commStart hex string (gap ++ ['/'])
  | inOneline {hex string gap body} : Gap gap → '\n' ∉ body →
      Held .inOneline hex string (gap ++ '/' :: '/' :: body)
  | inMultiline {hex string gap body} : Gap gap → ¬ ['*', '/'] <:+: body →
      body.getLast? ≠ some '*' → Held .inMultiline hex string (gap ++ '/' :: '*' :: body)
  | multilineEnd {hex string gap body} : Gap gap → ¬ ['*', '/'] <:+: body →
      Held .multilineEnd hex string (gap ++ '/' :: '*' :: (body ++ ['*']))
  | inIdentifier {hex gap c tail} : Gap gap → c.isAlpha = true →
      (∀ d ∈ tail, identRest d = true) → Held .inIdentifier hex (c :: tail) (gap ++ c :: tail)
  | inStr {hex gap source value} : Gap gap → Quoted source value →
      Held .inStr hex value (gap ++ '"' :: source)
  | inEsc {hex gap source value} : Gap gap → Quoted source value →
      Held .inEsc hex value (gap ++ '"' :: (source ++ ['\\']))
  | escHexExpFirst {hex gap source value} : Gap gap → Quoted source value →
      Held .escHexExpFirst hex value (gap ++ '"' :: (source ++ ['\\', 'x']))
  | escHexExpSecond {hex gap source value} : Gap gap → Quoted source value →
      Held .escHexExpSecond hex value (gap ++ '"' :: (source ++ ['\\', 'x', hex]))

theorem not_infix_concat {body : List Char} (inside : ¬ ['*', '/'] <:+: body)
    (apart : c = '/' → body.getLast? ≠ some '*') : ¬ ['*', '/'] <:+: body ++ [c] := by
  rintro part
  rcases List.infix_concat_iff.mp part with suffix | part
  · obtain ⟨front, same⟩ := suffix
    have split : front ++ ['*'] = body ∧ '/' = c := by
      have shape : (front ++ ['*']) ++ ['/'] = body ++ [c] := by simpa using same
      obtain ⟨left, right⟩ := List.append_inj' shape rfl
      exact ⟨left, (List.cons.inj right).1⟩
    refine apart split.2.symm ?_
    rw [← split.1, List.getLast?_concat]
  · exact inside part

/-- What a turn of the automaton makes of what has been read: it goes on, completes a
token, or gives up. -/
inductive Turned (l : Lexer) (c : Char) (read : List Char) : Prop where
  | on : (l.turn c).2 = true → (l.turn c).1.preparedToken.type = .nullToken →
      (l.turn c).1.state ≠ .invalid →
      Held (l.turn c).1.state (l.turn c).1.hex (l.turn c).1.preparedToken.string (read ++ [c]) →
      Turned l c read
  | token (x : Lexeme) : Ended (l.turn c).1 x →
      (∀ rest, Gives (read ++ c :: rest) x (if (l.turn c).2 then rest else c :: rest)) →
      Turned l c read
  | fail : (l.turn c).1.state = .invalid → Turned l c read

theorem turn_start (state : l.state = .start) (c : Char) : l.turn c =
    if isBlank c then (l, true)
    else match symbol c with
    | some x => (l.setType x.type, true)
    | none =>
      if c = '/' then ({ l with state := .commStart }, true)
      else if c = '"' then ({ l.setString [] with state := .inStr }, true)
      else if c.isAlpha then ({ l.setString [c] with state := .inIdentifier }, true)
      else (l.fail (.invalidCharacter c l.line l.col), true) := by
  unfold turn
  simp only [state]
  split <;> try rfl
  -- none of the characters that the switch names
  have blank : isBlank c = false := by
    simp only [isBlank, Bool.or_eq_false_iff, beq_eq_false_iff_ne]
    exact ⟨⟨⟨‹_›, ‹_›⟩, ‹_›⟩, ‹_›⟩
  have none : symbol c = none := by
    unfold Lcfg.symbol
    split <;> first | rfl | exact absurd rfl ‹_›
  have slash : ¬ c = '/' := ‹_›
  have quote : ¬ c = '"' := ‹_›
  rw [blank, if_neg Bool.false_ne_true, none]
  dsimp only
  rw [if_neg slash, if_neg quote]

theorem Held.live {state : ScannerState} {hex : Char} {string read : List Char}
    (held : Held state hex string read) : state ≠ .invalid := by
  cases held <;> exact nofun

theorem At.turned {state : ScannerState} {string read : List Char}
    (at' : At (l.turn c).1 state string) (consumed : (l.turn c).2 = true)
    (held : Held state (l.turn c).1.hex string (read ++ [c])) : Turned l c read :=
  .on consumed at'.type (by rw [at'.state]; exact held.live)
    (by rw [at'.state, at'.string]; exact held)

theorem consumes (outside : l.state ≠ .inIdentifier) : (l.turn c).2 = true := by
  rw [turn_consume, Bool.or_eq_true, bne_iff_ne]
  exact .inl outside

theorem turn_start_sound {read string : List Char} (h : At l .start string) (gap : Gap read) :
    Turned l c read := by
  have shape := turn_start h.state c
  by_cases blank : isBlank c = true
  · rw [if_pos blank] at shape
    have whole : Gap (read ++ [c]) := gap.append (.blank blank .nil)
    refine .on ?_ ?_ ?_ ?_ <;> rw [shape]
    · exact h.type
    · rw [h.state]
      decide
    · rw [h.state]
      exact .start whole
  rw [if_neg blank] at shape
  cases known : symbol c with
  | some x =>
    rw [known] at shape
    dsimp only at shape
    have ended : Ended (l.setType x.type) x := by
      refine ⟨h.state, ?_⟩
      unfold Lcfg.symbol at known
      split at known <;> cases known <;> rfl
    refine .token x (by rw [shape]; exact ended) fun rest => ?_
    rw [shape]
    exact ⟨read, c :: rest, gap, .symbol known, rfl⟩
  | none =>
    rw [known] at shape
    dsimp only at shape
    by_cases slash : c = '/'
    · rw [if_pos slash] at shape
      subst slash
      refine .on ?_ ?_ ?_ ?_ <;> rw [shape]
      · exact h.type
      · exact nofun
      · exact .commStart gap
    rw [if_neg slash] at shape
    by_cases quote : c = '"'
    · rw [if_pos quote] at shape
      subst quote
      refine .on ?_ ?_ ?_ ?_ <;> rw [shape]
      · exact h.type
      · exact nofun
      · exact .inStr gap .nil
    rw [if_neg quote] at shape
    by_cases alpha : c.isAlpha = true
    · rw [if_pos alpha] at shape
      refine .on ?_ ?_ ?_ ?_ <;> rw [shape]
      · exact h.type
      · exact nofun
      · exact .inIdentifier gap alpha fun d none => absurd none List.not_mem_nil
    · rw [if_neg alpha] at shape
      exact .fail (by rw [shape]; rfl)

section Sound
variable {gap body source value string : List Char}

theorem turn_commStart_sound (h : At l .commStart string) (blanks : Gap gap) :
    Turned l c (gap ++ ['/']) := by
  have consumed : (l.turn c).2 = true := consumes (by rw [h.state]; exact nofun)
  by_cases slash : c = '/'
  · subst slash
    refine (turn_commStart h).1.turned consumed ?_
    simpa using @Held.inOneline _ string gap [] blanks List.not_mem_nil
  by_cases star : c = '*'
  · subst star
    refine (turn_commStart h).2.turned consumed ?_
    simpa using @Held.inMultiline _ string gap [] blanks (by simp) nofun
  · refine .fail ?_
    simp only [turn, h.state, slash, star, if_false]
    rfl

theorem turn_oneline_sound (h : At l .inOneline string) (blanks : Gap gap) (inside : '\n' ∉ body) :
    Turned l c (gap ++ '/' :: '/' :: body) := by
  have consumed : (l.turn c).2 = true := consumes (by rw [h.state]; exact nofun)
  have next := turn_oneline (c := c) h
  by_cases newline : c = '\n'
  · rw [if_pos newline] at next
    subst newline
    refine next.turned consumed (.start ?_)
    simpa using blanks.append (.oneline inside .nil)
  · rw [if_neg newline] at next
    refine next.turned consumed ?_
    have longer : '\n' ∉ body ++ [c] := by
      simp only [List.mem_append, List.mem_singleton, not_or]
      exact ⟨inside, Ne.symm newline⟩
    simpa using Held.inOneline blanks longer

theorem turn_multiline_sound (h : At l .inMultiline string) (blanks : Gap gap)
    (inside : ¬ ['*', '/'] <:+: body) (apart : body.getLast? ≠ some '*') :
    Turned l c (gap ++ '/' :: '*' :: body) := by
  have consumed : (l.turn c).2 = true := consumes (by rw [h.state]; exact nofun)
  have next := turn_multiline (c := c) h
  by_cases star : c = '*'
  · rw [if_pos star] at next
    subst star
    refine next.turned consumed ?_
    simpa using Held.multilineEnd blanks inside
  · rw [if_neg star] at next
    refine next.turned consumed ?_
    have longer := not_infix_concat (c := c) inside fun _ => apart
    simpa using Held.inMultiline blanks longer (by simpa using star)

theorem turn_multilineEnd_sound (h : At l .multilineEnd string) (blanks : Gap gap)
    (inside : ¬ ['*', '/'] <:+: body) : Turned l c (gap ++ '/' :: '*' :: (body ++ ['*'])) := by
  have consumed : (l.turn c).2 = true := consumes (by rw [h.state]; exact nofun)
  have next := turn_multilineEnd (c := c) h
  have starred : ¬ ['*', '/'] <:+: body ++ ['*'] := not_infix_concat inside nofun
  by_cases slash : c = '/'
  · rw [if_pos slash] at next
    subst slash
    refine next.turned consumed (.start ?_)
    simpa using blanks.append (.multiline inside .nil)
  rw [if_neg slash] at next
  by_cases star : c = '*'
  · rw [if_pos star] at next
    subst star
    refine next.turned consumed ?_
    simpa using Held.multilineEnd blanks starred
  · rw [if_neg star] at next
    refine next.turned consumed ?_
    have longer := not_infix_concat (c := c) starred fun same => absurd same slash
    simpa using Held.inMultiline blanks longer (by simpa using star)

theorem turn_identifier_sound {first : Char} {tail : List Char}
    (h : At l .inIdentifier (first :: tail)) (blanks : Gap gap) (alpha : first.isAlpha = true)
    (inside : ∀ d ∈ tail, identRest d = true) : Turned l c (gap ++ first :: tail) := by
  by_cases more : identRest c = true
  · refine (turn_identifier h more).turned (by rw [turn_consume, more, Bool.or_true]) ?_
    have longer : ∀ d ∈ tail ++ [c], identRest d = true := by
      intro d member
      rcases List.mem_append.mp member with old | new
      · exact inside d old
      · rw [List.mem_singleton.mp new]
        exact more
    simpa using Held.inIdentifier blanks alpha longer
  · have outside := Bool.eq_false_of_not_eq_true more
    have turned : Ended (l.turn c).1 (.identifier (first :: tail)) ∧ (l.turn c).2 = false := by
      simp only [turn, h.state, outside, Bool.false_eq_true, if_false]
      exact ⟨⟨rfl, congrArg (some ∘ Lexeme.identifier) h.string⟩, trivial⟩
    refine .token _ turned.1 fun rest => ?_
    rw [turned.2]
    exact ⟨gap, first :: (tail ++ c :: rest), blanks, .identifier alpha inside outside, by simp⟩

theorem turn_str_sound (h : At l .inStr value) (blanks : Gap gap) (quoted : Quoted source value) :
    Turned l c (gap ++ '"' :: source) := by
  have consumed : (l.turn c).2 = true := consumes (by rw [h.state]; exact nofun)
  by_cases quote : c = '"'
  · subst quote
    have turned : Ended (l.turn '"').1 (.string value) := by
      simp only [turn, h.state]
      exact ⟨rfl, congrArg (some ∘ Lexeme.string) h.string⟩
    refine .token _ turned fun rest => ?_
    rw [consumed, if_pos rfl]
    exact ⟨gap, _, blanks, .string quoted, by simp⟩
  by_cases slash : c = '\\'
  · subst slash
    refine (turn_backslash h).turned consumed ?_
    simpa using Held.inEsc blanks quoted
  · refine (turn_plain h quote slash).turned consumed ?_
    have longer := quoted.append (.plain quote slash .nil)
    simpa using Held.inStr blanks longer

theorem turn_esc_sound (h : At l .inEsc value) (blanks : Gap gap) (quoted : Quoted source value) :
    Turned l c (gap ++ '"' :: (source ++ ['\\'])) := by
  have consumed : (l.turn c).2 = true := consumes (by rw [h.state]; exact nofun)
  cases known : unescape c with
  | some d =>
    refine (turn_escape h known).turned consumed ?_
    have longer := quoted.append (.escape known .nil)
    simpa using Held.inStr blanks longer
  | none =>
    by_cases hex' : c = 'x'
    · subst hex'
      refine (turn_hex h).turned consumed ?_
      simpa using Held.escHexExpFirst blanks quoted
    · refine .fail ?_
      unfold unescape at known
      simp only [turn, h.state]
      split at known <;> cases known
      split <;> first | rfl | exact absurd rfl ‹_›

end Sound

theorem turn_sound {read : List Char} (type : l.preparedToken.type = .nullToken)
    (held : Held l.state l.hex l.preparedToken.string read) : Turned l c read := by
  generalize state : l.state = st at held
  generalize text : l.preparedToken.string = string at held
  generalize digit : l.hex = hex at held
  have h : At l st string := ⟨state, type, text⟩
  cases held with
  | start gap => exact turn_start_sound h gap
  | commStart blanks => exact turn_commStart_sound h blanks
  | inOneline blanks inside => exact turn_oneline_sound h blanks inside
  | inMultiline blanks inside apart => exact turn_multiline_sound h blanks inside apart
  | multilineEnd blanks inside => exact turn_multilineEnd_sound h blanks inside
  | inIdentifier blanks alpha inside => exact turn_identifier_sound h blanks alpha inside
  | inStr blanks quoted => exact turn_str_sound h blanks quoted
  | inEsc blanks quoted => exact turn_esc_sound h blanks quoted
  | escHexExpFirst blanks quoted =>
    have consumed : (l.turn c).2 = true := consumes (by rw [state]; exact nofun)
    obtain ⟨next, stored⟩ := turn_hexFirst (c := c) h
    refine next.turned consumed ?_
    rw [stored]
    simpa using (Held.escHexExpSecond blanks quoted : Held _ c string _)
  | escHexExpSecond blanks quoted =>
    have consumed : (l.turn c).2 = true := consumes (by rw [state]; exact nofun)
    refine (turn_hexSecond h).turned consumed ?_
    rw [digit]
    have longer := quoted.append (.hex hex c .nil)
    simpa using Held.inStr blanks longer

/-- If the automaton ends where it started, it has read a gap or a token. -/
theorem run_sound (read : List Char) {text : List Char} (type : l.preparedToken.type = .nullToken)
    (held : Held l.state l.hex l.preparedToken.string read) (ok : (l.run text).1.state = .start) :
    ((l.run text).1.preparedToken.type = .nullToken ∧ (l.run text).2 = [] ∧ Gap (read ++ text)) ∨
      ∃ x, Ended (l.run text).1 x ∧ Gives (read ++ text) x (l.run text).2 := by
  induction text generalizing l read with
  | nil =>
    have start : l.state = .start := ok
    rw [start] at held
    cases held with
    | start gap => exact .inl ⟨type, rfl, by rwa [List.append_nil]⟩
  | cons c rest ih =>
    cases turn_sound (c := c) type held with
    | on consumed next live longer =>
      have going : (l.step c).1.stops = false := by
        rw [stops, step_type, step_state, next]
        simpa using live
      rw [run_cons going] at ok ⊢
      have result := ih (read ++ [c]) (by rw [step_type, next])
        (by rw [step_state, step_hex, step_string]; exact longer) ok
      rwa [List.append_assoc] at result
    | token x ended gives =>
      obtain ⟨reached, left⟩ := ended.run rest
      exact .inr ⟨x, reached, left ▸ gives rest⟩
    | fail invalid =>
      have stopped : (l.step c).1.stops = true := by
        rw [stops, step_state, invalid]
        exact Bool.or_true _
      rw [run, if_pos stopped, step_state, invalid] at ok
      cases ok

end Lexer

namespace Scanner
variable {s : Scanner} {x : Lexeme} {rest : List Char}

/-- The automaton at the start of a token. -/
def fresh (s : Scanner) : Lexer := { s.lexer with state := .start }.setType .nullToken

theorem fresh_at (s : Scanner) : s.fresh.At .start s.lexer.preparedToken.string := ⟨rfl, rfl, rfl⟩

theorem tokenRead_ok_iff (s : Scanner) :
    s.tokenRead.1 = .ok ↔ (s.fresh.run s.reader.unread).1.state = .start := by
  have same := (tokenReadLoop_spec { s with lexer := s.fresh } '\x00').1
  rw [tokenRead]
  dsimp only
  rw [show ({ s.lexer with state := .start } : Lexer).setType .nullToken = s.fresh from rfl, same]
  split
  · exact ⟨fun _ => ‹_›, fun _ => rfl⟩
  · split <;> exact ⟨nofun, fun start => absurd start ‹_›⟩

theorem tokenRead_spec (ok : s.tokenRead.1 = .ok) :
    s.tokenRead.2.lexer = (s.fresh.run s.reader.unread).1 ∧
      s.tokenRead.2.reader.unread = (s.fresh.run s.reader.unread).2 := by
  have start := s.tokenRead_ok_iff.mp ok
  have same := tokenReadLoop_spec { s with lexer := s.fresh } '\x00'
  rw [tokenRead]
  dsimp only
  rw [show ({ s.lexer with state := .start } : Lexer).setType .nullToken = s.fresh from rfl,
    if_pos (same.1 ▸ start)]
  exact same

/-- Only a gap is left: there is no further token. -/
theorem tokenRead_gap (gap : Gap s.reader.unread) : s.tokenRead.1 = .ok ∧
    s.tokenRead.2.lexer.preparedToken.type = .nullToken ∧ s.tokenRead.2.reader.unread = [] := by
  obtain ⟨l, leads, reached⟩ := Lexer.gap_leads s.fresh_at gap
  have whole : s.fresh.run s.reader.unread = (l, []) := by
    have same := leads []
    rwa [List.append_nil] at same
  have ok : s.tokenRead.1 = .ok := s.tokenRead_ok_iff.mpr (by rw [whole]; exact reached.state)
  obtain ⟨lexer, unread⟩ := tokenRead_spec ok
  rw [lexer, unread, whole]
  exact ⟨ok, reached.type, rfl⟩

theorem tokenRead_gives (gives : Gives s.reader.unread x rest) : s.tokenRead.1 = .ok ∧
    s.tokenRead.2.lexer.preparedToken.lexeme = some x ∧ s.tokenRead.2.reader.unread = rest := by
  obtain ⟨gap, spelt, blanks, spells, text⟩ := gives
  obtain ⟨l, leads, reached⟩ := Lexer.gap_leads s.fresh_at blanks
  obtain ⟨ended, left⟩ := Lexer.spells_complete reached spells
  have whole : s.fresh.run s.reader.unread = l.run spelt := by rw [text, leads]
  have ok : s.tokenRead.1 = .ok := s.tokenRead_ok_iff.mpr (by rw [whole]; exact ended.state)
  obtain ⟨lexer, unread⟩ := tokenRead_spec ok
  rw [lexer, unread, whole]
  exact ⟨ok, ended.lexeme, left⟩

/-- Nothing else is accepted. -/
theorem tokenRead_sound (ok : s.tokenRead.1 = .ok) :
    Gap s.reader.unread ∨ ∃ x rest, Gives s.reader.unread x rest := by
  rcases Lexer.run_sound [] s.fresh_at.type (.start .nil) (s.tokenRead_ok_iff.mp ok) with
    ⟨_, _, gap⟩ | ⟨x, _, gives⟩
  · exact .inl gap
  · exact .inr ⟨x, _, gives⟩

end Scanner
end SpinEmu.Lcfg
