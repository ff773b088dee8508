import SpinEmu.LcfgGrammar

/-! Configuration files as a whole: the texts that are accepted, the values found under a
key, and a text for every tree. -/
namespace SpinEmu.Lcfg
open Lib

/-- The part of `struct lcfg` and its parser that outlives the parsing. -/
structure Context where
  values : List (List Char × List Char)
  error : LcfgError

/-- What the parser has not read yet: a token of no type. -/
def noToken : Token := { type := .nullToken, string := [], line := 0, col := 0 }

/-- `lcfg_parse`, for a file that cannot be opened or whose `read` gives these pieces. -/
def parse (file : Except String (List Piece)) : Status × Context :=
  match file with
  | .error reason => (.error, { values := [], error := .openFailed reason })
  | .ok reads =>
    let result := Parser.parse (.new reads) noToken
    (result.1, { values := result.2.pda.values, error := result.2.scanner.lexer.error })

/-- `lcfg_parser_get`, with what `data` and `len` stood for before. -/
def Context.valueGet (c : Context) (key data : List Char) : Status × List Char :=
  match c.values.find? (·.1 == key) with
  | some (_, value) => (.ok, value)
  | none => (.error, data)

/-- A way of writing the entries. -/
def Writes (text : List Char) (entries : Entries) : Prop :=
  ∃ xs, Text text xs ∧ EntriesTokens entries xs

theorem Text.valid {text : List Char} {xs : List Lexeme} (h : Text text xs) :
    ∀ x ∈ xs, x.Valid := by
  induction h with
  | done => exact fun x none => absurd none List.not_mem_nil
  | token gives _ ih =>
    intro x member
    rcases List.mem_cons.mp member with rfl | member
    · obtain ⟨gap, spelt, _, spells, _⟩ := gives
      rintro name rfl
      cases spells with
      | symbol known =>
        unfold symbol at known
        split at known <;> cases known
      | identifier alpha inside _ => exact ⟨_, _, rfl, alpha, inside⟩
    · exact ih x member

theorem stores_iff {reads : List Piece} {values : List (List Char × List Char)} :
    (parse (.ok reads)).1 = .ok ∧ (parse (.ok reads)).2.values = values ↔
      ∃ entries, Writes (BlockStream.delivered reads) entries ∧ entries.bindings [] = values := by
  have stored := @Parser.parse_stores_iff (.new reads) noToken values
  rw [show (Scanner.new reads).reader.unread = BlockStream.delivered reads from
    Reader.unread_new reads] at stored
  refine stored.trans ⟨?_, ?_⟩
  · rintro ⟨xs, text, accepted⟩
    obtain ⟨entries, tokens, same⟩ := (Pda.accepts_iff text.valid).mp accepted
    exact ⟨entries, ⟨xs, text, tokens⟩, same⟩
  · rintro ⟨entries, ⟨xs, text, tokens⟩, same⟩
    exact ⟨xs, text, (Pda.accepts_iff text.valid).mpr ⟨entries, tokens, same⟩⟩

/-- A file is accepted exactly if what is read of it is a way of writing some entries, and
then their strings are stored, whichever entries it is taken to write. -/
theorem parse_writes (reads : List Piece) :
    ((parse (.ok reads)).1 = .ok ↔ ∃ entries, Writes (BlockStream.delivered reads) entries) ∧
      ∀ entries, Writes (BlockStream.delivered reads) entries →
        (parse (.ok reads)).2.values = entries.bindings [] := by
  refine ⟨⟨fun accepted => ?_, ?_⟩, fun entries writes => ?_⟩
  · obtain ⟨entries, writes, _⟩ := stores_iff.mp ⟨accepted, rfl⟩
    exact ⟨entries, writes⟩
  · rintro ⟨entries, writes⟩
    exact (stores_iff.mpr ⟨entries, writes, rfl⟩).1
  · exact (stores_iff.mpr ⟨entries, writes, rfl⟩).2

/-! How the file comes in pieces does not matter. -/

/-- The scanners differ at most in their buffers. -/
structure Scanner.Alike (s s' : Scanner) : Prop where
  lexer : s.lexer = s'.lexer
  unread : s.reader.unread = s'.reader.unread

theorem Scanner.Alike.setError {s s' : Scanner} (alike : s.Alike s') (error : LcfgError) :
    (s.setError error).Alike (s'.setError error) :=
  ⟨by rw [Scanner.setError, Scanner.setError, alike.lexer], alike.unread⟩

theorem Scanner.Alike.tokenRead {s s' : Scanner} (alike : s.Alike s') :
    s.tokenRead.1 = s'.tokenRead.1 ∧ s.tokenRead.2.Alike s'.tokenRead.2 := by
  have fresh : s.fresh = s'.fresh := by rw [fresh, fresh, alike.lexer]
  have loop : (tokenReadLoop { s with lexer := s.fresh } '\x00').Alike
      (tokenReadLoop { s' with lexer := s'.fresh } '\x00') := by
    obtain ⟨lexer, unread⟩ := tokenReadLoop_spec { s with lexer := s.fresh } '\x00'
    obtain ⟨lexer', unread'⟩ := tokenReadLoop_spec { s' with lexer := s'.fresh } '\x00'
    constructor
    · rw [lexer, lexer', fresh, alike.unread]
    · rw [unread, unread', fresh, alike.unread]
  unfold Scanner.tokenRead
  dsimp only
  rw [show ({ s.lexer with state := .start } : Lexer).setType .nullToken = s.fresh from rfl,
    show ({ s'.lexer with state := .start } : Lexer).setType .nullToken = s'.fresh from rfl,
    loop.lexer]
  split
  · exact ⟨rfl, loop⟩
  · split
    · exact ⟨rfl, loop⟩
    · exact ⟨rfl, loop.setError _⟩

theorem Scanner.Alike.hasNext {s s' : Scanner} (alike : s.Alike s') : s.hasNext = s'.hasNext := by
  rw [Scanner.hasNext, Scanner.hasNext, alike.lexer]

theorem Scanner.Alike.nextToken {s s' : Scanner} (alike : s.Alike s') (t : Token) :
    (s.nextToken t).1 = (s'.nextToken t).1 ∧ (s.nextToken t).2.1 = (s'.nextToken t).2.1 ∧
      (s.nextToken t).2.2.Alike (s'.nextToken t).2.2 := by
  rw [Scanner.nextToken, Scanner.nextToken, alike.hasNext]
  split
  · exact ⟨alike.tokenRead.1, by rw [alike.lexer], alike.tokenRead.2⟩
  · exact ⟨rfl, rfl, alike.setError _⟩

namespace Parser

/-- The parsers differ at most in the buffers of their scanners. -/
structure Alike (p p' : Parser) : Prop where
  scanner : p.scanner.Alike p'.scanner
  pda : p.pda = p'.pda

theorem Alike.step {p p' : Parser} (alike : p.Alike p') (t : Token) :
    (p.step t).Alike (p'.step t) := by
  constructor
  · rw [Parser.step, Parser.step, alike.pda]
    dsimp only
    split
    · exact alike.scanner.setError _
    · exact alike.scanner
  · rw [Parser.step, Parser.step, alike.pda]

theorem Alike.parseLoop {p p' : Parser} {t : Token} (alike : p.Alike p') :
    (p.parseLoop t).1 = (p'.parseLoop t).1 ∧ (p.parseLoop t).2.Alike (p'.parseLoop t).2 := by
  fun_induction Parser.parseLoop p t generalizing p' with
  | case1 p t more next ih =>
    obtain ⟨status, token, scanner⟩ := alike.scanner.nextToken t
    have more' := alike.scanner.hasNext ▸ alike.pda ▸ more
    rw [Parser.parseLoop.eq_def p' t, dif_pos more', dif_pos (status ▸ next), ← token]
    have next' : Alike { p with scanner := (p.scanner.nextToken t).2.2 }
        { p' with scanner := (p'.scanner.nextToken t).2.2 } := ⟨scanner, alike.pda⟩
    exact ih (next'.step _)
  | case2 p t more failed =>
    obtain ⟨status, token, scanner⟩ := alike.scanner.nextToken t
    have more' := alike.scanner.hasNext ▸ alike.pda ▸ more
    rw [Parser.parseLoop.eq_def p' t, dif_pos more', dif_neg (status ▸ failed)]
    exact ⟨rfl, scanner, alike.pda⟩
  | case3 p t ended =>
    have ended' := alike.scanner.hasNext ▸ alike.pda ▸ ended
    rw [Parser.parseLoop.eq_def p' t, dif_neg ended']
    exact ⟨rfl, alike⟩

theorem parse_alike {s s' : Scanner} (alike : s.Alike s') (t : Token) :
    (parse s t).1 = (parse s' t).1 ∧ (parse s t).2.Alike (parse s' t).2 := by
  obtain ⟨first, scanner⟩ := alike.tokenRead
  have both : Alike ⟨s.tokenRead.2, .start⟩ ⟨s'.tokenRead.2, .start⟩ := ⟨scanner, rfl⟩
  obtain ⟨looped, result⟩ := both.parseLoop (t := t)
  unfold parse
  dsimp only
  rw [first, looped, result.pda]
  split
  · split
    · split
      · exact ⟨rfl, result⟩
      · exact ⟨rfl, result.scanner.setError _, rfl⟩
    · exact ⟨looped, result⟩
  · exact ⟨rfl, scanner, rfl⟩

end Parser

/-- What comes of a file depends on what `read` delivers of it, not on the pieces. -/
theorem parse_congr {reads reads' : List Piece}
    (same : BlockStream.delivered reads = BlockStream.delivered reads') :
    parse (.ok reads) = parse (.ok reads') := by
  have alike : (Scanner.new reads).Alike (Scanner.new reads') :=
    ⟨rfl, (Reader.unread_new reads).trans (same.trans (Reader.unread_new reads').symm)⟩
  obtain ⟨status, scanner, pda⟩ := Parser.parse_alike alike noToken
  unfold parse
  dsimp only
  rw [status, pda, scanner.lexer]

/-- A file comes to what a regular file with all that is delivered comes to; that is the
whole file exactly if nothing comes after a piece that is not full. -/
theorem parse_pieces (reads : List Piece) :
    parse (.ok reads) = parse (.ok (BlockStream.pieces (by decide) (BlockStream.delivered reads))) ∧
      (BlockStream.delivered reads = BlockStream.sent reads ↔ BlockStream.Unbroken reads) :=
  ⟨parse_congr (BlockStream.delivered_pieces _ _).symm, BlockStream.delivered_eq_sent_iff reads⟩

/-! A text for every tree. -/

/-- Only the quote and the backslash need an escape. -/
def quoteChar (c : Char) : List Char :=
  if c = '"' then ['\\', '"'] else if c = '\\' then ['\\', '\\'] else [c]

mutual

def Value.print : Value → List Char
  | .str value => '"' :: (value.flatMap quoteChar ++ ['"'])
  | .list items => '[' :: (items.print ++ [']'])
  | .map entries => '\x7b' :: (entries.print ++ ['\x7d'])

def Items.print : Items → List Char
  | .nil => []
  | .cons value rest => value.print ++ ',' :: rest.print

def Entries.print : Entries → List Char
  | .nil => []
  | .cons key value rest => key.val ++ '=' :: (value.print ++ '\n' :: rest.print)

end

theorem quoted_flatMap (value : List Char) : Quoted (value.flatMap quoteChar) value := by
  induction value with
  | nil => exact .nil
  | cons c value ih =>
    rw [List.flatMap_cons, quoteChar]
    split
    · rename_i quote
      subst quote
      exact .escape rfl ih
    · split
      · rename_i slash
        subst slash
        exact .escape rfl ih
      · exact .plain ‹_› ‹_› ih

theorem Text.gap {gap text : List Char} {xs : List Lexeme} (blanks : Gap gap) (h : Text text xs) :
    Text (gap ++ text) xs := by
  cases h with
  | done more => exact .done (blanks.append more)
  | token gives rest =>
    obtain ⟨gap', spelt, more, spells, rfl⟩ := gives
    exact .token ⟨gap ++ gap', spelt, blanks.append more, spells, by rw [List.append_assoc]⟩ rest

theorem Text.cons {c : Char} {x : Lexeme} {text : List Char} {xs : List Lexeme}
    (known : symbol c = some x) (h : Text text xs) : Text (c :: text) (x :: xs) :=
  .token ⟨[], _, .nil, .symbol known, rfl⟩ h

mutual

/-- Printing a value puts its tokens in front of those that follow. -/
theorem value_print : (value : Value) → ∃ ys, ValueTokens value ys ∧
    ∀ {rest : List Char} {xs : List Lexeme}, Text rest xs → Text (value.print ++ rest) (ys ++ xs)
  | .str value => by
    refine ⟨[.string value], .str value, fun {rest xs} follow => ?_⟩
    refine .token ⟨[], _, .nil, .string (quoted_flatMap value), ?_⟩ follow
    simp [Value.print]
  | .list items => by
    obtain ⟨ys, tokens, printed⟩ := items_print items
    refine ⟨_, .list tokens, fun {rest xs} follow => ?_⟩
    have closed := printed (Text.cons (c := ']') rfl follow)
    simpa [Value.print] using Text.cons (c := '[') rfl closed
  | .map entries => by
    obtain ⟨ys, tokens, printed⟩ := entries_print entries
    refine ⟨_, .map tokens, fun {rest xs} follow => ?_⟩
    have closed := printed (Text.cons (c := '\x7d') rfl follow)
    simpa [Value.print] using Text.cons (c := '\x7b') rfl closed

theorem items_print : (items : Items) → ∃ ys, ItemsTokens items ys ∧
    ∀ {rest : List Char} {xs : List Lexeme}, Text rest xs → Text (items.print ++ rest) (ys ++ xs)
  | .nil => ⟨[], .nil, fun follow => follow⟩
  | .cons value items => by
    obtain ⟨ys, first, printed⟩ := value_print value
    obtain ⟨zs, others, printed'⟩ := items_print items
    refine ⟨ys ++ .comma :: zs, .cons first (.comma others), fun {rest xs} follow => ?_⟩
    have back := printed (Text.cons (c := ',') rfl (printed' follow))
    simpa [Items.print] using back

theorem entries_print : (entries : Entries) → ∃ ys, EntriesTokens entries ys ∧
    ∀ {rest : List Char} {xs : List Lexeme}, Text rest xs → Text (entries.print ++ rest) (ys ++ xs)
  | .nil => ⟨[], .nil, fun follow => follow⟩
  | .cons key value entries => by
    obtain ⟨ys, first, printed⟩ := value_print value
    obtain ⟨zs, others, printed'⟩ := entries_print entries
    refine ⟨_, .cons key first others, fun {rest xs} follow => ?_⟩
    have newline : Gap ['\n'] := .blank rfl .nil
    have back := Text.cons (c := '=') rfl (printed ((printed' follow).gap newline))
    obtain ⟨name, c, tail, rfl, alpha, inside⟩ := key
    have named := Text.token ⟨[], _, .nil, .identifier alpha inside rfl, rfl⟩ back
    simpa [Entries.print] using named

end

theorem writes_print (entries : Entries) :
    Writes (BlockStream.delivered (BlockStream.pieces (by decide) entries.print : List Piece))
      entries := by
  obtain ⟨ys, tokens, printed⟩ := entries_print entries
  have text := printed (.done .nil)
  rw [List.append_nil, List.append_nil] at text
  rw [BlockStream.delivered_pieces]
  exact ⟨ys, text, tokens⟩

/-- The text of the entries is read back as their strings. -/
theorem parse_print (entries : Entries) :
    (parse (.ok (BlockStream.pieces (by decide) entries.print))).1 = .ok ∧
      (parse (.ok (BlockStream.pieces (by decide) entries.print))).2.values =
        entries.bindings [] :=
  stores_iff.mpr ⟨entries, writes_print entries, rfl⟩

/-! A key of the interface is a path with dots; what is found is the first string there. -/

mutual

/-- The first string under a path. The places of a list are named by their numbers. -/
def Value.find : Value → List (List Char) → Option (List Char)
  | .str value, [] => some value
  | .str _, _ :: _ => none
  | .list items, path => items.find 0 path
  | .map entries, path => entries.find path

def Items.find : Items → Nat → List (List Char) → Option (List Char)
  | .nil, _, _ => none
  | .cons _ rest, n, [] => rest.find (n + 1) []
  | .cons value rest, n, part :: path =>
    (if catUint n = part then value.find path else none).or (rest.find (n + 1) (part :: path))

def Entries.find : Entries → List (List Char) → Option (List Char)
  | .nil, _ => none
  | .cons _ _ rest, [] => rest.find []
  | .cons key value rest, part :: path =>
    (if key.val = part then value.find path else none).or (rest.find (part :: path))

end

def dotted (parts : List (List Char)) : List Char := ['.'].intercalate parts

/-- What is left of a path below another one. -/
def strip : List (List Char) → List (List Char) → Option (List (List Char))
  | [], path => some path
  | _ :: _, [] => none
  | part :: parts, first :: path => if part = first then strip parts path else none

def lookup (key : List Char) (values : List (List Char × List Char)) : Option (List Char) :=
  (values.find? (·.1 == key)).map (·.2)

theorem lookup_append (key : List Char) (front back : List (List Char × List Char)) :
    lookup key (front ++ back) = (lookup key front).or (lookup key back) := by
  rw [lookup, List.find?_append, Option.map_or]
  rfl

/-- The parts of a path inside a tree. -/
def Parts (parts : List (List Char)) : Prop := ∀ part ∈ parts, part ≠ [] ∧ '.' ∉ part

theorem Parts.concat {parts : List (List Char)} {part : List Char} (h : Parts parts)
    (some' : part ≠ []) (dot : '.' ∉ part) : Parts (parts ++ [part]) := by
  intro other member
  rcases List.mem_append.mp member with old | new
  · exact h other old
  · rw [List.mem_singleton.mp new]
    exact ⟨some', dot⟩

theorem dotted_concat {parts : List (List Char)} {part : List Char} (h : Parts parts) :
    dotted (parts ++ [part]) = pathPush (dotted parts) part := by
  have whole (first : List Char) (rest : List (List Char)) :
      dotted (first :: rest ++ [part]) = dotted (first :: rest) ++ '.' :: part := by
    induction rest generalizing first with
    | nil => simp [dotted, List.intercalate]
    | cons second rest ih =>
      have inner := ih second
      simp only [dotted, List.intercalate, List.cons_append, List.intersperse_cons_cons,
        List.flatten_cons] at inner ⊢
      rw [inner]
      simp
  cases parts with
  | nil => simp [dotted, List.intercalate, pathPush]
  | cons first rest =>
    have some' : dotted (first :: rest) ≠ [] := by
      have start := (h first List.mem_cons_self).1
      cases rest <;> simp [dotted, List.intercalate, start]
    rw [whole, pathPush, if_pos (by simpa using some'), List.append_assoc]
    rfl

theorem strip_concat (parts path : List (List Char)) (part : List Char) :
    strip (parts ++ [part]) path = (strip parts path).bind fun
      | [] => none
      | first :: rest => if part = first then some rest else none := by
  induction parts generalizing path with
  | nil =>
    cases path with
    | nil => rfl
    | cons first rest => rfl
  | cons head parts ih =>
    cases path with
    | nil => rfl
    | cons first rest =>
      rw [List.cons_append, strip, strip]
      split
      · exact ih rest
      · rfl

theorem strip_eq_some_nil {parts path : List (List Char)} :
    strip parts path = some [] ↔ parts = path := by
  fun_induction strip parts path with
  | case1 path => simp [eq_comm]
  | case2 => simp
  | case3 part parts path ih => simpa using ih
  | case4 part parts first path other => simp [other]

theorem catUint_ne_nil (n : Nat) : catUint n ≠ [] := Nat.toDigits_ne_nil

theorem Ident.ne_nil {name : List Char} (ident : Ident name) : name ≠ [] := by
  obtain ⟨c, tail, rfl, _⟩ := ident
  exact List.cons_ne_nil c tail

mutual

theorem value_lookup {parts : List (List Char)} (h : Parts parts) (below : parts ≠ [])
    (key : List Char) : (value : Value) → lookup key (value.bindings (dotted parts)) =
      (strip parts (key.splitOn '.')).bind value.find
  | .str value => by
    have same : dotted parts = key ↔ strip parts (key.splitOn '.') = some [] := by
      rw [strip_eq_some_nil]
      constructor
      · rintro rfl
        exact (List.splitOn_intercalate '.' (fun part member => (h part member).2) below).symm
      · rintro rfl
        exact List.intercalate_splitOn '.'
    rw [Value.bindings, lookup, List.find?_singleton]
    by_cases here : dotted parts = key
    · rw [same.mp here, if_pos (beq_iff_eq.mpr here)]
      rfl
    · rw [if_neg (by simpa using here)]
      cases left : strip parts (key.splitOn '.') with
      | none => rfl
      | some path =>
        cases path with
        | nil => exact absurd (same.mpr left) here
        | cons part path => rfl
  | .list items => by
    rw [Value.bindings, items_lookup h key 0 items]
    cases strip parts (key.splitOn '.') <;> rfl
  | .map entries => by
    rw [Value.bindings, entries_lookup h key entries]
    cases strip parts (key.splitOn '.') <;> rfl

theorem items_lookup {parts : List (List Char)} (h : Parts parts) (key : List Char) (n : Nat) :
    (items : Items) → lookup key (items.bindings (dotted parts) n) =
      (strip parts (key.splitOn '.')).bind (items.find n)
  | .nil => by
    rw [Items.bindings]
    cases strip parts (key.splitOn '.') <;> rfl
  | .cons value rest => by
    have deeper := h.concat (catUint_ne_nil n) (part_catUint n).dot
    rw [Items.bindings, lookup_append, ← dotted_concat h, value_lookup deeper (by simp) key value,
      strip_concat, items_lookup h key (n + 1) rest]
    cases strip parts (key.splitOn '.') with
    | none => rfl
    | some path =>
      cases path with
      | nil => rfl
      | cons part path =>
        simp only [Option.bind_some, Items.find]
        split <;> rfl

theorem entries_lookup {parts : List (List Char)} (h : Parts parts) (key : List Char) :
    (entries : Entries) → lookup key (entries.bindings (dotted parts)) =
      (strip parts (key.splitOn '.')).bind entries.find
  | .nil => by
    rw [Entries.bindings]
    cases strip parts (key.splitOn '.') <;> rfl
  | .cons name value rest => by
    have deeper := h.concat name.property.ne_nil name.property.part.dot
    rw [Entries.bindings, lookup_append, ← dotted_concat h, value_lookup deeper (by simp) key value,
      strip_concat, entries_lookup h key rest]
    cases strip parts (key.splitOn '.') with
    | none => rfl
    | some path =>
      cases path with
      | nil => rfl
      | cons part path =>
        simp only [Option.bind_some, Entries.find]
        split <;> rfl

end

theorem lookup_bindings (key : List Char) (entries : Entries) :
    lookup key (entries.bindings []) = entries.find (key.splitOn '.') :=
  @entries_lookup [] (fun _ none => absurd none List.not_mem_nil) key entries

theorem valueGet_lookup {reads : List Piece} {entries : Entries} (key data : List Char)
    (writes : Writes (BlockStream.delivered reads) entries) :
    (parse (.ok reads)).2.valueGet key data = match lookup key (entries.bindings []) with
      | some value => (.ok, value)
      | none => (.error, data) := by
  have stored := (stores_iff.mpr ⟨entries, writes, rfl⟩).2
  rw [Context.valueGet, stored, lookup]
  cases (entries.bindings []).find? (·.1 == key) <;> rfl

/-- Whatever an accepted file looks like, a key finds the first string under its path. -/
theorem valueGet_find {reads : List Piece} {entries : Entries} (key data : List Char)
    (writes : Writes (BlockStream.delivered reads) entries) :
    (parse (.ok reads)).2.valueGet key data = match entries.find (key.splitOn '.') with
      | some value => (.ok, value)
      | none => (.error, data) := by
  rw [valueGet_lookup key data writes, lookup_bindings]

/-- Two chips by one, and the names of the hosts. -/
def sampleEntries : Entries :=
  .cons ⟨"X_CHIPS".toList, 'X', "_CHIPS".toList, rfl, rfl, List.all_eq_true.mp rfl⟩
    (.str "2".toList)
    (.cons ⟨"Y_CHIPS".toList, 'Y', "_CHIPS".toList, rfl, rfl, List.all_eq_true.mp rfl⟩
      (.str "1".toList)
      (.cons ⟨"hosts".toList, 'h', "osts".toList, rfl, rfl, List.all_eq_true.mp rfl⟩ (.list
        (.cons (.str "a".toList) (.cons (.str "b".toList) .nil))) .nil))

theorem valueGet_sample : (parse (.ok (BlockStream.pieces (by decide) sampleEntries.print))).2.valueGet
    "hosts.1".toList [] = (.ok, "b".toList) :=
  valueGet_find "hosts.1".toList [] (writes_print sampleEntries)

end SpinEmu.Lcfg
