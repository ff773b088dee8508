import SpinEmu.LcfgParser
import Mathlib.Data.Nat.Digits.Defs

/-! The syntax trees of the configuration language, the tokens that a tree can be written
as, and the values that it stands for. The push down automaton accepts exactly these. -/
namespace SpinEmu.Lcfg

/-- What the scanner reads as an identifier. -/
def Ident (name : List Char) : Prop :=
  ∃ c tail, name = c :: tail ∧ c.isAlpha = true ∧ ∀ d ∈ tail, identRest d = true

abbrev Key : Type := { name : List Char // Ident name }

mutual

/-- A value: a string, a list or a map. -/
inductive Value where
  | str (value : List Char)
  | list (items : Items)
  | map (entries : Entries)

inductive Items where
  | nil
  | cons (value : Value) (rest : Items)

inductive Entries where
  | nil
  | cons (key : Key) (value : Value) (rest : Entries)

end

mutual

/-- The tokens that stand for a tree. Commas may stand anywhere in a list. -/
inductive ValueTokens : Value → List Lexeme → Prop where
  | str (value : List Char) : ValueTokens (.str value) [.string value]
  | list {items xs} : ItemsTokens items xs →
      ValueTokens (.list items) (.sbracketOpen :: (xs ++ [.sbracketClose]))
  | map {entries xs} : EntriesTokens entries xs →
      ValueTokens (.map entries) (.braceOpen :: (xs ++ [.braceClose]))

inductive ItemsTokens : Items → List Lexeme → Prop where
  | nil : ItemsTokens .nil []
  | comma {items xs} : ItemsTokens items xs → ItemsTokens items (.comma :: xs)
  | cons {value items xs ys} : ValueTokens value xs → ItemsTokens items ys →
      ItemsTokens (.cons value items) (xs ++ ys)

inductive EntriesTokens : Entries → List Lexeme → Prop where
  | nil : EntriesTokens .nil []
  | cons (key : Key) {value entries xs ys} : ValueTokens value xs → EntriesTokens entries ys →
      EntriesTokens (.cons key value entries) (.identifier key :: .equals :: (xs ++ ys))

end

mutual

/-- The strings of a tree in the order of the text, each under its path. -/
def Value.bindings (path : List Char) : Value → List (List Char × List Char)
  | .str value => [(path, value)]
  | .list items => items.bindings path 0
  | .map entries => entries.bindings path

def Items.bindings (path : List Char) (n : Nat) : Items → List (List Char × List Char)
  | .nil => []
  | .cons value rest => value.bindings (pathPush path (catUint n)) ++ rest.bindings path (n + 1)

def Entries.bindings (path : List Char) : Entries → List (List Char × List Char)
  | .nil => []
  | .cons key value rest => value.bindings (pathPush path key.val) ++ rest.bindings path

end

def Items.length : Items → Nat
  | .nil => 0
  | .cons _ rest => rest.length + 1

/-- A part of a path: no dot separates it, and C can print it. -/
structure Part (part : List Char) : Prop where
  dot : '.' ∉ part
  null : '\x00' ∉ part

theorem part_catUint (n : Nat) : Part (catUint n) := by
  have digit {c : Char} (member : c ∈ catUint n) : c.isDigit = true :=
    Nat.isDigit_of_mem_toDigits (by decide) le_rfl member
  exact ⟨fun dot => absurd (digit dot) (by decide), fun null => absurd (digit null) (by decide)⟩

theorem Ident.part {name : List Char} (ident : Ident name) : Part name := by
  obtain ⟨c, tail, rfl, alpha, inside⟩ := ident
  have no {d : Char} (first : d.isAlpha = false) (rest : identRest d = false) : d ∉ c :: tail := by
    intro member
    rcases List.mem_cons.mp member with rfl | member
    · rw [alpha] at first
      cases first
    · rw [inside d member] at rest
      cases rest
  exact ⟨no (by decide) (by decide), no (by decide) (by decide)⟩

theorem cstr_of_not_mem {text : List Char} (null : '\x00' ∉ text) : cstr text = text := by
  rw [cstr, List.takeWhile_eq_self_iff]
  intro c member
  rw [bne_iff_ne]
  rintro rfl
  exact null member

theorem stringRfind_append {front part : List Char} (dot : '.' ∉ part) :
    stringRfind (front ++ '.' :: part) '.' = some front.length := by
  have below (i : Nat) (inside : i ≤ part.length) :
      rfindBelow (front ++ '.' :: part) '.' (front.length + 1 + i) = some front.length := by
    induction i with
    | zero =>
      rw [Nat.add_zero, rfindBelow, List.getElem?_append_right le_rfl, Nat.sub_self]
      rfl
    | succ i ih =>
      rw [← Nat.add_assoc, rfindBelow, if_neg, ih (by omega)]
      rw [List.getElem?_append_right (by omega), show front.length + 1 + i - front.length = i + 1 by
        omega, List.getElem?_cons_succ]
      exact fun here => dot (List.mem_of_getElem? here)
  have whole : (front ++ '.' :: part).length = front.length + 1 + part.length := by
    rw [List.length_append, List.length_cons]
    omega
  rw [stringRfind, whole, below _ le_rfl]

theorem stringRfind_of_not_mem {text : List Char} (dot : '.' ∉ text) :
    stringRfind text '.' = none := by
  have below (i : Nat) : rfindBelow text '.' i = none := by
    induction i with
    | zero => rfl
    | succ i ih =>
      rw [rfindBelow, if_neg fun here => dot (List.mem_of_getElem? here), ih]
  exact below _

theorem pathPop_pathPush (path : List Char) {part : List Char} (dot : '.' ∉ part) :
    pathPop (pathPush path part) = path := by
  rw [pathPush, pathPop]
  by_cases empty : path.length = 0
  · rw [List.eq_nil_of_length_eq_zero empty, if_neg (by simp), List.nil_append,
      stringRfind_of_not_mem dot]
    rfl
  · rw [if_pos empty, List.append_assoc, List.singleton_append, stringRfind_append dot]
    exact List.take_left

theorem not_mem_pathPush {path part : List Char} (hpath : '\x00' ∉ path) (hpart : '\x00' ∉ part) :
    '\x00' ∉ pathPush path part := by
  rw [pathPush]
  split <;> simp [hpath, hpart]

namespace Pda

theorem addValue_values {p : Pda} {value : List Char} (null : '\x00' ∉ p.currentPath) :
    p.addValue value = { p with values := p.values ++ [(p.currentPath, value)] } := by
  rw [addValue, cstr_of_not_mem null]

mutual

/-- A value closes the place it is read at: what was below is on top again. -/
theorem value_read {value : Value} {xs : List Lexeme} {below : List StateElement} {path : List Char}
    {values : List (List Char × List Char)} (null : '\x00' ∉ path) :
    ValueTokens value xs → (⟨⟨.expValue, 0⟩ :: below, path, values⟩ : Pda).read xs =
      ⟨below, pathPop path, values ++ value.bindings path⟩
  | .str value => by
    have step : ((⟨⟨.expValue, 0⟩ :: below, path, values⟩ : Pda).step (Lexeme.string value).token).1 =
        { (⟨below, path, values⟩ : Pda).addValue value with currentPath := pathPop path } := rfl
    rw [read_cons, step, addValue_values null, read_nil, Value.bindings]
  | @ValueTokens.list items xs inner => by
    have opened : ((⟨⟨.expValue, 0⟩ :: below, path, values⟩ : Pda).step
        Lexeme.sbracketOpen.token).1 = ⟨⟨.inList, 0⟩ :: below, path, values⟩ := rfl
    rw [read_cons, opened, read_append, items_read null inner, Value.bindings]
    rfl
  | @ValueTokens.map entries xs inner => by
    have opened : ((⟨⟨.expValue, 0⟩ :: below, path, values⟩ : Pda).step
        Lexeme.braceOpen.token).1 = ⟨⟨.inMap, 0⟩ :: below, path, values⟩ := rfl
    rw [read_cons, opened, read_append, entries_read (.inr rfl) null inner, Value.bindings]
    rfl

theorem items_read {items : Items} {xs : List Lexeme} {n : Nat} {below : List StateElement} {path : List Char}
    {values : List (List Char × List Char)} (null : '\x00' ∉ path) :
    ItemsTokens items xs → (⟨⟨.inList, n⟩ :: below, path, values⟩ : Pda).read xs =
      ⟨⟨.inList, n + items.length⟩ :: below, path, values ++ items.bindings path n⟩
  | .nil => by rw [read_nil, Items.bindings, List.append_nil, Items.length, Nat.add_zero]
  | .comma inner => by
    rw [read_cons]
    exact items_read null inner
  | @ItemsTokens.cons value _ _ _ first rest => by
    rw [read_append, item_read null first, items_read null rest, Items.bindings, Items.length,
      List.append_assoc]
    congr 3
    omega

/-- A value in a list leaves the list as it was, one place further. -/
theorem item_read {value : Value} {xs : List Lexeme} {n : Nat} {below : List StateElement} {path : List Char}
    {values : List (List Char × List Char)} (null : '\x00' ∉ path) :
    ValueTokens value xs → (⟨⟨.inList, n⟩ :: below, path, values⟩ : Pda).read xs =
      ⟨⟨.inList, n + 1⟩ :: below, path, values ++ value.bindings (pathPush path (catUint n))⟩
  | .str value => by
    have inner := not_mem_pathPush null (part_catUint n).null
    have step : ((⟨⟨.inList, n⟩ :: below, path, values⟩ : Pda).step (Lexeme.string value).token).1 =
        { (⟨⟨.inList, n + 1⟩ :: below, pathPush path (catUint n), values⟩ : Pda).addValue value with
          currentPath := pathPop (pathPush path (catUint n)) } := rfl
    rw [read_cons, step, addValue_values inner, read_nil, Value.bindings,
      pathPop_pathPush path (part_catUint n).dot]
  | @ValueTokens.list items xs inner => by
    have opened : ((⟨⟨.inList, n⟩ :: below, path, values⟩ : Pda).step
        Lexeme.sbracketOpen.token).1 =
        ⟨⟨.inList, 0⟩ :: ⟨.inList, n + 1⟩ :: below, pathPush path (catUint n), values⟩ := rfl
    have closed : ((⟨⟨.inList, 0 + items.length⟩ :: ⟨.inList, n + 1⟩ :: below,
        pathPush path (catUint n), values ++ items.bindings (pathPush path (catUint n)) 0⟩ :
          Pda).step Lexeme.sbracketClose.token).1 = ⟨⟨.inList, n + 1⟩ :: below,
        pathPop (pathPush path (catUint n)),
        values ++ items.bindings (pathPush path (catUint n)) 0⟩ := rfl
    rw [read_cons, opened, read_append,
      items_read (not_mem_pathPush null (part_catUint n).null) inner, read_cons, closed, read_nil,
      pathPop_pathPush path (part_catUint n).dot, Value.bindings]
  | @ValueTokens.map entries xs inner => by
    have opened : ((⟨⟨.inList, n⟩ :: below, path, values⟩ : Pda).step
        Lexeme.braceOpen.token).1 =
        ⟨⟨.inMap, 0⟩ :: ⟨.inList, n + 1⟩ :: below, pathPush path (catUint n), values⟩ := rfl
    have closed : ((⟨⟨.inMap, 0⟩ :: ⟨.inList, n + 1⟩ :: below,
        pathPush path (catUint n), values ++ entries.bindings (pathPush path (catUint n))⟩ :
          Pda).step Lexeme.braceClose.token).1 = ⟨⟨.inList, n + 1⟩ :: below,
        pathPop (pathPush path (catUint n)),
        values ++ entries.bindings (pathPush path (catUint n))⟩ := rfl
    rw [read_cons, opened, read_append,
      entries_read (.inr rfl) (not_mem_pathPush null (part_catUint n).null) inner, read_cons,
      closed, read_nil, pathPop_pathPush path (part_catUint n).dot, Value.bindings]

theorem entries_read {entries : Entries} {xs : List Lexeme} {top : StateElement}
    {below : List StateElement} {path : List Char}
    {values : List (List Char × List Char)}
    (place : top.s = .topLevel ∨ top.s = .inMap) (null : '\x00' ∉ path) :
    EntriesTokens entries xs → (⟨top :: below, path, values⟩ : Pda).read xs =
      ⟨top :: below, path, values ++ entries.bindings path⟩
  | .nil => by rw [read_nil, Entries.bindings, List.append_nil]
  | .cons key first rest => by
    have named : ((⟨top :: below, path, values⟩ : Pda).step (Lexeme.identifier key.val).token).1 =
        ⟨⟨.expEquals, 0⟩ :: top :: below, pathPush path (cstr key.val), values⟩ := by
      obtain ⟨s, n⟩ := top
      rcases place with rfl | rfl <;> rfl
    have equals : ((⟨⟨.expEquals, 0⟩ :: top :: below, pathPush path key.val, values⟩ : Pda).step
        Lexeme.equals.token).1 = ⟨⟨.expValue, 0⟩ :: top :: below, pathPush path key.val, values⟩ := rfl
    rw [read_cons, named, cstr_of_not_mem key.property.part.null, read_cons, equals, read_append,
      value_read (not_mem_pathPush null key.property.part.null) first,
      pathPop_pathPush path key.property.part.dot, entries_read place null rest, Entries.bindings,
      List.append_assoc]

end

theorem not_accepts_of_invalid {p : Pda} {xs : List Lexeme} (invalid : p.isInvalid = true) :
    (p.read xs).accepts ≠ true := by
  intro accepts
  rw [isInvalid_read invalid] at accepts
  rw [not_invalid_of_accepts accepts] at invalid
  cases invalid

end Pda

/-- The identifiers among the tokens are what the scanner reads as one. -/
def Lexeme.Valid (x : Lexeme) : Prop := ∀ name, x = .identifier name → Ident name

/-- What the automaton must find in the tokens if it is to accept in the end: the rest of
what it has open. -/
structure Closing (xs : List Lexeme) : Prop where
  value : ∀ {below : List StateElement} {path : List Char} {values : List (List Char × List Char)},
    '\x00' ∉ path → ((⟨⟨.expValue, 0⟩ :: below, path, values⟩ : Pda).read xs).accepts = true →
      ∃ value ys zs, xs = ys ++ zs ∧ ValueTokens value ys
  items : ∀ {n : Nat} {below : List StateElement} {path : List Char}
    {values : List (List Char × List Char)},
    '\x00' ∉ path → ((⟨⟨.inList, n⟩ :: below, path, values⟩ : Pda).read xs).accepts = true →
      ∃ items ys zs, xs = ys ++ .sbracketClose :: zs ∧ ItemsTokens items ys
  entries : ∀ {n : Nat} {below : List StateElement} {path : List Char}
    {values : List (List Char × List Char)},
    '\x00' ∉ path → ((⟨⟨.inMap, n⟩ :: below, path, values⟩ : Pda).read xs).accepts = true →
      ∃ entries ys zs, xs = ys ++ .braceClose :: zs ∧ EntriesTokens entries ys

/-- An entry starts with its key and an equals sign. -/
theorem Closing.entry {xs : List Lexeme} {top : StateElement} {below : List StateElement}
    {path : List Char} {values : List (List Char × List Char)} {key : List Char} (ident : Ident key)
    (place : top.s = .topLevel ∨ top.s = .inMap) (null : '\x00' ∉ path)
    (closing : ∀ ys zs, xs = ys ++ zs → Closing zs)
    (accepts : ((⟨top :: below, path, values⟩ : Pda).read (.identifier key :: xs)).accepts = true) :
    ∃ value ys zs, xs = .equals :: (ys ++ zs) ∧ ValueTokens value ys ∧
      ((⟨top :: below, path, values ++ value.bindings (pathPush path key)⟩ : Pda).read zs).accepts
        = true := by
  have named : ((⟨top :: below, path, values⟩ : Pda).step (Lexeme.identifier key).token).1 =
      ⟨⟨.expEquals, 0⟩ :: top :: below, pathPush path (cstr key), values⟩ := by
    obtain ⟨s, n⟩ := top
    rcases place with rfl | rfl <;> rfl
  have inside := not_mem_pathPush null ident.part.null
  rw [Pda.read_cons, named, cstr_of_not_mem ident.part.null] at accepts
  cases xs with
  | nil => cases accepts
  | cons x rest =>
    cases x with
    | equals =>
      obtain ⟨value, ys, zs, split, first⟩ := (closing [_] rest rfl).value inside accepts
      refine ⟨value, ys, zs, by rw [split], first, ?_⟩
      have equals : ((⟨⟨.expEquals, 0⟩ :: top :: below, pathPush path key, values⟩ : Pda).step
          Lexeme.equals.token).1 =
          ⟨⟨.expValue, 0⟩ :: top :: below, pathPush path key, values⟩ := rfl
      rwa [Pda.read_cons, equals, split, Pda.read_append, Pda.value_read inside first,
        pathPop_pathPush path ident.part.dot] at accepts
    | _ => exact absurd accepts (Pda.not_accepts_of_invalid (p := (Pda.step _ _).1) rfl)

theorem ValueTokens.ne_nil {value : Value} {xs : List Lexeme} (h : ValueTokens value xs) :
    xs ≠ [] := by
  cases h <;> exact nofun

section Later
variable {xs : List Lexeme} {n : Nat} {below : List StateElement} {path : List Char}
  {values : List (List Char × List Char)}

theorem value_of_later (later : ∀ ys zs, xs = ys ++ zs → ys ≠ [] → Closing zs)
    (null : '\x00' ∉ path)
    (accepts : ((⟨⟨.expValue, 0⟩ :: below, path, values⟩ : Pda).read xs).accepts = true) :
    ∃ value ys zs, xs = ys ++ zs ∧ ValueTokens value ys := by
  cases xs with
  | nil => cases accepts
  | cons x rest =>
    cases x with
    | string value => exact ⟨.str value, [_], rest, rfl, .str value⟩
    | sbracketOpen =>
      obtain ⟨items, ys, zs, split, inner⟩ := (later [_] _ rfl nofun).items null accepts
      exact ⟨.list items, _, zs, by rw [split]; simp, .list inner⟩
    | braceOpen =>
      obtain ⟨entries, ys, zs, split, inner⟩ := (later [_] _ rfl nofun).entries null accepts
      exact ⟨.map entries, _, zs, by rw [split]; simp, .map inner⟩
    | _ => exact absurd accepts (Pda.not_accepts_of_invalid (p := (Pda.step _ _).1) rfl)

theorem items_of_later (later : ∀ ys zs, xs = ys ++ zs → ys ≠ [] → Closing zs)
    (null : '\x00' ∉ path)
    (accepts : ((⟨⟨.inList, n⟩ :: below, path, values⟩ : Pda).read xs).accepts = true) :
    ∃ items ys zs, xs = ys ++ .sbracketClose :: zs ∧ ItemsTokens items ys := by
  have inside := not_mem_pathPush null (part_catUint n).null
  -- what follows a value of the list
  have follow {value : Value} {ys : List Lexeme} (zs : List Lexeme) (first : ValueTokens value ys)
      (split : xs = ys ++ zs) : ∃ items ys zs, xs = ys ++ .sbracketClose :: zs ∧
        ItemsTokens items ys := by
    rw [split, Pda.read_append, Pda.item_read null first] at accepts
    obtain ⟨items, ys', zs', split', rest⟩ := (later ys zs split first.ne_nil).items null accepts
    exact ⟨.cons value items, ys ++ ys', zs', by rw [split, split', List.append_assoc],
      .cons first rest⟩
  cases xs with
  | nil => cases accepts
  | cons x rest =>
    cases x with
    | comma =>
      obtain ⟨items, ys, zs, split, inner⟩ := (later [_] _ rfl nofun).items null accepts
      exact ⟨items, .comma :: ys, zs, by rw [split]; rfl, .comma inner⟩
    | string value => exact follow rest (.str value) rfl
    | sbracketOpen =>
      obtain ⟨items, ys, zs, split, inner⟩ := (later [_] _ rfl nofun).items inside accepts
      exact follow zs (.list inner) (by rw [split]; simp)
    | braceOpen =>
      obtain ⟨entries, ys, zs, split, inner⟩ := (later [_] _ rfl nofun).entries inside accepts
      exact follow zs (.map inner) (by rw [split]; simp)
    | sbracketClose => exact ⟨.nil, [], rest, rfl, .nil⟩
    | _ => exact absurd accepts (Pda.not_accepts_of_invalid (p := (Pda.step _ _).1) rfl)

theorem entries_of_later (valid : ∀ x ∈ xs, x.Valid)
    (later : ∀ ys zs, xs = ys ++ zs → ys ≠ [] → Closing zs) (null : '\x00' ∉ path)
    (accepts : ((⟨⟨.inMap, n⟩ :: below, path, values⟩ : Pda).read xs).accepts = true) :
    ∃ entries ys zs, xs = ys ++ .braceClose :: zs ∧ EntriesTokens entries ys := by
  cases xs with
  | nil => cases accepts
  | cons x rest =>
    cases x with
    | identifier key =>
      have ident : Ident key := valid _ List.mem_cons_self key rfl
      obtain ⟨value, ys, zs, split, first, accepts⟩ := Closing.entry ident (.inr rfl) null
        (fun ys zs split => later (.identifier key :: ys) zs (by rw [split]; rfl) nofun) accepts
      obtain ⟨entries, ys', zs', split', rest'⟩ :=
        (later (.identifier key :: .equals :: ys) zs (by rw [split]; rfl) nofun).entries null accepts
      exact ⟨.cons ⟨key, ident⟩ value entries, _, zs', by rw [split, split']; simp,
        .cons ⟨key, ident⟩ first rest'⟩
    | braceClose => exact ⟨.nil, [], rest, rfl, .nil⟩
    | _ => exact absurd accepts (Pda.not_accepts_of_invalid (p := (Pda.step _ _).1) rfl)

end Later

theorem closing_of_valid (xs : List Lexeme) (valid : ∀ x ∈ xs, x.Valid) : Closing xs := by
  induction size : xs.length using Nat.strong_induction_on generalizing xs with
  | _ k ih =>
  subst size
  have later (ys zs : List Lexeme) (split : xs = ys ++ zs) (some' : ys ≠ []) : Closing zs := by
    refine ih zs.length ?_ zs (fun x member => valid x (split ▸ List.mem_append_right ys member)) rfl
    rw [split, List.length_append]
    have pos := List.length_pos_iff.mpr some'
    omega
  exact ⟨value_of_later later, items_of_later later, entries_of_later valid later⟩

/-- At the top level the entries go on to the end of the file. -/
theorem Pda.exists_entries (xs : List Lexeme) (valid : ∀ x ∈ xs, x.Valid)
    (values : List (List Char × List Char))
    (accepts : ((⟨[⟨.topLevel, 0⟩], [], values⟩ : Pda).read xs).accepts = true) :
    ∃ entries, EntriesTokens entries xs := by
  induction size : xs.length using Nat.strong_induction_on generalizing xs values with
  | _ k ih =>
  subst size
  cases xs with
  | nil => exact ⟨.nil, .nil⟩
  | cons x rest =>
    cases x with
    | identifier key =>
      have ident : Ident key := valid _ List.mem_cons_self key rfl
      have part (ys zs : List Lexeme) (split : rest = ys ++ zs) : ∀ x ∈ zs, x.Valid :=
        fun x member => valid x (.tail _ (split ▸ List.mem_append_right ys member))
      obtain ⟨value, ys, zs, split, first, accepts⟩ := Closing.entry ident (.inl rfl)
        List.not_mem_nil (fun ys zs split => closing_of_valid zs (part ys zs split)) accepts
      have shorter : zs.length < (Lexeme.identifier key :: rest).length := by
        simp only [split, List.length_cons, List.length_append]
        omega
      obtain ⟨entries, tokens⟩ := ih _ shorter zs
        (part (.equals :: ys) zs (by rw [split]; rfl)) _ accepts rfl
      exact ⟨.cons ⟨key, ident⟩ value entries, split ▸ .cons ⟨key, ident⟩ first tokens⟩
    | _ => exact absurd accepts (not_accepts_of_invalid (p := (step _ _).1) rfl)

/-- The automaton accepts the tokens of a file exactly if they are those of a tree. -/
theorem Pda.accepts_iff {xs : List Lexeme} {values : List (List Char × List Char)}
    (valid : ∀ x ∈ xs, x.Valid) :
    (Pda.start.read xs).accepts = true ∧ (Pda.start.read xs).values = values ↔
      ∃ entries, EntriesTokens entries xs ∧ entries.bindings [] = values := by
  constructor
  · rintro ⟨accepts, rfl⟩
    obtain ⟨entries, tokens⟩ := exists_entries xs valid [] accepts
    refine ⟨entries, tokens, ?_⟩
    rw [start, entries_read (.inl rfl) List.not_mem_nil tokens]
    rfl
  · rintro ⟨entries, tokens, rfl⟩
    rw [start, entries_read (.inl rfl) List.not_mem_nil tokens]
    exact ⟨rfl, rfl⟩

end SpinEmu.Lcfg
