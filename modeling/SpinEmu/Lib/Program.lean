import Mathlib.Logic.Relation
import Mathlib.Tactic.Common

/-! Sequential programs over an explicit state, with loops and with operations
whose result may be undefined. A program is a fuel-indexed partial function;
fuel counts loop tests only, and a result never changes when more fuel is given.
Nontermination is the absence of a result at every fuel. -/
namespace Lib

/-- What a finished run leaves: a state, or a fault after which nothing is
promised. -/
abbrev Result (ε σ : Type) := Except ε σ

structure Program (ε σ : Type) where
  run : Nat → σ → Option (Result ε σ)
  stable : ∀ {fuel s r}, run fuel s = some r → ∀ {more}, fuel ≤ more → run more s = some r

namespace Program
variable {ε σ τ : Type}

/-- One atomic operation. -/
def act (f : σ → Result ε σ) : Program ε σ where
  run _ s := some (f s)
  stable h _ _ := h

def skip : Program ε σ := act .ok

/-- Sequential composition; a fault of `p` ends the composition. -/
def seq (p q : Program ε σ) : Program ε σ where
  run fuel s := (p.run fuel s).bind fun
    | .ok t => q.run fuel t
    | .error e => some (.error e)
  stable := by
    intro fuel s r h more enough
    obtain ⟨first, hp, hq⟩ := Option.bind_eq_some_iff.mp h
    refine Option.bind_eq_some_iff.mpr ⟨first, p.stable hp enough, ?_⟩
    cases first with
    | error e => exact hq
    | ok t => exact q.stable hq enough

/-- `for (i = 0; i < n; i++) body(i)` for a bound that the body leaves alone. -/
def forRange : Nat → (Nat → Program ε σ) → Program ε σ
  | 0, _ => skip
  | n + 1, body => seq (forRange n body) (body n)

/-- The tests and iterations of `while (cond) body`, at most `count` tests. -/
def iterate (cond : σ → Bool) (body : σ → Option (Result ε σ)) : Nat → σ → Option (Result ε σ)
  | 0, _ => none
  | count + 1, s =>
    if cond s then
      (body s).bind fun
        | .ok t => iterate cond body count t
        | .error e => some (.error e)
    else some (.ok s)

theorem iterate_stable {cond : σ → Bool} {p : Program ε σ} {fuel more : Nat}
    (enough : fuel ≤ more) {count : Nat} {s : σ} {r : Result ε σ}
    (h : iterate cond (p.run fuel) count s = some r) {longer : Nat} (le : count ≤ longer) :
    iterate cond (p.run more) longer s = some r := by
  induction count generalizing s longer with
  | zero => contradiction
  | succ count ih =>
    obtain ⟨longer, rfl⟩ : ∃ m, longer = m + 1 := ⟨longer - 1, by omega⟩
    simp only [iterate] at h ⊢
    split at h
    · rename_i test
      obtain ⟨first, hp, hrest⟩ := Option.bind_eq_some_iff.mp h
      rw [if_pos test, p.stable hp enough, Option.bind_some]
      cases first with
      | error e => exact hrest
      | ok t => exact ih hrest (by omega)
    · rename_i test
      rw [if_neg test]
      exact h

def whileDo (cond : σ → Bool) (body : Program ε σ) : Program ε σ where
  run fuel := iterate cond (body.run fuel) fuel
  stable h _ enough := iterate_stable enough h enough

/-- The program finishes from `s` with result `r`. -/
def Ends (p : Program ε σ) (s : σ) (r : Result ε σ) : Prop := ∃ fuel, p.run fuel s = some r

/-- The program finishes, with a state or with a fault. -/
def Terminates (p : Program ε σ) (s : σ) : Prop := ∃ r, p.Ends s r

/-- Every state that the program can finish in satisfies `Q`. -/
def Ensures (p : Program ε σ) (s : σ) (Q : σ → Prop) : Prop := ∀ t, p.Ends s (.ok t) → Q t

theorem Ends.unique {p : Program ε σ} {s : σ} {r r' : Result ε σ}
    (h : p.Ends s r) (h' : p.Ends s r') : r = r' := by
  obtain ⟨n, hn⟩ := h
  obtain ⟨m, hm⟩ := h'
  have left := p.stable hn (Nat.le_max_left n m)
  have right := p.stable hm (Nat.le_max_right n m)
  exact Option.some.inj (left.symm.trans right)

/-- A test by evaluation that the program finishes without a fault. -/
def returnsWithin (p : Program ε σ) (fuel : Nat) (s : σ) : Bool :=
  match p.run fuel s with
  | some (.ok _) => true
  | _ => false

theorem ends_of_returnsWithin {p : Program ε σ} {fuel : Nat} {s : σ}
    (h : p.returnsWithin fuel s = true) : ∃ t, p.Ends s (.ok t) := by
  unfold returnsWithin at h
  split at h
  · rename_i t run
    exact ⟨t, fuel, run⟩
  · cases h

theorem not_fault_of_returnsWithin {p : Program ε σ} {fuel : Nat} {s : σ}
    (h : p.returnsWithin fuel s = true) (e : ε) : ¬ p.Ends s (.error e) := by
  intro fault
  obtain ⟨t, ends⟩ := ends_of_returnsWithin h
  cases ends.unique fault

theorem Ensures.mono {p : Program ε σ} {s : σ} {Q Q' : σ → Prop} (h : p.Ensures s Q)
    (imp : ∀ t, Q t → Q' t) : p.Ensures s Q' :=
  fun t ends => imp t (h t ends)

theorem ends_act {f : σ → Result ε σ} {s : σ} : (act f).Ends s (f s) := ⟨0, rfl⟩

theorem terminates_act (f : σ → Result ε σ) (s : σ) : (act f).Terminates s := ⟨f s, ends_act⟩

theorem ensures_act {f : σ → Result ε σ} {s : σ} {Q : σ → Prop}
    (h : ∀ t, f s = .ok t → Q t) : (act f).Ensures s Q :=
  fun t ends => h t (ends_act.unique ends)

theorem ensures_skip {s : σ} {Q : σ → Prop} (h : Q s) : (skip : Program ε σ).Ensures s Q :=
  ensures_act fun t ht => by cases ht; exact h

theorem ends_seq {p q : Program ε σ} {s t : σ} {r : Result ε σ} (first : p.Ends s (.ok t))
    (rest : q.Ends t r) : (seq p q).Ends s r := by
  obtain ⟨n, hn⟩ := first
  obtain ⟨m, hm⟩ := rest
  refine ⟨max n m, ?_⟩
  simp only [seq, p.stable hn (Nat.le_max_left n m), Option.bind_some]
  exact q.stable hm (Nat.le_max_right n m)

theorem terminates_seq {p q : Program ε σ} {s : σ} (first : p.Terminates s)
    (rest : p.Ensures s q.Terminates) : (seq p q).Terminates s := by
  obtain ⟨r, ends⟩ := first
  cases r with
  | ok t =>
    obtain ⟨r, later⟩ := rest t ends
    exact ⟨r, ends_seq ends later⟩
  | error e =>
    obtain ⟨n, hn⟩ := ends
    exact ⟨.error e, n, by simp only [seq, hn, Option.bind_some]⟩

theorem ensures_seq {p q : Program ε σ} {s : σ} {Q : σ → Prop}
    (h : p.Ensures s fun t => q.Ensures t Q) : (seq p q).Ensures s Q := by
  rintro t ⟨fuel, run⟩
  obtain ⟨first, hp, hq⟩ := Option.bind_eq_some_iff.mp run
  cases first with
  | error e => cases hq
  | ok u => exact h u ⟨fuel, hp⟩ t ⟨fuel, hq⟩

/-- The program finishes without a fault in a state that satisfies `Q`. -/
def Achieves (p : Program ε σ) (s : σ) (Q : σ → Prop) : Prop := ∃ t, p.Ends s (.ok t) ∧ Q t

theorem Achieves.mono {p : Program ε σ} {s : σ} {Q Q' : σ → Prop} (h : p.Achieves s Q)
    (imp : ∀ t, Q t → Q' t) : p.Achieves s Q' := by
  obtain ⟨t, ends, done⟩ := h
  exact ⟨t, ends, imp t done⟩

theorem achieves_act {f : σ → Result ε σ} {s t : σ} {Q : σ → Prop} (result : f s = .ok t)
    (done : Q t) : (act f).Achieves s Q :=
  ⟨t, result ▸ ends_act, done⟩

theorem achieves_seq {p q : Program ε σ} {s : σ} {Q : σ → Prop}
    (h : p.Achieves s fun t => q.Achieves t Q) : (seq p q).Achieves s Q := by
  obtain ⟨t, first, u, rest, done⟩ := h
  exact ⟨u, ends_seq first rest, done⟩

theorem achieves_forRange {n : Nat} {body : Nat → Program ε σ} (I : Nat → σ → Prop)
    (step : ∀ i < n, ∀ s, I i s → (body i).Achieves s (I (i + 1))) {s : σ} (start : I 0 s) :
    (forRange n body).Achieves s (I n) := by
  induction n with
  | zero => exact achieves_act rfl start
  | succ n ih =>
    apply achieves_seq
    exact (ih fun i hi => step i (by omega)).mono fun t now => step n (by omega) t now

/-- Loop rule with an invariant indexed by the iterations done so far. -/
theorem ensures_forRange {n : Nat} {body : Nat → Program ε σ} (I : Nat → σ → Prop)
    (step : ∀ i < n, ∀ s, I i s → (body i).Ensures s (I (i + 1))) {s : σ} (start : I 0 s) :
    (forRange n body).Ensures s (I n) := by
  induction n with
  | zero => exact ensures_skip start
  | succ n ih =>
    apply ensures_seq
    exact (ih fun i hi => step i (by omega)).mono fun t ht => step n (by omega) t ht

theorem terminates_forRange {n : Nat} {body : Nat → Program ε σ} (I : Nat → σ → Prop)
    (step : ∀ i < n, ∀ s, I i s → (body i).Ensures s (I (i + 1)))
    (each : ∀ i < n, ∀ s, I i s → (body i).Terminates s) {s : σ} (start : I 0 s) :
    (forRange n body).Terminates s := by
  induction n with
  | zero => exact terminates_act _ s
  | succ n ih =>
    apply terminates_seq (ih (fun i hi => step i (by omega)) fun i hi => each i (by omega))
    exact (ensures_forRange I (fun i hi => step i (by omega)) start).mono (each n (by omega))

theorem ends_while_done {cond : σ → Bool} {body : Program ε σ} {s : σ} (test : cond s = false) :
    (whileDo cond body).Ends s (.ok s) :=
  ⟨1, by simp [whileDo, iterate, test]⟩

theorem ends_while_next {cond : σ → Bool} {body : Program ε σ} {s t : σ} {r : Result ε σ}
    (test : cond s = true) (first : body.Ends s (.ok t)) (rest : (whileDo cond body).Ends t r) :
    (whileDo cond body).Ends s r := by
  obtain ⟨n, hn⟩ := first
  obtain ⟨m, hm⟩ := rest
  refine ⟨max n m + 1, ?_⟩
  simp only [whileDo, iterate, test, if_true, body.stable hn (by omega : n ≤ max n m + 1),
    Option.bind_some]
  exact iterate_stable (by omega) hm (Nat.le_max_right n m)

/-- Partial correctness of a loop from an invariant of its body. -/
theorem ensures_while {cond : σ → Bool} {body : Program ε σ} (I : σ → Prop)
    (step : ∀ s, I s → cond s = true → body.Ensures s I) {s : σ} (start : I s) :
    (whileDo cond body).Ensures s fun t => I t ∧ cond t = false := by
  rintro t ⟨fuel, run⟩
  have all : ∀ count s, I s → iterate cond (body.run fuel) count s = some (.ok t) →
      I t ∧ cond t = false := by
    intro count
    induction count with
    | zero => nofun
    | succ count ih =>
      intro s inv h
      simp only [iterate] at h
      split at h
      · rename_i test
        obtain ⟨first, hp, rest⟩ := Option.bind_eq_some_iff.mp h
        cases first with
        | error e => cases rest
        | ok u => exact ih u (step s inv test u ⟨fuel, hp⟩) rest
      · rename_i test
        cases h
        exact ⟨inv, by simpa using test⟩
  exact all fuel s start run

/-- A loop ends when every iteration does and decreases a measure. -/
theorem terminates_while {cond : σ → Bool} {body : Program ε σ} (I : σ → Prop) (measure : σ → Nat)
    (step : ∀ s, I s → cond s = true → body.Ensures s fun t => I t ∧ measure t < measure s)
    (each : ∀ s, I s → cond s = true → body.Terminates s) {s : σ} (start : I s) :
    (whileDo cond body).Terminates s := by
  induction size : measure s using Nat.strongRecOn generalizing s with
  | _ n ih =>
    cases test : cond s with
    | false => exact ⟨.ok s, ends_while_done test⟩
    | true =>
      obtain ⟨r, ends⟩ := each s start test
      cases r with
      | ok t =>
        obtain ⟨kept, less⟩ := step s start test t ends
        obtain ⟨r, later⟩ := ih _ (size ▸ less) kept rfl
        exact ⟨r, ends_while_next test ends later⟩
      | error e =>
        obtain ⟨n, hn⟩ := ends
        refine ⟨.error e, n + 1, ?_⟩
        simp only [whileDo, iterate, test, if_true, body.stable hn (Nat.le_succ n),
          Option.bind_some]

/-- `h` carries every run of `p` to the run of `q` from the image state. -/
def Maps (h : σ → τ) (p : Program ε σ) (q : Program ε τ) : Prop :=
  ∀ fuel s, q.run fuel (h s) = (p.run fuel s).map (Except.map h)

theorem Maps.ends {h : σ → τ} {p : Program ε σ} {q : Program ε τ} (maps : Maps h p q) {s : σ}
    {r : Result ε σ} (ends : p.Ends s r) : q.Ends (h s) (r.map h) := by
  obtain ⟨fuel, run⟩ := ends
  exact ⟨fuel, by rw [maps fuel s, run, Option.map_some]⟩

theorem map_eq_ok {x : Except ε σ} {h : σ → τ} {t' : τ} (result : x.map h = .ok t') :
    ∃ t, x = .ok t ∧ h t = t' := by
  cases x with
  | error e => cases result
  | ok t => exact ⟨t, rfl, Except.ok.inj result⟩

/-- A finished run of the image comes from one of the program. -/
theorem Maps.lifts {h : σ → τ} {p : Program ε σ} {q : Program ε τ} (maps : Maps h p q) {s : σ}
    {t' : τ} (ends : q.Ends (h s) (.ok t')) : ∃ t, p.Ends s (.ok t) ∧ h t = t' := by
  obtain ⟨fuel, run⟩ := ends
  rw [maps fuel s] at run
  obtain ⟨r, first, image⟩ := Option.map_eq_some_iff.mp run
  obtain ⟨t, rfl, same⟩ := map_eq_ok image
  exact ⟨t, ⟨fuel, first⟩, same⟩

theorem maps_act {h : σ → τ} {f : σ → Result ε σ} {g : τ → Result ε τ}
    (same : ∀ s, g (h s) = (f s).map h) : Maps h (act f) (act g) := by
  intro fuel s
  simp only [act, same, Option.map_some]

theorem maps_skip (h : σ → τ) : Maps h (skip : Program ε σ) skip :=
  maps_act fun _ => rfl

theorem maps_seq {h : σ → τ} {p p' : Program ε σ} {q q' : Program ε τ}
    (first : Maps h p q) (second : Maps h p' q') : Maps h (seq p p') (seq q q') := by
  intro fuel s
  simp only [seq, first fuel s]
  cases p.run fuel s with
  | none => rfl
  | some r =>
    cases r with
    | error e => rfl
    | ok t => exact second fuel t

theorem maps_forRange {h : σ → τ} {body : Nat → Program ε σ} {body' : Nat → Program ε τ}
    (each : ∀ i, Maps h (body i) (body' i)) : ∀ n, Maps h (forRange n body) (forRange n body')
  | 0 => maps_skip h
  | n + 1 => maps_seq (maps_forRange each n) (each n)

theorem maps_while {h : σ → τ} {cond : σ → Bool} {cond' : τ → Bool} {body : Program ε σ}
    {body' : Program ε τ} (test : ∀ s, cond' (h s) = cond s) (each : Maps h body body') :
    Maps h (whileDo cond body) (whileDo cond' body') := by
  intro fuel s
  have all : ∀ count s, iterate cond' (body'.run fuel) count (h s) =
      (iterate cond (body.run fuel) count s).map (Except.map h) := by
    intro count
    induction count with
    | zero => intro s; rfl
    | succ count ih =>
      intro s
      simp only [iterate, test, each fuel s]
      split
      · cases body.run fuel s with
        | none => rfl
        | some r =>
          cases r with
          | error e => rfl
          | ok t => exact ih t
      · rfl
  exact all fuel s

end Program
end Lib
