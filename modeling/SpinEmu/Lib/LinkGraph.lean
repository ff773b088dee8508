import Mathlib.Data.Fintype.Card
import Mathlib.Data.Finite.Sigma
import Mathlib.Data.Finite.Sum
import Mathlib.Data.Set.Card
import Mathlib.SetTheory.Cardinal.Finite
import Mathlib.Algebra.BigOperators.Fin
import Mathlib.Logic.Relation
import Mathlib.Order.WellFounded

/-! Graphs whose edges are labelled links, at most one link of each label at a
node. Paths are sequences of labels; where every path is finite, the number of
paths between two nodes obeys a recursion at either end. -/
namespace Lib.LinkGraph
variable {V L : Type} (link : V → L → Option V)

/-- Where a sequence of links leads from `v`, if every link exists. -/
def follow : V → List L → Option V
  | v, [] => some v
  | v, l :: ls => (link v l).bind fun w => follow w ls

def Edge (v w : V) : Prop := ∃ l, link v l = some w

def Acyclic : Prop := ∀ v, ¬ Relation.TransGen (Edge link) v v

/-- Every sequence of links from `v` comes to an end. -/
def Grounded (v : V) : Prop := Acc (fun w u => Edge link u w) v

/-- The sequences of links that lead from `v` to a node of `S`. -/
def paths (S : Set V) (v : V) : Set (List L) := {ls | ∃ w ∈ S, follow link v ls = some w}

noncomputable def pathCount (v w : V) : Nat := (paths link {w} v).ncard

/-- The number of all paths from `v`, wherever they end. -/
noncomputable def treeSize (v : V) : Nat := (paths link Set.univ v).ncard

variable {link}

theorem follow_append {v : V} {ls rest : List L} :
    follow link v (ls ++ rest) = (follow link v ls).bind fun w => follow link w rest := by
  induction ls generalizing v with
  | nil => rfl
  | cons l ls ih =>
    simp only [List.cons_append, follow, Option.bind_assoc]
    cases link v l with
    | none => rfl
    | some w => exact ih

theorem follow_singleton (v : V) (l : L) : follow link v [l] = link v l := by
  simp only [follow, Option.bind_fun_some]

/-- A path ends with its last link. -/
theorem follow_concat_eq_some {v w : V} {ls : List L} {l : L} :
    follow link v (ls.concat l) = some w ↔ ∃ u, follow link v ls = some u ∧ link u l = some w := by
  rw [List.concat_eq_append, follow_append, Option.bind_eq_some_iff]
  simp only [follow_singleton]

theorem Grounded.next {v w : V} {l : L} (h : Grounded link v) (step : link v l = some w) :
    Grounded link w :=
  h.inv ⟨l, step⟩

/-- Where only finitely many nodes can be reached and none of them lies on a
cycle, every path ends. -/
theorem grounded_of_reachable {v : V}
    (finite : {w | Relation.ReflTransGen (Edge link) v w}.Finite)
    (acyclic : ∀ w, Relation.ReflTransGen (Edge link) v w →
      ¬ Relation.TransGen (Edge link) w w) : Grounded link v := by
  let R := {w // Relation.ReflTransGen (Edge link) v w}
  have : Finite R := finite
  let later : R → R → Prop := fun w u => Relation.TransGen (Edge link) u.1 w.1
  have : IsTrans R later := ⟨fun a b c ab bc => bc.trans ab⟩
  have : Std.Irrefl later := ⟨fun a loop => acyclic a.1 a.2 loop⟩
  have wf : WellFounded later := Finite.wellFounded_of_trans_of_irrefl later
  have all : ∀ u : R, Grounded link u.1 := fun u => by
    induction u using wf.induction with
    | _ u ih =>
      constructor
      intro w edge
      exact ih ⟨w, u.2.tail edge⟩ (.single edge)
  exact all ⟨v, .refl⟩

/-- Some sequence of links from `v` leads to a node that lies on a cycle. -/
def ReachesCycle (link : V → L → Option V) (v : V) : Prop :=
  ∃ w, Relation.ReflTransGen (Edge link) v w ∧ Relation.TransGen (Edge link) w w

theorem Grounded.not_cycle {v : V} (h : Grounded link v) : ¬ Relation.TransGen (Edge link) v v := by
  have all : Acc (Relation.TransGen fun w u => Edge link u w) v := Acc.transGen h
  have irrefl : ¬ Relation.TransGen (fun w u => Edge link u w) v v := by
    clear h
    induction all with
    | intro v _ ih => exact fun loop => ih v loop loop
  exact fun loop => irrefl (Relation.transGen_swap.mp loop)

theorem Grounded.reach {v w : V} (h : Grounded link v)
    (path : Relation.ReflTransGen (Edge link) v w) : Grounded link w := by
  induction path with
  | refl => exact h
  | tail _ last ih => exact ih.inv last

/-- Among finitely many nodes, the paths that never end are those to a cycle. -/
theorem grounded_iff {nodes : Set V} (finite : nodes.Finite)
    (closed : ∀ v l w, link v l = some w → w ∈ nodes) (v : V) :
    Grounded link v ↔ ¬ ReachesCycle link v := by
  constructor
  · rintro h ⟨w, path, loop⟩
    exact (h.reach path).not_cycle loop
  · intro none
    refine grounded_of_reachable (Set.Finite.subset (finite.insert v) ?_) fun w path loop =>
      none ⟨w, path, loop⟩
    intro w path
    rcases Relation.ReflTransGen.cases_tail path with rfl | ⟨u, _, l, last⟩
    · exact Set.mem_insert _ _
    · exact Set.mem_insert_of_mem _ (closed u l w last)

theorem grounded_of_rank (rank : V → Nat) (lower : ∀ v w, Edge link v w → rank w < rank v) (v : V) :
    Grounded link v :=
  Subrelation.accessible (r := (measure rank).rel) (fun edge => lower _ _ edge)
    ((measure rank).wf.apply v)

theorem Acyclic.not_reachesCycle (h : Acyclic link) (v : V) : ¬ ReachesCycle link v :=
  fun ⟨w, _, loop⟩ => h w loop

theorem paths_cons {S : Set V} {v w : V} {l : L} (step : link v l = some w) (ls : List L) :
    l :: ls ∈ paths link S v ↔ ls ∈ paths link S w := by
  simp [paths, follow, step]

theorem paths_cons_none {S : Set V} {v : V} {l : L} (step : link v l = none) (ls : List L) :
    l :: ls ∉ paths link S v := by
  simp [paths, follow, step]

theorem nil_mem_paths {S : Set V} {v : V} : [] ∈ paths link S v ↔ v ∈ S := by
  simp [paths, follow]

/-- A nonempty sequence is its first element and the rest. -/
def consEquiv (P : List L → Prop) :
    {ls // P ls} ≃ {_u : Unit // P []} ⊕ (Σ l, {ls // P (l :: ls)}) where
  toFun
    | ⟨[], h⟩ => .inl ⟨(), h⟩
    | ⟨l :: ls, h⟩ => .inr ⟨l, ls, h⟩
  invFun
    | .inl ⟨(), h⟩ => ⟨[], h⟩
    | .inr ⟨l, ls, h⟩ => ⟨l :: ls, h⟩
  left_inv := by rintro ⟨_ | _, h⟩ <;> rfl
  right_inv := by rintro (_ | _) <;> rfl

section Counting
variable [Fintype L]

theorem Grounded.finite {v : V} (h : Grounded link v) (S : Set V) :
    (paths link S v).Finite := by
  induction h with
  | intro v _ ih =>
    have tails (l : L) : Finite {ls // l :: ls ∈ paths link S v} := by
      cases step : link v l with
      | none =>
        exact @Finite.of_subsingleton _ ⟨fun a => absurd a.2 (paths_cons_none step a.1)⟩
      | some w =>
        have rest : Finite {ls // ls ∈ paths link S w} := ih w ⟨l, step⟩
        exact Finite.of_equiv _ (Equiv.subtypeEquivRight fun ls => (paths_cons step ls).symm)
    exact Finite.of_equiv _ (consEquiv (· ∈ paths link S v)).symm

open Classical in
/-- Paths split by their first link. -/
theorem card_paths {S : Set V} {v : V} (h : Grounded link v) :
    (paths link S v).ncard =
      (if v ∈ S then 1 else 0) +
        ∑ l : L, ((link v l).elim 0 fun w => (paths link S w).ncard) := by
  have := (h.finite S).to_subtype
  have finite (l : L) : Finite {ls // l :: ls ∈ paths link S v} :=
    Finite.of_injective (β := {ls // ls ∈ paths link S v}) (fun ls => ⟨l :: ls.1, ls.2⟩)
      fun a b same => Subtype.ext (List.cons.inj (congrArg Subtype.val same)).2
  have whole : Finite ({_u : Unit // [] ∈ paths link S v} ⊕
      (Σ l, {ls // l :: ls ∈ paths link S v})) := inferInstance
  have tail (l : L) : Nat.card {ls // l :: ls ∈ paths link S v} =
      (link v l).elim 0 fun w => (paths link S w).ncard := by
    cases step : link v l with
    | none =>
      have : IsEmpty {ls // l :: ls ∈ paths link S v} := ⟨fun a => paths_cons_none step a.1 a.2⟩
      exact Nat.card_of_isEmpty
    | some w => exact Nat.card_congr (Equiv.subtypeEquivRight fun ls => paths_cons step ls)
  have head : Nat.card {_u : Unit // [] ∈ paths link S v} = if v ∈ S then 1 else 0 := by
    rw [Nat.card_eq_fintype_card, Fintype.card_subtype]
    by_cases here : v ∈ S <;> simp [nil_mem_paths, here]
  calc (paths link S v).ncard
      = Nat.card ({_u : Unit // [] ∈ paths link S v} ⊕
          (Σ l, {ls // l :: ls ∈ paths link S v})) :=
        Nat.card_congr (consEquiv (· ∈ paths link S v))
    _ = _ := by rw [Nat.card_sum, Nat.card_sigma, head, Finset.sum_congr rfl fun l _ => tail l]

theorem pathCount_eq [DecidableEq V] {v w : V} (h : Grounded link v) :
    pathCount link v w =
      (if v = w then 1 else 0) + ∑ l : L, ((link v l).elim 0 fun u => pathCount link u w) := by
  simpa only [pathCount, Set.mem_singleton_iff] using card_paths (S := {w}) h

theorem treeSize_eq {v : V} (h : Grounded link v) :
    treeSize link v = 1 + ∑ l : L, ((link v l).elim 0 fun u => treeSize link u) := by
  simpa only [treeSize, Set.mem_univ, if_true] using card_paths (S := Set.univ) h

end Counting

theorem mem_paths_singleton {v w : V} {ls : List L} :
    ls ∈ paths link {w} v ↔ follow link v ls = some w := by
  simp [paths]

/-- A node that no link enters is reached from itself by the empty path only. -/
theorem pathCount_source {v : V} (source : ∀ u l, link u l ≠ some v) :
    pathCount link v v = 1 := by
  rw [pathCount, Set.ncard_eq_one]
  refine ⟨[], Set.ext fun ls => ?_⟩
  rw [mem_paths_singleton, Set.mem_singleton_iff]
  constructor
  · intro h
    rcases List.eq_nil_or_concat ls with rfl | ⟨front, l, rfl⟩
    · rfl
    · obtain ⟨u, _, last⟩ := follow_concat_eq_some.mp h
      exact absurd last (source u l)
  · rintro rfl
    rfl

theorem pathCount_unreached {v w : V} (other : v ≠ w) (none : ∀ u l, link u l ≠ some w) :
    pathCount link v w = 0 := by
  have empty : paths link {w} v = ∅ := by
    apply Set.eq_empty_of_forall_notMem
    intro ls h
    rw [mem_paths_singleton] at h
    rcases List.eq_nil_or_concat ls with rfl | ⟨front, l, rfl⟩
    · exact other (Option.some.inj h)
    · obtain ⟨u, _, last⟩ := follow_concat_eq_some.mp h
      exact none u l last
  rw [pathCount, empty, Set.ncard_empty]

/-- Where one link only enters `w`, every path to `w` is a path to the start of
that link, extended by it. -/
theorem pathCount_unique_parent {v u w : V} {l : L} (other : v ≠ w)
    (parent : ∀ u' l', link u' l' = some w ↔ u' = u ∧ l' = l) :
    pathCount link v w = pathCount link v u := by
  have step : link u l = some w := (parent u l).mpr ⟨rfl, rfl⟩
  have image : paths link {w} v = (· ++ [l]) '' paths link {u} v := by
    ext ls
    simp only [Set.mem_image, mem_paths_singleton]
    constructor
    · intro h
      rcases List.eq_nil_or_concat ls with rfl | ⟨front, l', rfl⟩
      · exact absurd (Option.some.inj h) other
      · obtain ⟨u', reach, last⟩ := follow_concat_eq_some.mp h
        obtain ⟨rfl, rfl⟩ := (parent u' l').mp last
        exact ⟨front, reach, (List.concat_eq_append).symm⟩
    · rintro ⟨front, reach, rfl⟩
      rw [← List.concat_eq_append]
      exact follow_concat_eq_some.mpr ⟨u, reach, step⟩
  rw [pathCount, image, Set.ncard_image_of_injective _ (List.append_left_injective [l])]
  rfl

theorem follow_snoc {v u w : V} {ls : List L} {l : L} (reach : follow link v ls = some u)
    (last : link u l = some w) : follow link v (ls ++ [l]) = some w := by
  rw [← List.concat_eq_append]
  exact follow_concat_eq_some.mpr ⟨u, reach, last⟩

theorem exists_follow {v w : V} (path : Relation.ReflTransGen (Edge link) v w) :
    ∃ ls, follow link v ls = some w := by
  induction path with
  | refl => exact ⟨[], rfl⟩
  | tail _ last ih =>
    obtain ⟨ls, reach⟩ := ih
    obtain ⟨l, step⟩ := last
    exact ⟨ls ++ [l], follow_snoc reach step⟩

/-- At most one sequence of links leads from one node to another or back to itself. -/
def OnePath (link : V → L → Option V) : Prop :=
  ∀ v w ls ls', follow link v ls = some w → follow link v ls' = some w → ls = ls'

/-- Without links from a node to itself it is enough to look at distinct nodes:
a way around could be prolonged by its first link. -/
theorem onePath_of_ne (loopless : ∀ v l, link v l ≠ some v)
    (one : ∀ v w, v ≠ w → ∀ ls ls', follow link v ls = some w → follow link v ls' = some w →
      ls = ls') : OnePath link := by
  have around (v : V) (ls : List L) (back : follow link v ls = some v) : ls = [] := by
    cases ls with
    | nil => rfl
    | cons l rest =>
      obtain ⟨w, step, _⟩ := Option.bind_eq_some_iff.mp back
      have apart : v ≠ w := fun same => loopless v l (same ▸ step)
      have once : follow link v [l] = some w := (follow_singleton v l).trans step
      have again := one v w apart _ _ once (follow_snoc back step)
      simp at again
  intro v w ls ls' left right
  by_cases same : v = w
  · subst same
    rw [around v ls left, around v ls' right]
  · exact one v w same ls ls' left right

namespace OnePath
variable {v w o : V} (one : OnePath link)
include one

theorem not_cycle : ¬ Relation.TransGen (Edge link) v v := by
  intro loop
  obtain ⟨u, path, l, last⟩ := Relation.TransGen.tail'_iff.mp loop
  obtain ⟨ls, reach⟩ := exists_follow path
  have empty := one v v _ [] (follow_snoc reach last) rfl
  simp at empty

/-- The last link of a path determines the node before it. -/
theorem parent {u : V} (toU : Relation.ReflTransGen (Edge link) o u) (edge : Edge link u w)
    (toV : Relation.ReflTransGen (Edge link) o v) (edge' : Edge link v w) : u = v := by
  obtain ⟨ls, reach⟩ := exists_follow toU
  obtain ⟨ls', reach'⟩ := exists_follow toV
  obtain ⟨l, last⟩ := edge
  obtain ⟨l', last'⟩ := edge'
  have same := one o w _ _ (follow_snoc reach last) (follow_snoc reach' last')
  have front : ls = ls' := (List.append_inj' same rfl).1
  exact Option.some.inj (reach.symm.trans (front ▸ reach'))

theorem link_inj {l l' : L} (step : link v l = some w) (step' : link v l' = some w) : l = l' := by
  exact List.singleton_inj.mp (one v w _ _ ((follow_singleton v l).trans step)
    ((follow_singleton v l').trans step'))

end OnePath

end Lib.LinkGraph
