import Mathlib.Algebra.BigOperators.Group.Finset.Basic
import Mathlib.Algebra.BigOperators.Group.List.Basic
import Mathlib.Algebra.Order.BigOperators.Group.Finset
import Mathlib.Logic.Function.Basic
import Mathlib.Tactic.Ring

/-! Sums over the members of a finite family, and how they change when one member
does. A channel of packets is a member whose contents are weighed one by one. A machine
word that a loop counts in is the sum up to its width. -/
namespace Lib.Tally
variable {V β P : Type}

def tally (nodes : Finset V) (f : V → β → Nat) (g : V → β) : Nat := ∑ v ∈ nodes, f v (g v)

/-- The weight of the packets of one channel. -/
def weigh (w : V → P → Nat) (v : V) (l : List P) : Nat := (l.map (w v)).sum

section Update
variable {nodes : Finset V} {f : V → β → Nat} {g : V → β}

theorem tally_update [DecidableEq V] {v : V} (member : v ∈ nodes) (x : β) :
    tally nodes f (Function.update g v x) + f v (g v) = tally nodes f g + f v x := by
  have others : ∀ u ∈ nodes.erase v, f u (Function.update g v x u) = f u (g u) := by
    intro u hu
    rw [Function.update_of_ne (Finset.ne_of_mem_erase hu)]
  simp only [tally]
  rw [← Finset.add_sum_erase _ _ member, ← Finset.add_sum_erase nodes _ member,
    Finset.sum_congr rfl others, Function.update_self]
  ring

/-- Lowering one member does not raise the sum. -/
theorem tally_update_le [DecidableEq V] (nodes : Finset V) {v : V} {x : β} (lower : f v x ≤ f v (g v)) :
    tally nodes f (Function.update g v x) ≤ tally nodes f g := by
  apply Finset.sum_le_sum
  intro u _
  by_cases same : u = v
  · subst same
    rwa [Function.update_self]
  · rw [Function.update_of_ne same]

theorem le_tally {v : V} (member : v ∈ nodes) : f v (g v) ≤ tally nodes f g :=
  Finset.single_le_sum (f := fun v => f v (g v)) (fun _ _ => Nat.zero_le _) member

theorem tally_eq_zero (none : ∀ v ∈ nodes, f v (g v) = 0) : tally nodes f g = 0 :=
  Finset.sum_eq_zero none

end Update

section Channels
variable {w : V → P → Nat} {v : V} {p : P} {l : List P}

@[simp] theorem weigh_nil : weigh w v [] = 0 := rfl

@[simp] theorem weigh_cons : weigh w v (p :: l) = w v p + weigh w v l := by
  simp [weigh]

@[simp] theorem weigh_append (l' : List P) : weigh w v (l ++ l') = weigh w v l + weigh w v l' := by
  simp [weigh]

theorem weigh_eraseIdx_le (i : Nat) : weigh w v (l.eraseIdx i) ≤ weigh w v l :=
  ((List.eraseIdx_sublist l i).map (w v)).sum_le_sum fun _ _ => Nat.zero_le _

end Channels

section Counters
variable {α : Type} {w : Nat}

theorem foldl_count (p : α → Bool) (l : List α) (v : BitVec w) :
    l.foldl (fun n a => if p a then n + 1 else n) v = v + BitVec.ofNat w (l.countP p) := by
  induction l generalizing v with
  | nil => simp
  | cons a l ih =>
    rw [List.foldl_cons, ih, List.countP_cons]
    cases hit : p a with
    | false => simp
    | true =>
      rw [if_pos rfl, if_pos rfl, Nat.add_comm, BitVec.ofNat_add, BitVec.add_assoc]
      rfl

theorem foldl_sum (f : α → Nat) (l : List α) (v : BitVec w) :
    l.foldl (fun n a => n + BitVec.ofNat w (f a)) v = v + BitVec.ofNat w (l.map f).sum := by
  induction l generalizing v with
  | nil => simp
  | cons a l ih =>
    rw [List.foldl_cons, ih, List.map_cons, List.sum_cons, BitVec.ofNat_add, BitVec.add_assoc]

/-- Two counts of which one is narrower agree when nothing is counted by the other only. -/
theorem countP_eq_iff_of_imp {p q : α → Bool} {l : List α} (narrow : ∀ a ∈ l, p a → q a) :
    l.countP p = l.countP q ↔ ∀ a ∈ l, q a → p a := by
  have inside : (l.filter q).countP p = l.countP p := by
    rw [List.countP_filter]
    apply List.countP_congr
    intro a member
    have := narrow a member
    simp only [Bool.and_eq_true]
    tauto
  rw [← inside, List.countP_eq_length_filter (p := q), List.countP_eq_length]
  simp only [List.mem_filter, and_imp]

end Counters
end Lib.Tally
