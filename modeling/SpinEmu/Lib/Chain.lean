import Mathlib.Data.List.Nodup
import Mathlib.Logic.Function.Basic
import Mathlib.Tactic.Common

/-! Singly linked lists in a heap, and families of first-in first-out queues that are
such lists with a pointer to the first and a pointer to the last node. A node that
is not allocated cannot be read or written. -/
namespace Lib

/-- An address, or `none` for `NULL`. -/
abbrev Pointer : Type := Option Nat

structure Node (α : Type) where
  next : Pointer
  val : α
  deriving DecidableEq, Repr

abbrev Heap (α : Type) := Nat → Option (Node α)

namespace Heap
variable {α : Type}

/-- `p->next = q;` -/
def setNext (h : Heap α) (p : Nat) (q : Pointer) : Option (Heap α) :=
  (h p).map fun node => Function.update h p (some { node with next := q })

/-- From the pointer on, the nodes of the list and then `NULL`. -/
def Chain (h : Heap α) : Pointer → List Nat → Prop
  | p, [] => p = none
  | p, a :: l => p = some a ∧ ∃ node, h a = some node ∧ Chain h node.next l

/-- What the nodes of a list hold. -/
def values (h : Heap α) (l : List Nat) : List α := l.filterMap fun a => (h a).map Node.val

section Chain
variable {h h' : Heap α} {p : Pointer} {a : Nat} {l : List Nat}

/-- A list depends on its own nodes only. -/
theorem Chain.congr (chain : Chain h p l) (same : ∀ a ∈ l, h' a = h a) : Chain h' p l := by
  induction l generalizing p with
  | nil => exact chain
  | cons a l ih =>
    obtain ⟨here, node, found, rest⟩ := chain
    exact ⟨here, node, (same a List.mem_cons_self).trans found,
      ih rest fun a member => same a (List.mem_cons_of_mem _ member)⟩

theorem values_congr (same : ∀ a ∈ l, h' a = h a) : values h' l = values h l :=
  List.filterMap_congr fun a member => by rw [same a member]

theorem Chain.eq_none_iff (chain : Chain h p l) : p = none ↔ l = [] := by
  cases l with
  | nil => exact iff_of_true chain rfl
  | cons a l => simp [chain.1]

theorem Chain.allocated (chain : Chain h p l) (member : a ∈ l) : ∃ node, h a = some node := by
  induction l generalizing p with
  | nil => cases member
  | cons b l ih =>
    obtain ⟨_, node, found, rest⟩ := chain
    rcases List.mem_cons.mp member with rfl | later
    · exact ⟨node, found⟩
    · exact ih rest later

@[simp] theorem values_append (l' : List Nat) : values h (l ++ l') = values h l ++ values h l' :=
  List.filterMap_append

/-- A node behind the last one. -/
theorem Chain.concat {last : Nat} {v w : α} (chain : Chain h p (l ++ [last]))
    (linked : h' last = some ⟨some a, w⟩) (new : h' a = some ⟨none, v⟩)
    (same : ∀ b ∈ l, h' b = h b) : Chain h' p (l ++ [last] ++ [a]) := by
  induction l generalizing p with
  | nil =>
    obtain ⟨here, _⟩ := chain
    exact ⟨here, _, linked, rfl, _, new, rfl⟩
  | cons b l ih =>
    obtain ⟨here, other, found, rest⟩ := chain
    exact ⟨here, other, (same b List.mem_cons_self).trans found,
      ih rest fun c member => same c (List.mem_cons_of_mem _ member)⟩

end Chain

/-- A family of queues: each is a list without sharing whose last node the tail points
to, and no node is in two of them. -/
structure Queues {κ : Type} (h : Heap α) (head tail : κ → Pointer) (l : κ → List Nat) : Prop where
  chain : ∀ k, Chain h (head k) (l k)
  tail : ∀ k, tail k = (l k).getLast?
  nodup : ∀ k, (l k).Nodup
  apart : ∀ k k', k ≠ k' → (l k).Disjoint (l k')

section Queues
variable {κ : Type} [DecidableEq κ] {h h' : Heap α} {head tail : κ → Pointer}
  {l : κ → List Nat} {k : κ} {a t : Nat} {v : α}

omit [DecidableEq κ] in
theorem queues_empty (h : Heap α) : Queues h (fun _ : κ => none) (fun _ => none) fun _ => [] :=
  ⟨fun _ => rfl, fun _ => rfl, fun _ => List.nodup_nil, fun _ _ _ => List.disjoint_nil_left _⟩

omit [DecidableEq κ] in
/-- Head and tail are `NULL` together. -/
theorem Queues.head_eq_none (queues : Queues h head tail l) : head k = none ↔ tail k = none := by
  rw [(queues.chain k).eq_none_iff, queues.tail, List.getLast?_eq_none_iff]

omit [DecidableEq κ] in
/-- A node that is not allocated is in no queue. -/
theorem Queues.unused (queues : Queues h head tail l) (fresh : h a = none) (k : κ) : a ∉ l k := by
  intro member
  obtain ⟨_, found⟩ := (queues.chain k).allocated member
  rw [fresh] at found
  cases found

omit [DecidableEq κ] in
/-- A new node leaves the queues as they are. -/
theorem Queues.alloc (queues : Queues h head tail l) (fresh : h a = none) (node : Node α) :
    Queues (Function.update h a (some node)) head tail l ∧
      ∀ k, values (Function.update h a (some node)) (l k) = values h (l k) := by
  have same (k : κ) : ∀ b ∈ l k, Function.update h a (some node) b = h b := by
    intro b member
    rw [Function.update_of_ne]
    rintro rfl
    exact queues.unused fresh k member
  exact ⟨⟨fun k => (queues.chain k).congr (same k), queues.tail, queues.nodup, queues.apart⟩,
    fun k => values_congr (same k)⟩

/-- One queue is replaced; the nodes of the others are as before and not in the new one. -/
theorem Queues.replace (queues : Queues h head tail l) {first last : Pointer} {new : List Nat}
    (others : ∀ k', k' ≠ k → ∀ b ∈ l k', h' b = h b) (chain : Chain h' first new)
    (ends : last = new.getLast?) (distinct : new.Nodup)
    (apart : ∀ k', k' ≠ k → (l k').Disjoint new) :
    Queues h' (Function.update head k first) (Function.update tail k last)
      (Function.update l k new) := by
  have one {k' : κ} : Chain h' (Function.update head k first k') (Function.update l k new k') ∧
      Function.update tail k last k' = (Function.update l k new k').getLast? ∧
      (Function.update l k new k').Nodup := by
    by_cases here : k' = k
    · subst here
      simp only [Function.update_self]
      exact ⟨chain, ends, distinct⟩
    · simp only [Function.update_of_ne here]
      exact ⟨(queues.chain k').congr (others k' here), queues.tail k', queues.nodup k'⟩
  refine ⟨fun _ => one.1, fun _ => one.2.1, fun _ => one.2.2, fun k₁ k₂ differ => ?_⟩
  by_cases first : k₁ = k
  · subst first
    rw [Function.update_self, Function.update_of_ne (Ne.symm differ)]
    exact fun b inNew inOld => apart k₂ (Ne.symm differ) inOld inNew
  · rw [Function.update_of_ne first]
    by_cases second : k₂ = k
    · subst second
      rw [Function.update_self]
      exact apart k₁ differ
    · rw [Function.update_of_ne second]
      exact queues.apart k₁ k₂ differ

/-- The lists with a new node at the end of one of them. -/
def pushed (l : κ → List Nat) (k : κ) (a : Nat) : κ → List Nat :=
  Function.update l k (l k ++ [a])

/-- A node of no queue goes behind the others of one queue. -/
theorem Queues.push_back (queues : Queues h head tail l) (fresh : ∀ k, a ∉ l k) {first : Pointer}
    (others : ∀ k', k' ≠ k → ∀ b ∈ l k', h' b = h b) (chain : Chain h' first (l k ++ [a])) :
    Queues h' (Function.update head k first) (Function.update tail k (some a)) (pushed l k a) := by
  refine queues.replace others chain (by simp) ?_ fun k' other => ?_
  · exact (queues.nodup k).append (List.nodup_singleton a)
      (List.disjoint_singleton.mpr (fresh k))
  · exact List.disjoint_append_right.mpr
      ⟨queues.apart k' k other, List.disjoint_singleton.mpr (fresh k')⟩

/-- What the queues hold after `v` has been put at the end of queue `k`. -/
def Appended (h h' : Heap α) (l : κ → List Nat) (k : κ) (a : Nat) (v : α) : Prop :=
  ∀ k', values h' (pushed l k a k') =
    if k' = k then values h (l k') ++ [v] else values h (l k')

theorem appended_of_same (new : h' a = some ⟨none, v⟩)
    (same : ∀ k, values h' (l k) = values h (l k)) : Appended h h' l k a v := by
  intro k'
  by_cases here : k' = k
  · subst here
    rw [pushed, Function.update_self, values_append, same, if_pos rfl]
    simp [values, new]
  · rw [pushed, Function.update_of_ne here, same, if_neg here]

/-- Into an empty queue a node goes as the first and the last one. -/
theorem Queues.push_first (queues : Queues h head tail l) (empty : tail k = none)
    (new : h a = some ⟨none, v⟩) (fresh : ∀ k, a ∉ l k) :
    Queues h (Function.update head k (some a)) (Function.update tail k (some a)) (pushed l k a) ∧
      Appended h h l k a v := by
  have nothing : l k = [] := by rwa [queues.tail, List.getLast?_eq_none_iff] at empty
  refine ⟨queues.push_back fresh (fun _ _ _ _ => rfl) ?_, appended_of_same new fun _ => rfl⟩
  rw [nothing]
  exact ⟨rfl, _, new, rfl⟩

/-- Into another queue it goes behind the node that the tail points to. -/
theorem Queues.push_behind (queues : Queues h head tail l) (last : tail k = some t)
    (new : h a = some ⟨none, v⟩) (fresh : ∀ k, a ∉ l k) :
    ∃ h', h.setNext t (some a) = some h' ∧
      Queues h' head (Function.update tail k (some a)) (pushed l k a) ∧ Appended h h' l k a v ∧
      ∀ b, b ≠ t → h' b = h b := by
  rw [queues.tail, List.getLast?_eq_some_iff] at last
  obtain ⟨front, shape⟩ := last
  have member : t ∈ l k := shape ▸ List.mem_append_right _ (List.mem_singleton_self t)
  obtain ⟨node, found⟩ := (queues.chain k).allocated member
  have distinct := queues.nodup k
  rw [shape, List.nodup_append] at distinct
  have other : a ≠ t := fun same => fresh k (same ▸ member)
  let h' : Heap α := Function.update h t (some { node with next := some a })
  have kept (b : Nat) (apart : b ≠ t) : h' b = h b := Function.update_of_ne apart _ _
  have new' : h' a = some ⟨none, v⟩ := (kept a other).trans new
  have held : ∀ b, (h' b).map Node.val = (h b).map Node.val := by
    intro b
    by_cases here : b = t
    · subst here
      simp [h', found]
    · rw [kept b here]
  have longer : Chain h' (head k) (l k ++ [a]) := by
    rw [shape]
    refine Chain.concat (shape ▸ queues.chain k) (Function.update_self ..) new' fun b inFront => ?_
    apply kept
    rintro rfl
    exact distinct.2.2 b inFront b (List.mem_singleton_self b) rfl
  have queues' : Queues h' (Function.update head k (head k)) (Function.update tail k (some a))
      (pushed l k a) := by
    refine queues.push_back fresh (fun k' apart b inOther => kept b ?_) longer
    rintro rfl
    exact queues.apart k' k apart inOther member
  rw [Function.update_eq_self] at queues'
  exact ⟨h', by rw [setNext, found]; rfl, queues',
    appended_of_same new' fun k' => List.filterMap_congr fun b _ => held b, kept⟩

/-- Removing the first node: the next one becomes the first, and without a next one
the tail is `NULL` again. -/
theorem Queues.pop {rest : List Nat} (queues : Queues h head tail l) (shape : l k = a :: rest) :
    ∃ node, head k = some a ∧ h a = some node ∧
      Queues h (Function.update head k node.next)
        (Function.update tail k (if node.next = none then none else tail k))
        (Function.update l k rest) := by
  obtain ⟨here, node, found, chain⟩ := shape ▸ queues.chain k
  have distinct := queues.nodup k
  rw [shape, List.nodup_cons] at distinct
  refine ⟨node, here, found, queues.replace (fun _ _ _ _ => rfl) chain ?_ distinct.2 ?_⟩
  · cases rest with
    | nil => rw [if_pos (show node.next = none from chain), List.getLast?_nil]
    | cons b rest =>
      rw [if_neg (by simp [chain.1]), queues.tail, shape, List.getLast?_cons_cons]
  · intro k' other b member later
    exact queues.apart k' k other member (shape ▸ List.mem_cons_of_mem _ later)

/-- Emptying a queue, whatever becomes of its nodes. -/
theorem Queues.clear (queues : Queues h head tail l)
    (same : ∀ k', k' ≠ k → ∀ b ∈ l k', h' b = h b) :
    Queues h' (Function.update head k none) (Function.update tail k none)
      (Function.update l k []) :=
  queues.replace same rfl rfl List.nodup_nil fun _ _ => List.disjoint_nil_right _

end Queues
end Heap
end Lib
