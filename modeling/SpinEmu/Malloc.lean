import SpinEmu.RemoteMemory
import SpinEmu.Lib.Bump
import Mathlib.Data.BitVec

/-! Any sequence of `spin1_malloc` calls of an application. The free pointer begins at
the base of the DTCM, and nothing compares it with the top. -/
namespace SpinEmu
open Lib

def dtcmBase : Nat := 0x00400000
def dtcmSize : Nat := 0x00010000
def dtcmTop : Nat := dtcmBase + dtcmSize

/-- `spin1_malloc`, as the result and the free pointer after it. -/
def spin1Malloc (dtcmFreeptr bytes : BitVec 32) : BitVec 32 × BitVec 32 :=
  (dtcmFreeptr, dtcmFreeptr + bytes)

/-- A call, with the free pointer before and after it. A result of zero is `NULL`. -/
structure MallocCall where
  bytes : BitVec 32
  before : BitVec 32
  ptr : BitVec 32
  after : BitVec 32
  deriving DecidableEq, Repr

namespace MallocCall

/-- The calls for the given numbers of bytes, one after the other. -/
def sequence : BitVec 32 → List (BitVec 32) → List MallocCall
  | _, [] => []
  | free, bytes :: rest =>
    let (ptr, after) := spin1Malloc free bytes
    ⟨bytes, free, ptr, after⟩ :: sequence after rest

/-- The calls of an application, from the initial value of the free pointer. -/
def run (sizes : List (BitVec 32)) : List MallocCall := sequence (BitVec.ofNat 32 dtcmBase) sizes

def block (c : MallocCall) : Nat × Nat := (c.ptr.toNat, c.bytes.toNat)

/-- What the calls have been granted. -/
def granted (calls : List MallocCall) : Nat :=
  ((calls.filter (·.ptr ≠ 0)).map (·.bytes.toNat)).sum

def Fits (earlier : List MallocCall) (c : MallocCall) : Prop :=
  granted earlier + c.bytes.toNat ≤ dtcmSize

instance (earlier : List MallocCall) (c : MallocCall) : Decidable (Fits earlier c) :=
  inferInstanceAs (Decidable (_ ≤ _))

/-- What an allocator of the DTCM promises: blocks inside it that do not overlap, no
refusal of what fits, and a refusal without effect of what does not. -/
structure WellServed (calls : List MallocCall) : Prop where
  inside : ∀ c ∈ calls, c.ptr ≠ 0 → Bump.extent c.block ⊆ Set.Ico dtcmBase dtcmTop
  disjoint : calls.Pairwise fun c d =>
    c.ptr ≠ 0 → d.ptr ≠ 0 → Disjoint (Bump.extent c.block) (Bump.extent d.block)
  refused : ∀ front c back, calls = front ++ c :: back → ¬ Fits front c →
    c.ptr = 0 ∧ c.after = c.before
  served : ∀ front c back, calls = front ++ c :: back → Fits front c → c.ptr ≠ 0

/-- The bytes that all requests ask for. -/
def requested (sizes : List (BitVec 32)) : Nat := (sizes.map BitVec.toNat).sum

variable {free : BitVec 32} {sizes : List (BitVec 32)} {calls : List MallocCall} {c : MallocCall}

@[simp] theorem sequence_nil : sequence free [] = [] := rfl

@[simp] theorem sequence_cons (bytes : BitVec 32) :
    sequence free (bytes :: sizes) =
      ⟨bytes, free, free, free + bytes⟩ :: sequence (free + bytes) sizes := rfl

@[simp] theorem requested_nil : requested [] = 0 := rfl

@[simp] theorem requested_cons (bytes : BitVec 32) :
    requested (bytes :: sizes) = bytes.toNat + requested sizes := by
  simp [requested]

theorem granted_append (front back : List MallocCall) :
    granted (front ++ back) = granted front + granted back := by
  simp [granted]

theorem granted_cons (given : c.ptr ≠ 0) : granted (c :: calls) = c.bytes.toNat + granted calls := by
  simp only [granted, List.filter_cons, given, ne_eq, not_false_eq_true, decide_true, if_true,
    List.map_cons, List.sum_cons]

/-- A well-served application only has blocks of mapped bytes. -/
theorem WellServed.mapped (served : WellServed calls) (member : c ∈ calls) (given : c.ptr ≠ 0)
    {a : BitVec 32} (covered : a.toNat ∈ Bump.extent c.block) : isDtcm a = true :=
  isDtcm_iff.mpr (served.inside c member given covered)

/-- While the pointer does not wrap, a call moves it on by what it is for. -/
theorem next_toNat {bytes : BitVec 32}
    (below : free.toNat + requested (bytes :: sizes) < 2 ^ 32) :
    (free + bytes).toNat = free.toNat + bytes.toNat ∧
      (free + bytes).toNat + requested sizes < 2 ^ 32 := by
  rw [requested_cons] at below
  have next : (free + bytes).toNat = free.toNat + bytes.toNat := by
    rw [BitVec.toNat_add, Nat.mod_eq_of_lt (by omega)]
  exact ⟨next, by omega⟩

section Below
variable (low : 0 < free.toNat) (below : free.toNat + requested sizes < 2 ^ 32)
include below

/-- As long as the pointer does not wrap, the blocks lie one behind the other. -/
theorem sequence_blocks :
    (sequence free sizes).map block = Bump.blocks free.toNat (sizes.map BitVec.toNat) := by
  induction sizes generalizing free with
  | nil => rfl
  | cons bytes sizes ih =>
    obtain ⟨next, small⟩ := next_toNat below
    have rest := ih small
    rw [next] at rest
    rw [sequence_cons, List.map_cons, rest]
    rfl

include low

/-- No call returns `NULL`, and each of them is granted what it asks for. -/
theorem sequence_granted :
    (∀ c ∈ sequence free sizes, c.ptr ≠ 0) ∧ granted (sequence free sizes) = requested sizes := by
  induction sizes generalizing free with
  | nil => exact ⟨fun c member => absurd member List.not_mem_nil, rfl⟩
  | cons bytes sizes ih =>
    obtain ⟨next, small⟩ := next_toNat below
    have given : free ≠ 0 := by
      rintro rfl
      exact absurd low (by decide)
    obtain ⟨others, sum⟩ := ih (by omega) small
    refine ⟨fun c member => ?_, ?_⟩
    · rcases List.mem_cons.mp member with rfl | later
      · exact given
      · exact others c later
    · rw [sequence_cons, requested_cons, ← sum]
      exact granted_cons given

end Below

theorem sequence_append (front back : List (BitVec 32)) :
    sequence free (front ++ back) =
      sequence free front ++ sequence (free + front.sum) back := by
  induction front generalizing free with
  | nil => simp
  | cons bytes front ih => simp [ih, BitVec.add_assoc]

theorem toNat_add_sum (below : free.toNat + requested sizes < 2 ^ 32) :
    (free + sizes.sum).toNat = free.toNat + requested sizes := by
  induction sizes generalizing free with
  | nil => simp
  | cons bytes sizes ih =>
    obtain ⟨next, small⟩ := next_toNat below
    rw [requested_cons]
    have rest := ih small
    rw [List.sum_cons, ← BitVec.add_assoc, rest]
    omega

theorem base_toNat : (BitVec.ofNat 32 dtcmBase).toNat = dtcmBase := rfl

theorem base_add_lt {n : Nat} (room : n ≤ dtcmSize) :
    (BitVec.ofNat 32 dtcmBase).toNat + n < 2 ^ 32 := by
  rw [base_toNat]
  unfold dtcmBase
  unfold dtcmSize at room
  omega

/-- Within the DTCM all is as it should be. -/
theorem wellServed_of_requested (room : requested sizes ≤ dtcmSize) : WellServed (run sizes) := by
  have below := base_add_lt room
  have blocks := sequence_blocks below
  obtain ⟨given, sum⟩ := sequence_granted (by decide) below
  refine ⟨fun c member _ => ?_, ?_, fun front c back shape misfit => ?_,
    fun front c back shape _ => ?_⟩
  · have among : c.block ∈ Bump.blocks dtcmBase (sizes.map BitVec.toNat) := by
      rw [← base_toNat, ← blocks]
      exact List.mem_map_of_mem member
    exact Set.Ico_subset_Ico (Bump.start_le among)
      ((Bump.end_le among).trans (Nat.add_le_add_left room dtcmBase))
  · have apart := Bump.blocks_disjoint (BitVec.ofNat 32 dtcmBase).toNat (sizes.map BitVec.toNat)
    rw [← blocks, List.pairwise_map] at apart
    exact apart.imp fun disjoint _ _ => disjoint
  · have here : c.ptr ≠ 0 := given c (by rw [← run, shape]; simp)
    rw [← run, shape, granted_append, granted_cons here] at sum
    exact absurd (show Fits front c by unfold Fits; omega) misfit
  · exact given c (by rw [← run, shape]; simp)

/-- The first request that goes past the top is granted. -/
theorem not_wellServed (excess : dtcmSize < requested sizes) : ¬ WellServed (run sizes) := by
  intro served
  obtain ⟨front, n, back, shape, room, overrun⟩ :=
    Bump.exists_overrun (Nat.zero_le dtcmSize)
      (show dtcmSize < 0 + (sizes.map BitVec.toNat).sum by rwa [Nat.zero_add])
  obtain ⟨earlier, rest, rfl, rfl, tail⟩ := List.map_eq_append_iff.mp shape
  obtain ⟨bytes, later, rfl, rfl, rfl⟩ := List.map_eq_cons_iff.mp tail
  have room : requested earlier ≤ dtcmSize := by simpa [requested] using room
  have below := base_add_lt room
  obtain ⟨-, sum⟩ := sequence_granted (by decide) below
  have misfit : ¬ Fits (run earlier) ⟨bytes, BitVec.ofNat 32 dtcmBase + earlier.sum,
      BitVec.ofNat 32 dtcmBase + earlier.sum, BitVec.ofNat 32 dtcmBase + earlier.sum + bytes⟩ := by
    rw [Fits, run, sum]
    have same : requested earlier = (earlier.map BitVec.toNat).sum := rfl
    exact not_le.mpr (by simpa [same] using overrun)
  obtain ⟨null, -⟩ := served.refused _ _ (sequence _ later) (sequence_append _ _) misfit
  have place := congrArg BitVec.toNat null
  rw [toNat_add_sum below, base_toNat] at place
  exact absurd place (by simp [dtcmBase])

theorem wellServed_iff (sizes : List (BitVec 32)) :
    WellServed (run sizes) ↔ requested sizes ≤ dtcmSize :=
  ⟨fun served => not_lt.mp fun excess => not_wellServed excess served, wellServed_of_requested⟩

/-- Two requests for all of the DTCM. -/
theorem second_region_granted :
    ¬ WellServed (run [0x10000, 0x10000]) := by
  intro served
  obtain ⟨null, -⟩ := served.refused [⟨0x10000, 0x400000, 0x400000, 0x410000⟩]
    ⟨0x10000, 0x410000, 0x410000, 0x420000⟩ [] rfl (by decide)
  exact absurd null (by decide)

end MallocCall
end SpinEmu
