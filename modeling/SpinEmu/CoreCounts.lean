import Mathlib.Algebra.Order.BigOperators.Group.List
import SpinEmu.BarrierRoles

/-! The counters of `spin1_set_core_map` over a sequence of calls: `ncores`, which each
call sets, and `my_ncores` and `nchips`, to which each call adds. -/
namespace SpinEmu

/-- The counters of an application process, with their initial values. -/
structure CoreCounters where
  vars : BarrierVars := {}
  ncores : BitVec 32 := 1

instance (k : Nat) (coreMap : Nat → BitVec 32) : Decidable (Several k coreMap) :=
  inferInstanceAs (Decidable (_ > _))

/-- `spin1_set_core_map` on core `core` of chip `c`, which is the root application core of
its chip or is not. -/
def spin1SetCoreMap (k : Nat) (past : Nat → BitVec 32) (rootAp : Bool) (c core : Nat)
    (s : CoreCounters) (coreMap : Nat → BitVec 32) : Option CoreCounters :=
  let ncores := countCores (squareChips k) coreMap
  if ncores > 1 && rootAp then
    (barrierSetup (square k) past (squareChips k) coreMap c core s.vars).map fun (vars, _) =>
      ⟨vars, ncores⟩
  else some { s with ncores }

/-- The counters of the root application core of a chip after a sequence of calls. -/
def afterCalls (k : Nat) (past : Nat → BitVec 32) (c core : Nat) (maps : List (Nat → BitVec 32)) :
    Option CoreCounters :=
  maps.foldlM (spin1SetCoreMap k past true c core) {}

/-- The application cores of a chip. -/
def coresOn (coreMap : Nat → BitVec 32) (c : Nat) : Nat :=
  (List.range numCpus).countP (runs coreMap c)

/-- The chips that run application cores, the root chip aside. -/
def otherChips (k : Nat) (coreMap : Nat → BitVec 32) : Nat :=
  (List.range (square k).numChips).countP fun c => c != 0 && decide (0 < coresOn coreMap c)

def totalCores (k : Nat) (coreMap : Nat → BitVec 32) : Nat :=
  ((List.range (square k).numChips).map (coresOn coreMap)).sum

/-- After the calls and one more, the counters describe the last map on every chip,
whichever core is the root application core. -/
def Described (k : Nat) (past : Nat → BitVec 32) (earlier : List (Nat → BitVec 32))
    (coreMap : Nat → BitVec 32) : Prop :=
  ∀ c < (square k).numChips, ∀ core, ∃ s, afterCalls k past c core (earlier ++ [coreMap]) = some s ∧
    s.vars.myNcores.toNat = coresOn coreMap c ∧
    (c = 0 → s.vars.nchips.toNat = 1 + otherChips k coreMap) ∧
    s.ncores.toNat = totalCores k coreMap

/-- The index into the core map that a chip computes from its packed address. -/
def packedIndex (k c : Nat) : Nat :=
  let chipID := BitVec.ofNat 32 (c / 2 ^ k * 256 + c % 2 ^ k)
  (((chipID >>> 8) <<< k) ||| (chipID &&& 0xff)).toNat

/-- What a map has to have for the three counts to agree. The first and the last part are
about large boards only. -/
structure Countable (k : Nat) (coreMap : Nat → BitVec 32) : Prop where
  index : ∀ c < (square k).numChips, coresOn coreMap (packedIndex k c) = coresOn coreMap c
  low : ∀ c < (square k).numChips, c ≠ 0 → hasCores coreMap (BitVec.ofNat 32 c) = true →
    0 < coresOn coreMap c
  total : totalCores k coreMap < 2 ^ 32

section Counting
open Lib.Tally
variable {coreMap : Nat → BitVec 32} {k : Nat}

theorem countP_low (c : Nat) :
    (List.range' 1 (numCpus - 1)).countP (testBit (coreMap c)) = coresOn coreMap c := by
  rw [coresOn, ← countP_runs]
  apply List.countP_congr
  intro j hj
  obtain ⟨i, hi, rfl⟩ := List.mem_range'.mp hj
  simp only [numCpus] at hi
  rw [testBit_mask _ (by omega) (by omega)]

theorem coresOn_le (coreMap : Nat → BitVec 32) (c : Nat) : coresOn coreMap c ≤ numCpus - 1 := by
  rw [← countP_low]
  exact List.countP_le_length.trans (by simp)

theorem countCores_eq (hk : k ≤ 15) :
    countCores (squareChips k) coreMap = BitVec.ofNat 32 (totalCores k coreMap) := by
  have inner (nc : BitVec 32) (i : Nat) : (List.range' 1 (numCpus - 1)).foldl
      (fun nc j => if testBit (coreMap i) j then nc + 1 else nc) nc =
        nc + BitVec.ofNat 32 (coresOn coreMap i) := by
    rw [foldl_count, countP_low]
  rw [countCores, squareChips_toNat hk]
  simp only [inner]
  rw [foldl_sum]
  exact BitVec.zero_add _

/-- The other chips with any bit but the monitor's. -/
def hostChips (k : Nat) (coreMap : Nat → BitVec 32) : Nat :=
  (List.range (square k).numChips).countP fun c =>
    BitVec.ofNat 32 c != 0 && hasCores coreMap (BitVec.ofNat 32 c)

theorem countChips_eq (hk : k ≤ 15) (nchips : BitVec 32) :
    countChips (squareChips k) coreMap 0 nchips =
      nchips + BitVec.ofNat 32 (hostChips k coreMap) := by
  rw [countChips, squareChips_toNat hk, foldl_count]
  rfl

theorem otherChips_eq_iff (hk : k ≤ 15) : otherChips k coreMap = hostChips k coreMap ↔
    ∀ c < (square k).numChips, c ≠ 0 → hasCores coreMap (BitVec.ofNat 32 c) = true →
      0 < coresOn coreMap c := by
  have bound := numChips_le hk
  have nonzero {c : Nat} (hc : c < (square k).numChips) : BitVec.ofNat 32 c ≠ 0 ↔ c ≠ 0 :=
    ofNat_ne_zero_iff hk hc
  rw [otherChips, hostChips, countP_eq_iff_of_imp]
  · constructor
    · intro agree c hc other host
      have counted : (BitVec.ofNat 32 c != 0 && hasCores coreMap (BitVec.ofNat 32 c)) = true := by
        rw [host, Bool.and_true, bne_iff_ne]
        exact (nonzero hc).mpr other
      have active := agree c (List.mem_range.mpr hc) counted
      simpa using (Bool.and_eq_true_iff.mp active).2
    · intro low c member host
      have hc := List.mem_range.mp member
      simp only [Bool.and_eq_true, bne_iff_ne, nonzero hc, decide_eq_true_eq] at host ⊢
      exact ⟨host.1, low c hc host.1 host.2⟩
  · intro c member other
    have hc := List.mem_range.mp member
    simp only [Bool.and_eq_true, bne_iff_ne, nonzero hc, decide_eq_true_eq] at other ⊢
    obtain ⟨core, _, running⟩ := List.countP_pos_iff.mp other.2
    exact ⟨other.1, hasCores_of_runs (by omega) running⟩

end Counting

/-- The call is the statement of the barrier's cores. -/
theorem coreMove_setCoreMap {k c i lock : Nat} {past coreMap : Nat → BitVec 32} {me : Core}
    {holder : Option Nat} (here : me.pc = .setCoreMap) :
    (coreMove k past coreMap c i me holder lock).map (fun m => (m.core.vars, m.core.ncores)) =
      (spin1SetCoreMap k past me.rootAp c i ⟨me.vars, me.ncores⟩ coreMap).map fun s =>
        (s.vars, s.ncores) := by
  simp only [coreMove, here, spin1SetCoreMap]
  split
  · rw [Option.map_map, Option.map_map]
    rfl
  · rfl

section Calls
variable {k c core : Nat} {past coreMap : Nat → BitVec 32} {maps : List (Nat → BitVec 32)}
  {s t : CoreCounters}

theorem setCoreMap_alone (alone : ¬ Several k coreMap) :
    spin1SetCoreMap k past true c core s coreMap =
      some { s with ncores := countCores (squareChips k) coreMap } := by
  have test : decide (countCores (squareChips k) coreMap > 1) = false := decide_eq_false alone
  simp only [spin1SetCoreMap, test, Bool.false_and, Bool.false_eq_true, if_false]

/-- The counts of this chip and, on the root chip, those of the others are added. -/
theorem setCoreMap_several (past : Nat → BitVec 32) (core : Nat) (s : CoreCounters)
    (several : Several k coreMap) (hc : c < (square k).numChips) :
    ∃ t, spin1SetCoreMap k past true c core s coreMap = some t ∧
      t.ncores = countCores (squareChips k) coreMap ∧
      t.vars.myNcores =
        s.vars.myNcores + BitVec.ofNat 32 (coresOn coreMap (packedIndex k c)) ∧
      (c = 0 → t.vars.nchips = countChips (squareChips k) coreMap 0 s.vars.nchips) := by
  have test : decide (countCores (squareChips k) coreMap > 1) = true := decide_eq_true several
  obtain ⟨hx, hy, at_c⟩ := Board.coordinates hc
  have setup := barrierSetup_square past coreMap (several_le several) hx hy core s.vars rfl rfl rfl
  rw [at_c] at setup
  simp only [spin1SetCoreMap, test, Bool.true_and, if_true, setup, Option.map_some]
  refine ⟨_, rfl, rfl, ?_, ?_⟩
  · rw [localCores_count, countP_runs]
    rfl
  · rintro rfl
    simp

theorem afterCalls_snoc : afterCalls k past c core (maps ++ [coreMap]) =
    (afterCalls k past c core maps).bind fun s => spin1SetCoreMap k past true c core s coreMap := by
  rw [afterCalls, List.foldlM_append]
  simp only [List.foldlM_cons, List.foldlM_nil, bind_pure]
  rfl

/-- As long as no map has more than one core, nothing is counted. -/
theorem afterCalls_fresh (past : Nat → BitVec 32) (c core : Nat)
    (alone : ∀ e ∈ maps, ¬ Several k e) :
    ∃ s, afterCalls k past c core maps = some s ∧ s.vars = {} := by
  induction maps using List.reverseRecOn with
  | nil => exact ⟨{}, rfl, rfl⟩
  | append_singleton maps e ih =>
    obtain ⟨s, before, fresh⟩ := ih fun e' member => alone e' (List.mem_append_left _ member)
    refine ⟨{ s with ncores := countCores (squareChips k) e }, ?_, fresh⟩
    rw [afterCalls_snoc, before, Option.bind_some, setCoreMap_alone (alone e (by simp))]

/-- The cores that the maps with more than one core have given to a chip. -/
def countedCores (k c : Nat) (maps : List (Nat → BitVec 32)) : Nat :=
  ((maps.filter (Several k)).map fun e => coresOn e (packedIndex k c)).sum

theorem afterCalls_counted (past : Nat → BitVec 32) (core : Nat) (maps : List (Nat → BitVec 32))
    (hc : c < (square k).numChips) :
    ∃ s, afterCalls k past c core maps = some s ∧
      s.vars.myNcores = BitVec.ofNat 32 (countedCores k c maps) := by
  induction maps using List.reverseRecOn with
  | nil => exact ⟨{}, rfl, rfl⟩
  | append_singleton maps e ih =>
    obtain ⟨s, before, counted⟩ := ih
    by_cases several : Several k e
    · obtain ⟨t, call, _, added, _⟩ := setCoreMap_several past core s several hc
      refine ⟨t, by rw [afterCalls_snoc, before]; exact call, ?_⟩
      rw [added, counted, ← BitVec.ofNat_add]
      simp [countedCores, several]
    · refine ⟨_, by rw [afterCalls_snoc, before]; exact setCoreMap_alone several, ?_⟩
      rw [counted]
      simp [countedCores, several]

/-- The counters after the first call that sets up the barrier. -/
theorem afterCalls_first (past : Nat → BitVec 32) (core : Nat)
    (alone : ∀ e ∈ maps, ¬ Several k e) (several : Several k coreMap)
    (hc : c < (square k).numChips) :
    ∃ t, afterCalls k past c core (maps ++ [coreMap]) = some t ∧
      t.vars.myNcores.toNat = coresOn coreMap (packedIndex k c) ∧
      (c = 0 → t.vars.nchips.toNat = 1 + hostChips k coreMap) ∧
      t.ncores.toNat = totalCores k coreMap % 2 ^ 32 := by
  have hk := several_le several
  obtain ⟨s, before, fresh⟩ := afterCalls_fresh past c core alone
  obtain ⟨t, call, ncores, cores, chips⟩ :=
    setCoreMap_several past core s several hc
  refine ⟨t, by rw [afterCalls_snoc, before]; exact call, ?_, fun root => ?_, ?_⟩
  · have small := coresOn_le coreMap (packedIndex k c)
    simp only [numCpus] at small
    rw [cores, fresh, BitVec.toNat_add, BitVec.toNat_ofNat]
    change (0 + _) % _ = _
    omega
  · have small : hostChips k coreMap ≤ 2 ^ 15 * 2 ^ 15 :=
      (List.countP_le_length.trans (by simp)).trans (numChips_le hk)
    rw [chips root, fresh, countChips_eq hk, BitVec.toNat_add, BitVec.toNat_ofNat]
    change (1 + _) % _ = _
    omega
  · rw [ncores, countCores_eq hk, BitVec.toNat_ofNat]

theorem described_first_iff (alone : ∀ e ∈ maps, ¬ Several k e) (several : Several k coreMap) :
    Described k past maps coreMap ↔ Countable k coreMap := by
  have hk := several_le several
  have first : 0 < (square k).numChips := Nat.mul_pos (Nat.two_pow_pos k) (Nat.two_pow_pos k)
  have result (c core : Nat) (hc : c < (square k).numChips) :=
    afterCalls_first past core alone several hc
  constructor
  · intro described
    have agree {c : Nat} (hc : c < (square k).numChips) :
        coresOn coreMap (packedIndex k c) = coresOn coreMap c ∧
          (c = 0 → hostChips k coreMap = otherChips k coreMap) ∧
          totalCores k coreMap % 2 ^ 32 = totalCores k coreMap := by
      obtain ⟨t, after, cores, chips, total⟩ := result c 1 hc
      obtain ⟨t', after', cores', chips', total'⟩ := described c hc 1
      rw [after] at after'
      cases after'
      exact ⟨cores.symm.trans cores', fun root => by have := chips root; have := chips' root; omega,
        total.symm.trans total'⟩
    exact ⟨fun c hc => (agree hc).1, (otherChips_eq_iff hk).mp ((agree first).2.1 rfl).symm,
      (agree first).2.2 ▸ Nat.mod_lt _ (by decide)⟩
  · intro countable c hc core
    obtain ⟨t, after, cores, chips, total⟩ := result c core hc
    refine ⟨t, after, cores.trans (countable.index c hc), fun root => ?_, ?_⟩
    · rw [chips root, (otherChips_eq_iff hk).mpr countable.low]
    · rw [total, Nat.mod_eq_of_lt countable.total]

/-- Up to side 256 the packed address gives the chip back. -/
theorem packedIndex_eq (hk : k ≤ 8) (hc : c < (square k).numChips) : packedIndex k c = c := by
  obtain ⟨hx, hy, at_c⟩ := Board.coordinates hc
  have bound := numChips_le (k := k) (by omega)
  have same : packedIndex k c =
      (BitVec.ofNat 32 ((square k).chip (c / 2 ^ k) (c % 2 ^ k))).toNat := by
    rw [packedIndex, addressX hx hy hk, addressY hy hk, myChip_square hx hy hk]
  rw [same, at_c, BitVec.toNat_ofNat]
  omega

theorem totalCores_lt (hk : k ≤ 8) : totalCores k coreMap < 2 ^ 32 := by
  have chips : (square k).numChips ≤ 256 * 256 := Nat.mul_le_mul (side_le hk) (side_le hk)
  have bound := List.sum_le_card_nsmul ((List.range (square k).numChips).map (coresOn coreMap)) 7
    fun n member => by
      obtain ⟨c, _, rfl⟩ := List.mem_map.mp member
      exact coresOn_le _ c
  rw [List.length_map, List.length_range, smul_eq_mul] at bound
  rw [totalCores]
  omega

theorem countable_iff (hk : k ≤ 8) : Countable k coreMap ↔
    ∀ c < (square k).numChips, c ≠ 0 → hasCores coreMap (BitVec.ofNat 32 c) = true →
      0 < coresOn coreMap c :=
  ⟨fun countable => countable.low, fun low =>
    ⟨fun c hc => by rw [packedIndex_eq hk hc], low, totalCores_lt hk⟩⟩

theorem countedCores_le (k c : Nat) (maps : List (Nat → BitVec 32)) :
    countedCores k c maps ≤ 7 * maps.length := by
  have bound := List.sum_le_card_nsmul
    ((maps.filter (Several k)).map fun e => coresOn e (packedIndex k c)) 7 fun n member => by
      obtain ⟨e, _, rfl⟩ := List.mem_map.mp member
      exact coresOn_le _ _
  have fewer := List.length_filter_le (fun e => decide (Several k e)) maps
  rw [List.length_map, smul_eq_mul] at bound
  rw [countedCores]
  omega

/-- A map with more than one core gives one to some chip. -/
theorem exists_counted (several : Several k coreMap) :
    ∃ c < (square k).numChips, 0 < coresOn coreMap c := by
  have total : 0 < totalCores k coreMap := by
    by_contra none
    rw [Several, countCores_eq (several_le several), Nat.eq_zero_of_not_pos none] at several
    exact absurd several (by decide)
  obtain ⟨n, member, some⟩ := List.sum_pos_iff_exists_pos_nat.mp total
  obtain ⟨c, inside, rfl⟩ := List.mem_map.mp member
  exact ⟨c, List.mem_range.mp inside, some⟩

/-- After a second call that sets up the barrier the cores are counted twice. -/
theorem not_described_again (hk : k ≤ 8) (several : Several k coreMap)
    (again : ∃ e ∈ maps, Several k e) (few : 7 * (maps.length + 1) < 2 ^ 32) :
    ¬ Described k past maps coreMap := by
  intro described
  obtain ⟨e, member, before⟩ := again
  obtain ⟨c, hc, some⟩ := exists_counted before
  have counted : 0 < countedCores k c maps := by
    refine List.sum_pos_iff_exists_pos_nat.mpr ⟨coresOn e c, ?_, some⟩
    refine List.mem_map.mpr ⟨e, List.mem_filter.mpr ⟨member, decide_eq_true before⟩, ?_⟩
    rw [packedIndex_eq hk hc]
  have bound := countedCores_le k c maps
  have small := coresOn_le coreMap c
  simp only [numCpus] at small
  obtain ⟨s, after, cores⟩ := afterCalls_counted past 1 maps hc
  obtain ⟨t, call, _, added, _⟩ :=
    setCoreMap_several past 1 s several hc
  obtain ⟨t', result, cores', _⟩ := described c hc 1
  rw [afterCalls_snoc, after, Option.bind_some, call] at result
  cases result
  rw [added, cores, packedIndex_eq hk hc, ← BitVec.ofNat_add, BitVec.toNat_ofNat] at cores'
  omega

end Calls

/-- The counters describe the map of the first call that sets up the barrier exactly when
the three counts of this map agree, and none of a later call that sets it up. -/
theorem counters_described (k : Nat) (past : Nat → BitVec 32) :
    (∀ earlier coreMap, Several k coreMap → (∀ e ∈ earlier, ¬ Several k e) →
      (Described k past earlier coreMap ↔ Countable k coreMap)) ∧
    (k ≤ 8 → ∀ coreMap, Countable k coreMap ↔
      ∀ c < (square k).numChips, c ≠ 0 → hasCores coreMap (BitVec.ofNat 32 c) = true →
        0 < coresOn coreMap c) ∧
    (k ≤ 8 → ∀ earlier coreMap, Several k coreMap → (∃ e ∈ earlier, Several k e) →
      7 * (earlier.length + 1) < 2 ^ 32 → ¬ Described k past earlier coreMap) :=
  ⟨fun _ _ several alone => described_first_iff alone several, fun hk _ => countable_iff hk,
    fun hk _ _ several again few => not_described_again hk several again few⟩

/-- One chip with two application cores. -/
def twoCores : Nat → BitVec 32 := fun _ => 6

/-- A call with one core does not set up the barrier, the next one is described. -/
theorem counters_described_twoCores : Described 0 (fun _ => 0) [fun _ => 2] twoCores := by
  have countable : Countable 0 twoCores :=
    ((counters_described 0 fun _ => 0).2.1 (by decide) twoCores).mpr (by decide)
  refine ((counters_described 0 fun _ => 0).1 [fun _ => 2] twoCores (by decide) ?_).mpr countable
  exact List.forall_mem_singleton.mpr (by decide)

/-- The second chip has only the bit of a ninth core. -/
def ninthCore : Nat → BitVec 32 := fun c => if c = 1 then 0x100 else 6

theorem counters_not_described :
    ¬ Described 0 (fun _ => 0) [twoCores] twoCores ∧ ¬ Described 1 (fun _ => 0) [] ninthCore := by
  have several : Several 0 twoCores := by decide
  constructor
  · exact not_described_again (by decide) several ⟨_, List.mem_singleton_self _, several⟩
      (by decide)
  · rw [described_first_iff (fun e none => by cases none) (by decide), countable_iff (by decide)]
    exact fun low => absurd (low 1 (by decide) (by decide) (by decide)) (by decide)

end SpinEmu
