import SpinEmu.LcfgText
import SpinEmu.IpTags
import SpinEmu.Requesters
import SpinEmu.SdpGrowth

/-! From the configuration file to the board: `main`, the start of the dispatcher, and
which board is emulated in a run. -/
namespace SpinEmu
open Lib Lib.Machine

namespace Lcfg

/-- `atoi` of the copy that `main` makes of a value. A number that is no `int` is undefined. -/
def atoi (value : List Char) : Option Int :=
  let n := Decimal.read (cstr value)
  if -2 ^ 31 ≤ n ∧ n < 2 ^ 31 then some n else none

/-- What `main` does with the file: the factor of the timer, and the arguments of
`spin_emu_dispatcher` when there are any. The results of `lcfg_value_get` are not looked
at; `junk` is what `data` and `len` stand for before the first call. -/
def main (file : Except String (List Piece)) (junk : List Char) :
    Option (Int × Option (Int × Int)) :=
  match parse file with
  | (.error, _) => some (1, none)
  | (.ok, c) => do
    let data := (c.valueGet "X_CHIPS".toList junk).2
    let x ← atoi data
    let data := (c.valueGet "Y_CHIPS".toList data).2
    let y ← atoi data
    let data := (c.valueGet "SLOW_DOWN_TIMER".toList data).2
    return (← atoi data, some (x, y))

/-- The text under a key of the top level, or the one before if there is none. -/
def Entries.valueOf (entries : Entries) (key : String) (before : List Char) : List Char :=
  (entries.find [key.toList]).getD before

theorem valueGet_value {reads : List Piece} {entries : Entries} (key : String)
    (before : List Char) (plain : '.' ∉ key.toList)
    (writes : Writes (BlockStream.delivered reads) entries) :
    ((parse (.ok reads)).2.valueGet key.toList before).2 = entries.valueOf key before := by
  have parts : key.toList.splitOn '.' = [key.toList] := by
    have whole : (['.'].intercalate [key.toList]).splitOn '.' = [key.toList] :=
      List.splitOn_intercalate '.' (by simpa using plain) (by simp)
    simpa [List.intercalate] using whole
  rw [valueGet_lookup _ _ writes, lookup_bindings, parts, Entries.valueOf]
  cases entries.find [key.toList] <;> rfl

theorem main_rejected {reads : List Piece} {junk : List Char}
    (none : ¬ ∃ entries, Writes (BlockStream.delivered reads) entries) :
    main (.ok reads) junk = some (1, .none) := by
  unfold main
  split
  · rfl
  · rename_i c same
    obtain ⟨entries, writes, _⟩ := stores_iff.mp ⟨congrArg Prod.fst same, rfl⟩
    exact absurd ⟨entries, writes⟩ none

theorem main_accepted {reads : List Piece} {entries : Entries} (junk : List Char)
    (writes : Writes (BlockStream.delivered reads) entries) :
    main (.ok reads) junk =
      let x := entries.valueOf "X_CHIPS" junk
      let y := entries.valueOf "Y_CHIPS" x
      let speed := entries.valueOf "SLOW_DOWN_TIMER" y
      do return (← atoi speed, some (← atoi x, ← atoi y)) := by
  have accepted := (stores_iff.mpr ⟨entries, writes, rfl⟩).1
  have x := valueGet_value "X_CHIPS" junk (by decide) writes
  unfold main
  split
  · rename_i c same
    rw [same] at accepted
    cases accepted
  · rename_i c same
    have y := valueGet_value "Y_CHIPS" (entries.valueOf "X_CHIPS" junk) (by decide) writes
    have speed := valueGet_value "SLOW_DOWN_TIMER"
      (entries.valueOf "Y_CHIPS" (entries.valueOf "X_CHIPS" junk)) (by decide) writes
    rw [same] at x y speed
    dsimp only at x y speed ⊢
    rw [x, y, speed]
    cases atoi (entries.valueOf "X_CHIPS" junk) <;> cases atoi (entries.valueOf "Y_CHIPS" _) <;>
      cases atoi (entries.valueOf "SLOW_DOWN_TIMER" _) <;> rfl

/-- A file that is no text of the language starts the emulator with no board. For any
other, a key that is missing takes the text of the key before it. -/
theorem main_spec (reads : List Piece) (junk : List Char) :
    ((¬ ∃ entries, Writes (BlockStream.delivered reads) entries) →
      main (.ok reads) junk = some (1, none)) ∧
    ∀ entries, Writes (BlockStream.delivered reads) entries →
      let x := entries.valueOf "X_CHIPS" junk
      let y := entries.valueOf "Y_CHIPS" x
      let speed := entries.valueOf "SLOW_DOWN_TIMER" y
      main (.ok reads) junk = do return (← atoi speed, some (← atoi x, ← atoi y)) :=
  ⟨main_rejected, fun _ writes => main_accepted junk writes⟩

end Lcfg

namespace SdpDispatcher

/-- The start of `spin_emu_dispatcher`. A board of negative size is undefined, and one of
more chips than an `int` counts. -/
def boot (s : SdpDispatcher) : Option (Int × Int) → Option SdpDispatcher
  | none => some s.iptagInit
  | some (x, y) =>
    if 0 ≤ x ∧ 0 ≤ y ∧ x * y < 2 ^ 31 then some (s.iptagInit.cmdP2pc x.toNat y.toNat) else none

/-- The board, and that there is one, are as they were. -/
structure Site (s t : SdpDispatcher) : Prop where
  board : t.board = s.board
  initialised : t.initialised = s.initialised

section Sites
variable {s t u : SdpDispatcher} {msg reply : SdpMsg} {n : Nat}

theorem Site.refl (s : SdpDispatcher) : Site s s := ⟨rfl, rfl⟩

theorem Site.trans (first : Site s t) (second : Site t u) : Site s u :=
  ⟨second.board.trans first.board, second.initialised.trans first.initialised⟩

theorem foldl_site {α : Type} {f : SdpDispatcher → α → SdpDispatcher} (keeps : ∀ s a, Site s (f s a))
    (l : List α) (s : SdpDispatcher) : Site s (l.foldl f s) := by
  induction l generalizing s with
  | nil => exact .refl s
  | cons a l ih => exact (keeps s a).trans (ih (f s a))

theorem iptagInit_site (s : SdpDispatcher) : Site s s.iptagInit := by
  have cleared := foldl_site (f := fun s i => s.setTag i { s.iptags i with flags := 0 })
    (fun _ _ => ⟨rfl, rfl⟩) (List.range tagTableSize) s
  exact ⟨cleared.board, cleared.initialised⟩

/-- The first size that is given makes the board. -/
theorem cmdP2pc_board (fresh : s.initialised = false) (x y : Nat) :
    (s.cmdP2pc x y).board = ⟨x, y⟩ ∧ (s.cmdP2pc x y).initialised = true := by
  rw [cmdP2pc, fresh, if_neg Bool.false_ne_true]
  exact ⟨rfl, rfl⟩

theorem queueSdp_site (queued : s.queueSdp msg = some t) : Site s t := by
  simp only [queueSdp, Option.bind_eq_bind, Option.bind_eq_some_iff] at queued
  obtain ⟨id, _, queued⟩ := queued
  split at queued
  · cases queued
    exact ⟨rfl, rfl⟩
  · cases queued

theorem dispatchSdpToEther_site (sent : s.dispatchSdpToEther msg = some t) : Site s t := by
  unfold dispatchSdpToEther at sent
  split at sent
  · cases sent
  · cases sent
    exact ⟨rfl, rfl⟩

theorem dispatchSdpOne_site (dispatched : s.dispatchSdpOne msg = some t) : Site s t := by
  unfold dispatchSdpOne at dispatched
  split at dispatched
  · exact dispatchSdpToEther_site dispatched
  · exact queueSdp_site dispatched

theorem startCores_site (msg : SdpMsg) (mask : BitVec 32) (id : Nat) (s : SdpDispatcher) :
    Site s (s.startCores msg mask id) :=
  foldl_site (f := startCore msg id) (fun _ _ => ⟨rfl, rfl⟩) _ s

theorem cmdIptag_site (handled : s.cmdIptag msg = some (n, reply, t)) : Site s t := by
  unfold cmdIptag at handled
  dsimp only at handled
  split at handled
  · cases handled
    exact .refl s
  split at handled
  · cases handled
    split <;> split <;> exact ⟨rfl, rfl⟩
  split at handled
  · split at handled
    · cases handled
      exact .refl s
    · split at handled
      · cases handled
      · cases handled
        exact .refl s
  split at handled
  · cases handled
    split <;> exact ⟨rfl, rfl⟩
  · cases handled
    exact ⟨rfl, rfl⟩

/-- Once there is a board, no message changes it. -/
theorem processMessage_site (ready : s.initialised = true) (handled : s.processMessage msg = some t) :
    Site s t := by
  have handler := handler_processMessage msg
  generalize processMessage msg = h at handler handled
  cases handler with
  | forCore | other => exact queueSdp_site handled
  | floodStart =>
    cases handled
    exact ⟨rfl, rfl⟩
  | floodEnd =>
    cases handled
    exact foldl_site (fun s c => startCores_site _ _ c s) _ s
  | ignored =>
    cases handled
    exact .refl s
  | p2pc x y =>
    cases handled
    rw [cmdP2pc, if_pos ready]
    exact .refl s
  | floodData =>
    cases handled
    exact foldl_site (f := fun s c => s.queueSdpXy _ c 1) (fun _ _ => ⟨rfl, rfl⟩) _ s
  | start =>
    simp only [dispatchAs, Option.bind_eq_bind, Option.bind_eq_some_iff] at handled
    obtain ⟨id, _, handled⟩ := handled
    cases handled
    exact startCores_site _ _ _ s
  | iptag =>
    obtain ⟨⟨len2, reply, u⟩, answered, sent⟩ := Option.bind_eq_some_iff.mp handled
    exact (cmdIptag_site answered).trans (dispatchSdpToEther_site sent)

end Sites

end SdpDispatcher

namespace SdpSystem
variable {s t : SdpSystem}

theorem step_site {a : SdpAction} (ready : s.dispatcher.initialised = true)
    (stepped : s.step a = some t) : SdpDispatcher.Site s.dispatcher t.dispatcher := by
  cases a with
  | request stale g =>
    simp only [step, SdpDispatcher.receiveMsgFromEther, Option.bind_eq_bind,
      Option.bind_eq_some_iff] at stepped
    obtain ⟨d, ⟨msg, _, handled⟩, same⟩ := stepped
    cases same
    have early : SdpDispatcher.Site s.dispatcher (s.dispatcher.answerEarly stale g msg) := by
      rw [SdpDispatcher.answerEarly]
      split <;> exact ⟨rfl, rfl⟩
    exact early.trans (SdpDispatcher.processMessage_site (early.initialised.trans ready) handled)
  | flush id c =>
    cases stepped
    exact ⟨rfl, rfl⟩
  | read id c mem rawtime =>
    unfold step at stepped
    dsimp only at stepped
    split at stepped
    · cases stepped
    · simp only [Option.bind_eq_bind, Option.bind_eq_some_iff] at stepped
      obtain ⟨chipID, _, same⟩ := stepped
      cases same
      exact .refl _
  | forward id c =>
    unfold step at stepped
    dsimp only at stepped
    split at stepped
    · cases stepped
    · simp only [Option.bind_eq_bind, Option.bind_eq_some_iff] at stepped
      obtain ⟨d, dispatched, same⟩ := stepped
      cases same
      exact SdpDispatcher.dispatchSdpOne_site dispatched

/-- A board stays for the whole run, whatever arrives. -/
theorem run_site {ok : SdpSystem → SdpAction → Prop} (ready : s.dispatcher.initialised = true)
    (run : Run step ok s t) : SdpDispatcher.Site s.dispatcher t.dispatcher :=
  run.invariant (I := fun u => SdpDispatcher.Site s.dispatcher u.dispatcher) (fun here _ stepped =>
    here.trans (step_site (here.initialised.trans ready) stepped)) (.refl _)

/-- Nothing is under way when the dispatcher starts. -/
def booted (d : SdpDispatcher) : SdpSystem where
  dispatcher := d
  down _ _ := []
  up _ _ := []

end SdpSystem

theorem atoi_catUint {n : Nat} (small : n < 2 ^ 31) : Lcfg.atoi (Lcfg.catUint n) = some (n : Int) := by
  rw [Lcfg.atoi, Lcfg.cstr_of_not_mem (Lcfg.part_catUint n).null,
    show Decimal.read (Lcfg.catUint n) = n from Decimal.read_print n, if_pos (by omega)]

/-- A file that gives the two sizes in decimal, in whatever layout and with whatever else
in it, is a board of that size for the whole run, whatever the hosts send. -/
theorem config_board {reads : List Lcfg.Piece} {entries : Lcfg.Entries} {x y : Nat} {speed : Int}
    (writes : Lcfg.Writes (BlockStream.delivered reads) entries)
    (xChips : entries.find ["X_CHIPS".toList] = some (Lcfg.catUint x))
    (yChips : entries.find ["Y_CHIPS".toList] = some (Lcfg.catUint y))
    (factor : Lcfg.atoi (entries.valueOf "SLOW_DOWN_TIMER" (Lcfg.catUint y)) = some speed)
    (fits : x < 2 ^ 31 ∧ y < 2 ^ 31 ∧ x * y < 2 ^ 31) (junk : List Char)
    (d : SdpDispatcher) (fresh : d.initialised = false) :
    Lcfg.main (.ok reads) junk = some (speed, some (↑x, ↑y)) ∧
      ∃ started, d.boot (some (x, y)) = some started ∧
        ∀ t, Run SdpSystem.step (fun _ _ => True) (SdpSystem.booted started) t →
          t.dispatcher.board = ⟨x, y⟩ := by
  obtain ⟨columns, rows, chips⟩ := fits
  refine ⟨?_, d.iptagInit.cmdP2pc x y, ?_, fun t run => ?_⟩
  · rw [Lcfg.main_accepted junk writes]
    simp only [Lcfg.Entries.valueOf, xChips, yChips, Option.getD_some] at factor ⊢
    rw [factor, atoi_catUint columns, atoi_catUint rows]
    rfl
  · have counted : (x : Int) * y < 2 ^ 31 := by exact_mod_cast chips
    rw [SdpDispatcher.boot, if_pos ⟨Int.natCast_nonneg x, Int.natCast_nonneg y, counted⟩,
      Int.toNat_natCast, Int.toNat_natCast]
  · obtain ⟨board, ready⟩ := SdpDispatcher.cmdP2pc_board
      ((SdpDispatcher.iptagInit_site d).initialised.trans fresh) x y
    exact (SdpSystem.run_site ready run).board.trans board

theorem sampleEntries_board :
    Lcfg.main (.ok (BlockStream.pieces (by decide) Lcfg.sampleEntries.print)) [] =
        some (1, some (2, 1)) ∧
      ∃ started, (remembering 0).boot (some (2, 1)) = some started ∧
        ∀ t, Run SdpSystem.step (fun _ _ => True) (SdpSystem.booted started) t →
          t.dispatcher.board = ⟨2, 1⟩ :=
  @config_board _ Lcfg.sampleEntries 2 1 1 (Lcfg.writes_print _) rfl rfl rfl (by decide) []
    (remembering 0) rfl

end SpinEmu
