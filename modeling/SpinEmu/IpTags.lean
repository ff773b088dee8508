import SpinEmu.SdpDispatcher
import SpinEmu.EarlyAck
import SpinEmu.Lib.Lease
import SpinEmu.Lib.Machine

/-! The life of the IP tags over a history of requests. A new tag is looked for among
those with no flags; a release clears the flags, and nothing ever sets them. -/
namespace SpinEmu
open Lib

/-- What `cmd_iptag` makes of the operation and the tag in `arg1`. -/
inductive TagRequest where
  | rejected
  | new
  | set (tag : Nat)
  | get (tag : Nat)
  | tto
  | clr (tag : Nat)
  deriving DecidableEq, Repr

def tagRequest (msg : SdpMsg) : TagRequest :=
  let op := msg.arg1 >>> 16
  let tag := (msg.arg1 &&& 255).toNat
  if op > 4 || tag ≥ tagTableSize then .rejected
  else if op == 0 then .new
  else if op == 1 then .set tag
  else if op == 2 then .get tag
  else if op == 4 then .tto
  else .clr tag

/-- `FIRST_POOL_TAG` to `LAST_POOL_TAG`. -/
def PoolTag (tag : Nat) : Prop := 4 ≤ tag ∧ tag ≤ 15

namespace SdpDispatcher

/-- `iptag_init`. The default tag is for port 17892 of 127.0.0.1. -/
def iptagInit (s : SdpDispatcher) : SdpDispatcher :=
  let s := (List.range tagTableSize).foldl
    (fun s i => s.setTag i { s.iptags i with flags := 0 }) s
  s.setTag 1 { s.iptags 1 with timeout := 100, port := 17892, ip := 0x0100007f }

/-- The tags with no flags. -/
def Unflagged (s : SdpDispatcher) : Prop := ∀ i < tagTableSize, (s.iptags i).flags = 0

section Tags
variable {s t : SdpDispatcher} {msg reply : SdpMsg} {n i tag : Nat}

theorem setTag_flags {e : IpTag} (unflagged : s.Unflagged)
    (flags : tag < tagTableSize → e.flags = 0) : (s.setTag tag e).Unflagged := by
  intro i hi
  simp only [setTag, Function.update_apply]
  split
  · rename_i here
    exact flags (here ▸ hi)
  · exact unflagged i hi

theorem iptagInit_unflagged (s : SdpDispatcher) : s.iptagInit.Unflagged := by
  have cleared (n : Nat) : ∀ i < n, ((((List.range n).foldl
      (fun s i => s.setTag i { s.iptags i with flags := 0 }) s).iptags i).flags = 0) := by
    induction n with
    | zero => exact fun i none => absurd none i.not_lt_zero
    | succ n ih =>
      intro i hi
      rw [List.range_succ, List.foldl_append, List.foldl_cons, List.foldl_nil, setTag]
      simp only [Function.update_apply]
      split
      · rfl
      · exact ih i (by omega)
  exact setTag_flags (cleared tagTableSize) fun inside => cleared tagTableSize 1 inside

/-- With no flags set, the search ends at the first tag of the pool. -/
theorem iptagNew_unflagged (unflagged : s.Unflagged) : s.iptagNew = 4 := by
  have first : ((s.iptags 4).flags == 0) = true := beq_iff_eq.mpr (unflagged 4 (by decide))
  rw [iptagNew, List.range'_succ, List.find?_cons, first]
  rfl

/-- What a request can do to the table and to the message. -/
inductive TagStep (s : SdpDispatcher) (msg : SdpMsg) : SdpMsg → SdpDispatcher → Prop where
  | rejected : tagRequest msg = .rejected → TagStep s msg { msg with cmdRc := rcArg } s
  | new (e : IpTag) : tagRequest msg = .new → s.iptagNew ≠ tagNone →
      e.flags = (s.iptags s.iptagNew.toNat).flags →
      TagStep s msg (msg.setArg1 s.iptagNew) (s.setTag s.iptagNew.toNat e)
  | full : tagRequest msg = .new → s.iptagNew = tagNone → TagStep s msg (msg.setArg1 tagNone) s
  | set (tag : Nat) (e : IpTag) : tagRequest msg = .set tag → e.flags = (s.iptags tag).flags →
      TagStep s msg (msg.setArg1 (msg.arg1 &&& 255)) (s.setTag tag e)
  | get (tag : Nat) (reply : SdpMsg) : tagRequest msg = .get tag → TagStep s msg reply s
  | tto (reply : SdpMsg) (t : SdpDispatcher) : tagRequest msg = .tto → t.iptags = s.iptags →
      TagStep s msg reply t
  | clr (tag : Nat) : tagRequest msg = .clr tag →
      TagStep s msg msg (s.setTag tag { s.iptags tag with flags := 0 })

/-- What `cmd_iptag` does for each kind of request. -/
theorem cmdIptag_cases (handled : s.cmdIptag msg = some (n, reply, t)) :
    match tagRequest msg with
    | .rejected => reply = { msg with cmdRc := rcArg } ∧ t = s
    | .new => reply = msg.setArg1 s.iptagNew ∧ ∃ timeout, t =
        if s.iptagNew = tagNone then s
        else s.setTag s.iptagNew.toNat { s.iptags s.iptagNew.toNat with
          timeout, port := msg.arg2.setWidth 16, ip := msg.arg3 }
    | .set tag => reply = msg.setArg1 (msg.arg1 &&& 255) ∧ ∃ timeout, t =
        s.setTag tag { s.iptags tag with timeout, port := msg.arg2.setWidth 16, ip := msg.arg3 }
    | .get _ => t = s
    | .tto => t.iptags = s.iptags
    | .clr tag => reply = msg ∧ t = s.setTag tag { s.iptags tag with flags := 0 } := by
  unfold cmdIptag at handled
  unfold tagRequest
  generalize msg.arg1 >>> 16 = op at handled ⊢
  generalize msg.arg1 &&& 255 = tag at handled ⊢
  simp only at handled ⊢
  by_cases outside : (decide (op > 4) || decide (tag.toNat ≥ tagTableSize)) = true
  · simp only [outside, if_true] at handled ⊢
    cases handled
    exact ⟨rfl, rfl⟩
  · simp only [outside, Bool.false_eq_true, if_false] at handled ⊢
    by_cases new : (op == 0) = true
    · simp only [new, Bool.true_or, if_true, beq_iff_eq] at handled ⊢
      cases handled
      exact ⟨rfl, _, rfl⟩
    · by_cases set : (op == 1) = true
      · have named : (tag == tagNone) = false := by
          refine beq_eq_false_iff_ne.mpr ?_
          rintro rfl
          exact outside (by rw [Bool.or_eq_true]; exact .inr (by decide))
        simp only [new, set, Bool.false_or, Bool.false_eq_true, if_true, if_false,
          named] at handled ⊢
        cases handled
        exact ⟨rfl, _, rfl⟩
      · simp only [new, set, Bool.or_self, Bool.false_eq_true, if_false] at handled ⊢
        by_cases get : (op == 2) = true
        · simp only [get, if_true] at handled ⊢
          split at handled
          · cases handled
            rfl
          · split at handled
            · cases handled
            · cases handled
              rfl
        · by_cases tto : (op == 4) = true
          · simp only [get, tto, Bool.false_eq_true, if_true, if_false] at handled ⊢
            cases handled
            split <;> rfl
          · simp only [get, tto, Bool.false_eq_true, if_false] at handled ⊢
            cases handled
            exact ⟨rfl, rfl⟩

theorem cmdIptag_step (handled : s.cmdIptag msg = some (n, reply, t)) : TagStep s msg reply t := by
  have outcome := cmdIptag_cases handled
  cases request : tagRequest msg with
  | rejected =>
    simp only [request] at outcome
    obtain ⟨rfl, rfl⟩ := outcome
    exact .rejected request
  | new =>
    simp only [request] at outcome
    obtain ⟨rfl, timeout, rfl⟩ := outcome
    by_cases full : s.iptagNew = tagNone
    · rw [if_pos full, full]
      exact .full request full
    · rw [if_neg full]
      exact .new _ request full rfl
  | set tag =>
    simp only [request] at outcome
    obtain ⟨rfl, timeout, rfl⟩ := outcome
    exact .set tag _ request rfl
  | get tag =>
    simp only [request] at outcome
    subst outcome
    exact .get tag reply request
  | tto =>
    simp only [request] at outcome
    exact .tto reply t request outcome
  | clr tag =>
    simp only [request] at outcome
    obtain ⟨rfl, rfl⟩ := outcome
    exact .clr tag request

theorem TagStep.unflagged (step : s.TagStep msg reply t) (unflagged : s.Unflagged) :
    t.Unflagged := by
  cases step with
  | rejected | full | get => exact unflagged
  | new e _ _ flags => exact setTag_flags unflagged fun inside => flags.trans (unflagged _ inside)
  | set tag e _ flags => exact setTag_flags unflagged fun inside => flags.trans (unflagged _ inside)
  | tto _ _ _ same =>
    intro i hi
    rw [same]
    exact unflagged i hi
  | clr tag _ => exact setTag_flags unflagged fun _ => rfl

/-- A request for a new tag always gets an answer. -/
theorem cmdIptag_new (new : tagRequest msg = .new) :
    ∃ n reply t, s.cmdIptag msg = some (n, reply, t) := by
  unfold tagRequest at new
  simp only at new
  split at new
  · cases new
  · rename_i inside
    split at new
    · rename_i op
      unfold cmdIptag
      simp only [inside, op, Bool.true_or, Bool.false_eq_true, if_true, if_false]
      exact ⟨_, _, _, rfl⟩
    · split_ifs at new

end Tags
end SdpDispatcher

/-- The dispatcher with the life of its tags, which the source does not record. -/
structure TagHistory where
  dispatcher : SdpDispatcher
  events : List (Lease.Event Nat)

/-- A new tag is granted, a tag that is set is claimed. -/
def tagEvents (msg reply : SdpMsg) : List (Lease.Event Nat) :=
  match tagRequest msg with
  | .new => if reply.arg1 = tagNone then [] else [.granted reply.arg1.toNat]
  | .set tag => [.claimed tag]
  | .clr tag => [.released tag]
  | _ => []

namespace TagHistory

def step (s : TagHistory) (msg : SdpMsg) : Option TagHistory :=
  (s.dispatcher.cmdIptag msg).map fun (_, reply, d) => ⟨d, s.events ++ tagEvents msg reply⟩

def initial (s : SdpDispatcher) : TagHistory := ⟨s.iptagInit, []⟩

def InUse (s : TagHistory) (tag : Nat) : Prop := Lease.held s.events tag = true

/-- A request for a new tag gets one of the pool that is not in use, and only its
entry changes; if all are in use it gets none, and no entry changes. -/
def Allocates (s : TagHistory) (msg : SdpMsg) : Prop :=
  ∃ n reply d, s.dispatcher.cmdIptag msg = some (n, reply, d) ∧
    (reply.arg1 = tagNone ↔ ∀ tag, PoolTag tag → s.InUse tag) ∧
    (reply.arg1 = tagNone → d.iptags = s.dispatcher.iptags) ∧
    (reply.arg1 ≠ tagNone → PoolTag reply.arg1.toNat ∧ ¬ s.InUse reply.arg1.toNat ∧
      ∀ i, i ≠ reply.arg1.toNat → d.iptags i = s.dispatcher.iptags i)

/-- New tags are asked for only while the first one of the pool is not in use. -/
def FirstFree (s : TagHistory) (msg : SdpMsg) : Prop := tagRequest msg = .new → ¬ s.InUse 4

section Runs
variable {s t : TagHistory} {msg : SdpMsg}

theorem step_eq (taken : s.step msg = some t) : ∃ n reply,
    s.dispatcher.cmdIptag msg = some (n, reply, t.dispatcher) ∧
      t.events = s.events ++ tagEvents msg reply := by
  obtain ⟨⟨n, reply, d⟩, handled, rfl⟩ := Option.map_eq_some_iff.mp taken
  exact ⟨n, reply, handled, rfl⟩

theorem step_unflagged (unflagged : s.dispatcher.Unflagged) (taken : s.step msg = some t) :
    t.dispatcher.Unflagged := by
  obtain ⟨n, reply, handled, _⟩ := step_eq taken
  exact (SdpDispatcher.cmdIptag_step handled).unflagged unflagged

/-- The answer to a request for a new tag is always tag 4. -/
theorem new_answer (unflagged : s.dispatcher.Unflagged) (new : tagRequest msg = .new) {n : Nat}
    {reply : SdpMsg} {d : SdpDispatcher}
    (handled : s.dispatcher.cmdIptag msg = some (n, reply, d)) :
    reply.arg1 = 4 ∧ ∀ i, i ≠ 4 → d.iptags i = s.dispatcher.iptags i := by
  have first := SdpDispatcher.iptagNew_unflagged unflagged
  cases SdpDispatcher.cmdIptag_step handled with
  | new e =>
    rw [first]
    exact ⟨word_putWord _ _ _, fun i other => Function.update_of_ne other _ _⟩
  | full _ none =>
    rw [first] at none
    cases none
  | rejected other | set _ _ other | get _ _ other | tto _ _ other | clr _ other =>
    rw [new] at other
    cases other

theorem allocates_iff (unflagged : s.dispatcher.Unflagged) (new : tagRequest msg = .new) :
    s.Allocates msg ↔ ¬ s.InUse 4 := by
  obtain ⟨n, reply, d, handled⟩ := SdpDispatcher.cmdIptag_new (s := s.dispatcher) new
  obtain ⟨answer, others⟩ := new_answer unflagged new handled
  have some : reply.arg1 ≠ tagNone := by
    rw [answer]
    decide
  have number : reply.arg1.toNat = 4 := by
    rw [answer]
    rfl
  constructor
  · rintro ⟨n', reply', d', handled', _, _, free⟩
    rw [handled] at handled'
    cases handled'
    exact number ▸ (free some).2.1
  · intro free
    refine ⟨n, reply, d, handled, iff_of_false some fun all => free (all 4 ⟨le_rfl, by decide⟩),
      fun none => absurd none some, fun _ => ?_⟩
    rw [number]
    exact ⟨⟨le_rfl, by decide⟩, free, others⟩

theorem step_fresh (unflagged : s.dispatcher.Unflagged) (fresh : Lease.Fresh s.events)
    (first : s.FirstFree msg) (taken : s.step msg = some t) : Lease.Fresh t.events := by
  obtain ⟨n, reply, handled, events⟩ := step_eq taken
  rw [events, tagEvents]
  cases request : tagRequest msg with
  | new =>
    obtain ⟨answer, _⟩ := new_answer unflagged request handled
    simp only [answer]
    refine fresh.snoc fun i granted => ?_
    cases granted
    simpa [InUse] using first request
  | set tag | clr tag => exact fresh.snoc fun i granted => by cases granted
  | rejected | get | tto => simpa using fresh

open Lib.Machine

theorem unflagged_of_run {d : SdpDispatcher} {ok : TagHistory → SdpMsg → Prop}
    (run : Run step ok (initial d) t) : t.dispatcher.Unflagged :=
  run.invariant (I := fun s => s.dispatcher.Unflagged)
    (fun unflagged _ taken => step_unflagged unflagged taken) (SdpDispatcher.iptagInit_unflagged d)

end Runs

open Lib.Machine in
/-- After any requests, the next new tag is as it should be if and only if tag 4 is
not in use. If that is so whenever a new tag is asked for, no tag in use is ever
granted, and between two grants of a tag it has been released. -/
theorem newTags_fresh (d : SdpDispatcher) :
    (∀ t, Run step (fun _ _ => True) (initial d) t → ∀ msg, tagRequest msg = .new →
      (t.Allocates msg ↔ ¬ t.InUse 4)) ∧
    ∀ t, Run step FirstFree (initial d) t → Lease.Fresh t.events ∧
      ∀ before between after tag,
        t.events = before ++ .granted tag :: (between ++ .granted tag :: after) →
          .released tag ∈ between := by
  constructor
  · intro t run msg new
    exact allocates_iff (unflagged_of_run run) new
  · intro t run
    have fresh : t.dispatcher.Unflagged ∧ Lease.Fresh t.events := by
      refine run.invariant (I := fun s => s.dispatcher.Unflagged ∧ Lease.Fresh s.events) ?_
        ⟨SdpDispatcher.iptagInit_unflagged d, Lease.Fresh.nil⟩
      rintro s msg u ⟨unflagged, fresh⟩ first taken
      exact ⟨step_unflagged unflagged taken, step_fresh unflagged fresh first taken⟩
    refine ⟨fresh.2, fun before between after tag shape => ?_⟩
    exact Lease.Fresh.released_between (shape ▸ fresh.2)

open Lib.Machine in
/-- The second of two requests for a new tag gets the tag of the first. -/
theorem newTag_twice : ∃ t, Run step (fun _ _ => True) (initial (remembering 0)) t ∧
    tagRequest SdpMsg.cleared = .new ∧ ¬ t.Allocates SdpMsg.cleared := by
  obtain ⟨t, run, used⟩ := exists_run step (fun _ _ => True) (initial (remembering 0))
    [SdpMsg.cleared] (fun t => Lease.held t.events 4) (fun _ _ _ => trivial) (by decide +kernel)
  refine ⟨t, run, by decide, fun allocates => ?_⟩
  exact (allocates_iff (unflagged_of_run run) (by decide)).mp allocates used

end TagHistory
end SpinEmu
