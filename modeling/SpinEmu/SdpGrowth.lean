import SpinEmu.CoreStarts
import SpinEmu.RunningCount

/-! What the dispatcher adds to the SDP queues of the cores: copies of the message at hand
with another command or other arguments. Nothing else looks at who is running. -/
namespace SpinEmu

/-- The message and its rewritten copies have the property. -/
structure Rewritten (P : SdpMsg → Prop) : Prop where
  cmdRc : ∀ m rc, P m → P { m with cmdRc := rc }
  arg1 : ∀ m w, P m → P (m.setArg1 w)
  arg2 : ∀ m w, P m → P (m.setArg2 w)
  arg3 : ∀ m w, P m → P (m.setArg3 w)

namespace SdpDispatcher

/-- The handlers of `process_message`. Which one it is depends on the message only. -/
inductive Handler (msg : SdpMsg) : (SdpDispatcher → Option SdpDispatcher) → Prop where
  | forCore (rc : BitVec 16) : Handler msg (queueSdp { msg with cmdRc := rc })
  | other : Handler msg (queueSdp msg)
  | floodStart : Handler msg fun s => some { s with floodfill := msg.arg2 }
  | floodEnd : Handler msg fun s => some (s.floodAs msg)
  | ignored : Handler msg some
  | p2pc (x y : Nat) : Handler msg fun s => some (s.cmdP2pc x y)
  | floodData : Handler msg fun s => some (s.cmdFloodfill msg)
  | start : Handler msg (dispatchAs msg)
  | iptag : Handler msg fun s => (s.cmdIptag msg).bind fun (len2, reply, s) =>
      s.dispatchSdpToEther { reply with cmdRc := 128, length := BitVec.ofNat 16 (len2 + 28) }

theorem handler_processMessage (msg : SdpMsg) : Handler msg (processMessage msg) := by
  have pick {p : Prop} [Decidable p] {f g : SdpDispatcher → Option SdpDispatcher}
      (yes : Handler msg f) (no : Handler msg g) :
      Handler msg fun s => if p then f s else g s := by
    by_cases here : p
    · simpa only [if_pos here] using yes
    · simpa only [if_neg here] using no
  refine pick (.forCore _) (pick (.forCore _) (pick (.forCore _) (pick ?_ (pick (.p2pc _ _)
    (pick .floodData (pick .start (pick .iptag .other)))))))
  exact pick .floodStart (pick .floodEnd .ignored)

/-- The queues have grown by messages with the property. -/
def Grows (P : SdpMsg → Prop) (s t : SdpDispatcher) : Prop :=
  ∀ id c, ∃ new, t.sdpQueue id c = s.sdpQueue id c ++ new ∧ ∀ m ∈ new, P m

section Growth
variable {P : SdpMsg → Prop} {s t u : SdpDispatcher} {msg : SdpMsg}

theorem Grows.of_eq (same : t.sdpQueue = s.sdpQueue) : Grows P s t := fun id c =>
  ⟨[], by rw [same, List.append_nil], nofun⟩

theorem Grows.trans (first : Grows P s t) (second : Grows P t u) : Grows P s u := by
  intro id c
  obtain ⟨new, grown, fine⟩ := first id c
  obtain ⟨more, grown', fine'⟩ := second id c
  exact ⟨new ++ more, by rw [grown', grown, List.append_assoc],
    List.forall_mem_append.mpr ⟨fine, fine'⟩⟩

theorem Grows.foldl {α : Type} {f : SdpDispatcher → α → SdpDispatcher}
    (step : ∀ s a, Grows P s (f s a)) (l : List α) (s : SdpDispatcher) : Grows P s (l.foldl f s) := by
  induction l generalizing s with
  | nil => exact .of_eq rfl
  | cons a l ih => exact (step s a).trans (ih (f s a))

/-- What held of all queued messages still does. -/
theorem Grows.forall (grows : Grows P s t) (before : ∀ id c, ∀ m ∈ s.sdpQueue id c, P m) :
    ∀ id c, ∀ m ∈ t.sdpQueue id c, P m := by
  intro id c
  obtain ⟨new, grown, fine⟩ := grows id c
  rw [grown]
  exact List.forall_mem_append.mpr ⟨before id c, fine⟩

theorem queueSdpXy_grows (fine : P msg) (id c : Nat) (s : SdpDispatcher) :
    Grows P s (s.queueSdpXy msg id c) := by
  intro id' c'
  rw [queueSdpXy_queue]
  split
  · exact ⟨[msg], rfl, List.forall_mem_singleton.mpr fine⟩
  · exact ⟨[], (List.append_nil _).symm, nofun⟩

theorem queueSdp_grows (fine : P msg) (queued : s.queueSdp msg = some t) : Grows P s t := by
  simp only [queueSdp, Option.bind_eq_bind, Option.bind_eq_some_iff] at queued
  obtain ⟨id, _, queued⟩ := queued
  split at queued
  · cases queued
    exact queueSdpXy_grows fine _ _ s
  · cases queued

theorem dispatchSdpToEther_queue (sent : s.dispatchSdpToEther msg = some t) :
    t.sdpQueue = s.sdpQueue := by
  unfold dispatchSdpToEther at sent
  split at sent
  · cases sent
  · cases sent
    rfl

theorem dispatchSdpOne_grows (fine : P msg) (dispatched : s.dispatchSdpOne msg = some t) :
    Grows P s t := by
  unfold dispatchSdpOne at dispatched
  split at dispatched
  · exact .of_eq (dispatchSdpToEther_queue dispatched)
  · exact queueSdp_grows fine dispatched

theorem startCores_grows (fine : P msg) (mask : BitVec 32) (id : Nat) (s : SdpDispatcher) :
    Grows P s (s.startCores msg mask id) :=
  .foldl (f := startCore msg id) (fun s i => (queueSdpXy_grows fine id i s).trans (.of_eq rfl)) _ s

theorem cmdIptag_queue {n : Nat} {reply : SdpMsg} (handled : s.cmdIptag msg = some (n, reply, t)) :
    t.sdpQueue = s.sdpQueue := by
  unfold cmdIptag at handled
  dsimp only at handled
  split at handled
  · cases handled
    rfl
  split at handled
  · cases handled
    split <;> split <;> rfl
  split at handled
  · split at handled
    · cases handled
      rfl
    · split at handled
      · cases handled
      · cases handled
        rfl
  split at handled
  · cases handled
    split <;> rfl
  · cases handled
    rfl

theorem processMessage_grows (closed : Rewritten P) (fine : P msg)
    (handled : s.processMessage msg = some t) : Grows P s t := by
  have renamed (rc : BitVec 16) : P { msg with cmdRc := rc } := closed.cmdRc msg rc fine
  have handler := handler_processMessage msg
  generalize processMessage msg = h at handler handled
  cases handler with
  | forCore rc => exact queueSdp_grows (renamed rc) handled
  | other => exact queueSdp_grows fine handled
  | floodStart | ignored =>
    cases handled
    exact .of_eq rfl
  | floodEnd =>
    cases handled
    exact .foldl (fun s c => startCores_grows (closed.arg1 _ _ (renamed _)) _ c s) _ s
  | p2pc x y =>
    cases handled
    rw [cmdP2pc]
    split <;> exact .of_eq rfl
  | floodData =>
    cases handled
    exact .foldl (f := fun s c => s.queueSdpXy _ c 1) (fun s c => queueSdpXy_grows
      (closed.arg3 _ _ (closed.arg2 _ _ (closed.arg1 _ _ (renamed _)))) c 1 s) _ s
  | start =>
    simp only [dispatchAs, Option.bind_eq_bind, Option.bind_eq_some_iff] at handled
    obtain ⟨id, _, handled⟩ := handled
    cases handled
    exact startCores_grows (renamed _) _ _ s
  | iptag =>
    obtain ⟨⟨len2, reply, u⟩, answered, sent⟩ := Option.bind_eq_some_iff.mp handled
    exact .of_eq ((dispatchSdpToEther_queue sent).trans (cmdIptag_queue answered))

theorem answerEarly_queue (stale : Nat → Byte) (g : EtherDatagram) (msg : SdpMsg)
    (s : SdpDispatcher) : (s.answerEarly stale g msg).sdpQueue = s.sdpQueue := by
  rw [answerEarly]
  split <;> rfl

theorem receiveMsgFromEther_grows {stale : Nat → Byte} {g : EtherDatagram} (closed : Rewritten P)
    (fine : ∀ m, g.message = some m → P m) (received : s.receiveMsgFromEther stale g = some t) :
    Grows P s t := by
  obtain ⟨msg, copied, handled⟩ := Option.bind_eq_some_iff.mp received
  have early : Grows P s (s.answerEarly stale g msg) := .of_eq (answerEarly_queue stale g msg s)
  exact early.trans (processMessage_grows closed (fine msg copied) handled)

end Growth

/-- The dispatchers differ at most in who is running. -/
def Agree (s t : SdpDispatcher) : Prop :=
  ∃ running count, t = { s with spinEmuRunning := running, spinEmuRunningCount := count }

section Agreement
variable {s t s' : SdpDispatcher} {msg : SdpMsg}

theorem Agree.refl (s : SdpDispatcher) : Agree s s := ⟨_, _, rfl⟩

theorem Agree.finished (agree : Agree s t) (id c : Nat) : Agree (s.finished id c) t := by
  obtain ⟨running, count, rfl⟩ := agree
  exact ⟨running, count, rfl⟩

theorem Agree.flushSdpQueue (agree : Agree s t) (id c : Nat) :
    (t.flushSdpQueue id c).1 = (s.flushSdpQueue id c).1 ∧
      Agree (s.flushSdpQueue id c).2 (t.flushSdpQueue id c).2 := by
  obtain ⟨running, count, rfl⟩ := agree
  exact ⟨rfl, running, count, rfl⟩

theorem Agree.foldl {α : Type} {f : SdpDispatcher → α → SdpDispatcher}
    (step : ∀ {s t} a, Agree s t → Agree (f s a) (f t a)) (l : List α) (agree : Agree s t) :
    Agree (l.foldl f s) (l.foldl f t) := by
  induction l generalizing s t with
  | nil => exact agree
  | cons a l ih => exact ih (step a agree)

theorem Agree.startCores (agree : Agree s t) (msg : SdpMsg) (mask : BitVec 32) (id : Nat) :
    Agree (s.startCores msg mask id) (t.startCores msg mask id) := by
  refine agree.foldl (f := startCore msg id) ?_ _
  rintro s t i ⟨running, count, rfl⟩
  exact ⟨_, _, rfl⟩

theorem Agree.queueSdp (agree : Agree s t) (queued : s.queueSdp msg = some s') :
    ∃ t', t.queueSdp msg = some t' ∧ Agree s' t' := by
  obtain ⟨running, count, rfl⟩ := agree
  simp only [SdpDispatcher.queueSdp, Option.bind_eq_bind, Option.bind_eq_some_iff] at queued ⊢
  obtain ⟨id, found, queued⟩ := queued
  split at queued
  · rename_i inside
    cases queued
    exact ⟨_, ⟨id, found, if_pos inside⟩, running, count, rfl⟩
  · cases queued

theorem Agree.dispatchSdpToEther (agree : Agree s t) (sent : s.dispatchSdpToEther msg = some s') :
    ∃ t', t.dispatchSdpToEther msg = some t' ∧ Agree s' t' := by
  obtain ⟨running, count, rfl⟩ := agree
  unfold SdpDispatcher.dispatchSdpToEther at sent ⊢
  split at sent
  · cases sent
  · rename_i short
    cases sent
    exact ⟨_, if_neg short, running, count, rfl⟩

theorem Agree.dispatchSdpOne (agree : Agree s t) (dispatched : s.dispatchSdpOne msg = some s') :
    ∃ t', t.dispatchSdpOne msg = some t' ∧ Agree s' t' := by
  unfold SdpDispatcher.dispatchSdpOne at dispatched ⊢
  split at dispatched
  · rw [if_pos ‹_›]
    exact agree.dispatchSdpToEther dispatched
  · rw [if_neg ‹_›]
    exact agree.queueSdp dispatched

theorem Agree.cmdIptag {n : Nat} {reply : SdpMsg} (agree : Agree s t)
    (handled : s.cmdIptag msg = some (n, reply, s')) :
    ∃ t', t.cmdIptag msg = some (n, reply, t') ∧ Agree s' t' := by
  obtain ⟨running, count, rfl⟩ := agree
  unfold SdpDispatcher.cmdIptag at handled ⊢
  dsimp only at handled ⊢
  split at handled
  · rw [if_pos ‹_›]
    cases handled
    exact ⟨_, rfl, running, count, rfl⟩
  rw [if_neg ‹_›]
  split at handled
  · rw [if_pos ‹_›]
    cases handled
    refine ⟨_, rfl, running, count, ?_⟩
    dsimp only [iptagNew]
    split <;> split <;> rfl
  rw [if_neg ‹_›]
  split at handled
  · rw [if_pos ‹_›]
    split at handled
    · rw [if_pos ‹_›]
      cases handled
      exact ⟨_, rfl, running, count, rfl⟩
    · rw [if_neg ‹_›]
      split at handled
      · cases handled
      · rw [if_neg ‹_›]
        cases handled
        exact ⟨_, rfl, running, count, rfl⟩
  rw [if_neg ‹_›]
  split at handled
  · rw [if_pos ‹_›]
    cases handled
    exact ⟨_, rfl, running, count, by split <;> rfl⟩
  · rw [if_neg ‹_›]
    cases handled
    exact ⟨_, rfl, running, count, rfl⟩

theorem Agree.board (agree : Agree s t) : t.board = s.board := by
  obtain ⟨running, count, rfl⟩ := agree
  rfl

theorem Agree.processMessage (agree : Agree s t) (handled : s.processMessage msg = some s') :
    ∃ t', t.processMessage msg = some t' ∧ Agree s' t' := by
  have handler := handler_processMessage msg
  generalize SdpDispatcher.processMessage msg = h at handler handled ⊢
  cases handler with
  | forCore | other => exact agree.queueSdp handled
  | floodStart =>
    cases handled
    obtain ⟨running, count, rfl⟩ := agree
    exact ⟨_, rfl, running, count, rfl⟩
  | floodEnd =>
    cases handled
    refine ⟨_, rfl, ?_⟩
    have base : t.floodfill = s.floodfill := by
      obtain ⟨running, count, rfl⟩ := agree
      rfl
    rw [SdpDispatcher.floodAs, SdpDispatcher.floodAs, agree.board, base]
    exact agree.foldl (fun c here => here.startCores _ _ c) _
  | ignored =>
    cases handled
    exact ⟨t, rfl, agree⟩
  | p2pc x y =>
    cases handled
    refine ⟨_, rfl, ?_⟩
    obtain ⟨running, count, rfl⟩ := agree
    unfold SdpDispatcher.cmdP2pc
    split <;> exact ⟨running, count, rfl⟩
  | floodData =>
    cases handled
    refine ⟨_, rfl, ?_⟩
    rw [SdpDispatcher.cmdFloodfill, SdpDispatcher.cmdFloodfill, agree.board]
    refine agree.foldl (fun c here => ?_) _
    obtain ⟨running, count, rfl⟩ := here
    exact ⟨running, count, rfl⟩
  | start =>
    simp only [SdpDispatcher.dispatchAs, Option.bind_eq_bind, Option.bind_eq_some_iff,
      agree.board] at handled ⊢
    obtain ⟨id, found, handled⟩ := handled
    cases handled
    exact ⟨_, ⟨id, found, rfl⟩, agree.startCores _ _ _⟩
  | iptag =>
    obtain ⟨⟨len2, reply, u⟩, answered, sent⟩ := Option.bind_eq_some_iff.mp handled
    obtain ⟨u', answered', agree'⟩ := agree.cmdIptag answered
    obtain ⟨t', sent', agree''⟩ := agree'.dispatchSdpToEther sent
    exact ⟨t', Option.bind_eq_some_iff.mpr ⟨_, answered', sent'⟩, agree''⟩

theorem Agree.receiveMsgFromEther {stale : Nat → Byte} {g : EtherDatagram} (agree : Agree s t)
    (received : s.receiveMsgFromEther stale g = some s') :
    ∃ t', t.receiveMsgFromEther stale g = some t' ∧ Agree s' t' := by
  simp only [SdpDispatcher.receiveMsgFromEther, Option.bind_eq_bind,
    Option.bind_eq_some_iff] at received ⊢
  obtain ⟨msg, copied, handled⟩ := received
  have early : Agree (s.answerEarly stale g msg) (t.answerEarly stale g msg) := by
    obtain ⟨running, count, rfl⟩ := agree
    unfold answerEarly
    split <;> exact ⟨running, count, rfl⟩
  obtain ⟨t', handled', agree'⟩ := early.processMessage handled
  exact ⟨t', ⟨msg, copied, handled'⟩, agree'⟩

end Agreement
end SdpDispatcher
end SpinEmu
