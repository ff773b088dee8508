import SpinEmu.EtherBounds
import SpinEmu.IpTags
import SpinEmu.RequestReplies

/-! What the entries of the tag table are used for: an IPTAG GET copies them into its
reply, and `dispatch_sdp_to_ether` sends tagged messages where they say. -/
namespace SpinEmu
open Lib

/-- A request for entries of the table. -/
structure GetRequest where
  msg : SdpMsg
  isGet : msg.arg1 >>> 16 = 2

namespace GetRequest

def tag (r : GetRequest) : Nat := (r.msg.arg1 &&& 255).toNat
def count (r : GetRequest) : Nat := r.msg.arg2.toNat

end GetRequest

/-- The byte at offset `i` of the table. -/
def SdpDispatcher.tagTableByte (s : SdpDispatcher) (i : Nat) : Byte :=
  (s.iptags (i / iptagBytes)).byte (i % iptagBytes)

/-- The reply that `process_message` sends for what `cmd_iptag` returns. -/
def iptagReply (len2 : Nat) (msg : SdpMsg) : SdpMsg :=
  { msg with cmdRc := 128, length := BitVec.ofNat 16 (len2 + 28) }

/-- An accepted request gets the entries that it asks for, in a reply as long as they and
the header; a rejected one leaves the table alone and gets nothing. -/
structure GetsEntries (s : SdpDispatcher) (r : GetRequest) : Prop where
  accepted : IptagInRange r.msg → r.tag + r.count ≤ tagTableSize ∧
    ∃ len2 reply t, s.cmdIptag r.msg = some (len2, reply, t) ∧
      (∀ i < iptagBytes * r.count, reply.payload i = s.tagTableByte (iptagBytes * r.tag + i)) ∧
      (iptagReply len2 reply).length.toNat = 12 + iptagBytes * r.count
  rejected : ¬ IptagInRange r.msg →
    s.cmdIptag r.msg = some (0, { r.msg with cmdRc := rcArg }, s)

section Get
variable {s t : SdpDispatcher} {r : GetRequest} {reply : SdpMsg} {n : Nat}

/-- The size is a product of words. -/
theorem GetRequest.size_eq (r : GetRequest) :
    (r.msg.arg2 * BitVec.ofNat 32 iptagBytes).toNat = iptagBytes * r.count % 2 ^ 32 := by
  rw [BitVec.toNat_mul, BitVec.toNat_ofNat, count, Nat.mul_comm]
  rfl

theorem GetRequest.inRange_iff (r : GetRequest) :
    IptagInRange r.msg ↔ r.tag < tagTableSize ∧ iptagBytes * r.count % 2 ^ 32 ≤ bufSize := by
  unfold IptagInRange
  rw [r.isGet, r.size_eq]
  constructor
  · rintro ⟨-, named, small⟩
    exact ⟨named, small rfl⟩
  · rintro ⟨named, small⟩
    exact ⟨by decide, named, fun _ => small⟩

/-- An accepted request copies from the table whatever lies behind its tag. -/
theorem cmdIptag_get (inside : IptagInRange r.msg) :
    s.cmdIptag r.msg =
      let size := iptagBytes * r.count % 2 ^ 32
      if tagTableSize * iptagBytes < r.tag * iptagBytes + size then none
      else
        let entry i := (s.iptags (r.tag + i / iptagBytes)).byte (i % iptagBytes)
        let payload i := if i < size then entry i else r.msg.payload i
        some (size, { r.msg with payload := payload }, s) := by
  obtain ⟨named, small⟩ := r.inRange_iff.mp inside
  have known : (decide ((2 : BitVec 32) > 4) || decide ((r.msg.arg1 &&& 255).toNat ≥ tagTableSize))
      = false := by
    simp only [Bool.or_eq_false_iff, decide_eq_false_iff_not]
    exact ⟨by decide, Nat.not_le.mpr named⟩
  have fits : ¬ iptagBytes * r.count % 2 ^ 32 > bufSize := Nat.not_lt.mpr small
  unfold SdpDispatcher.cmdIptag
  simp only [r.isGet, r.size_eq, known, Bool.false_eq_true, if_false, if_neg fits]
  rfl

theorem cmdIptag_get_len (inside : IptagInRange r.msg)
    (handled : s.cmdIptag r.msg = some (n, reply, t)) : n = iptagBytes * r.count % 2 ^ 32 := by
  rw [cmdIptag_get inside] at handled
  simp only at handled
  split at handled
  · cases handled
  · cases handled
    rfl

/-- Apart from the length of the reply, an accepted request is right if and only if the
table has all of the entries. -/
theorem cmdIptag_entries_iff (inside : IptagInRange r.msg) :
    (∃ reply t, s.cmdIptag r.msg = some (iptagBytes * r.count, reply, t) ∧
      ∀ i < iptagBytes * r.count, reply.payload i = s.tagTableByte (iptagBytes * r.tag + i)) ↔
      r.tag + r.count ≤ tagTableSize := by
  obtain ⟨named, small⟩ := r.inRange_iff.mp inside
  rw [cmdIptag_get inside]
  simp only [iptagBytes, tagTableSize, bufSize] at *
  constructor
  · rintro ⟨reply, t, handled, -⟩
    split at handled
    · cases handled
    · rename_i room
      have size := congrArg Prod.fst (Option.some.inj handled)
      simp only at size
      omega
  · intro room
    have whole : 24 * r.count % 2 ^ 32 = 24 * r.count := Nat.mod_eq_of_lt (by omega)
    rw [if_neg (by omega), whole]
    refine ⟨_, _, rfl, fun i hi => ?_⟩
    have place : (24 * r.tag + i) / 24 = r.tag + i / 24 := by omega
    have offset : (24 * r.tag + i) % 24 = i % 24 := by omega
    simp only [hi, if_true, SdpDispatcher.tagTableByte, iptagBytes, place, offset]

end Get

/-- A request for entries is handled as it should be if and only if it is rejected. -/
theorem getsEntries_iff (s : SdpDispatcher) (r : GetRequest) :
    GetsEntries s r ↔ 16 ≤ r.tag ∨ 256 < 24 * r.count % 2 ^ 32 := by
  have condition : ¬ IptagInRange r.msg ↔ 16 ≤ r.tag ∨ 256 < 24 * r.count % 2 ^ 32 := by
    rw [r.inRange_iff, not_and_or, not_lt, not_le]
  rw [← condition]
  constructor
  · intro gets inside
    obtain ⟨-, n, reply, t, handled, -, length⟩ := gets.accepted inside
    have small := (r.inRange_iff.mp inside).2
    rw [cmdIptag_get_len inside handled] at length
    simp only [iptagReply, BitVec.toNat_ofNat, iptagBytes, bufSize] at length small
    omega
  · intro outside
    exact ⟨fun inside => absurd inside outside,
      fun _ => SdpDispatcher.cmdIptag_rejected outside⟩

/-- A request for one entry, of tag 1. -/
def oneEntry : GetRequest where
  msg := (SdpMsg.cleared.setArg1 (2 <<< 16 + 1)).setArg2 1
  isGet := by decide

/-- The reply for one entry is 52 bytes long. -/
theorem oneEntry_long : ¬ GetsEntries (remembering 0) oneEntry := by
  intro gets
  have inside : IptagInRange oneEntry.msg := oneEntry.inRange_iff.mpr ⟨by decide, by decide⟩
  obtain ⟨-, n, reply, t, handled, -, length⟩ := gets.accepted inside
  have size : n = 24 := cmdIptag_get_len inside handled
  have long : (iptagReply n reply).length = 52 := by
    rw [size]
    rfl
  rw [long] at length
  exact absurd length (by decide)

/-- An IP address and a UDP port. -/
abbrev TagTarget : Type := BitVec 32 × BitVec 16

def IpTag.target (e : IpTag) : TagTarget := (e.ip, e.port)

/-- What a NEW or a SET asks for. -/
def requestTarget (msg : SdpMsg) : TagTarget := (msg.arg3, msg.arg2.setWidth 16)

/-- The tag that a NEW or a SET has been for. -/
def givenTag (msg reply : SdpMsg) : Option Nat :=
  match tagRequest msg with
  | .new => if reply.arg1 = tagNone then none else some reply.arg1.toNat
  | .set tag => some tag
  | _ => none

/-- The dispatcher with what the requests so far have made of each tag, which the source
does not record: the target of the latest NEW or SET, or none after a CLR. -/
structure TargetHistory where
  dispatcher : SdpDispatcher
  target : Nat → Option TagTarget

namespace TargetHistory

def step (s : TargetHistory) (msg : SdpMsg) : Option TargetHistory :=
  (s.dispatcher.cmdIptag msg).map fun (_, reply, d) =>
    ⟨d, fun i =>
      if givenTag msg reply = some i then some (requestTarget msg)
      else if tagRequest msg = .clr i then none
      else s.target i⟩

/-- The state that `iptag_init` leaves. Tag 1 counts as set. -/
def initial (s : SdpDispatcher) : TargetHistory :=
  ⟨s.iptagInit, fun i => if i = 1 then some (0x0100007f, 17892) else none⟩

/-- For a message with tag `i` `sendto` is called with the target of the tag while it has
one, and not at all when it has none. -/
def FollowsTag (heap : Nat → Byte) (s : TargetHistory) (msg : SdpMsg) : Prop :=
  match s.target msg.tag.toNat with
  | some (ip, port) => ∃ out, etherOutput heap msg s.dispatcher = some out ∧
      out.datagram.ip = ip ∧ out.datagram.port = htons port
  | none => etherOutput heap msg s.dispatcher = none

/-- The table has the target of each tag in use. -/
def Recorded (s : TargetHistory) : Prop :=
  ∀ i target, s.target i = some target → (s.dispatcher.iptags i).target = target

end TargetHistory

section Targets
variable {s t : SdpDispatcher} {msg reply : SdpMsg} {n i : Nat}

theorem arg1_setArg1 (msg : SdpMsg) (w : BitVec 32) : (msg.setArg1 w).arg1 = w :=
  word_putWord _ _ _

/-- An entry that is written has the target of the request. -/
theorem setTag_target (s : SdpDispatcher) (tag : Nat) (e : IpTag) (i : Nat) :
    ((s.setTag tag e).iptags i).target =
      if some tag = some i then e.target else (s.iptags i).target := by
  simp only [SdpDispatcher.setTag, Function.update_apply, Option.some.injEq, eq_comm]
  split <;> rfl

/-- A request changes the target of the tag that it is for, and no other. -/
theorem cmdIptag_target (handled : s.cmdIptag msg = some (n, reply, t)) (i : Nat) :
    (t.iptags i).target =
      if givenTag msg reply = some i then requestTarget msg else (s.iptags i).target := by
  have outcome := SdpDispatcher.cmdIptag_cases handled
  unfold givenTag
  cases request : tagRequest msg with
  | rejected | get | tto =>
    simp only [request] at outcome
    simp [outcome]
  | new =>
    simp only [request] at outcome
    obtain ⟨rfl, timeout, rfl⟩ := outcome
    simp only [arg1_setArg1]
    by_cases full : s.iptagNew = tagNone
    · simp [full]
    · simp only [if_neg full, setTag_target]
      rfl
  | set tag =>
    simp only [request] at outcome
    obtain ⟨rfl, timeout, rfl⟩ := outcome
    simp only [setTag_target]
    rfl
  | clr tag =>
    simp only [request] at outcome
    obtain ⟨rfl, rfl⟩ := outcome
    rw [setTag_target, if_neg (by simp : ¬ (none : Option Nat) = some i)]
    split
    · rename_i here
      rw [← Option.some.inj here]
      rfl
    · rfl

/-- Where a tagged message goes. -/
theorem etherOutput_tagged {heap : Nat → Byte} {out : EtherOutput}
    (inTable : msg.tag.toNat < tagTableSize) (sent : etherOutput heap msg s = some out) :
    out.datagram.ip = (s.iptags msg.tag.toNat).ip ∧
      out.datagram.port = htons (s.iptags msg.tag.toNat).port := by
  have receiver : etherReceiver msg s =
      (msg, (s.iptags msg.tag.toNat).ip, htons (s.iptags msg.tag.toNat).port) :=
    if_neg (not_le.mpr inTable)
  unfold etherOutput at sent
  rw [receiver] at sent
  split at sent
  · cases sent
    exact ⟨rfl, rfl⟩
  · cases sent

end Targets

namespace TargetHistory
open Lib.Machine
variable {s t : TargetHistory} {msg : SdpMsg}

theorem initial_recorded (d : SdpDispatcher) : (initial d).Recorded := by
  intro i target used
  simp only [initial] at used
  split at used
  · rename_i here
    cases used
    rw [here, initial, SdpDispatcher.iptagInit]
    simp only [SdpDispatcher.setTag, Function.update_self]
    rfl
  · cases used

theorem step_recorded (recorded : s.Recorded) (taken : s.step msg = some t) : t.Recorded := by
  obtain ⟨⟨n, reply, d⟩, handled, rfl⟩ := Option.map_eq_some_iff.mp taken
  intro i target used
  rw [cmdIptag_target handled]
  simp only at used
  split at used
  · rename_i given
    cases used
    exact if_pos given
  · rename_i other
    rw [if_neg other]
    split at used
    · cases used
    · exact recorded i target used

theorem recorded_of_run {d : SdpDispatcher} {ok : TargetHistory → SdpMsg → Prop}
    (run : Run step ok (initial d) t) : t.Recorded :=
  run.invariant (I := Recorded) (fun recorded _ taken => step_recorded recorded taken)
    (initial_recorded d)

theorem followsTag_of_recorded (heap : Nat → Byte) (recorded : s.Recorded)
    (inTable : msg.tag.toNat < tagTableSize) :
    FollowsTag heap s msg ↔
      (msg.length.toNat ≤ 288 ↔ (s.target msg.tag.toNat).isSome = true) := by
  have passes : (etherOutput heap msg s.dispatcher).isSome ↔ msg.length.toNat ≤ 288 :=
    etherOutput_isSome
  unfold FollowsTag
  cases used : s.target msg.tag.toNat with
  | none =>
    simp only [Option.isSome_none, Bool.false_eq_true, iff_false]
    rw [← passes, Bool.not_eq_true, Option.isSome_eq_false_iff, Option.isNone_iff_eq_none]
  | some target =>
    obtain ⟨ip, port⟩ := target
    simp only [Option.isSome_some, iff_true]
    rw [← passes, Option.isSome_iff_exists]
    constructor
    · rintro ⟨out, sent, -⟩
      exact ⟨out, sent⟩
    · rintro ⟨out, sent⟩
      obtain ⟨address, number⟩ := etherOutput_tagged inTable sent
      obtain ⟨sameIp, samePort⟩ := Prod.mk.inj (recorded _ _ used)
      exact ⟨out, sent, address.trans sameIp, by rw [number, samePort]⟩

/-- After any requests, a tagged message follows its tag if and only if the tag is in use
and the message passes the assertion on its length, or neither. -/
theorem followsTag_iff (d : SdpDispatcher) (heap : Nat → Byte) :
    ∀ t, Run step (fun _ _ => True) (initial d) t → ∀ msg, msg.tag.toNat < tagTableSize →
      (FollowsTag heap t msg ↔
        (msg.length.toNat ≤ 288 ↔ (t.target msg.tag.toNat).isSome = true)) :=
  fun _ run _ inTable => followsTag_of_recorded heap (recorded_of_run run) inTable

def tagged (tag : Byte) : SdpMsg := { SdpMsg.cleared with tag := tag }

/-- A SET of tag 5 to port 17000 of 10.0.0.1, and the CLR of that tag. -/
def setFive : SdpMsg :=
  ((SdpMsg.cleared.setArg1 (1 <<< 16 + 5)).setArg2 17000).setArg3 0x0100000a

def clearFive : SdpMsg := SdpMsg.cleared.setArg1 (3 <<< 16 + 5)

/-- Messages with the default tag, and with one that was set, cleared and set again. -/
theorem followsTag_default : ∃ t, Run step (fun _ _ => True) (initial (remembering 0)) t ∧
    t.target 5 = some (0x0100000a, 17000) ∧ FollowsTag (fun _ => 0) t (tagged 1) ∧
    FollowsTag (fun _ => 0) t (tagged 5) := by
  obtain ⟨t, run, passes⟩ := exists_run step (fun _ _ => True) (initial (remembering 0))
    [setFive, clearFive, setFive]
    (fun t => (t.target 1).isSome && t.target 5 == some (0x0100000a, 17000)) (fun _ _ _ => trivial)
    (by decide +kernel)
  simp only [Bool.and_eq_true, beq_iff_eq] at passes
  obtain ⟨default, five⟩ := passes
  have follows (tag : Byte) (inTable : (tagged tag).tag.toNat < tagTableSize)
      (used : (t.target (tagged tag).tag.toNat).isSome = true) :
      FollowsTag (fun _ => 0) t (tagged tag) :=
    (followsTag_iff (remembering 0) _ t run _ inTable).mpr (iff_of_true (Nat.zero_le _) used)
  exact ⟨t, run, five, follows 1 (by decide) default, follows 5 (by decide) (five ▸ rfl)⟩

/-- A message with the cleared tag is sent all the same. -/
theorem cleared_tag_sent : ∃ t, Run step (fun _ _ => True) (initial (remembering 0)) t ∧
    ¬ FollowsTag (fun _ => 0) t (tagged 5) := by
  obtain ⟨t, run, unused⟩ := exists_run step (fun _ _ => True) (initial (remembering 0))
    [setFive, clearFive] (fun t => (t.target 5).isNone) (fun _ _ _ => trivial) (by decide +kernel)
  refine ⟨t, run, fun follows => ?_⟩
  have used : (t.target 5).isSome = true :=
    ((followsTag_of_recorded _ (recorded_of_run run) (by decide)).mp follows).mp (by decide)
  rw [Option.isNone_iff_eq_none.mp unused] at used
  cases used

end TargetHistory
end SpinEmu
