import SpinEmu.EmulatorFrames
import SpinEmu.Launch
import SpinEmu.TagEntries

/-! What `io_printf` does with a text. It puts it into an SDP message for the host of tag 0,
without a look at the length of the message, and asks for the chip's address, which an
application does not have. -/
namespace SpinEmu
open Lib Lib.Machine

/-- The streams of `io_printf`. -/
inductive IoStream where
  | std
  | dbg
  | buf
  | null
  deriving DecidableEq, Repr

/-- `%02d`. -/
def twoDigits (n : Int) : List Char :=
  let text := Decimal.print n
  if text.length < 2 then '0' :: text else text

/-- The head of a printed text. -/
def ioHead (type : List Char) (chip core : Nat) : List Byte :=
  let text := '[' :: type ++ ' ' :: Decimal.print chip ++ ',' :: twoDigits core ++ [']', ' ']
  (snprintf 1024 text).map fun c => BitVec.ofNat 8 c.toNat

/-- `buf` up to its zero; `formatted` is what the arguments come to. -/
def ioText (type : List Char) (chip core : Nat) (formatted : List Byte) : List Byte :=
  let head := ioHead type chip core
  (head ++ formatted.take (1024 - head.length - 1)).takeWhile (· ≠ 0)

inductive IoOutput where
  | nothing
  /-- `fwrite` to a stream of the process. -/
  | file (text : List Byte)
  /-- A message, with the bytes of its block that the text is copied to. -/
  | message (stored : Span) (m : SdpMsg)
  /-- The text is copied to these bytes, and then an assertion fails. -/
  | aborted (stored : Span)

/-- The message in a block that holds `block`, if the text has room in it. -/
def ioMessage (block : SdpMsg) (chipID : BitVec 32) (core : Nat) (text : List Byte) : SdpMsg :=
  { block with
    payload i := text.getD i (block.payload i)
    tag := 0
    destPort := portEth
    destAddr := 0
    srcePort := BitVec.ofNat 8 core
    srceAddr := chipID.setWidth 16
    cmdRc := 64
    length := BitVec.ofNat 16 (text.length + 12) }

/-- `io_printf` in a process that has the size of the board as `own`. -/
def ioPrintf (block : SdpMsg) (own : Board) (chip core : Nat) (stream : IoStream)
    (formatted : List Byte) : IoOutput :=
  match stream with
  | .null => .nothing
  | .dbg | .buf => .file (ioText "dbg".toList chip core formatted)
  | .std =>
    let text := ioText "std".toList chip core formatted
    let stored := ⟨flagsStart + 12, text.length⟩
    match spin1GetChipId own chip with
    | some chipID => .message stored (ioMessage block chipID core text)
    | none => .aborted stored

/-- `io_printf` in the application that a core has started. -/
def LaunchingCore.ioPrintf (l : LaunchingCore) (block : SdpMsg) (stream : IoStream)
    (formatted : List Byte) : IoOutput :=
  SpinEmu.ioPrintf block l.started.2.board l.started.2.spinEmuChip.toNat
    l.started.2.spinEmuCore.toNat stream formatted

/-- What stands before the text in a datagram. -/
def ioHeader (m : SdpMsg) : List Byte := (List.range 12).map m.byte

section Printing
variable {block : SdpMsg} {chipID : BitVec 32} {core : Nat} {text : List Byte}

theorem ioMessage_clean (clean : block.Clean) (room : text.length ≤ 272) :
    (ioMessage block chipID core text).Clean := by
  intro i past
  have outside : text.getD i (block.payload i) = block.payload i :=
    List.getD_eq_default _ _ (room.trans past)
  exact outside.trans (clean i past)

theorem ioMessage_length (room : text.length ≤ 272) :
    (ioMessage block chipID core text).length.toNat = text.length + 12 := by
  rw [ioMessage, BitVec.toNat_ofNat]
  omega

/-- The bytes that are sent of the message are its header and the text. -/
theorem ioMessage_bytes :
    (List.range (text.length + 12)).map (ioMessage block chipID core text).byte =
      ioHeader (ioMessage block chipID core text) ++ text := by
  have data : (List.range text.length).map ((ioMessage block chipID core text).byte ∘ (12 + ·)) =
      text := by
    refine List.ext_getElem (by rw [List.length_map, List.length_range]) fun i _ inside => ?_
    rw [List.getElem_map, List.getElem_range, Function.comp_apply, Nat.add_comm]
    exact List.getD_eq_getElem _ _ inside
  rw [Nat.add_comm, List.range_add, List.map_append, List.map_map, data, ioHeader]

/-- A message with a tag of the table is sent to the target of the tag. -/
theorem dispatchSdpOne_tagged {s : SdpDispatcher} {m : SdpMsg} (port : m.destPort = portEth)
    (inTable : m.tag.toNat < tagTableSize) (room : m.length.toNat ≤ sdpBytes) :
    s.dispatchSdpOne m = some { s with ether := s.ether ++
      [(⟨(s.iptags m.tag.toNat).ip, htons (s.iptags m.tag.toNat).port,
        [1, 0] ++ (List.range m.length.toNat).map m.byte⟩, m.request)] } := by
  rw [SdpDispatcher.dispatchSdpOne, if_pos port, SdpDispatcher.dispatchSdpToEther,
    if_neg (Nat.not_lt.mpr room), if_neg (Nat.not_le.mpr inTable)]

/-- The message goes to the target of tag 0, with the whole text. -/
theorem ioMessage_sent (s : SdpDispatcher) (room : text.length ≤ 272) :
    s.dispatchSdpOne (ioMessage block chipID core text) = some { s with ether := s.ether ++
      [(⟨(s.iptags 0).ip, htons (s.iptags 0).port,
        [1, 0] ++ ioHeader (ioMessage block chipID core text) ++ text⟩, block.request)] } := by
  have length : (ioMessage block chipID core text).length.toNat = text.length + 12 :=
    ioMessage_length room
  have short : (ioMessage block chipID core text).length.toNat ≤ sdpBytes := by
    rw [length]
    exact Nat.add_le_add_right room 12
  have inTable : (0 : Byte).toNat < tagTableSize := by decide
  rw [dispatchSdpOne_tagged rfl inTable short, length, ioMessage_bytes, List.append_assoc]
  rfl

theorem spin1GetChipId_isSome_iff {own : Board} {chip : Nat} :
    (spin1GetChipId own chip).isSome ↔ chip < own.numChips := by
  simp only [spin1GetChipId, chipMyX, chipMyY, Option.bind_eq_bind]
  split
  · rename_i inside
    exact iff_of_true rfl (by omega)
  · rename_i outside
    exact iff_of_false Bool.false_ne_true fun small => outside (by omega)

/-- The text is copied inside the message, the socket and the dispatcher take the message,
and the target gets the whole text behind the header. -/
def ArrivesWhole (d : SdpDispatcher) (ip : BitVec 32) (port : BitVec 16) (stale : Nat → Byte)
    (text : List Byte) (printed : IoOutput) : Prop :=
  ∃ stored m, printed = .message stored m ∧ stored.Within sdpMsgSize ∧
    (Frame.ofSdp stale m).upward = some (.sdp m) ∧
    d.dispatchSdpOne m = some { d with
      ether := d.ether ++ [(⟨ip, htons port, [1, 0] ++ ioHeader m ++ text⟩, m.request)] }

end Printing

/-- After any requests about tags, what a core prints arrives at the target of tag 0 exactly
if the process knows the board that the chip is on and the text has room in the message. No
application does: there the assertion of `spin1_get_chip_id` fails, whatever is printed. -/
theorem printed_text_arrives {d : SdpDispatcher} {s : TargetHistory} {ip : BitVec 32}
    {port : BitVec 16} (run : Run TargetHistory.step (fun _ _ => True) (TargetHistory.initial d) s)
    (used : s.target 0 = some (ip, port)) {block : SdpMsg} (clean : block.Clean)
    (stale : Nat → Byte) (own : Board) (chip core : Nat) (formatted : List Byte) :
    (ArrivesWhole s.dispatcher ip port stale (ioText "std".toList chip core formatted)
        (ioPrintf block own chip core .std formatted) ↔
      chip < own.numChips ∧ (ioText "std".toList chip core formatted).length ≤ 272) ∧
    ∀ l : LaunchingCore, l.ioPrintf block .std formatted =
      .aborted ⟨flagsStart + 12, (ioText "std".toList l.chip l.core formatted).length⟩ := by
  generalize shown : ioText "std".toList chip core formatted = text
  refine ⟨⟨?_, ?_⟩, fun l => ?_⟩
  · rintro ⟨stored, m, printed, within, _⟩
    simp only [ioPrintf, shown] at printed
    split at printed
    · rename_i chipID known
      cases printed
      simp only [Span.Within, sdpMsgSize, flagsStart] at within
      exact ⟨spin1GetChipId_isSome_iff.mp (known ▸ rfl), by omega⟩
    · cases printed
  · rintro ⟨onBoard, room⟩
    obtain ⟨chipID, known⟩ := Option.isSome_iff_exists.mp (spin1GetChipId_isSome_iff.mpr onBoard)
    refine ⟨⟨flagsStart + 12, text.length⟩, ioMessage block chipID core text, ?_, ?_, ?_, ?_⟩
    · simp only [ioPrintf, shown, known]
    · simp only [Span.Within, sdpMsgSize, flagsStart]
      omega
    · obtain ⟨m, read, _, same⟩ := Frame.upward_ofSdp stale (ioMessage block chipID core text)
      rw [read, same (ioMessage_clean clean room)]
    · have target := TargetHistory.recorded_of_run run 0 (ip, port) used
      obtain ⟨sameIp, samePort⟩ := Prod.mk.inj target
      rw [ioMessage_sent _ room, sameIp, samePort]
      rfl
  · rw [LaunchingCore.ioPrintf, l.started_eq]
    rfl

/-- A SET of tag 0 to port 17000 of 10.0.0.1. -/
def setPrinting : SdpMsg :=
  ((SdpMsg.cleared.setArg1 (1 <<< 16)).setArg2 17000).setArg3 0x0100000a

/-- Core 1 of chip 0 prints "hi": with the size of the board it arrives, in the application
that this core starts it does not. -/
theorem printed_text_arrives_hi : ∃ s : TargetHistory,
    ArrivesWhole s.dispatcher 0x0100000a 17000 (fun _ => 0)
      ("[std 0,01] hi".toList.map fun c => BitVec.ofNat 8 c.toNat)
      (ioPrintf SdpMsg.cleared firstCore.board 0 1 .std [104, 105]) ∧
    firstCore.ioPrintf SdpMsg.cleared .std [104, 105] = .aborted ⟨flagsStart + 12, 13⟩ := by
  obtain ⟨s, run, used⟩ := exists_run TargetHistory.step (fun _ _ => True)
    (TargetHistory.initial (remembering 0)) [setPrinting]
    (fun s => s.target 0 == some (0x0100000a, 17000)) (fun _ _ _ => trivial) (by decide +kernel)
  have text : ioText "std".toList 0 1 [104, 105] =
      "[std 0,01] hi".toList.map fun c => BitVec.ofNat 8 c.toNat := by decide +kernel
  have clean : SdpMsg.cleared.Clean := fun _ _ => rfl
  obtain ⟨arrives, aborts⟩ := printed_text_arrives run (beq_iff_eq.mp used) clean
    (fun _ => 0) firstCore.board 0 1 [104, 105]
  rw [text] at arrives
  have aborted := aborts firstCore
  rw [show ioText "std".toList firstCore.chip firstCore.core [104, 105] = _ from text] at aborted
  exact ⟨s, arrives.mpr ⟨by decide, by decide⟩, aborted⟩

end SpinEmu
