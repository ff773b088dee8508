import SpinEmu.Topology

/-! SDP messages: `sdp_msg_t`, the command codes and the byte order of its fields.
The hosts are little-endian; a network-order field is read through `ntohs`. -/
namespace SpinEmu

abbrev Byte : Type := BitVec 8

def low (w : BitVec 16) : Byte := w.setWidth 8
def high (w : BitVec 16) : Byte := (w >>> 8).setWidth 8

/-- The little-endian words that start at byte `i`. -/
def half (f : Nat → Byte) (i : Nat) : BitVec 16 := f (i + 1) ++ f i
def word (f : Nat → Byte) (i : Nat) : BitVec 32 := half f (i + 2) ++ half f i

def putWord (f : Nat → Byte) (i : Nat) (w : BitVec 32) (j : Nat) : Byte :=
  if i ≤ j ∧ j < i + 4 then (w >>> (8 * (j - i))).setWidth 8 else f j

/-- On a little-endian host each of these exchanges the bytes. -/
def ntohs (w : BitVec 16) : BitVec 16 := low w ++ high w
def htons (w : BitVec 16) : BitVec 16 := low w ++ high w
def ntohl (w : BitVec 32) : BitVec 32 :=
  htons (w.setWidth 16) ++ htons ((w >>> 16).setWidth 16)
def htonl (w : BitVec 32) : BitVec 32 := ntohl w

abbrev cmdVer : BitVec 16 := 0
abbrev cmdRead : BitVec 16 := 2
abbrev cmdWrite : BitVec 16 := 3
abbrev cmdNnp : BitVec 16 := 20
abbrev cmdFfd : BitVec 16 := 23
abbrev cmdAs : BitVec 16 := 24
abbrev cmdIptag : BitVec 16 := 26
abbrev cmdP2pc : BitVec 16 := 33

abbrev spinEmuPacketWrite : BitVec 16 := 0x49
abbrev spinEmuPacketRead : BitVec 16 := 0x4a
abbrev spinEmuPacketVer : BitVec 16 := 0x4b
abbrev spinEmuPacketAs : BitVec 16 := 0x4c

abbrev rcArg : BitVec 16 := 0x84
abbrev portEth : Byte := 255
abbrev bufSize : Nat := 256

/-- The client that a request comes from, and the request's sequence number. -/
structure Requester where
  ip : BitVec 32
  port : BitVec 16
  seq : BitVec 16
  deriving DecidableEq, Repr

/-- `sdp_msg_t` without its links and its checksum. The payload is the bytes from
`arg1` to the end. The request that a message comes from is not in the source:
no function reads it, and every copy keeps it. -/
structure SdpMsg where
  length : BitVec 16
  flags : Byte
  tag : Byte
  destPort : Byte
  srcePort : Byte
  destAddr : BitVec 16
  srceAddr : BitVec 16
  cmdRc : BitVec 16
  seq : BitVec 16
  payload : Nat → Byte
  request : Requester

/-- A message as `xzalloc` returns it. -/
def SdpMsg.cleared : SdpMsg where
  length := 0
  flags := 0
  tag := 0
  destPort := 0
  srcePort := 0
  destAddr := 0
  srceAddr := 0
  cmdRc := 0
  seq := 0
  payload _ := 0
  request := ⟨0, 0, 0⟩

/-- The bytes from `flags` to the end of the message. -/
abbrev sdpBytes : Nat := 284

namespace SdpMsg

def arg1 (m : SdpMsg) : BitVec 32 := word m.payload 0
def arg2 (m : SdpMsg) : BitVec 32 := word m.payload 4
def arg3 (m : SdpMsg) : BitVec 32 := word m.payload 8
def setArg1 (m : SdpMsg) (w : BitVec 32) : SdpMsg := { m with payload := putWord m.payload 0 w }
def setArg2 (m : SdpMsg) (w : BitVec 32) : SdpMsg := { m with payload := putWord m.payload 4 w }
def setArg3 (m : SdpMsg) (w : BitVec 32) : SdpMsg := { m with payload := putWord m.payload 8 w }

/-- The byte at offset `i` from `flags`. -/
def byte (m : SdpMsg) : Nat → Byte
  | 0 => m.flags
  | 1 => m.tag
  | 2 => m.destPort
  | 3 => m.srcePort
  | 4 => low m.destAddr
  | 5 => high m.destAddr
  | 6 => low m.srceAddr
  | 7 => high m.srceAddr
  | 8 => low m.cmdRc
  | 9 => high m.cmdRc
  | 10 => low m.seq
  | 11 => high m.seq
  | i + 12 => m.payload i

/-- The message whose bytes from `flags` on are given. -/
def ofBytes (f : Nat → Byte) (length : BitVec 16) (request : Requester) : SdpMsg where
  length := length
  flags := f 0
  tag := f 1
  destPort := f 2
  srcePort := f 3
  destAddr := half f 4
  srceAddr := half f 6
  cmdRc := half f 8
  seq := half f 10
  payload i := f (i + 12)
  request := request

end SdpMsg

section Bytes

theorem toNat_append_bytes (u v : Byte) : (u ++ v).toNat = u.toNat * 256 + v.toNat := by
  rw [BitVec.toNat_append, ← Nat.shiftLeft_add_eq_or_of_lt v.isLt, Nat.shiftLeft_eq]

theorem low_half (f : Nat → Byte) (i : Nat) : low (half f i) = f i := by
  apply BitVec.eq_of_toNat_eq
  have := (f i).isLt
  rw [low, BitVec.toNat_setWidth, half, toNat_append_bytes]
  omega

theorem high_half (f : Nat → Byte) (i : Nat) : high (half f i) = f (i + 1) := by
  apply BitVec.eq_of_toNat_eq
  have := (f i).isLt
  have := (f (i + 1)).isLt
  rw [high, BitVec.toNat_setWidth, BitVec.toNat_ushiftRight, half, toNat_append_bytes,
    Nat.shiftRight_eq_div_pow]
  omega

/-- A message's bytes are the ones it was made of. -/
theorem byte_ofBytes (f : Nat → Byte) (length : BitVec 16) (request : Requester) (i : Nat) :
    (SdpMsg.ofBytes f length request).byte i = f i := by
  match i with
  | 0 | 1 | 2 | 3 | _ + 12 => rfl
  | 4 => exact low_half f 4
  | 5 => exact high_half f 4
  | 6 => exact low_half f 6
  | 7 => exact high_half f 6
  | 8 => exact low_half f 8
  | 9 => exact high_half f 8
  | 10 => exact low_half f 10
  | 11 => exact high_half f 10

theorem half_eq_iff (f : Nat → Byte) (i : Nat) (w : BitVec 16) :
    half f i = w ↔ f i = low w ∧ f (i + 1) = high w := by
  constructor
  · rintro rfl
    exact ⟨(low_half f i).symm, (high_half f i).symm⟩
  · rintro ⟨here, next⟩
    apply BitVec.eq_of_toNat_eq
    rw [half, here, next, toNat_append_bytes, low, high, BitVec.toNat_setWidth,
      BitVec.toNat_setWidth, BitVec.toNat_ushiftRight, Nat.shiftRight_eq_div_pow]
    omega

theorem ntohs_half (f : Nat → Byte) (i : Nat) : ntohs (half f i) = f i ++ f (i + 1) := by
  rw [ntohs, low_half, high_half]

theorem low_append (u v : Byte) : low (u ++ v) = v := low_half (fun i => if i = 0 then v else u) 0

theorem high_append (u v : Byte) : high (u ++ v) = u := high_half (fun i => if i = 0 then v else u) 0

theorem high_append_low (w : BitVec 16) : high w ++ low w = w := by
  apply BitVec.eq_of_toNat_eq
  have := w.isLt
  simp only [toNat_append_bytes, low, high, BitVec.toNat_setWidth, BitVec.toNat_ushiftRight,
    Nat.shiftRight_eq_div_pow]
  omega

theorem ntohs_htons (w : BitVec 16) : ntohs (htons w) = w := by
  rw [ntohs, htons, low_append, high_append, high_append_low]

/-- The two bytes of an address, as the code takes it apart. -/
theorem htons_coordinates (w : BitVec 16) :
    (htons w >>> 8).toNat = w.toNat % 256 ∧ (htons w &&& 0xff).toNat = w.toNat / 256 := by
  have mask : (0xff : BitVec 16).toNat = 2 ^ 8 - 1 := rfl
  have lower := (low w).isLt
  have upper := (high w).isLt
  have size : (htons w).toNat = (low w).toNat * 256 + (high w).toNat := toNat_append_bytes _ _
  have first : (low w).toNat = w.toNat % 256 := by simp [low]
  have second : (high w).toNat = w.toNat / 256 := by
    have := w.isLt
    simp only [high, BitVec.toNat_setWidth, BitVec.toNat_ushiftRight, Nat.shiftRight_eq_div_pow]
    omega
  rw [BitVec.toNat_ushiftRight, BitVec.toNat_and, mask, Nat.and_two_pow_sub_one_eq_mod,
    Nat.shiftRight_eq_div_pow]
  omega

theorem half_of_bytes {f : Nat → Byte} {i : Nat} {w : BitVec 16} (here : f i = low w)
    (next : f (i + 1) = high w) : half f i = w := by
  rw [half, here, next, high_append_low]

theorem toNat_append_halves (u v : BitVec 16) : (u ++ v).toNat = u.toNat * 65536 + v.toNat := by
  rw [BitVec.toNat_append, ← Nat.shiftLeft_add_eq_or_of_lt v.isLt, Nat.shiftLeft_eq]

theorem append_halves (w : BitVec 32) : (w >>> 16).setWidth 16 ++ w.setWidth 16 = w := by
  apply BitVec.eq_of_toNat_eq
  have := w.isLt
  simp only [toNat_append_halves, BitVec.toNat_setWidth, BitVec.toNat_ushiftRight,
    Nat.shiftRight_eq_div_pow]
  omega

theorem setWidth_append_halves (u v : BitVec 16) :
    (u ++ v).setWidth 16 = v ∧ ((u ++ v) >>> 16).setWidth 16 = u := by
  have := u.isLt
  have := v.isLt
  constructor <;> apply BitVec.eq_of_toNat_eq <;>
    simp only [toNat_append_halves, BitVec.toNat_setWidth, BitVec.toNat_ushiftRight,
      Nat.shiftRight_eq_div_pow] <;> omega

theorem ntohl_htonl (w : BitVec 32) : ntohl (htonl w) = w := by
  have inner := setWidth_append_halves (htons (w.setWidth 16)) (htons ((w >>> 16).setWidth 16))
  rw [htonl, ntohl, ntohl, inner.1, inner.2]
  exact (congrArg₂ (· ++ ·) (ntohs_htons _) (ntohs_htons _)).trans (append_halves w)

theorem word_putWord (f : Nat → Byte) (i : Nat) (w : BitVec 32) : word (putWord f i w) i = w := by
  have byte (j : Nat) (hj : j < 4) : putWord f i w (i + j) = (w >>> (8 * j)).setWidth 8 := by
    rw [putWord, if_pos (by omega), Nat.add_sub_cancel_left]
  have first := byte 0 (by decide)
  rw [Nat.add_zero] at first
  have lower : half (putWord f i w) i = w.setWidth 16 := by
    apply half_of_bytes
    · rw [first, low]
      apply BitVec.eq_of_toNat_eq
      simp
    · rw [byte 1 (by decide), high]
      apply BitVec.eq_of_toNat_eq
      simp only [BitVec.toNat_setWidth, BitVec.toNat_ushiftRight, Nat.shiftRight_eq_div_pow]
      omega
  have upper : half (putWord f i w) (i + 2) = (w >>> 16).setWidth 16 := by
    apply half_of_bytes
    · rw [byte 2 (by decide), low]
      apply BitVec.eq_of_toNat_eq
      simp
    · rw [byte 3 (by decide), high]
      apply BitVec.eq_of_toNat_eq
      have := w.isLt
      simp only [BitVec.toNat_setWidth, BitVec.toNat_ushiftRight, Nat.shiftRight_eq_div_pow]
      omega
  rw [word, lower, upper, append_halves]

theorem word_putWord_of_ne (f : Nat → Byte) {i k : Nat} (w : BitVec 32)
    (apart : k + 4 ≤ i ∨ i + 4 ≤ k) : word (putWord f i w) k = word f k := by
  have byte (j : Nat) (low : k ≤ j) (high : j < k + 4) : putWord f i w j = f j :=
    if_neg (by omega)
  simp only [word, half]
  rw [byte k (by omega) (by omega), byte (k + 1) (by omega) (by omega),
    byte (k + 2) (by omega) (by omega), byte (k + 2 + 1) (by omega) (by omega)]

end Bytes
end SpinEmu
