import Mathlib.Data.List.GetD
import Fantuan.Common
import Fantuan.Lib.Framing

/-!
# easy_dispatcher.h — packets and their layout

A packet is two `uint16` fields, `m_iTypeId` and `m_iLen`, followed by `m_iLen` bytes `m_Buf`.  The
fields lie in memory as the platforms of the makefile and of the project files store them, low byte
first; both ends use the same layout.
-/

open Lib

namespace Fantuan

/-- The `uint16` that is stored at offset `off`. -/
def uint16At (l : List UInt8) (off : ℕ) : ℕ :=
  (l.getD off 0).toNat + 256 * (l.getD (off + 1) 0).toNat

/-- The two bytes that store a `uint16`. -/
def uint16Bytes (n : ℕ) : List UInt8 := [UInt8.ofNat n, UInt8.ofNat (n / 256)]

/-- `sizeof(uint16) + sizeof(uint16)`. -/
def PACKET_HEAD : ℕ := 2 + 2

/-- `m_Buf` holds the bytes of the `m_iLen` from `m_Buf` on that lie in the buffer the packet was
read from. -/
structure EasyPacket where
  m_iTypeId : ℕ
  m_iLen : ℕ
  m_Buf : List UInt8
deriving DecidableEq, Repr

/-- The packet a pointer to the front of `l` points to. -/
def EasyPacket.ofBytes (l : List UInt8) : EasyPacket where
  m_iTypeId := uint16At l 0
  m_iLen := uint16At l 2
  m_Buf := (l.drop PACKET_HEAD).take (uint16At l 2)

/-- The arguments of a call of `SendData`. -/
structure SendRequest where
  iTypeId : ℕ
  pData : List UInt8
  iTypeId_lt : iTypeId < 2 ^ 16
  length_pData_lt : pData.length < 2 ^ 16
deriving DecidableEq

namespace SendRequest

def iLen (r : SendRequest) : ℕ := r.pData.length

/-- The packet as `SendData` lays it out. -/
def frame (r : SendRequest) : List UInt8 :=
  uint16Bytes r.iTypeId ++ uint16Bytes r.iLen ++ r.pData

/-- The packet as the receiver's `_HandlePacket` should see it. -/
def packet (r : SendRequest) : EasyPacket := ⟨r.iTypeId, r.iLen, r.pData⟩

theorem length_frame (r : SendRequest) : r.frame.length = PACKET_HEAD + r.iLen := by
  simp only [frame, uint16Bytes, iLen, PACKET_HEAD, List.length_append, List.length_cons,
    List.length_nil]

end SendRequest

/-! ## 1. Reading fields back -/

theorem uint16At_lt (l : List UInt8) (off : ℕ) : uint16At l off < 2 ^ 16 := by
  have h0 := (l.getD off 0).toNat_lt
  have h1 := (l.getD (off + 1) 0).toNat_lt
  unfold uint16At
  omega

-- A field that lies within `l` does not change when bytes follow.
theorem uint16At_append {l : List UInt8} {off : ℕ} (h : off + 2 ≤ l.length) (m : List UInt8) :
    uint16At (l ++ m) off = uint16At l off := by
  unfold uint16At
  rw [List.getD_append _ _ _ _ (by omega), List.getD_append _ _ _ _ (by omega)]

-- A field that lies within the first `k` bytes is read from them alone.
theorem uint16At_take {l : List UInt8} {off k : ℕ} (hk : off + 2 ≤ k) (hl : k ≤ l.length) :
    uint16At (l.take k) off = uint16At l off := by
  conv_rhs => rw [← List.take_append_drop k l]
  rw [uint16At_append]
  rw [List.length_take]
  omega

theorem uint16At_drop (l : List UInt8) (k off : ℕ) :
    uint16At (l.drop k) off = uint16At l (k + off) := by
  simp only [uint16At, List.getD_eq_getElem?_getD, List.getElem?_drop, Nat.add_assoc]

theorem uint16At_uint16Bytes {n : ℕ} (h : n < 2 ^ 16) (m : List UInt8) :
    uint16At (uint16Bytes n ++ m) 0 = n := by
  have h0 : (UInt8.ofNat n).toNat = n % 256 := UInt8.toNat_ofNat'
  have h1 : (UInt8.ofNat (n / 256)).toNat = n / 256 % 256 := UInt8.toNat_ofNat'
  change (UInt8.ofNat n).toNat + 256 * (UInt8.ofNat (n / 256)).toNat = n
  omega

-- What `SendData` lays out is read back as it was given.
theorem ofBytes_frame_append (r : SendRequest) (m : List UInt8) :
    EasyPacket.ofBytes (r.frame ++ m) = r.packet := by
  have hlen : r.iLen < 2 ^ 16 := r.length_pData_lt
  have h2 : uint16At (r.frame ++ m) 2 = r.iLen := by
    rw [← uint16At_drop _ 2 0]
    exact uint16At_uint16Bytes hlen (r.pData ++ m)
  have h0 : uint16At (r.frame ++ m) 0 = r.iTypeId := by
    rw [SendRequest.frame, List.append_assoc, List.append_assoc]
    exact uint16At_uint16Bytes r.iTypeId_lt _
  have hbuf : (r.frame ++ m).drop PACKET_HEAD = r.pData ++ m := rfl
  rw [EasyPacket.ofBytes, h0, h2, hbuf, SendRequest.iLen, List.take_left]
  rfl

/-! ## 2. The framing `OnData` computes with -/

/-- `pPacket->m_iLen + PACKET_HEAD`, assigned to a `uint16`, of the packet at the front of `l`. -/
def iFullLength (l : List UInt8) : ℕ := uint16 (uint16At l 2 + PACKET_HEAD)

/-- The packet at the front of a stream is as long as `iFullLength` says, once the header is
there. -/
def packetFraming : Framing UInt8 where
  frameLen l := if PACKET_HEAD ≤ l.length then some (iFullLength l) else none
  frameLen_append := by
    intro l n m h
    split at h
    · rename_i hl
      rw [if_pos (by rw [List.length_append]; omega), ← h, iFullLength, iFullLength,
        uint16At_append (by rw [PACKET_HEAD] at hl; omega)]
    · cases h

/-- No header that is come to in `l` announces a packet so long that `iFullLength` wraps. -/
def NoWrap (l : List UInt8) : Prop :=
  packetFraming.Always
    (fun s ↦ PACKET_HEAD ≤ s.length → uint16At s 2 + PACKET_HEAD < 2 ^ 16) l

instance (l : List UInt8) : Decidable (NoWrap l) :=
  inferInstanceAs (Decidable (packetFraming.Always _ l))

/-- No header that is come to in `l` announces the length at which `iFullLength` is 0. -/
def NoZeroLength (l : List UInt8) : Prop :=
  packetFraming.Always (fun s ↦ PACKET_HEAD ≤ s.length → uint16At s 2 ≠ 65532) l

instance (l : List UInt8) : Decidable (NoZeroLength l) :=
  inferInstanceAs (Decidable (packetFraming.Always _ l))

theorem frameLen_of_le {l : List UInt8} (h : PACKET_HEAD ≤ l.length) :
    packetFraming.frameLen l = some (iFullLength l) := if_pos h

theorem frameLen_eq_some {l : List UInt8} {n : ℕ} :
    packetFraming.frameLen l = some n ↔ PACKET_HEAD ≤ l.length ∧ iFullLength l = n := by
  change (if PACKET_HEAD ≤ l.length then some (iFullLength l) else none) = some n ↔ _
  split
  · rename_i h
    rw [Option.some.injEq]
    exact ⟨fun he ↦ ⟨h, he⟩, fun he ↦ he.2⟩
  · rename_i h
    exact ⟨fun he ↦ (nomatch he), fun he ↦ absurd he.1 h⟩

theorem iFullLength_eq_zero {l : List UInt8} : iFullLength l = 0 ↔ uint16At l 2 = 65532 := by
  have hlt := uint16At_lt l 2
  unfold iFullLength uint16 PACKET_HEAD
  omega

theorem noZeroLength_iff {l : List UInt8} : NoZeroLength l ↔ ¬ packetFraming.Stuck l := by
  induction l using packetFraming.cut_induction with
  | stop l h =>
      rw [NoZeroLength, packetFraming.always_of_front_none h, Framing.Stuck,
        packetFraming.rest_of_front_none h, frameLen_eq_some, iFullLength_eq_zero, not_and]
  | skip l n h ih =>
      obtain ⟨hn, hpos, -⟩ := packetFraming.front_eq_some.mp h
      have hne : PACKET_HEAD ≤ l.length → uint16At l 2 ≠ 65532 := fun _ he ↦ by
        rw [← iFullLength_eq_zero, (frameLen_eq_some.mp hn).2] at he
        omega
      rw [NoZeroLength, packetFraming.always_of_front h, and_iff_right hne,
        packetFraming.stuck_of_front h]
      exact ih

theorem noWrap_nil : NoWrap [] := by
  have hnil : packetFraming.front [] = none := rfl
  exact (packetFraming.always_of_front_none hnil).mpr fun hlen ↦ absurd hlen (by decide)

theorem noWrap_of_front {l : List UInt8} {n : ℕ} (h : packetFraming.front l = some n) :
    NoWrap l ↔
      (PACKET_HEAD ≤ l.length → uint16At l 2 + PACKET_HEAD < 2 ^ 16) ∧ NoWrap (l.drop n) :=
  packetFraming.always_of_front h

theorem NoWrap.append_left {l m : List UInt8} (h : NoWrap (l ++ m)) : NoWrap l :=
  Framing.Always.left _ (fun s t hs hlen ↦ by
    rw [uint16At_append (by rw [PACKET_HEAD] at hlen; omega)] at hs
    exact hs (by rw [List.length_append]; omega)) h

-- Before the rest of `l` every header is complete, and `m` behind it changes none of them.
theorem NoWrap.append_of_rest {l m : List UInt8} (h : NoWrap l)
    (hrest : NoWrap (packetFraming.rest l ++ m)) : NoWrap (l ++ m) := by
  induction l using packetFraming.cut_induction with
  | stop l hf => rwa [packetFraming.rest_of_front_none hf] at hrest
  | skip l n hf ih =>
      obtain ⟨hn, -, hle⟩ := packetFraming.front_eq_some.mp hf
      obtain ⟨hfirst, hdrop⟩ := (noWrap_of_front hf).mp h
      rw [packetFraming.rest_of_front hf] at hrest
      apply (noWrap_of_front (packetFraming.front_append m hf)).mpr
      rw [List.drop_append_of_le_length hle]
      refine ⟨fun _ ↦ ?_, ih hdrop hrest⟩
      have hhead := (frameLen_eq_some.mp hn).1
      rw [uint16At_append (by rw [PACKET_HEAD] at hhead; omega)]
      exact hfirst hhead

-- Without wrapping a packet is as long as its header says.
theorem NoWrap.iFullLength_eq {l : List UInt8} (h : NoWrap l) (hl : PACKET_HEAD ≤ l.length) :
    iFullLength l = uint16At l 2 + PACKET_HEAD :=
  uint16_of_lt (Framing.Always.self _ h hl)

theorem NoWrap.not_stuck {l : List UInt8} (h : NoWrap l) : ¬ packetFraming.Stuck l := by
  intro hstuck
  obtain ⟨hl, hfull⟩ := frameLen_eq_some.mp hstuck
  have hrest := Framing.Always.rest _ h hl
  rw [iFullLength, uint16_of_lt hrest, PACKET_HEAD] at hfull
  omega

-- A packet that `SendData` lays out is one frame, unless its length wraps.
theorem SendRequest.isFrame (r : SendRequest) (h : PACKET_HEAD + r.iLen < 2 ^ 16) :
    packetFraming.IsFrame r.frame := by
  have hlen := congrArg EasyPacket.m_iLen (ofBytes_frame_append r [])
  rw [List.append_nil] at hlen
  change uint16At r.frame 2 = r.iLen at hlen
  rw [Framing.IsFrame, frameLen_eq_some, r.length_frame, iFullLength, hlen,
    uint16_of_lt (by omega)]
  exact ⟨⟨Nat.le_add_right .., Nat.add_comm ..⟩, by rw [PACKET_HEAD]; omega⟩

end Fantuan
