import Fantuan.Lib.Runs
import Fantuan.Lib.Storage
import Fantuan.Midware.Packet

/-!
# easy_session.cpp — the receive side of a session

`EasySession::OnData` as a state machine with one step for each piece of its two loops: the copy at
the head of the outer loop, and one turn of the inner loop.  `undefined` is the state after a copy
that reads outside the given chunk or goes outside `m_RecvBuf`; the source promises nothing from
there on.
-/

open Lib

namespace Fantuan

/-- The two members that `OnData` works on. -/
structure RecvBuffer where
  m_iRecvBufLen : ℕ
  m_RecvBuf : Storage UInt8 MAX_INPUT_BUFFER
deriving DecidableEq

structure EasySession extends RecvBuffer where
  m_iSessionID : ℕ
  m_pConnection : Option ConnID
deriving DecidableEq

namespace RecvBuffer

/-- `m_RecvBuf[0..m_iRecvBufLen)`: the bytes received and not yet handled. -/
def buffered (b : RecvBuffer) : List UInt8 := b.m_RecvBuf.data.take b.m_iRecvBufLen

/-- Step 1 of the outer loop: copy from the chunk behind what is buffered.  The result is the buffer
and the rest of the chunk; `iLen` is the length of what is left of the chunk. -/
def copyIn (b : RecvBuffer) (pData : List UInt8) : Option (RecvBuffer × List UInt8) :=
  let iLen := pData.length
  if uint32 (b.m_iRecvBufLen + iLen) ≤ MAX_INPUT_BUFFER then do
    let m_RecvBuf ← b.m_RecvBuf.memcpy b.m_iRecvBufLen pData iLen
    some (⟨uint16 (b.m_iRecvBufLen + iLen), m_RecvBuf⟩, pData.drop iLen)
  else do
    -- the source copies as much as there is too much, not as much as there is room for
    let iCopyLen := uint16 (uint32 (b.m_iRecvBufLen + iLen) - MAX_INPUT_BUFFER)
    let m_RecvBuf ← b.m_RecvBuf.memcpy b.m_iRecvBufLen pData iCopyLen
    some (⟨uint16 (b.m_iRecvBufLen + iCopyLen), m_RecvBuf⟩, pData.drop iCopyLen)

/-- The end of a turn of the inner loop: remove the first `iFullLength` bytes. -/
def cutOut (b : RecvBuffer) (iFullLength : ℕ) : Option RecvBuffer :=
  if iFullLength < b.m_iRecvBufLen then do
    let m_RecvBuf ← b.m_RecvBuf.memmove 0 iFullLength (b.m_iRecvBufLen - iFullLength)
    some ⟨b.m_iRecvBufLen - iFullLength, m_RecvBuf⟩
  -- there is nothing behind the packet to move
  else some { b with m_iRecvBufLen := b.m_iRecvBufLen - iFullLength }

end RecvBuffer

/-! ## 1. `OnData` -/

namespace OnData

/-- Where `OnData` is: at the head of the outer loop, at the head of the inner loop, or done. -/
inductive Pc
  | copy
  | cut
  | returned
  | undefined
deriving DecidableEq, Repr

/-- `pData` is what is left of the chunk, `handled` the packets passed to `_HandlePacket` so far. -/
structure State where
  pc : Pc
  buf : RecvBuffer
  pData : List UInt8
  handled : List EasyPacket
deriving DecidableEq

/-- The end of the inner loop, and the test of the outer one. -/
def leave (s : State) : State :=
  { s with pc := if s.pData = [] then .returned else .copy }

/-- Whether a turn of the inner loop finds a packet to handle. -/
def Dispatches (s : State) : Prop :=
  PACKET_HEAD ≤ s.buf.m_iRecvBufLen ∧
    iFullLength s.buf.m_RecvBuf.data ≤ s.buf.m_iRecvBufLen

instance (s : State) : Decidable (Dispatches s) := inferInstanceAs (Decidable (_ ∧ _))

/-- One step of `OnData`, when `handlePacket` is what `_HandlePacket` returns for the last of the
packets it was passed in this call. -/
def step (handlePacket : List EasyPacket → ℤ) (s : State) : Option State :=
  match s.pc with
  | .copy =>
      match s.buf.copyIn s.pData with
      | some (buf, pData) => some { s with pc := .cut, buf, pData }
      | none => some { s with pc := .undefined }
  | .cut =>
      if Dispatches s then
        let handled := s.handled ++ [EasyPacket.ofBytes s.buf.m_RecvBuf.data]
        -- a nonzero result ends the call, and the packet stays where it is
        if handlePacket handled ≠ 0 then
          some { s with pc := .returned, handled }
        else
          match s.buf.cutOut (iFullLength s.buf.m_RecvBuf.data) with
          | some buf => some { s with buf, handled }
          | none => some { s with pc := .undefined, handled }
      else some (leave s)
  | .returned => none
  | .undefined => none

def start (b : RecvBuffer) (pData : List UInt8) : State := ⟨.copy, b, pData, []⟩

end OnData

/-- `EasySession::_HandlePacket` returns 0 for every packet. -/
def EasySession._HandlePacket (_ : List EasyPacket) : ℤ := 0

/-- `EasySession::OnData`: its final state, if it comes to one. -/
def EasySession.OnData (b : RecvBuffer) (pData : List UInt8) : Part OnData.State :=
  StateTransition.eval (OnData.step EasySession._HandlePacket) (OnData.start b pData)

def EasySession.Reset (s : EasySession) : EasySession :=
  { s with m_pConnection := none, m_iRecvBufLen := 0, m_RecvBuf := s.m_RecvBuf.set 0 0 }

/-- A session object as `new` leaves it in memory that happens to be zero. -/
def zeroSession : EasySession where
  m_iRecvBufLen := 0
  m_RecvBuf := .replicate MAX_INPUT_BUFFER 0
  m_iSessionID := 0
  m_pConnection := none

/-- A call of `OnData` that returns, from a buffer and the packets handled before to the buffer and
the packets handled since. -/
def Receives (s : RecvBuffer × List EasyPacket) (pData : List UInt8)
    (s' : RecvBuffer × List EasyPacket) : Prop :=
  ∃ t ∈ EasySession.OnData s.1 pData, t.pc = .returned ∧ s' = (t.buf, s.2 ++ t.handled)

/-! ## 2. What the pieces do to the buffered bytes -/

/-- How many bytes `copyIn` copies, with `r` bytes buffered and `n` in the chunk. -/
def copyLen (r n : ℕ) : ℕ :=
  if uint32 (r + n) ≤ MAX_INPUT_BUFFER then n else uint16 (uint32 (r + n) - MAX_INPUT_BUFFER)

namespace RecvBuffer

variable {b b' : RecvBuffer} {pData rest : List UInt8} {n : ℕ}

theorem length_buffered (hb : b.m_iRecvBufLen ≤ MAX_INPUT_BUFFER) :
    b.buffered.length = b.m_iRecvBufLen := by
  rw [buffered, List.length_take, b.m_RecvBuf.length_data, Nat.min_eq_left hb]

theorem buffered_of_eq_zero (b : RecvBuffer) (hb : b.m_iRecvBufLen = 0) : b.buffered = [] := by
  rw [buffered, hb, List.take_zero]

-- The two branches of `copyIn` differ in how much they copy only.
theorem copyIn_eq (b : RecvBuffer) (pData : List UInt8) :
    b.copyIn pData =
      (b.m_RecvBuf.memcpy b.m_iRecvBufLen pData (copyLen b.m_iRecvBufLen pData.length)).map
        fun m ↦ (⟨uint16 (b.m_iRecvBufLen + copyLen b.m_iRecvBufLen pData.length), m⟩,
          pData.drop (copyLen b.m_iRecvBufLen pData.length)) := by
  by_cases h : uint32 (b.m_iRecvBufLen + pData.length) ≤ MAX_INPUT_BUFFER
  · simp only [copyIn, copyLen, if_pos h, Option.map_eq_bind]
    rfl
  · simp only [copyIn, copyLen, if_neg h, Option.map_eq_bind]
    rfl

theorem copyIn_eq_none :
    b.copyIn pData = none ↔
      pData.length < copyLen b.m_iRecvBufLen pData.length ∨
        MAX_INPUT_BUFFER < b.m_iRecvBufLen + copyLen b.m_iRecvBufLen pData.length := by
  rw [copyIn_eq, Option.map_eq_none_iff, Storage.memcpy_eq_none]

-- A copy that stays inside both the chunk and the buffer moves the front of the chunk behind the
-- buffered bytes.
theorem copyIn_spec (h : b.copyIn pData = some (b', rest)) :
    ∃ k, k = copyLen b.m_iRecvBufLen pData.length ∧ k ≤ pData.length ∧
      b'.m_iRecvBufLen = b.m_iRecvBufLen + k ∧ b'.m_iRecvBufLen ≤ MAX_INPUT_BUFFER ∧
      b'.buffered = b.buffered ++ pData.take k ∧ rest = pData.drop k := by
  rw [copyIn_eq, Option.map_eq_some_iff] at h
  obtain ⟨m, hm, he⟩ := h
  obtain ⟨hsrc, hdst, -⟩ := Storage.memcpy_eq_some.mp hm
  obtain ⟨rfl, rfl⟩ := Prod.mk.inj he
  have hlt : b.m_iRecvBufLen + copyLen b.m_iRecvBufLen pData.length < 2 ^ 16 :=
    Nat.lt_of_le_of_lt hdst (by decide)
  refine ⟨_, rfl, hsrc, uint16_of_lt hlt, ?_, ?_, rfl⟩
  · rw [uint16_of_lt hlt]
    exact hdst
  · rw [buffered, uint16_of_lt hlt]
    exact Storage.take_of_memcpy hm

-- Inside the buffer, removing a packet always succeeds and drops its bytes.
theorem cutOut_spec (hb : b.m_iRecvBufLen ≤ MAX_INPUT_BUFFER) (hn : n ≤ b.m_iRecvBufLen) :
    ∃ b', b.cutOut n = some b' ∧ b'.m_iRecvBufLen = b.m_iRecvBufLen - n ∧
      b'.buffered = b.buffered.drop n := by
  unfold cutOut
  split
  · rename_i hlt
    -- what is moved lies inside the buffer
    cases hm : b.m_RecvBuf.memmove 0 n (b.m_iRecvBufLen - n) with
    | none =>
        rw [Storage.memmove_eq_none] at hm
        omega
    | some m =>
        refine ⟨⟨b.m_iRecvBufLen - n, m⟩, rfl, rfl, ?_⟩
        rw [buffered, Storage.take_of_memmove_zero hm, buffered, List.drop_take]
  · refine ⟨_, rfl, rfl, ?_⟩
    rw [buffered, buffered, List.drop_eq_nil_of_le (by rw [List.length_take]; omega),
      Nat.sub_eq_zero_of_le (by omega), List.take_zero]

-- The header of a packet is read from the buffered bytes.
theorem uint16At_data (hb : PACKET_HEAD ≤ b.m_iRecvBufLen)
    (hmax : b.m_iRecvBufLen ≤ MAX_INPUT_BUFFER) {off : ℕ} (hoff : off + 2 ≤ PACKET_HEAD) :
    uint16At b.m_RecvBuf.data off = uint16At b.buffered off :=
  (uint16At_take (by omega) (by rw [b.m_RecvBuf.length_data]; exact hmax)).symm

theorem iFullLength_data (hb : PACKET_HEAD ≤ b.m_iRecvBufLen)
    (hmax : b.m_iRecvBufLen ≤ MAX_INPUT_BUFFER) :
    iFullLength b.m_RecvBuf.data = iFullLength b.buffered := by
  rw [iFullLength, iFullLength, uint16At_data hb hmax (Nat.le_refl _)]

-- A packet that lies wholly below `m_iRecvBufLen` is made of buffered bytes only.
theorem ofBytes_data (hmax : b.m_iRecvBufLen ≤ MAX_INPUT_BUFFER)
    (hfull : PACKET_HEAD + uint16At b.buffered 2 ≤ b.m_iRecvBufLen) :
    EasyPacket.ofBytes b.m_RecvBuf.data = EasyPacket.ofBytes b.buffered := by
  have hhead : PACKET_HEAD ≤ b.m_iRecvBufLen := by omega
  rw [EasyPacket.ofBytes, EasyPacket.ofBytes, uint16At_data hhead hmax (Nat.le_refl _),
    uint16At_data hhead hmax (by decide)]
  congr 1
  rw [buffered, List.drop_take, List.take_take, Nat.min_eq_left]
  rw [buffered] at hfull
  omega

end RecvBuffer

end Fantuan
