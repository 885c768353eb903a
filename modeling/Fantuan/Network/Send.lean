import Mathlib.Logic.Function.Basic
import Fantuan.Lib.Memory
import Fantuan.Midware.Packet

/-!
# easy_connection.cpp, easy_session.cpp — sending (Linux)

The two threads that send on a connection.  The command thread builds each packet in the session's
`m_SendBuf` and calls `SendMessage(len, buffer)`; when the socket takes no more, it leaves the rest
to the worker, which calls `SendMessage()` on `EPOLLOUT`.  Each assignment of `SendData` and each
call of `send`, with what follows it, is a step of its own.
-/

open Lib

namespace Fantuan

/-! ## 1. The two loops -/

/-- What a call of `send` comes to. -/
inductive SendOutcome
  | accepted (k : ℕ)
  | EAGAIN
  | EINTR
  | error
  | zero
deriving DecidableEq, Repr

/-- Linux transfers no more than this in one call. -/
def MAX_RW_COUNT : ℕ := 0x7ffff000

/-- `send` accepts at least one byte, and no more than are requested: a negative `len` is a huge
`size_t`. -/
def SendOutcome.Possible (len : ℤ) : SendOutcome → Prop
  | accepted k => 1 ≤ k ∧ (k : ℤ) ≤ len % 2 ^ 64 ∧ k ≤ MAX_RW_COUNT
  | _ => True

instance (len : ℤ) : (o : SendOutcome) → Decidable (o.Possible len)
  | .accepted k =>
      inferInstanceAs (Decidable (1 ≤ k ∧ (k : ℤ) ≤ len % 2 ^ 64 ∧ k ≤ MAX_RW_COUNT))
  | .EAGAIN => .isTrue trivial
  | .EINTR => .isTrue trivial
  | .error => .isTrue trivial
  | .zero => .isTrue trivial

/-- Where the command thread is: before one of the assignments of `SendData`, before its call of
`SendMessage(len, buffer)`, at the `sem_wait` there, or in the loop.  After a `memcpy` that leaves
`m_SendBuf` the source says nothing about what comes next. -/
inductive CommandPc
  | idle
  | m_iLen (r : SendRequest)
  | m_iTypeId (r : SendRequest)
  | memcpy (r : SendRequest)
  | call
  | waiting (len : ℕ) (buffer : ℤ)
  | sending
  | undefined

/-- Where the worker is: in the loop of `SendMessage()`, or not in `SendMessage()`. -/
inductive FlushPc
  | idle
  | sending (p : ℤ) (total : ℤ)

structure Sender where
  mem : ℤ → UInt8
  /-- The address of the session's buffer. -/
  m_SendBuf : ℤ
  buffer_ : ℤ
  len_ : ℤ
  sem_ : ℕ
  /-- `ev_.events` is `EPOLLOUT | EPOLLET`. -/
  armed : Bool
  /-- What the socket has accepted. -/
  accepted : List UInt8
  command : CommandPc
  worker : FlushPc

namespace Sender

variable (s : Sender)

def accept (p : ℤ) (k : ℕ) : Sender := { s with accepted := s.accepted ++ Memory.read s.mem p k }

/-- The end of the loop of `SendMessage(len, buffer)`, where `writeNum` bytes were written. -/
def written (writeNum : ℤ) : Sender :=
  if writeNum = s.len_ then
    { s with
      mem := Function.update s.mem s.buffer_ 0, len_ := 0, sem_ := s.sem_ + 1, command := .idle }
  else { s with len_ := int32 (s.len_ - writeNum), buffer_ := s.buffer_ + writeNum }

/-- One turn of the loop of `SendMessage(len, buffer)`. -/
def SendMessage : SendOutcome → Sender
  | .accepted k => (s.accept s.buffer_ k).written k
  | .EAGAIN => { s with armed := true, command := .idle }
  -- there is no branch for `EINTR` and other errors, `writeNum` is -1
  | .EINTR => s.written (-1)
  | .error => s.written (-1)
  | .zero => { s with sem_ := s.sem_ + 1, command := .idle }

/-- `SendMessage()` up to its loop. -/
def SendLeft : Sender :=
  if s.len_ = 0 then s else { s with worker := .sending s.buffer_ s.len_ }

/-- The end of `SendMessage()` with `bWriteOK`. -/
def flushed : Sender :=
  { s with
    mem := Function.update s.mem s.buffer_ 0, len_ := 0, armed := false, sem_ := s.sem_ + 1
    worker := .idle }

/-- One turn of the loop of `SendMessage()`. -/
def SendLeftLoop (p total : ℤ) : SendOutcome → Sender
  | .accepted k =>
      if (k : ℤ) = total then (s.accept p k).flushed
      else { s.accept p k with worker := .sending (p + k) (int32 (total - k)) }
  | .EAGAIN => s.flushed
  | .EINTR => s
  | .error => { s with sem_ := s.sem_ + 1, worker := .idle }
  | .zero => { s with sem_ := s.sem_ + 1, worker := .idle }

end Sender

/-! ## 2. The two threads -/

inductive SendEvent
  | SendData (r : SendRequest)
  /-- The next assignment of `SendData`. -/
  | assign
  | sem_wait
  /-- A call of `send` in `SendMessage(len, buffer)`. -/
  | send (o : SendOutcome)
  | epollOut
  /-- A call of `send` in `SendMessage()`. -/
  | sendLeft (o : SendOutcome)
  | undefined

namespace Sender

inductive Step : Sender → SendEvent → Sender → Prop
  | SendData {s : Sender} {r : SendRequest} (hc : s.command = .idle) :
      Step s (.SendData r) { s with command := .m_iLen r }
  | m_iLen {s : Sender} {r : SendRequest} (hc : s.command = .m_iLen r) :
      Step s .assign
        { s with
          mem := Memory.write s.mem (s.m_SendBuf + 2) (uint16Bytes r.iLen)
          command := .m_iTypeId r }
  | m_iTypeId {s : Sender} {r : SendRequest} (hc : s.command = .m_iTypeId r) :
      Step s .assign
        { s with
          mem := Memory.write s.mem s.m_SendBuf (uint16Bytes r.iTypeId)
          command := .memcpy r }
  | memcpy {s : Sender} {r : SendRequest} (hc : s.command = .memcpy r)
      (hfit : PACKET_HEAD + r.iLen ≤ MAX_OUTPUT_BUFFER) :
      Step s .assign
        { s with mem := Memory.write s.mem (s.m_SendBuf + PACKET_HEAD) r.pData, command := .call }
  | overrun {s : Sender} {r : SendRequest} (hc : s.command = .memcpy r)
      (hover : MAX_OUTPUT_BUFFER < PACKET_HEAD + r.iLen) :
      Step s .assign { s with command := .undefined }
  -- `m_iLen` is read back from the buffer
  | call {s : Sender} (hc : s.command = .call) :
      Step s .assign
        { s with
          command := .waiting
            (uint16At (Memory.read s.mem s.m_SendBuf PACKET_HEAD) 2 + PACKET_HEAD) s.m_SendBuf }
  | sem_wait {s : Sender} {len : ℕ} {buffer : ℤ} (hc : s.command = .waiting len buffer)
      (hsem : 0 < s.sem_) :
      Step s .sem_wait
        { s with sem_ := s.sem_ - 1, buffer_ := buffer, len_ := int32 len, command := .sending }
  | send {s : Sender} {o : SendOutcome} (hc : s.command = .sending) (ho : o.Possible s.len_) :
      Step s (.send o) (s.SendMessage o)
  | epollOut {s : Sender} (hw : s.worker = .idle) (harmed : s.armed = true) :
      Step s .epollOut s.SendLeft
  | sendLeft {s : Sender} {o : SendOutcome} {p total : ℤ} (hw : s.worker = .sending p total)
      (ho : o.Possible total) :
      Step s (.sendLeft o) (s.SendLeftLoop p total o)
  | undefined {s t : Sender} (hc : s.command = .undefined) : Step s .undefined t

/-! ## 3. What is still unsent -/

/-- The socket has accepted all of `message` but the last `n` bytes, and these are at `p`. -/
def Owes (s : Sender) (message : List UInt8) (p n : ℤ) : Prop :=
  0 ≤ n ∧ n < 2 ^ 31 ∧ s.accepted ++ Memory.read s.mem p n.toNat = message

section Owes

variable {s t : Sender} {message : List UInt8} {p n : ℤ} {k : ℕ}

theorem Owes.accepted_isPrefix (h : s.Owes message p n) : s.accepted <+: message := by
  rw [← h.2.2]
  exact List.prefix_append _ _

theorem Owes.accepted_of_zero (h : s.Owes message p 0) : s.accepted = message := by
  rw [← h.2.2, Int.toNat_zero, Memory.read_zero, List.append_nil]

theorem Owes.congr (h : s.Owes message p n) (hmem : t.mem = s.mem)
    (haccepted : t.accepted = s.accepted) : t.Owes message p n := by
  unfold Owes
  rw [hmem, haccepted]
  exact h

-- `send` accepts no more than what is unsent.
theorem Owes.le (h : s.Owes message p n) (hk : (SendOutcome.accepted k).Possible n) :
    1 ≤ k ∧ (k : ℤ) ≤ n := by
  have hn : n % 2 ^ 64 = n := Int.emod_eq_of_lt h.1 (by have := h.2.1; omega)
  unfold SendOutcome.Possible at hk
  rw [hn] at hk
  exact ⟨hk.1, hk.2.1⟩

theorem Owes.accept (h : s.Owes message p n) (hk : (SendOutcome.accepted k).Possible n) :
    (s.accept p k).Owes message (p + k) (n - k) := by
  have hle := h.le hk
  have hlt := h.2.1
  refine ⟨by omega, by omega, ?_⟩
  have hn : n.toNat = k + (n - k).toNat := by omega
  rw [← h.2.2, hn, Memory.read_add, ← List.append_assoc]
  rfl

theorem Owes.accept_all (h : s.Owes message p n) (hk : (SendOutcome.accepted k).Possible n)
    (hall : (k : ℤ) = n) : (s.accept p k).accepted = message := by
  have hrest := h.accept hk
  rw [hall, Int.sub_self] at hrest
  exact hrest.accepted_of_zero

-- `send` accepts everything that is left.
theorem SendMessage_all (h : (k : ℤ) = s.len_) :
    s.SendMessage (.accepted k) =
      { s.accept s.buffer_ k with
        mem := Function.update s.mem s.buffer_ 0, len_ := 0, sem_ := s.sem_ + 1
        command := .idle } :=
  if_pos h

-- `send` accepts a part of it.
theorem Owes.SendMessage_part (h : s.Owes message s.buffer_ s.len_)
    (hk : (SendOutcome.accepted k).Possible s.len_) (hpart : (k : ℤ) ≠ s.len_) :
    s.SendMessage (.accepted k) =
      { s.accept s.buffer_ k with len_ := s.len_ - k, buffer_ := s.buffer_ + k } := by
  have hle := h.le hk
  have hlt := h.2.1
  have hrest : int32 (s.len_ - k) = s.len_ - k := int32_of_lt (by omega) (by omega)
  rw [← hrest]
  exact if_neg hpart

theorem SendLeftLoop_all (h : (k : ℤ) = n) :
    s.SendLeftLoop p n (.accepted k) = (s.accept p k).flushed :=
  if_pos h

theorem Owes.SendLeftLoop_part (h : s.Owes message p n)
    (hk : (SendOutcome.accepted k).Possible n) (hpart : (k : ℤ) ≠ n) :
    s.SendLeftLoop p n (.accepted k) =
      { s.accept p k with worker := .sending (p + k) (n - k) } := by
  have hle := h.le hk
  have hlt := h.2.1
  have hrest : int32 (n - k) = n - k := int32_of_lt (by omega) (by omega)
  rw [← hrest]
  exact if_neg hpart

end Owes

end Sender

end Fantuan
