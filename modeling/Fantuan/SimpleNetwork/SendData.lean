import Mathlib.Logic.Function.Basic
import Fantuan.Common
import Fantuan.Lib.Memory

/-!
# simple_connection.cpp — sending

`SimpleConnection::SendData` of the client, whose socket blocks.
-/

open Lib

namespace Fantuan

/-- What a connection calls when it is closed, and what it calls of its handler. -/
inductive SimpleCall
  | closesocket
  | OnDisconnect
  | OnData (iLen : ℕ) (pBuf : List UInt8)
deriving DecidableEq

/-- What a call of `send` for `len` bytes returns. -/
inductive SimpleSent (len : ℤ)
  | accepted (k : ℕ) (pos : 1 ≤ k) (le : (k : ℤ) ≤ len)
  | zero
  | SOCKET_ERROR

/-- `buffer_` and `len_` are those of `send_context_`. -/
structure SimpleConnection where
  mem : ℤ → UInt8
  buffer_ : ℤ
  len_ : ℤ
  /-- What the socket has accepted. -/
  accepted : List UInt8
  calls : List SimpleCall

namespace SimpleConnection

/-! ## 1. `SendData` -/

def Close (c : SimpleConnection) : SimpleConnection :=
  { c with calls := c.calls ++ [.closesocket, .OnDisconnect] }

/-- The socket takes the first `k` bytes. -/
def accept (c : SimpleConnection) (k : ℕ) : SimpleConnection :=
  { c with accepted := c.accepted ++ Memory.read c.mem c.buffer_ k }

/-- The loop of `SendData`, from call `n` of `send` on: the result is `bWriteOK`. -/
def sendLoop (socket : ℕ → (len : ℤ) → SimpleSent len) (n : ℕ) (c : SimpleConnection) :
    SimpleConnection × Bool :=
  match socket n c.len_ with
  | .SOCKET_ERROR => (c.Close, false)
  | .zero => (c.Close, false)
  | .accepted k _ _ =>
      if (k : ℤ) = c.len_ then (c.accept k, true)
      else
        sendLoop socket (n + 1)
          { c.accept k with len_ := c.len_ - k, buffer_ := c.buffer_ + k }
termination_by c.len_.toNat
decreasing_by
  show (c.len_ - k).toNat < c.len_.toNat
  omega

/-- The end of `SendData`, with `bWriteOK`. -/
def sent (c : SimpleConnection) (bWriteOK : Bool) : SimpleConnection × ℤ :=
  if bWriteOK then ({ c with mem := Function.update c.mem c.buffer_ 0, len_ := 0 }, 0)
  else (c, -1)

def SendData (socket : ℕ → (len : ℤ) → SimpleSent len) (c : SimpleConnection) (len : ℕ)
    (buf : ℤ) : SimpleConnection × ℤ :=
  let r := sendLoop socket 0 { c with buffer_ := buf, len_ := int32 len }
  r.1.sent r.2

/-! ## 2. The loop -/

/-- How many of `len` bytes the calls of `send` take, from call `n` on: what they accept before the
first 0 or `SOCKET_ERROR`. -/
def taken (socket : ℕ → (len : ℤ) → SimpleSent len) (n : ℕ) (len : ℤ) : ℕ :=
  match socket n len with
  | .SOCKET_ERROR => 0
  | .zero => 0
  | .accepted k _ _ => k + taken socket (n + 1) (len - k)
termination_by len.toNat
decreasing_by omega

/-- All of `message` was sent, or, after its first `k` bytes, `Close` was called. -/
structure SendsOrCloses (c : SimpleConnection) (message : List UInt8) (k : ℕ)
    (d : SimpleConnection) (bWriteOK : Bool) : Prop where
  sent : bWriteOK = true →
    k = message.length ∧ d.accepted = c.accepted ++ message ∧ d.calls = c.calls
  closed : bWriteOK = false →
    k < message.length ∧ d.accepted = c.accepted ++ message.take k ∧ d.calls = c.Close.calls

variable {socket : ℕ → (len : ℤ) → SimpleSent len} {n k : ℕ} {c c' d : SimpleConnection}
  {part rest : List UInt8} {ok : Bool}

theorem SendsOrCloses.of_failure (hmessage : part ≠ []) :
    c.SendsOrCloses part 0 c.Close false where
  sent := nofun
  closed _ := by
    refine ⟨List.length_pos_iff.mpr hmessage, ?_, rfl⟩
    rw [List.take_zero, List.append_nil]
    rfl

-- A part of the message is sent before the rest.
theorem SendsOrCloses.append (h : c'.SendsOrCloses rest k d ok) (part : List UInt8)
    (haccepted : c'.accepted = c.accepted ++ part) (hcalls : c'.calls = c.calls) :
    c.SendsOrCloses (part ++ rest) (part.length + k) d ok where
  sent hok := by
    obtain ⟨hk, hd, hsame⟩ := h.sent hok
    rw [hk, List.length_append, hd, haccepted, List.append_assoc]
    exact ⟨rfl, rfl, hsame.trans hcalls⟩
  closed hok := by
    obtain ⟨hk, hd, hclose⟩ := h.closed hok
    refine ⟨?_, ?_, ?_⟩
    · rw [List.length_append]
      exact Nat.add_lt_add_left hk _
    · rw [hd, haccepted, List.take_append, List.take_of_length_le (Nat.le_add_right _ k),
        Nat.add_sub_cancel_left, List.append_assoc]
    · rw [hclose, Close, Close, hcalls]

-- Nothing is left to take once a call has taken everything.
theorem taken_zero : taken socket n 0 = 0 := by
  unfold taken
  cases socket n 0 with
  | accepted k pos le => omega
  | zero => rfl
  | SOCKET_ERROR => rfl

-- By induction on the calls of `send`: what is left to send is at `buffer_`.
theorem sendLoop_spec (hlen : 0 < c.len_) :
    c.SendsOrCloses (Memory.read c.mem c.buffer_ c.len_.toNat) (taken socket n c.len_)
      (sendLoop socket n c).1 (sendLoop socket n c).2 := by
  have hne : ∀ c : SimpleConnection, 0 < c.len_ →
      Memory.read c.mem c.buffer_ c.len_.toNat ≠ [] := by
    intro c hlen hnil
    have hzero := congrArg List.length hnil
    rw [Memory.length_read, List.length_nil] at hzero
    omega
  fun_induction sendLoop socket n c with
  | case1 n c herror =>
      rw [taken, herror]
      exact .of_failure (hne c hlen)
  | case2 n c hzero =>
      rw [taken, hzero]
      exact .of_failure (hne c hlen)
  | case3 n c k pos le hsocket hall =>
      have hk : c.len_.toNat = k := by omega
      have htaken : taken socket n c.len_ = k := by
        rw [taken, hsocket]
        show k + taken socket (n + 1) (c.len_ - k) = k
        rw [hall, sub_self, taken_zero, Nat.add_zero]
      rw [htaken, hk]
      exact ⟨fun _ ↦ ⟨Memory.length_read.symm, rfl, rfl⟩, nofun⟩
  | case4 n c k pos le hsocket hpart ih =>
      have hrest : c.len_.toNat = k + (c.len_ - k).toNat := by omega
      have htaken : taken socket n c.len_ = k + taken socket (n + 1) (c.len_ - k) := by
        rw [taken, hsocket]
      have hspec := ih (by show 0 < c.len_ - k; omega)
      have happend : c.SendsOrCloses _ _ _ _ :=
        hspec.append (Memory.read c.mem c.buffer_ k) rfl rfl
      rw [Memory.length_read] at happend
      rw [htaken, hrest, Memory.read_add]
      exact happend

/-! ## 3. The call -/

/-- The first `k` bytes of the message were sent: the call returns 0 if these are all, and -1, after
one call of `Close`, if they are not. -/
structure SentPart (c : SimpleConnection) (message : List UInt8) (r : SimpleConnection × ℤ)
    (k : ℕ) : Prop where
  le : k ≤ message.length
  accepted : r.1.accepted = c.accepted ++ message.take k
  zero_iff : r.2 = 0 ↔ k = message.length
  all : k = message.length → r.1.calls = c.calls
  part : k < message.length → r.2 = -1 ∧ r.1.calls = c.Close.calls

/-- **Everything is sent, or the connection is closed.**  Whatever `send` returns, `SendData` comes
to an end, has sent of the message what the calls took before the first 0 or `SOCKET_ERROR`, in
order, and reports which. -/
theorem SendData_complete (socket : ℕ → (len : ℤ) → SimpleSent len) (c : SimpleConnection)
    (len : ℕ) (hpos : 1 ≤ len) (hlen : len ≤ 65539) (buf : ℤ) :
    c.SentPart (Memory.read c.mem buf len) (SendData socket c len buf) (taken socket 0 len) := by
  have hint : int32 len = len := int32_of_lt (by omega) (by omega)
  have hlength : (Memory.read c.mem buf len).length = len := Memory.length_read
  have hspec : SendsOrCloses { c with buffer_ := buf, len_ := len } (Memory.read c.mem buf len)
      (taken socket 0 len) (sendLoop socket 0 { c with buffer_ := buf, len_ := len }).1
      (sendLoop socket 0 { c with buffer_ := buf, len_ := len }).2 :=
    sendLoop_spec (Int.natCast_pos.mpr hpos)
  unfold SendData
  rw [hint]
  generalize sendLoop socket 0 { c with buffer_ := buf, len_ := len } = r at hspec ⊢
  generalize taken socket 0 len = k at hspec ⊢
  obtain ⟨d, ok⟩ := r
  cases ok with
  | true =>
      obtain ⟨hk, haccepted, hcalls⟩ := hspec.sent rfl
      refine ⟨Nat.le_of_eq hk, ?_, iff_of_true rfl hk, fun _ ↦ hcalls, ?_⟩
      · rw [List.take_of_length_le (Nat.le_of_eq hk.symm)]
        exact haccepted
      · exact fun hlt ↦ absurd hk (Nat.ne_of_lt hlt)
  | false =>
      obtain ⟨hk, haccepted, hcalls⟩ := hspec.closed rfl
      have hne : (-1 : ℤ) ≠ 0 := by decide
      exact ⟨Nat.le_of_lt hk, haccepted, iff_of_false hne (Nat.ne_of_lt hk),
        fun heq ↦ absurd heq (Nat.ne_of_lt hk), fun _ ↦ ⟨rfl, hcalls⟩⟩

/-- A socket that takes one byte at a time, and from call 5 on none. -/
def byteAtATime (n : ℕ) (len : ℤ) : SimpleSent len :=
  if h : 1 ≤ len ∧ n < 5 then .accepted 1 (Nat.le_refl 1) h.1 else .zero

theorem taken_byteAtATime (n : ℕ) (len : ℤ) :
    taken byteAtATime n len = min len.toNat (5 - n) := by
  fun_induction taken byteAtATime n len with
  | case1 n len h =>
      unfold byteAtATime at h
      split at h <;> cases h
  | case2 n len h =>
      unfold byteAtATime at h
      split at h
      · cases h
      · omega
  | case3 n len k pos le h ih =>
      unfold byteAtATime at h
      split at h
      · cases h
        omega
      · cases h

/-- Three bytes are sent one after the other; of seven, five are, and the connection is closed. -/
theorem SendData_complete_three :
    (⟨fun _ ↦ 7, 0, 0, [], []⟩ : SimpleConnection).SentPart [7, 7, 7]
        (SendData byteAtATime ⟨fun _ ↦ 7, 0, 0, [], []⟩ 3 100) 3 ∧
      (⟨fun _ ↦ 7, 0, 0, [], []⟩ : SimpleConnection).SentPart [7, 7, 7, 7, 7, 7, 7]
        (SendData byteAtATime ⟨fun _ ↦ 7, 0, 0, [], []⟩ 7 100) 5 := by
  have h := SendData_complete byteAtATime ⟨fun _ ↦ 7, 0, 0, [], []⟩ 3 (by decide) (by decide) 100
  have h' := SendData_complete byteAtATime ⟨fun _ ↦ 7, 0, 0, [], []⟩ 7 (by decide) (by decide) 100
  rw [taken_byteAtATime] at h h'
  exact ⟨h, h'⟩

end SimpleConnection

end Fantuan
