import Fantuan.Lib.Runs
import Fantuan.Network.Send

/-!
# Consecutive packets (Linux)

Every packet of a session is built in its `m_SendBuf`, to which `buffer_` still points while a part
of an earlier packet is left to the worker: `sem_wait` comes after the packet has been built.
-/

open Lib

namespace Fantuan

namespace Sender

/-! ## 1. Turns -/

/-- The socket only accepts bytes or has no room, and has room again on `EPOLLOUT`. -/
def Writable (e : SendEvent) : Prop :=
  match e with
  | .send o => o = .EAGAIN ∨ ∃ k, o = .accepted k
  | .sendLeft o => ∃ k, o = .accepted k
  | _ => True

/-- The worker is still to read or write at `x`: there is a part of an earlier packet that it has to
send, or the first byte of what was left to it, which it sets to 0 when it is done. -/
def Pending (s : Sender) (x : ℤ) : Prop :=
  s.sem_ = 0 ∧
    (x = s.buffer_ ∨
      match s.worker with
      | .idle => s.buffer_ ≤ x ∧ x < s.buffer_ + s.len_
      | .sending p total => p ≤ x ∧ x < p + total)

/-- The worker is done with the `n` bytes at `a`. -/
def Clear (s : Sender) (a : ℤ) (n : ℕ) : Prop := ∀ x, a ≤ x → x < a + n → ¬ s.Pending x

/-- `SendData` writes where the worker is done, a packet that fits. -/
def InTurn (s : Sender) (e : SendEvent) : Prop :=
  match e, s.command with
  | .assign, .m_iLen _ => s.Clear (s.m_SendBuf + 2) 2
  | .assign, .m_iTypeId _ => s.Clear s.m_SendBuf 2
  | .assign, .memcpy r =>
      PACKET_HEAD + r.iLen ≤ MAX_OUTPUT_BUFFER ∧ s.Clear (s.m_SendBuf + PACKET_HEAD) r.iLen
  | _, _ => True

/-- A new connection: nothing is sent, the semaphore is free. -/
structure Fresh (s : Sender) : Prop where
  command : s.command = .idle
  worker : s.worker = .idle
  sem_ : s.sem_ = 1
  armed : s.armed = false
  accepted : s.accepted = []

/-- What the loops of `SendMessage` are still to send. -/
def unsent (s : Sender) : List UInt8 :=
  match s.worker with
  | .idle => if s.sem_ = 0 then Memory.read s.mem s.buffer_ s.len_.toNat else []
  | .sending p total => Memory.read s.mem p total.toNat

/-- The packets of all calls of `SendData`, in order. -/
def packets (es : List SendEvent) : List UInt8 :=
  es.flatMap fun
    | .SendData r => r.frame
    | _ => []

theorem packets_SendData (es : List SendEvent) (r : SendRequest) :
    packets (es ++ [.SendData r]) = packets es ++ r.frame := by
  rw [packets, List.flatMap_append, List.flatMap_singleton, packets]

-- Other events add nothing.
theorem packets_other {es : List SendEvent} {e : SendEvent} (h : packets [e] = []) :
    packets (es ++ [e]) = packets es := by
  rw [packets, List.flatMap_append, ← packets, ← packets, h, List.append_nil]

/-! ## 2. The packets so far -/

/-- Nothing is left to the worker. -/
structure Quiet (s : Sender) : Prop where
  worker : s.worker = .idle
  armed : s.armed = false
  sem_ : s.sem_ = 1

/-- The worker sends the end of `all`, or will on `EPOLLOUT`. -/
def Left (all : List UInt8) (s : Sender) : Prop :=
  s.sem_ = 0 ∧
    match s.worker with
    | .idle => s.Owes all s.buffer_ s.len_
    | .sending p total => s.Owes all p total

/-- The packets `all` have been sent, or their end is left to the worker. -/
def Prior (all : List UInt8) (s : Sender) : Prop := s.Quiet ∧ s.accepted = all ∨ s.Left all

/-- `packet` is the last one of `all`, and `bytes` of it are at `a`, where the worker is done. -/
structure Building (all packet : List UInt8) (a : ℤ) (bytes : List UInt8) (s : Sender) : Prop where
  prior : ∃ prev, s.Prior prev ∧ prev ++ packet = all
  read : Memory.read s.mem a bytes.length = bytes
  clear : s.Clear a bytes.length

/-- Where the packets `all` are, for each place of the command thread. -/
def InOrder (all : List UInt8) (s : Sender) : Prop :=
  match s.command with
  | .idle => s.Prior all
  | .m_iLen r => s.Building all r.frame s.m_SendBuf []
  | .m_iTypeId r => s.Building all r.frame (s.m_SendBuf + 2) (uint16Bytes r.iLen)
  | .memcpy r =>
      s.Building all r.frame s.m_SendBuf (uint16Bytes r.iTypeId ++ uint16Bytes r.iLen)
  | .call => ∃ r : SendRequest, s.Building all r.frame s.m_SendBuf r.frame
  | .waiting len buffer =>
      len < 2 ^ 31 ∧ ∃ packet, packet.length = len ∧ s.Building all packet buffer packet
  | .sending => s.worker = .idle ∧ s.armed = false ∧ s.sem_ = 0 ∧ s.Owes all s.buffer_ s.len_
  | .undefined => False

section Steps

variable {s t : Sender} {all prev packet bytes : List UInt8} {r : SendRequest} {e : SendEvent}
  {es : List SendEvent} {o : SendOutcome} {a p total : ℤ} {n k : ℕ}

theorem left_idle (hw : s.worker = .idle) :
    s.Left all ↔ s.sem_ = 0 ∧ s.Owes all s.buffer_ s.len_ := by
  unfold Left
  rw [hw]

theorem left_sending (hw : s.worker = .sending p total) :
    s.Left all ↔ s.sem_ = 0 ∧ s.Owes all p total := by
  unfold Left
  rw [hw]

theorem inOrder_idle (hc : s.command = .idle) : InOrder all s ↔ s.Prior all := by
  unfold InOrder
  rw [hc]

theorem inOrder_sending (hc : s.command = .sending) :
    InOrder all s ↔
      s.worker = .idle ∧ s.armed = false ∧ s.sem_ = 0 ∧ s.Owes all s.buffer_ s.len_ := by
  unfold InOrder
  rw [hc]

theorem InOrder.of_sending (hc : s.command = .sending) (hw : s.worker = .idle)
    (harmed : s.armed = false) (hsem : s.sem_ = 0) (h : s.Owes all s.buffer_ s.len_) :
    InOrder all s :=
  (inOrder_sending hc).mpr ⟨hw, harmed, hsem, h⟩

theorem Quiet.unsent_eq (h : s.Quiet) : s.unsent = [] := by
  unfold unsent
  rw [h.worker, h.sem_]
  rfl

theorem Left.unsent_eq (h : s.Left all) : s.accepted ++ s.unsent = all := by
  unfold Left at h
  unfold unsent
  split at h
  · rw [if_pos h.1]
    exact h.2.2.2
  · exact h.2.2.2

theorem Prior.unsent_eq (h : s.Prior all) : s.accepted ++ s.unsent = all := by
  rcases h with ⟨hq, ha⟩ | hleft
  · rw [hq.unsent_eq, List.append_nil, ha]
  · exact hleft.unsent_eq

theorem Prior.command (h : s.Prior all) (command : CommandPc) :
    { s with command }.Prior all := by
  rcases h with ⟨hq, ha⟩ | hleft
  · exact .inl ⟨⟨hq.worker, hq.armed, hq.sem_⟩, ha⟩
  · exact .inr hleft

theorem Building.unsent_isPrefix (h : s.Building all packet a bytes) :
    s.accepted ++ s.unsent <+: all := by
  obtain ⟨prev, hprior, hall⟩ := h.prior
  rw [hprior.unsent_eq, ← hall]
  exact List.prefix_append _ _

-- What the socket has accepted and what it is still to get are the first bytes of the packets.
theorem InOrder.unsent_isPrefix (h : InOrder all s) : s.accepted ++ s.unsent <+: all := by
  unfold InOrder at h
  split at h
  · rw [h.unsent_eq]
  · exact h.unsent_isPrefix
  · exact h.unsent_isPrefix
  · exact h.unsent_isPrefix
  · rcases h with ⟨r, h⟩
    exact h.unsent_isPrefix
  · rcases h with ⟨-, packet, -, h⟩
    exact h.unsent_isPrefix
  · have hleft : s.Left all := (left_idle h.1).mpr h.2.2
    rw [hleft.unsent_eq]
  · exact h.elim

/-! ### The command thread -/

theorem Clear.append (h : s.Clear a n) (h' : s.Clear (a + n) k) : s.Clear a (n + k) := by
  intro x hx hlt
  by_cases hn : x < a + n
  · exact h x hx hn
  · exact h' x (by omega) (by omega)

-- A write where the worker is done leaves what is pending as it is.
theorem Clear.write_eq (h : s.Clear a bytes.length) {x : ℤ} (hx : s.Pending x) :
    Memory.write s.mem a bytes x = s.mem x := by
  rcases Memory.write_cases s.mem a bytes x with ⟨i, rfl, hi⟩ | ⟨-, hsame⟩
  · have hlt := (List.getElem?_eq_some_iff.mp hi).1
    exact absurd hx (h _ (by omega) (by omega))
  · exact hsame

theorem Owes.write {q m : ℤ} (h : s.Owes prev q m) (hclear : s.Clear a bytes.length)
    (hpending : ∀ x, q ≤ x → x < q + m → s.Pending x) (command : CommandPc) :
    { s with mem := Memory.write s.mem a bytes, command }.Owes prev q m := by
  refine ⟨h.1, h.2.1, ?_⟩
  rw [← h.2.2]
  have hnat : (m.toNat : ℤ) = m := Int.toNat_of_nonneg h.1
  exact congrArg _ (Memory.read_congr fun x hx hlt ↦
    hclear.write_eq (hpending x hx (by rwa [hnat] at hlt)))

theorem Prior.write (h : s.Prior prev) (bytes : List UInt8) (hclear : s.Clear a bytes.length)
    (command : CommandPc) :
    { s with mem := Memory.write s.mem a bytes, command }.Prior prev := by
  rcases h with ⟨hq, ha⟩ | hleft
  · exact .inl ⟨⟨hq.worker, hq.armed, hq.sem_⟩, ha⟩
  · right
    cases hw : s.worker with
    | idle =>
        rw [left_idle hw] at hleft
        refine (left_idle rfl).mpr ⟨hleft.1, hleft.2.write hclear (fun x hx hlt ↦ ?_) command⟩
        refine ⟨hleft.1, .inr ?_⟩
        rw [hw]
        exact ⟨hx, hlt⟩
    | sending p total =>
        rw [left_sending hw] at hleft
        refine (left_sending rfl).mpr ⟨hleft.1, hleft.2.write hclear (fun x hx hlt ↦ ?_) command⟩
        refine ⟨hleft.1, .inr ?_⟩
        rw [hw]
        exact ⟨hx, hlt⟩

-- The header in memory, when both fields have been assigned.
theorem read_head (mem : ℤ → UInt8) (b : ℤ) (r : SendRequest)
    (h : Memory.read mem (b + 2) 2 = uint16Bytes r.iLen) :
    Memory.read (Memory.write mem b (uint16Bytes r.iTypeId)) b PACKET_HEAD =
      uint16Bytes r.iTypeId ++ uint16Bytes r.iLen := by
  have hfirst : Memory.read (Memory.write mem b (uint16Bytes r.iTypeId)) b 2 =
      uint16Bytes r.iTypeId := Memory.read_write
  have hsecond : Memory.read (Memory.write mem b (uint16Bytes r.iTypeId)) (b + 2) 2 =
      uint16Bytes r.iLen := by
    rw [← h]
    exact Memory.read_write_of_disjoint (.inr (Int.le_refl _))
  unfold PACKET_HEAD
  rw [Memory.read_add, hfirst]
  exact congrArg _ hsecond

-- `memcpy` leaves the header as it is.
theorem read_packet (mem : ℤ → UInt8) (b : ℤ) (r : SendRequest)
    (h : Memory.read mem b PACKET_HEAD = uint16Bytes r.iTypeId ++ uint16Bytes r.iLen) :
    Memory.read (Memory.write mem (b + PACKET_HEAD) r.pData) b r.frame.length = r.frame := by
  have hhead : Memory.read (Memory.write mem (b + PACKET_HEAD) r.pData) b PACKET_HEAD =
      uint16Bytes r.iTypeId ++ uint16Bytes r.iLen := by
    rw [← h]
    exact Memory.read_write_of_disjoint (.inl (Int.le_refl _))
  have hdata : Memory.read (Memory.write mem (b + PACKET_HEAD) r.pData) (b + PACKET_HEAD) r.iLen =
      r.pData := Memory.read_write
  rw [r.length_frame, Memory.read_add, hhead, hdata]
  rfl

-- `m_iLen` is read back as it was assigned.
theorem m_iLen_of_frame {mem : ℤ → UInt8} {b : ℤ}
    (h : Memory.read mem b r.frame.length = r.frame) :
    uint16At (Memory.read mem b PACKET_HEAD) 2 = r.iLen := by
  rw [r.length_frame, Memory.read_add] at h
  have hlen := congrArg EasyPacket.m_iLen (ofBytes_frame_append r [])
  rw [List.append_nil] at hlen
  change uint16At r.frame 2 = r.iLen at hlen
  rw [← hlen, ← h, uint16At_append (by rw [Memory.length_read]; decide)]

theorem InOrder.SendData (h : InOrder all s) (hc : s.command = .idle) :
    InOrder (all ++ r.frame) { s with command := .m_iLen r } := by
  rw [inOrder_idle hc] at h
  refine ⟨⟨all, h.command _, rfl⟩, rfl, fun x hx hlt ↦ ?_⟩
  rw [List.length_nil, Int.natCast_zero, Int.add_zero] at hlt
  exact absurd hx (Int.not_le_of_gt hlt)

-- The assignments of `SendData` put the packet into `m_SendBuf`.
theorem InOrder.assign (h : InOrder all s) (hturn : InTurn s .assign) (hst : Step s .assign t) :
    InOrder all t := by
  unfold InOrder at h
  unfold InTurn at hturn
  -- each assignment adds a field, and leaves those assigned before
  cases hst with
  | @m_iLen r hc =>
      rw [hc] at h hturn
      obtain ⟨prev, hprior, hall⟩ := h.prior
      exact ⟨⟨prev, hprior.write (uint16Bytes r.iLen) hturn _, hall⟩,
        Memory.read_write, hturn⟩
  | @m_iTypeId r hc =>
      rw [hc] at h hturn
      obtain ⟨prev, hprior, hall⟩ := h.prior
      exact ⟨⟨prev, hprior.write (uint16Bytes r.iTypeId) hturn _, hall⟩,
        read_head _ _ _ h.read, Clear.append (n := 2) (k := 2) hturn h.clear⟩
  | @memcpy r hc hfit =>
      rw [hc] at h hturn
      obtain ⟨prev, hprior, hall⟩ := h.prior
      refine ⟨r, ⟨prev, hprior.write r.pData hturn.2 _, hall⟩, read_packet _ _ _ h.read,
        ?_⟩
      rw [r.length_frame]
      exact h.clear.append hturn.2
  | @overrun r hc hover =>
      rw [hc] at hturn
      exact absurd hturn.1 (Nat.not_le_of_lt hover)
  | call hc =>
      rw [hc] at h
      rcases h with ⟨r, h⟩
      have hlt : r.iLen < 2 ^ 16 := r.length_pData_lt
      have hP : PACKET_HEAD = 4 := rfl
      rw [m_iLen_of_frame h.read]
      obtain ⟨prev, hprior, hall⟩ := h.prior
      refine ⟨by omega, r.frame, ?_, ⟨prev, hprior.command _, hall⟩, h.read, h.clear⟩
      rw [r.length_frame, Nat.add_comm]

theorem InOrder.sem_wait (h : InOrder all s) (hst : Step s .sem_wait t) : InOrder all t := by
  unfold InOrder at h
  cases hst with
  | @sem_wait len buffer hc hsem =>
      rw [hc] at h
      obtain ⟨hlt, packet, hlength, hbuilding⟩ := h
      obtain ⟨prev, hprior, hall⟩ := hbuilding.prior
      have hlen : int32 (len : ℤ) = len := int32_of_lt (by omega) (by omega)
      rw [hlen]
      -- with the semaphore free nothing is left of an earlier packet
      rcases hprior with ⟨hq, ha⟩ | hleft
      · refine .of_sending rfl hq.worker hq.armed (congrArg (· - 1) hq.sem_)
          ⟨Int.natCast_nonneg len, Int.ofNat_lt.mpr hlt, ?_⟩
        have hread := hbuilding.read
        rw [hlength] at hread
        rw [← hall, ← ha]
        exact congrArg _ hread
      · rw [hleft.1] at hsem
        exact absurd hsem (Nat.lt_irrefl 0)

theorem InOrder.send (h : InOrder all s) (hc : s.command = .sending) (ho : o.Possible s.len_)
    (he : Writable (.send o)) : InOrder all (s.SendMessage o) := by
  rw [inOrder_sending hc] at h
  rcases h with ⟨hw, harmed, hsem, h⟩
  rcases he with rfl | ⟨k, rfl⟩
  · exact (inOrder_idle rfl).mpr (.inr ((left_idle hw).mpr ⟨hsem, h.congr rfl rfl⟩))
  · by_cases hall : (k : ℤ) = s.len_
    · rw [SendMessage_all hall]
      exact (inOrder_idle rfl).mpr
        (.inl ⟨⟨hw, harmed, congrArg (· + 1) hsem⟩, h.accept_all ho hall⟩)
    · rw [h.SendMessage_part ho hall]
      exact .of_sending hc hw harmed hsem ((h.accept ho).congr rfl rfl)

/-! ### The worker -/

/-- The worker goes on with what is left to it, and writes nowhere else. -/
structure Finishes (s t : Sender) : Prop where
  prior : ∀ prev, s.Prior prev → t.Prior prev
  pending : ∀ x, t.Pending x → s.Pending x
  mem : ∀ x, ¬ s.Pending x → t.mem x = s.mem x
  command : t.command = s.command
  m_SendBuf : t.m_SendBuf = s.m_SendBuf

theorem Building.finishes (h : s.Building all packet a bytes) (hw : Finishes s t) :
    t.Building all packet a bytes where
  prior := by
    obtain ⟨prev, hprior, hall⟩ := h.prior
    exact ⟨prev, hw.prior prev hprior, hall⟩
  read := by
    rw [← h.read, Memory.length_read]
    exact Memory.read_congr fun x hx hlt ↦ hw.mem x (h.clear x hx hlt)
  clear x hx hlt hpending := h.clear x hx hlt (hw.pending x hpending)

theorem InOrder.finishes (h : InOrder all s) (hw : Finishes s t) (hc : s.command ≠ .sending) :
    InOrder all t := by
  unfold InOrder at h ⊢
  rw [hw.command, hw.m_SendBuf]
  cases hs : s.command with
  | idle => rw [hs] at h; exact hw.prior all h
  | m_iLen r => rw [hs] at h; exact h.finishes hw
  | m_iTypeId r => rw [hs] at h; exact h.finishes hw
  | memcpy r => rw [hs] at h; exact h.finishes hw
  | call =>
      rw [hs] at h
      rcases h with ⟨r, h⟩
      exact ⟨r, h.finishes hw⟩
  | waiting len buffer =>
      rw [hs] at h
      rcases h with ⟨hlt, packet, hlength, h⟩
      exact ⟨hlt, packet, hlength, h.finishes hw⟩
  | sending => exact absurd hs hc
  | undefined => rw [hs] at h; exact h

-- While the worker has something to do, the command thread has not begun to send the next packet.
theorem InOrder.not_sending (h : InOrder all s) (hbusy : s.armed = true ∨ s.worker ≠ .idle) :
    s.command ≠ .sending := by
  intro hc
  rw [inOrder_sending hc] at h
  rcases hbusy with harmed | hw
  · cases harmed.symm.trans h.2.1
  · exact hw h.1

theorem finishes_epollOut (hw : s.worker = .idle) (harmed : s.armed = true) :
    Finishes s s.SendLeft := by
  unfold SendLeft
  split
  · exact ⟨fun _ h ↦ h, fun _ h ↦ h, fun _ _ ↦ rfl, rfl, rfl⟩
  · refine ⟨fun prev h ↦ ?_, fun x hx ↦ ?_, fun _ _ ↦ rfl, rfl, rfl⟩
    · rcases h with ⟨hq, -⟩ | hleft
      · cases harmed.symm.trans hq.armed
      · rw [left_idle hw] at hleft
        exact .inr ((left_sending rfl).mpr ⟨hleft.1, hleft.2.congr rfl rfl⟩)
    · rcases hx with ⟨hsem, hx⟩
      refine ⟨hsem, ?_⟩
      rw [hw]
      exact hx

theorem finishes_sendLeft (hw : s.worker = .sending p total) (ho : o.Possible total)
    (he : Writable (.sendLeft o)) (hleft : ∃ prev, s.Left prev) :
    Finishes s (s.SendLeftLoop p total o) := by
  rcases he with ⟨k, rfl⟩
  have hsending : ∀ prev, s.Prior prev → s.sem_ = 0 ∧ s.Owes prev p total := by
    rintro prev (⟨hq, -⟩ | h)
    · cases hw.symm.trans hq.worker
    · exact (left_sending hw).mp h
  obtain ⟨before, hbefore⟩ := hleft
  obtain ⟨hsem, howes⟩ := hsending before (.inr hbefore)
  by_cases hall : (k : ℤ) = total
  · rw [SendLeftLoop_all hall]
    refine ⟨fun prev h ↦ ?_, fun x hx ↦ ?_, fun x hx ↦ ?_, rfl, rfl⟩
    · exact .inl ⟨⟨rfl, rfl, congrArg (· + 1) hsem⟩, (hsending prev h).2.accept_all ho hall⟩
    · -- the semaphore is free again
      exact absurd hx.1 (Nat.succ_ne_zero _)
    · exact Function.update_of_ne (fun hbuffer ↦ hx ⟨hsem, .inl hbuffer⟩) _ _
  · rw [howes.SendLeftLoop_part ho hall]
    refine ⟨fun prev h ↦ ?_, fun x hx ↦ ?_, fun _ _ ↦ rfl, rfl, rfl⟩
    · exact .inr ((left_sending rfl).mpr ⟨hsem, ((hsending prev h).2.accept ho).congr rfl rfl⟩)
    · rcases hx with ⟨-, hbuffer | hrest⟩
      · exact ⟨hsem, .inl hbuffer⟩
      · refine ⟨hsem, .inr ?_⟩
        have hrest' : p + k ≤ x ∧ x < p + k + (total - k) := hrest
        rw [hw]
        exact ⟨by omega, by omega⟩

-- A worker in its loop has been left something.
theorem InOrder.left (h : InOrder all s) (hw : s.worker = .sending p total) :
    ∃ prev, s.Left prev := by
  have hprior : ∀ prev, s.Prior prev → s.Left prev := by
    rintro prev (⟨hq, -⟩ | hleft)
    · cases hw.symm.trans hq.worker
    · exact hleft
  have hbuilding : ∀ packet a bytes, s.Building all packet a bytes → ∃ prev, s.Left prev := by
    intro packet a bytes h
    obtain ⟨prev, hp, -⟩ := h.prior
    exact ⟨prev, hprior prev hp⟩
  unfold InOrder at h
  split at h
  · exact ⟨all, hprior all h⟩
  · exact hbuilding _ _ _ h
  · exact hbuilding _ _ _ h
  · exact hbuilding _ _ _ h
  · rcases h with ⟨r, h⟩
    exact hbuilding _ _ _ h
  · rcases h with ⟨-, packet, -, h⟩
    exact hbuilding _ _ _ h
  · cases hw.symm.trans h.1
  · exact h.elim

theorem InOrder.step (h : InOrder (packets es) s)
    (hst : Guarded (fun s e ↦ Writable e ∧ InTurn s e) Step s e t) :
    InOrder (packets (es ++ [e])) t := by
  have hwritable := hst.1.1
  cases e with
  | SendData r =>
      rw [packets_SendData]
      cases hst.2 with
      | SendData hc => exact h.SendData hc
  | assign =>
      rw [packets_other rfl]
      exact h.assign hst.1.2 hst.2
  | sem_wait =>
      rw [packets_other rfl]
      exact h.sem_wait hst.2
  | send o =>
      rw [packets_other rfl]
      cases hst.2 with
      | send hc ho => exact h.send hc ho hwritable
  | epollOut =>
      rw [packets_other rfl]
      cases hst.2 with
      | epollOut hw harmed =>
          exact h.finishes (finishes_epollOut hw harmed) (h.not_sending (.inl harmed))
  | sendLeft o =>
      rw [packets_other rfl]
      cases hst.2 with
      | sendLeft hw ho =>
          have hbusy : s.worker ≠ .idle := by
            rw [hw]
            exact FlushPc.noConfusion
          exact h.finishes (finishes_sendLeft hw ho hwritable (h.left hw))
            (h.not_sending (.inr hbusy))
  | undefined =>
      cases hst.2 with
      | undefined hc =>
          unfold InOrder at h
          rw [hc] at h
          exact h.elim

end Steps

/-! ## 3. All interleavings -/

/-- As long as `SendData` writes only where the worker is done, what the socket has accepted is a
prefix of the packets, and the next bytes of them are those that are still to be sent. -/
theorem packets_of_inTurn (s t : Sender) (es : List SendEvent) (hs : s.Fresh)
    (h : Path (Guarded (fun s e ↦ Writable e ∧ InTurn s e) Step) s es t) :
    t.accepted <+: packets es ∧ t.accepted ++ t.unsent <+: packets es := by
  have hstart : InOrder (packets []) s :=
    (inOrder_idle hs.command).mpr (.inl ⟨⟨hs.worker, hs.armed, hs.sem_⟩, hs.accepted⟩)
  have hend : InOrder (packets es) t :=
    h.always (I := fun es s ↦ InOrder (packets es) s) hstart fun _ _ _ _ hI hst ↦ hI.step hst
  have hunsent := hend.unsent_isPrefix
  exact ⟨(List.prefix_append _ _).trans hunsent, hunsent⟩

section Runs

variable {s t : Sender} {es : List SendEvent} {C : Sender → SendEvent → Prop}

/-- A new connection. -/
def fresh : Sender := ⟨fun _ ↦ 0, 0, 0, 0, 1, false, [], .idle, .idle⟩

theorem fresh_fresh : fresh.Fresh := ⟨rfl, rfl, rfl, rfl, rfl⟩

/-- `SendData` up to `sem_wait`. -/
def built (s : Sender) (r : SendRequest) : Sender :=
  let mem := Memory.write
    (Memory.write (Memory.write s.mem (s.m_SendBuf + 2) (uint16Bytes r.iLen)) s.m_SendBuf
      (uint16Bytes r.iTypeId)) (s.m_SendBuf + PACKET_HEAD) r.pData
  { s with mem, command := .waiting (r.iLen + PACKET_HEAD) s.m_SendBuf }

theorem Step.calls {r : SendRequest} (hc : s.command = .call)
    (hlen : uint16At (Memory.read s.mem s.m_SendBuf PACKET_HEAD) 2 = r.iLen) :
    Step s .assign { s with command := .waiting (r.iLen + PACKET_HEAD) s.m_SendBuf } := by
  rw [← hlen]
  exact .call hc

-- The worker is done with all of `m_SendBuf` while the semaphore is free.
theorem clear_of_sem (hsem : s.sem_ = 1) (a : ℤ) (n : ℕ) : s.Clear a n := by
  rintro x - - ⟨hzero, -⟩
  cases hsem.symm.trans hzero

theorem inTurn_of_sem {e : SendEvent} (hsem : s.sem_ = 1)
    (hfit : ∀ r, s.command = .memcpy r → PACKET_HEAD + r.iLen ≤ MAX_OUTPUT_BUFFER) :
    InTurn s e := by
  unfold InTurn
  split
  · exact clear_of_sem hsem _ _
  · exact clear_of_sem hsem _ _
  · rename_i r hc
    exact ⟨hfit r hc, clear_of_sem hsem _ _⟩
  · trivial

theorem built_run {r : SendRequest} (h : Path (Guarded C Step) s es t) (hc : t.command = .m_iLen r)
    (hfit : PACKET_HEAD + r.iLen ≤ MAX_OUTPUT_BUFFER)
    (hassign : ∀ u : Sender, u.sem_ = t.sem_ → (∀ r', u.command = .memcpy r' → r' = r) →
      C u .assign) :
    Path (Guarded C Step) s (es ++ [.assign] ++ [.assign] ++ [.assign] ++ [.assign])
      (t.built r) := by
  have hfirst : ∀ r', t.command = .memcpy r' → r' = r := by
    intro r' hr
    cases hc.symm.trans hr
  have h₁ := h.snoc (l := SendEvent.assign) ⟨hassign t rfl hfirst, .m_iLen hc⟩
  have h₂ := h₁.snoc ⟨hassign _ rfl fun r' hr ↦ CommandPc.noConfusion hr, .m_iTypeId rfl⟩
  have h₃ := h₂.snoc ⟨hassign _ rfl fun r' hr ↦ (CommandPc.memcpy.inj hr).symm, .memcpy rfl hfit⟩
  have hread : Memory.read (t.built r).mem t.m_SendBuf r.frame.length = r.frame :=
    read_packet _ _ r (read_head _ _ r Memory.read_write)
  exact h₃.snoc ⟨hassign _ rfl fun r' hr ↦ CommandPc.noConfusion hr,
    .calls rfl (m_iLen_of_frame hread)⟩

/-- A packet without data, and one with. -/
def short : SendRequest := ⟨1, [], by decide, by decide⟩

def longer : SendRequest := ⟨2, [5], by decide, by decide⟩

/-- One byte of `short` is accepted, the others are left to the worker. -/
def blocked : Sender :=
  { fresh.built short with
    buffer_ := 1, len_ := 3, sem_ := 0, armed := true, accepted := [1], command := .idle }

theorem turns_of_sem {e : SendEvent} (he : Writable e) (hsem : s.sem_ = 1)
    (hfit : ∀ r', s.command = .memcpy r' → r' = r)
    (hr : PACKET_HEAD + r.iLen ≤ MAX_OUTPUT_BUFFER) :
    Writable e ∧ InTurn s e :=
  ⟨he, inTurn_of_sem hsem fun r' hr' ↦ by rw [hfit r' hr']; exact hr⟩

-- The next packet is asked for while three bytes of `short` are left to the worker.
theorem blocked_run :
    ∃ es, packets es = short.frame ++ longer.frame ∧
      Path (Guarded (fun s e ↦ Writable e ∧ InTurn s e) Step) fresh es
        { blocked with command := .m_iLen longer } := by
  have h₁ : Path (Guarded (fun s e ↦ Writable e ∧ InTurn s e) Step) fresh [.SendData short]
      { fresh with command := .m_iLen short } := Path.nil.snoc ⟨⟨trivial, trivial⟩, .SendData rfl⟩
  have h₂ := built_run h₁ rfl (by decide) fun u hsem hr ↦
    turns_of_sem trivial hsem hr (by decide)
  have h₃ := h₂.snoc (l := SendEvent.sem_wait) ⟨⟨trivial, trivial⟩, .sem_wait rfl (by decide)⟩
  have h₄ := h₃.snoc (l := SendEvent.send (.accepted 1))
    ⟨⟨.inr ⟨1, rfl⟩, trivial⟩, .send rfl (by decide)⟩
  have h₅ := h₄.snoc (l := SendEvent.send .EAGAIN)
    ⟨⟨.inl rfl, trivial⟩, .send rfl (by decide)⟩
  exact ⟨_, rfl, h₅.snoc (l := SendEvent.SendData longer) ⟨⟨trivial, trivial⟩, .SendData rfl⟩⟩

/-- `SendData` is called for `longer` while three bytes of `short` are unsent, and writes when they
are sent. -/
theorem packets_in_turn :
    ∃ es t, Path (Guarded (fun s e ↦ Writable e ∧ InTurn s e) Step) fresh es t ∧
      packets es = short.frame ++ longer.frame ∧ t.accepted = packets es ∧
      t.accepted <+: packets es ∧ t.accepted ++ t.unsent <+: packets es := by
  rcases blocked_run with ⟨es, hes, h⟩
  have h₁ := h.snoc (l := SendEvent.epollOut) ⟨⟨trivial, trivial⟩, .epollOut rfl rfl⟩
  have h₂ := h₁.snoc (l := SendEvent.sendLeft (.accepted 3))
    ⟨⟨⟨3, rfl⟩, trivial⟩, .sendLeft (p := 1) rfl (by decide)⟩
  have h₃ := built_run h₂ rfl (by decide) fun u hsem hr ↦
    turns_of_sem trivial hsem hr (by decide)
  have h₄ := h₃.snoc (l := SendEvent.sem_wait) ⟨⟨trivial, trivial⟩, .sem_wait rfl (by decide)⟩
  have h₅ := h₄.snoc (l := SendEvent.send (.accepted 5))
    ⟨⟨.inr ⟨5, rfl⟩, trivial⟩, .send rfl (by decide)⟩
  have hpackets : packets (es ++ [.epollOut] ++ [.sendLeft (.accepted 3)] ++ [.assign] ++
      [.assign] ++ [.assign] ++ [.assign] ++ [.sem_wait] ++ [.send (.accepted 5)]) =
        short.frame ++ longer.frame := by
    iterate 8 rw [packets_other rfl]
    exact hes
  refine ⟨_, _, h₅, hpackets, ?_, packets_of_inTurn fresh _ _ fresh_fresh h₅⟩
  rw [hpackets]
  decide

/-- While three bytes of `short` are unsent, `longer` is built over them. -/
theorem packets_mixed :
    fresh.Fresh ∧ ∃ es t, Path (Guarded (fun _ e ↦ Writable e) Step) fresh es t ∧
      packets es = short.frame ++ longer.frame ∧ ¬ t.accepted <+: packets es := by
  rcases blocked_run with ⟨es, hes, h⟩
  have hweak : Path (Guarded (fun _ e ↦ Writable e) Step) fresh es
      { blocked with command := .m_iLen longer } :=
    h.mono fun _ _ _ hst ↦ ⟨hst.1.1, hst.2⟩
  have h₁ := built_run hweak rfl (by decide) fun u _ _ ↦ trivial
  have h₂ := h₁.snoc (l := SendEvent.epollOut) ⟨trivial, .epollOut rfl rfl⟩
  have h₃ := h₂.snoc (l := SendEvent.sendLeft (.accepted 3))
    ⟨⟨3, rfl⟩, .sendLeft (p := 1) rfl (by decide)⟩
  refine ⟨fresh_fresh, _, _, h₃, ?_⟩
  iterate 6 rw [packets_other rfl]
  rw [hes]
  exact ⟨rfl, by decide⟩

end Runs

end Sender

end Fantuan
