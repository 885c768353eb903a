import Fantuan.Midware.Server
import Fantuan.SimpleNetwork.SendData

/-!
# simple_worker.cpp, simple_connection.cpp — receiving

The thread of a `SimpleWorker`, which waits in `select` and calls `RecvData`, with the callbacks of
`EasyBaseClient` that are called on the way.
-/

open Lib

namespace Fantuan

/-! ## 1. The thread -/

/-- What a call of `recv` returns: between 1 and `MAX_INPUT_BUFFER` bytes, 0, or an error. -/
inductive SimpleReceived
  | bytes (data : List UInt8) (pos : 1 ≤ data.length) (le : data.length ≤ MAX_INPUT_BUFFER)
  | zero
  | SOCKET_ERROR

/-- What a call of `select` comes to: an error, a timeout, or the set that the socket is in. -/
inductive Selected
  | error
  | timeout
  | readFDs (r : SimpleReceived)
  | exceptFDs

inductive SimplePc
  | select
  | returned
  | undefined
deriving DecidableEq

/-- `buffer_` and `len_` are those of `recv_context_`; then the members of the client. -/
structure SimpleThread where
  pc : SimplePc
  connId : ConnID
  buffer_ : Storage UInt8 MAX_INPUT_BUFFER
  len_ : ℤ
  calls : List SimpleCall
  m_bReadyForShutdown : Bool
  m_CommandList : List EasyCommand

/-- `_aligned_malloc` does not fail; no result where the copy reads behind `pData`. -/
def EasyCommandOnData.CopyData (iLen : ℕ) (pData : List UInt8) : Option EasyCommandOnData :=
  if uint16 iLen ≤ pData.length then
    some ⟨pData.take (uint16 iLen), by
      rw [List.length_take]
      exact Nat.lt_of_le_of_lt (Nat.min_le_left _ _) (Nat.mod_lt _ (by decide))⟩
  else none

namespace SimpleReceived

/-- What is assigned to `len_`. -/
def recvNum : SimpleReceived → ℤ
  | bytes data _ _ => data.length
  | zero => 0
  | SOCKET_ERROR => -1

/-- The buffer after the call. -/
def into (buffer_ : Storage UInt8 MAX_INPUT_BUFFER) :
    SimpleReceived → Storage UInt8 MAX_INPUT_BUFFER
  | bytes data _ le => ⟨data ++ buffer_.data.drop data.length, by
      rw [List.length_append, List.length_drop, buffer_.length_data]
      omega⟩
  | zero => buffer_
  | SOCKET_ERROR => buffer_

end SimpleReceived

namespace SimpleThread

variable (s : SimpleThread)

/-- `EasyBaseClient::OnDisconnect`. -/
def OnDisconnect : SimpleThread :=
  if s.m_bReadyForShutdown then s
  else { s with m_CommandList := s.m_CommandList ++ [.OnDisconnect s.connId] }

/-- `EasyBaseClient::OnData`. -/
def OnData (iLen : ℕ) (pBuf : List UInt8) : SimpleThread :=
  if s.m_bReadyForShutdown then s
  else
    match EasyCommandOnData.CopyData iLen pBuf with
    | some data => { s with m_CommandList := s.m_CommandList ++ [.OnData s.connId data] }
    | none => { s with pc := .undefined }

def calling (calls : List SimpleCall) : SimpleThread := { s with calls := s.calls ++ calls }

def Close : SimpleThread := (s.calling [.closesocket, .OnDisconnect]).OnDisconnect

def RecvData (r : SimpleReceived) : SimpleThread × ℤ :=
  let s : SimpleThread := { s with buffer_ := r.into s.buffer_, len_ := r.recvNum }
  if s.len_ = 0 then (s, -1)
  else
    let iLen := (s.len_ % 2 ^ 32).toNat
    ((s.calling [.OnData iLen s.buffer_.data]).OnData iLen s.buffer_.data, 0)

/-- One turn of the loop; what `RecvData` returns is not used. -/
def turn : Selected → SimpleThread
  | .error => { s.Close with pc := .returned }
  | .timeout => s
  | .readFDs r => (s.RecvData r).1
  | .exceptFDs => { s.Close with pc := .returned }

/-- The state after the first `i` calls of `select`, as far as there are so many. -/
def run (s : SimpleThread) (ev : ℕ → Selected) : ℕ → SimpleThread
  | 0 => s
  | i + 1 => if (run s ev i).pc = .select then (run s ev i).turn (ev i) else run s ev i

/-! ## 2. Faithful, and ending once -/

/-- What is called in turn `i`. -/
def callsAt (s : SimpleThread) (ev : ℕ → Selected) (i : ℕ) : List SimpleCall :=
  (s.run ev (i + 1)).calls.drop (s.run ev i).calls.length

/-- `recv` is called in turn `i`, and returns this. -/
def Receives (s : SimpleThread) (ev : ℕ → Selected) (i : ℕ) (r : SimpleReceived) : Prop :=
  (s.run ev i).pc = .select ∧ ev i = .readFDs r

structure Right (s : SimpleThread) (ev : ℕ → Selected) : Prop where
  onData : ∀ i iLen pBuf, .OnData iLen pBuf ∈ s.callsAt ev i →
    ∃ data pos le, s.Receives ev i (.bytes data pos le) ∧ iLen = data.length ∧
      ∃ command, EasyCommandOnData.CopyData iLen pBuf = some command ∧ command.m_pData = data
  silent : ∀ i r, s.Receives ev i r → r = .zero ∨ r = .SOCKET_ERROR → ∀ j > i,
    (∀ r', ¬ s.Receives ev j r') ∧ ∀ iLen pBuf, .OnData iLen pBuf ∉ s.callsAt ev j
  once : ∀ i r, s.Receives ev i r → r = .zero ∨ r = .SOCKET_ERROR →
    ∃ j, (s.callsAt ev j).count .OnDisconnect = 1 ∧ ∀ k ≠ j, .OnDisconnect ∉ s.callsAt ev k

end SimpleThread

/-- `select` reports what `SimpleThread` returns on. -/
def Selected.Closes (e : Selected) : Prop := e = .error ∨ e = .exceptFDs

/-- `recv` returns no error, and when it returns 0 then `select` fails before the socket is readable
again. -/
def EndsInSelect (ev : ℕ → Selected) : Prop :=
  ∀ i, (∀ j < i, ¬ (ev j).Closes) → ev i ≠ .readFDs .SOCKET_ERROR ∧
    (ev i = .readFDs .zero → ∃ j > i, (ev j).Closes ∧ ∀ k, i < k → k < j → ev k = .timeout)

namespace SimpleThread

variable {s : SimpleThread} {ev : ℕ → Selected} {i j : ℕ} {r : SimpleReceived}

/-! ## 3. One turn -/

/-- What is called in a turn. -/
def callsOf (s : SimpleThread) : Selected → List SimpleCall
  | .timeout => []
  | .readFDs (.bytes data pos le) =>
      [.OnData data.length ((SimpleReceived.bytes data pos le).into s.buffer_).data]
  | .readFDs .zero => []
  | .readFDs .SOCKET_ERROR => [.OnData (2 ^ 32 - 1) s.buffer_.data]
  | _ => [.closesocket, .OnDisconnect]

theorem calls_onDisconnect : s.OnDisconnect.calls = s.calls := by
  unfold OnDisconnect
  split <;> rfl

theorem calls_onData (iLen : ℕ) (pBuf : List UInt8) : (s.OnData iLen pBuf).calls = s.calls := by
  unfold OnData
  split
  · rfl
  · split <;> rfl

-- What `recv` has stored is passed on with its length.
theorem turn_bytes (data : List UInt8) (pos : 1 ≤ data.length)
    (le : data.length ≤ MAX_INPUT_BUFFER) :
    ∃ t : SimpleThread, t.pc = s.pc ∧
      t.calls = s.calls ++ s.callsOf (.readFDs (.bytes data pos le)) ∧
      s.turn (.readFDs (.bytes data pos le)) =
        t.OnData data.length ((SimpleReceived.bytes data pos le).into s.buffer_).data := by
  have hne : ¬ (data.length : ℤ) = 0 := by omega
  have hmax : MAX_INPUT_BUFFER = 1024 := rfl
  have hlen : ((data.length : ℤ) % 2 ^ 32).toNat = data.length := by omega
  refine ⟨({ s with
    buffer_ := (SimpleReceived.bytes data pos le).into s.buffer_
    len_ := data.length } : SimpleThread).calling
      (s.callsOf (.readFDs (.bytes data pos le))), rfl, rfl, ?_⟩
  simp only [turn, RecvData, SimpleReceived.recvNum, hne, if_false, hlen, callsOf]

theorem calls_turn (e : Selected) : (s.turn e).calls = s.calls ++ s.callsOf e := by
  cases e with
  | error => exact calls_onDisconnect
  | timeout => exact (List.append_nil _).symm
  | readFDs r =>
      cases r with
      | bytes data pos le =>
          obtain ⟨t, -, hcalls, hturn⟩ := turn_bytes (s := s) data pos le
          rw [hturn, calls_onData, hcalls]
      | zero => exact (List.append_nil _).symm
      | SOCKET_ERROR => exact calls_onData _ _
  | exceptFDs => exact calls_onDisconnect

-- The copy of what was just received.
theorem copyData_into (data : List UInt8) (pos : 1 ≤ data.length)
    (le : data.length ≤ MAX_INPUT_BUFFER) (buffer_ : Storage UInt8 MAX_INPUT_BUFFER) :
    ∃ command, EasyCommandOnData.CopyData data.length
        ((SimpleReceived.bytes data pos le).into buffer_).data = some command ∧
      command.m_pData = data := by
  have hint : uint16 data.length = data.length := uint16_of_lt (Nat.lt_of_le_of_lt le (by decide))
  have hle : uint16 data.length ≤
      ((SimpleReceived.bytes data pos le).into buffer_).data.length := by
    rw [hint, Storage.length_data]
    exact le
  refine ⟨_, if_pos hle, ?_⟩
  show (data ++ buffer_.data.drop data.length).take (uint16 data.length) = data
  rw [hint, List.take_left]

theorem pc_turn_of_closes {e : Selected} (h : e.Closes) : (s.turn e).pc = .returned := by
  obtain rfl | rfl := h
  · rfl
  · rfl

-- The thread goes on.
theorem pc_turn {e : Selected} (h : ¬ e.Closes) (herror : e ≠ .readFDs .SOCKET_ERROR) :
    (s.turn e).pc = s.pc := by
  cases e with
  | error => exact absurd (.inl rfl) h
  | timeout => rfl
  | readFDs r =>
      cases r with
      | bytes data pos le =>
          obtain ⟨t, hpc, -, hturn⟩ := turn_bytes (s := s) data pos le
          obtain ⟨command, hcopy, -⟩ := copyData_into data pos le s.buffer_
          rw [hturn, OnData, hcopy, ← hpc]
          split <;> rfl
      | zero => rfl
      | SOCKET_ERROR => exact absurd rfl herror
  | exceptFDs => exact absurd (.inr rfl) h

-- An error is copied as 65535 bytes.
theorem pc_turn_error (h : s.m_bReadyForShutdown = false) :
    (s.turn (.readFDs .SOCKET_ERROR)).pc = .undefined := by
  have hlen : ¬ uint16 (2 ^ 32 - 1) ≤ s.buffer_.data.length := by
    rw [s.buffer_.length_data]
    decide
  have hcopy : EasyCommandOnData.CopyData (2 ^ 32 - 1) s.buffer_.data = none := if_neg hlen
  show (OnData _ (2 ^ 32 - 1) s.buffer_.data).pc = _
  simp only [OnData, calling, h, hcopy]
  rfl

/-! ## 4. Runs -/

theorem run_succ (h : (s.run ev i).pc = .select) :
    s.run ev (i + 1) = (s.run ev i).turn (ev i) :=
  if_pos h

theorem run_succ_of_ended (h : (s.run ev i).pc ≠ .select) : s.run ev (i + 1) = s.run ev i :=
  if_neg h

theorem callsAt_of_select (h : (s.run ev i).pc = .select) :
    s.callsAt ev i = (s.run ev i).callsOf (ev i) := by
  rw [callsAt, run_succ h, calls_turn, List.drop_left]

theorem callsAt_of_ended (h : (s.run ev i).pc ≠ .select) : s.callsAt ev i = [] := by
  rw [callsAt, run_succ_of_ended h, List.drop_length]

theorem select_of_succ (h : (s.run ev (i + 1)).pc = .select) :
    (s.run ev i).pc = .select ∧ ¬ (ev i).Closes := by
  by_cases hi : (s.run ev i).pc = .select
  · refine ⟨hi, fun hcloses ↦ ?_⟩
    rw [run_succ hi, pc_turn_of_closes hcloses] at h
    exact nomatch h
  · rw [run_succ_of_ended hi] at h
    exact absurd h hi

-- A thread that is still running has not come to anything that ends it.
theorem select_of_lt (h : (s.run ev j).pc = .select) (hij : i < j) :
    (s.run ev i).pc = .select ∧ ¬ (ev i).Closes := by
  induction j with
  | zero => exact absurd hij (Nat.not_lt_zero i)
  | succ j ih =>
      have hlast := select_of_succ h
      cases Nat.lt_or_eq_of_le (Nat.le_of_lt_succ hij) with
      | inl hlt => exact ih hlast.1 hlt
      | inr heq => exact heq ▸ hlast

theorem select_of_forall (hs : s.pc = .select)
    (h : ∀ j < i, ¬ (ev j).Closes ∧ ev j ≠ .readFDs .SOCKET_ERROR) :
    (s.run ev i).pc = .select := by
  induction i with
  | zero => exact hs
  | succ i ih =>
      have hi := ih fun j hj ↦ h j (Nat.lt_succ_of_lt hj)
      have hlast := h i (Nat.lt_succ_self i)
      rw [run_succ hi, pc_turn hlast.1 hlast.2]
      exact hi

-- `OnDisconnect` is called where the thread returns, once.
theorem onDisconnect_mem (h : .OnDisconnect ∈ s.callsAt ev i) :
    (s.run ev i).pc = .select ∧ (ev i).Closes := by
  by_cases hi : (s.run ev i).pc = .select
  · refine ⟨hi, ?_⟩
    rw [callsAt_of_select hi] at h
    cases he : ev i with
    | error => exact .inl rfl
    | timeout =>
        rw [he] at h
        exact nomatch h
    | readFDs r =>
        rw [he] at h
        cases r <;> simp [callsOf] at h
    | exceptFDs => exact .inr rfl
  · rw [callsAt_of_ended hi] at h
    exact nomatch h

theorem callsAt_of_closes (hi : (s.run ev i).pc = .select) (h : (ev i).Closes) :
    s.callsAt ev i = [.closesocket, .OnDisconnect] := by
  rw [callsAt_of_select hi]
  cases h with
  | inl herror => rw [herror]; rfl
  | inr hexcept => rw [hexcept]; rfl

-- `OnData` is called where `recv` has not returned 0.
theorem onData_mem {iLen : ℕ} {pBuf : List UInt8} (h : .OnData iLen pBuf ∈ s.callsAt ev i) :
    ∃ r, s.Receives ev i r ∧ r ≠ .zero ∧
      ∀ data pos le, r = .bytes data pos le → iLen = data.length ∧
        pBuf = (r.into (s.run ev i).buffer_).data := by
  by_cases hi : (s.run ev i).pc = .select
  · rw [callsAt_of_select hi] at h
    cases he : ev i with
    | error | timeout | exceptFDs =>
        rw [he] at h
        simp [callsOf] at h
    | readFDs r =>
        rw [he] at h
        refine ⟨r, ⟨hi, he⟩, ?_, ?_⟩
        · rintro rfl
          exact nomatch h
        · rintro data pos le rfl
          simpa [callsOf] using h
  · rw [callsAt_of_ended hi] at h
    exact nomatch h

/-! ## 5. When it is right -/

-- An error reaches `OnData` as 2^32 - 1 bytes.
theorem not_right_of_error (h : s.Receives ev i .SOCKET_ERROR) : ¬ s.Right ev := by
  intro hright
  have hcall : .OnData (2 ^ 32 - 1) (s.run ev i).buffer_.data ∈ s.callsAt ev i := by
    rw [callsAt_of_select h.1, h.2]
    exact List.mem_singleton_self _
  obtain ⟨data, pos, le, hbytes, -⟩ := hright.onData i _ _ hcall
  exact nomatch h.2.symm.trans hbytes.2

-- A thread that is right goes on until `select` fails.
theorem Right.select (h : s.Right ev) (hs : s.pc = .select) (hi : ∀ j < i, ¬ (ev j).Closes) :
    (s.run ev i).pc = .select := by
  induction i with
  | zero => exact hs
  | succ i ih =>
      have hselect := ih fun j hj ↦ hi j (Nat.lt_succ_of_lt hj)
      have hne : ev i ≠ .readFDs .SOCKET_ERROR := fun he ↦ not_right_of_error ⟨hselect, he⟩ h
      rw [run_succ hselect, pc_turn (hi i (Nat.lt_succ_self i)) hne]
      exact hselect

theorem endsInSelect_of_right (hs : s.pc = .select) (h : s.Right ev) : EndsInSelect ev := by
  intro i hi
  have hselect := h.select hs hi
  refine ⟨fun he ↦ not_right_of_error ⟨hselect, he⟩ h, fun he ↦ ?_⟩
  have hreceives : s.Receives ev i .zero := ⟨hselect, he⟩
  obtain ⟨j, hcount, -⟩ := h.once i .zero hreceives (.inl rfl)
  have hmem : .OnDisconnect ∈ s.callsAt ev j := List.count_pos_iff.mp (by omega)
  obtain ⟨hj, hcloses⟩ := onDisconnect_mem hmem
  have hij : i < j := by
    by_contra hle
    cases Nat.lt_or_eq_of_le (Nat.le_of_not_lt hle) with
    | inl hlt => exact hi j hlt hcloses
    | inr heq =>
        rw [heq, he] at hcloses
        cases hcloses <;> contradiction
  refine ⟨j, hij, hcloses, fun k hik hkj ↦ ?_⟩
  -- the thread is still running, and is not to call `recv` again
  have hk := select_of_lt hj hkj
  cases hek : ev k with
  | error => exact absurd (.inl hek) hk.2
  | timeout => rfl
  | readFDs r => exact absurd ⟨hk.1, hek⟩ ((h.silent i .zero hreceives (.inl rfl) k hik).1 r)
  | exceptFDs => exact absurd (.inr hek) hk.2

section Ends

variable (h : EndsInSelect ev)
include h

-- A call of `recv` that ends the stream has returned 0, and the thread returns next.
theorem ends_next (hr : s.Receives ev i r) (hend : r = .zero ∨ r = .SOCKET_ERROR) :
    ∃ j > i, (ev j).Closes ∧ ∀ k, i < k → k < j → ev k = .timeout := by
  have hi := h i fun j hj ↦ (select_of_lt hr.1 hj).2
  cases hend with
  | inl hzero => exact hi.2 (hzero ▸ hr.2)
  | inr herror => exact absurd (herror ▸ hr.2) hi.1

-- Until then the thread is running, and afterwards it has returned.
theorem select_until (hs : s.pc = .select) (hclosed : ∀ k < j, ¬ (ev k).Closes) :
    (s.run ev j).pc = .select :=
  select_of_forall hs fun k hk ↦
    ⟨hclosed k hk, (h k fun m hm ↦ hclosed m (Nat.lt_trans hm hk)).1⟩

theorem right_of_endsInSelect (hs : s.pc = .select) : s.Right ev where
  onData i iLen pBuf hcall := by
    obtain ⟨r, hr, hne, hlen⟩ := onData_mem hcall
    have hi := h i fun j hj ↦ (select_of_lt hr.1 hj).2
    cases r with
    | bytes data pos le =>
        obtain ⟨rfl, rfl⟩ := hlen data pos le rfl
        exact ⟨data, pos, le, hr, rfl, copyData_into data pos le _⟩
    | zero => exact absurd rfl hne
    | SOCKET_ERROR => exact absurd hr.2 hi.1
  silent i r hr hend j hij := by
    obtain ⟨m, him, hcloses, htimeout⟩ := ends_next h hr hend
    have hquiet : ∀ r', ¬ s.Receives ev j r' := by
      intro r' hr'
      cases Nat.lt_trichotomy j m with
      | inl hlt => exact nomatch (htimeout j hij hlt).symm.trans hr'.2
      | inr hge =>
          cases hge with
          | inl heq =>
              rw [← heq, hr'.2] at hcloses
              cases hcloses <;> contradiction
          | inr hgt => exact (select_of_lt hr'.1 hgt).2 hcloses
    refine ⟨hquiet, fun iLen pBuf hcall ↦ ?_⟩
    obtain ⟨r', hr', -⟩ := onData_mem hcall
    exact hquiet r' hr'
  once i r hr hend := by
    obtain ⟨m, him, hcloses, htimeout⟩ := ends_next h hr hend
    have hbefore : ∀ k < m, ¬ (ev k).Closes := by
      intro k hk hck
      cases Nat.lt_trichotomy k i with
      | inl hlt => exact (select_of_lt hr.1 hlt).2 hck
      | inr hge =>
          cases hge with
          | inl heq =>
              rw [heq, hr.2] at hck
              cases hck <;> contradiction
          | inr hgt =>
              rw [htimeout k hgt hk] at hck
              cases hck <;> contradiction
    have hm := select_until h hs hbefore
    refine ⟨m, ?_, fun k hk hmem ↦ ?_⟩
    · rw [callsAt_of_closes hm hcloses]
      rfl
    · obtain ⟨hk', hck⟩ := onDisconnect_mem hmem
      cases Nat.lt_or_gt_of_ne hk with
      | inl hlt => exact hbefore k hlt hck
      | inr hgt => exact (select_of_lt hk' hgt).2 hcloses

end Ends

/-- **The receive loop is faithful and stops** if and only if no call of `recv` returns an error
and, after one that returns 0, `select` fails before the socket is readable again. -/
theorem loop_faithful_iff (s : SimpleThread) (hs : s.pc = .select) (ev : ℕ → Selected) :
    s.Right ev ↔ EndsInSelect ev :=
  ⟨endsInSelect_of_right hs, fun h ↦ right_of_endsInSelect h hs⟩

/-- A client before its first call of `select`. -/
def connected : SimpleThread :=
  ⟨.select, 0, .replicate MAX_INPUT_BUFFER 0, 0, [], false, []⟩

/-- Two bytes, the end of the stream, a timeout, and then the connection is lost. -/
def lost : ℕ → Selected
  | 0 => .readFDs (.bytes [1, 2] (by decide) (by decide))
  | 1 => .readFDs .zero
  | 2 => .timeout
  | _ => .error

theorem right_lost : connected.Right lost := by
  refine (loop_faithful_iff connected rfl lost).mpr fun i hi ↦ ?_
  match i with
  | 0 => exact ⟨nofun, nofun⟩
  | 1 =>
      refine ⟨nofun, fun _ ↦ ⟨3, by decide, .inl rfl, fun k hlt hgt ↦ ?_⟩⟩
      have hk : k = 2 := by omega
      rw [hk]
      rfl
  | 2 => exact ⟨nofun, nofun⟩
  | i + 3 => exact ⟨nofun, nofun⟩

/-- The peer closes the connection: `recv` returns 0 in every turn, and nobody is told.  The
connection is reset: 65535 bytes are copied from a buffer of 1024. -/
theorem not_right :
    (¬ connected.Right fun _ ↦ .readFDs .zero) ∧
      (¬ connected.Right fun _ ↦ .readFDs .SOCKET_ERROR) ∧
      (connected.run (fun _ ↦ .readFDs .SOCKET_ERROR) 1).pc = .undefined := by
  refine ⟨fun h ↦ ?_, not_right_of_error (i := 0) ⟨rfl, rfl⟩, ?_⟩
  · obtain ⟨j, -, hcloses, -⟩ := (endsInSelect_of_right rfl h 0 nofun).2 rfl
    cases hcloses <;> contradiction
  · rw [run_succ (i := 0) rfl]
    exact pc_turn_error rfl

end SimpleThread

end Fantuan
