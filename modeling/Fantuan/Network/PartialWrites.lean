import Fantuan.Lib.Runs
import Fantuan.Network.Send

/-!
# One message under partial writes (Linux)

The cursor of a message is `buffer_` and `len_` while `SendMessage(len, buffer)` sends, and `p` and
`total` in `SendMessage()`, which starts from `buffer_` and `len_` every time.  It keeps its place
in the message as long as no call of `send` ends in a way that its loop does not handle.
-/

open Lib

namespace Fantuan

namespace Sender

/-! ## 1. Outcomes that are handled -/

/-- One call of `SendMessage(len, buffer)`, and calls of `SendMessage()` once it has returned. -/
def OneCall (s : Sender) (e : SendEvent) : Prop :=
  (∀ r, e ≠ .SendData r) ∧ (e = .epollOut → s.command = .idle)

/-- Nothing was accepted in `SendMessage()`. -/
def Unflushed (es : List SendEvent) : Prop := ∀ k, .sendLeft (.accepted k) ∉ es

/-- `SendMessage(len, buffer)` has no branch for `EINTR` and other errors, `SendMessage()` takes
`EAGAIN` for success, and what it sent before another error it sends again. -/
def Handled (before : List SendEvent) (e : SendEvent) : Prop :=
  match e with
  | .send o => o ≠ .EINTR ∧ o ≠ .error
  | .sendLeft o => o ≠ .EAGAIN
  | .epollOut => Unflushed before
  | _ => True

/-- `SendMessage(len, buffer)` has come to its loop. -/
structure Called (s : Sender) (len : ℕ) : Prop where
  command : s.command = .sending
  worker : s.worker = .idle
  accepted : s.accepted = []
  len_ : s.len_ = int32 len

/-- The bytes that the arguments of `SendMessage(len, buffer)` stand for. -/
def message (s : Sender) (len : ℕ) : List UInt8 := Memory.read s.mem s.buffer_ len

theorem Unflushed.snoc {es : List SendEvent} {e : SendEvent} (h : Unflushed es)
    (he : ∀ k, e ≠ .sendLeft (.accepted k)) : Unflushed (es ++ [e]) := by
  intro k hk
  rcases List.mem_append.mp hk with hold | hnew
  · exact h k hold
  · exact he k (List.mem_singleton.mp hnew).symm

/-! ## 2. Where the message is -/

inductive OnItsWay (m : List UInt8) (es : List SendEvent) (s : Sender) : Prop
  /-- In `SendMessage(len, buffer)`. -/
  | sending (hc : s.command = .sending) (hw : s.worker = .idle) (h : s.Owes m s.buffer_ s.len_)
      (hes : Unflushed es)
  /-- Left to the worker. -/
  | left (hc : s.command = .idle) (hw : s.worker = .idle) (h : s.Owes m s.buffer_ s.len_)
      (hes : Unflushed es)
  /-- In `SendMessage()`. -/
  | flushing {p total : ℤ} (hc : s.command = .idle) (hw : s.worker = .sending p total)
      (h : s.Owes m p total) (hlen : s.len_ ≠ 0)
      (hes : Unflushed es → p = s.buffer_ ∧ total = s.len_)
  | done (hc : s.command = .idle) (hw : s.worker = .idle) (h : s.accepted = m) (hlen : s.len_ = 0)
  /-- Given up in `SendMessage()`, the cursor is behind. -/
  | failed (hc : s.command = .idle) (hw : s.worker = .idle) (h : s.accepted <+: m)
      (hlen : s.len_ ≠ 0) (hes : ¬ Unflushed es)

namespace OnItsWay

variable {s t : Sender} {m : List UInt8} {es : List SendEvent} {e : SendEvent} {o : SendOutcome}
  {p total : ℤ}

theorem of_called {len : ℕ} (h : s.Called len) (hlen : len < 2 ^ 31) :
    OnItsWay (s.message len) [] s := by
  have hint : s.len_ = len := by
    rw [h.len_, int32_of_lt (by omega) (by omega)]
  refine .sending h.command h.worker ⟨by omega, by omega, ?_⟩ fun k ↦ List.not_mem_nil
  rw [h.accepted, hint, Int.toNat_natCast]
  rfl

theorem command (h : OnItsWay m es s) : s.command = .sending ∨ s.command = .idle := by
  cases h with
  | sending hc => exact .inl hc
  | left hc => exact .inr hc
  | flushing hc => exact .inr hc
  | done hc => exact .inr hc
  | failed hc => exact .inr hc

-- A message that is on its way has lost nothing.
theorem accepted_spec (h : OnItsWay m es s) : s.accepted <+: m ∧ (s.len_ = 0 → s.accepted = m) := by
  have hcursor : s.Owes m s.buffer_ s.len_ →
      s.accepted <+: m ∧ (s.len_ = 0 → s.accepted = m) := by
    intro hs
    refine ⟨hs.accepted_isPrefix, fun hzero ↦ ?_⟩
    rw [hzero] at hs
    exact hs.accepted_of_zero
  cases h with
  | sending _ _ h => exact hcursor h
  | left _ _ h => exact hcursor h
  | flushing _ _ h hlen => exact ⟨h.accepted_isPrefix, fun hzero ↦ absurd hzero hlen⟩
  | done _ _ h =>
      rw [h]
      exact ⟨List.prefix_refl m, fun _ ↦ rfl⟩
  | failed _ _ h hlen => exact ⟨h, fun hzero ↦ absurd hzero hlen⟩

theorem send (h : OnItsWay m es s) (hc : s.command = .sending) (ho : o.Possible s.len_)
    (he : Handled es (.send o)) : OnItsWay m (es ++ [.send o]) (s.SendMessage o) := by
  cases h with
  | sending _ hw h hes =>
      have hes' : Unflushed (es ++ [.send o]) := hes.snoc fun k ↦ SendEvent.noConfusion
      cases o with
      | accepted k =>
          by_cases hall : (k : ℤ) = s.len_
          · rw [SendMessage_all hall]
            exact .done rfl hw (h.accept_all ho hall) rfl
          · rw [h.SendMessage_part ho hall]
            exact .sending hc hw ((h.accept ho).congr rfl rfl) hes'
      | EAGAIN => exact .left rfl hw (h.congr rfl rfl) hes'
      | EINTR => exact absurd rfl he.1
      | error => exact absurd rfl he.2
      | zero => exact .left rfl hw (h.congr rfl rfl) hes'
  | left hc' => cases hc.symm.trans hc'
  | flushing hc' => cases hc.symm.trans hc'
  | done hc' => cases hc.symm.trans hc'
  | failed hc' => cases hc.symm.trans hc'

theorem epollOut (h : OnItsWay m es s) (hc : s.command = .idle) (hw : s.worker = .idle)
    (he : Handled es .epollOut) : OnItsWay m (es ++ [.epollOut]) s.SendLeft := by
  unfold SendLeft
  cases h with
  | sending hc' => cases hc.symm.trans hc'
  | left _ _ h hes =>
      split
      · exact .left hc hw h (hes.snoc fun k ↦ SendEvent.noConfusion)
      · rename_i hlen
        exact .flushing hc rfl (h.congr rfl rfl) hlen fun _ ↦ ⟨rfl, rfl⟩
  | flushing _ hw' => cases hw.symm.trans hw'
  | done _ _ h hlen =>
      rw [if_pos hlen]
      exact .done hc hw h hlen
  | failed _ _ _ _ hes => exact absurd he hes

-- `SendMessage()` ends before everything is sent.
theorem stop (h : s.Owes m p total) (hc : s.command = .idle) (hlen : s.len_ ≠ 0)
    (hes : Unflushed es → p = s.buffer_ ∧ total = s.len_) (he : ∀ k, e ≠ .sendLeft (.accepted k)) :
    OnItsWay m (es ++ [e]) { s with sem_ := s.sem_ + 1, worker := .idle } := by
  -- nothing was accepted in the call, or the cursor is behind what was
  by_cases hold : Unflushed es
  · have hback := hes hold
    rw [hback.1, hback.2] at h
    exact .left hc rfl (h.congr rfl rfl) (hold.snoc he)
  · exact .failed hc rfl h.accepted_isPrefix hlen fun hnew ↦
      hold fun k hk ↦ hnew k (List.mem_append_left [e] hk)

theorem sendLeft (h : OnItsWay m es s) (hw : s.worker = .sending p total) (ho : o.Possible total)
    (he : Handled es (.sendLeft o)) :
    OnItsWay m (es ++ [.sendLeft o]) (s.SendLeftLoop p total o) := by
  cases h with
  | sending _ hw' => cases hw.symm.trans hw'
  | left _ hw' => cases hw.symm.trans hw'
  | flushing hc hw' h hlen hes =>
      cases hw.symm.trans hw'
      cases o with
      | accepted k =>
          by_cases hall : (k : ℤ) = total
          · rw [SendLeftLoop_all hall]
            exact .done hc rfl (h.accept_all ho hall) rfl
          · rw [h.SendLeftLoop_part ho hall]
            -- `p` and `total` go on without `buffer_` and `len_`
            refine .flushing hc rfl ((h.accept ho).congr rfl rfl) hlen fun hnew ↦ ?_
            exact absurd (List.mem_append_right es (List.mem_singleton_self _)) (hnew k)
      | EAGAIN => exact absurd rfl he
      | EINTR =>
          refine .flushing hc hw h hlen fun hnew ↦ ?_
          exact hes fun k hk ↦ hnew k (List.mem_append_left _ hk)
      | error => exact stop h hc hlen hes fun k hk ↦ nomatch hk
      | zero => exact stop h hc hlen hes fun k hk ↦ nomatch hk
  | done _ hw' => cases hw.symm.trans hw'
  | failed _ hw' => cases hw.symm.trans hw'

theorem step (h : OnItsWay m es s) (he : Handled es e) (hst : Guarded OneCall Step s e t) :
    OnItsWay m (es ++ [e]) t := by
  have hcommand : ∀ {pc : CommandPc}, s.command = pc → pc = .sending ∨ pc = .idle := by
    rintro pc rfl
    exact h.command
  cases hst.2 with
  | @SendData r => exact absurd rfl (hst.1.1 r)
  | send hc ho => exact h.send hc ho he
  | epollOut hw => exact h.epollOut (hst.1.2 rfl) hw he
  | sendLeft hw ho => exact h.sendLeft hw ho he
  -- the command thread is in `SendMessage(len, buffer)` or has returned from it
  | m_iLen hc => cases hcommand hc <;> contradiction
  | m_iTypeId hc => cases hcommand hc <;> contradiction
  | memcpy hc => cases hcommand hc <;> contradiction
  | overrun hc => cases hcommand hc <;> contradiction
  | call hc => cases hcommand hc <;> contradiction
  | sem_wait hc => cases hcommand hc <;> contradiction
  | undefined hc => cases hcommand hc <;> contradiction

end OnItsWay

/-! ## 3. All orders of outcomes -/

/-- As long as every outcome of `send` is one that its loop handles, what the socket has accepted is
a prefix of the message, and `len_` is not 0 before it is the whole message. -/
theorem sent_of_handled (s t : Sender) (len : ℕ) (es : List SendEvent) (hs : s.Called len)
    (hlen : len < 2 ^ 31) (h : Path (Guarded OneCall Step) s es t) (hes : Each Handled es) :
    t.accepted <+: s.message len ∧ (t.len_ = 0 → t.accepted = s.message len) := by
  have hway : OnItsWay (s.message len) es t :=
    h.invariant hes (OnItsWay.of_called hs hlen) fun _ _ _ _ _ hI he hst ↦ hI.step he hst
  exact hway.accepted_spec

section Runs

variable {s t : Sender} {es : List SendEvent}

/-- In front of the loop of `SendMessage(len, buffer)`, with a message at address 0. -/
def atLoop (l : List UInt8) : Sender :=
  ⟨Memory.write (fun _ ↦ 0) 0 l, 0, 0, l.length, 0, false, [], .sending, .idle⟩

theorem called_atLoop {l : List UInt8} (h : l.length < 2 ^ 31) : (atLoop l).Called l.length :=
  ⟨rfl, rfl, rfl, (int32_of_lt (n := l.length) (by omega) (by omega)).symm⟩

theorem send_run {o : SendOutcome} (h : Path (Guarded OneCall Step) s es t)
    (hc : t.command = .sending) (ho : o.Possible t.len_) :
    Path (Guarded OneCall Step) s (es ++ [.send o]) (t.SendMessage o) :=
  h.snoc ⟨⟨nofun, nofun⟩, .send hc ho⟩

theorem flush_run (h : Path (Guarded OneCall Step) s es t) (hc : t.command = .idle)
    (hw : t.worker = .idle) (harmed : t.armed = true) :
    Path (Guarded OneCall Step) s (es ++ [.epollOut]) t.SendLeft :=
  h.snoc ⟨⟨nofun, fun _ ↦ hc⟩, .epollOut hw harmed⟩

theorem sendLeft_run {o : SendOutcome} {p total : ℤ} (h : Path (Guarded OneCall Step) s es t)
    (hw : t.worker = .sending p total) (ho : o.Possible total) :
    Path (Guarded OneCall Step) s (es ++ [.sendLeft o]) (t.SendLeftLoop p total o) :=
  h.snoc ⟨⟨nofun, nofun⟩, .sendLeft hw ho⟩

/-- One byte, and the other two when the socket takes more. -/
theorem sent_in_two_parts :
    ∃ es t, Path (Guarded OneCall Step) (atLoop [7, 8, 9]) es t ∧ t.len_ = 0 ∧
      t.accepted <+: (atLoop [7, 8, 9]).message 3 ∧
      (t.len_ = 0 → t.accepted = (atLoop [7, 8, 9]).message 3) := by
  have h₁ := send_run (o := .accepted 1) (Path.nil (s := atLoop [7, 8, 9])) rfl (by decide)
  have h₂ := send_run (o := .EAGAIN) h₁ rfl trivial
  have h₃ := flush_run h₂ rfl rfl rfl
  have h₄ := sendLeft_run (o := .accepted 2) (p := 1) h₃ rfl (by decide)
  have hcalled : (atLoop [7, 8, 9]).Called 3 := called_atLoop (l := [7, 8, 9]) (by decide)
  refine ⟨_, _, h₄, rfl, sent_of_handled _ _ 3 _ hcalled (by decide) h₄ ?_⟩
  rw [each_snoc, each_snoc, each_snoc, each_snoc]
  simp [each_nil, Handled, Unflushed]

/-- An `EINTR` moves the cursor one byte back; an `EAGAIN` in `SendMessage()` is taken for success;
what is sent in `SendMessage()` before an error is sent again. -/
theorem not_sent :
    (∃ s t es, s.Called 1 ∧ Path (Guarded OneCall Step) s es t ∧ ¬ t.accepted <+: s.message 1) ∧
      (∃ s t es, s.Called 2 ∧ Path (Guarded OneCall Step) s es t ∧
        t.len_ = 0 ∧ t.accepted ≠ s.message 2) ∧
      ∃ s t es, s.Called 2 ∧ Path (Guarded OneCall Step) s es t ∧
        ¬ t.accepted <+: s.message 2 := by
  have hone : (atLoop [7]).Called 1 := called_atLoop (l := [7]) (by decide)
  have htwo : (atLoop [7, 8]).Called 2 := called_atLoop (l := [7, 8]) (by decide)
  -- 7, with a 0 in front of it in memory
  have h₁ := send_run (o := .EINTR) (Path.nil (s := atLoop [7])) rfl (by decide)
  have h₂ := send_run (o := .accepted 2) h₁ rfl (by decide)
  -- 7 and 8 are left to the worker
  have h₃ := send_run (o := .EAGAIN) (Path.nil (s := atLoop [7, 8])) rfl (by decide)
  have h₄ := flush_run h₃ rfl rfl rfl
  have h₅ := sendLeft_run (o := .EAGAIN) (p := 0) h₄ rfl (by decide)
  have h₆ := sendLeft_run (o := .accepted 1) (p := 0) h₄ rfl (by decide)
  have h₇ := sendLeft_run (o := .error) (p := 1) h₆ rfl (by decide)
  have h₈ := flush_run h₇ rfl rfl rfl
  have h₉ := sendLeft_run (o := .accepted 2) (p := 0) h₈ rfl (by decide)
  exact ⟨⟨_, _, _, hone, h₂, by decide⟩, ⟨_, _, _, htwo, h₅, rfl, by decide⟩,
    ⟨_, _, _, htwo, h₉, by decide⟩⟩

end Runs

end Sender

end Fantuan
