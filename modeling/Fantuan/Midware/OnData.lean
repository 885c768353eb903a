import Fantuan.Midware.Session

/-!
# OnData — what one call does to a stream

The specification of one call of `EasySession::OnData` in terms of bytes: `B` are the bytes buffered
before the call and `c` the chunk.  One call goes one of three ways (`onData_outcome`): it makes a
copy that is not inside `m_RecvBuf`, or it turns round in the inner loop forever, or it returns,
having cut `B ++ c` into packets as `packetFraming` does.  Which way it goes depends on `B` and `c`
alone.
-/

open Lib StateTransition

namespace Fantuan

open OnData EasySession

/-! ## 1. When the copies stay inside the buffer -/

/-- By how much `B` and `c` together exceed `m_RecvBuf`, which is how much `OnData` then copies
first. -/
def excess (B c : List UInt8) : ℕ := B.length + c.length - MAX_INPUT_BUFFER

theorem excess_eq (B c : List UInt8) : excess B c = B.length + c.length - MAX_INPUT_BUFFER := rfl

-- unfolding it makes the unifier count down from `MAX_INPUT_BUFFER`
attribute [irreducible] excess

/-- Every copy of a call with `B` buffered and the chunk `c` has room in `m_RecvBuf`: either all of
`c` does, or the excess does and, unless handling the packets then does not come to an end, the
same holds of what is buffered after it and of the rest of the chunk. -/
def CopiesFit (B c : List UInt8) : Prop :=
  if B.length + c.length ≤ MAX_INPUT_BUFFER then True
  else if B.length + excess B c ≤ MAX_INPUT_BUFFER then
    packetFraming.Stuck (B ++ c.take (excess B c)) ∨
      CopiesFit (packetFraming.rest (B ++ c.take (excess B c))) (c.drop (excess B c))
  else False
termination_by c.length
decreasing_by
  have hex := excess_eq B c
  rw [List.length_drop]
  omega

theorem copiesFit_of_le {B c : List UInt8} (h : B.length + c.length ≤ MAX_INPUT_BUFFER) :
    CopiesFit B c := by
  rw [CopiesFit, if_pos h]
  trivial

theorem copiesFit_of_excess {B c : List UInt8} (h : MAX_INPUT_BUFFER < B.length + c.length) :
    CopiesFit B c ↔
      B.length + excess B c ≤ MAX_INPUT_BUFFER ∧
        (packetFraming.Stuck (B ++ c.take (excess B c)) ∨
          CopiesFit (packetFraming.rest (B ++ c.take (excess B c))) (c.drop (excess B c))) := by
  rw [CopiesFit, if_neg (by omega)]
  split
  · rename_i hroom
    rw [and_iff_right hroom]
  · rename_i hroom
    exact ⟨False.elim, fun h ↦ hroom h.1⟩

theorem copyLen_of_le {r n : ℕ} (h : r + n ≤ MAX_INPUT_BUFFER) : copyLen r n = n := by
  unfold copyLen
  rw [uint32_of_lt (Nat.lt_of_le_of_lt h (by decide)), if_pos h]

-- For the lengths that a command can carry nothing wraps.
theorem copyLen_of_lt {r n : ℕ} (h : MAX_INPUT_BUFFER < r + n) (hr : r ≤ MAX_INPUT_BUFFER)
    (hn : n < 2 ^ 16) : copyLen r n = r + n - MAX_INPUT_BUFFER := by
  have hmax : MAX_INPUT_BUFFER = 1024 := rfl
  unfold copyLen
  rw [uint32_of_lt (by omega), if_neg (by omega), uint16_of_lt (by omega)]

-- A chunk that fits is copied whole, and changes nothing behind it.
theorem RecvBuffer.copyIn_of_le {b : RecvBuffer} {c : List UInt8}
    (h : b.m_iRecvBufLen + c.length ≤ MAX_INPUT_BUFFER) :
    ∃ m, b.copyIn c = some (⟨b.m_iRecvBufLen + c.length, m⟩, []) ∧
      m.data = b.m_RecvBuf.data.take b.m_iRecvBufLen ++ c ++
        b.m_RecvBuf.data.drop (b.m_iRecvBufLen + c.length) := by
  cases hm : b.m_RecvBuf.memcpy b.m_iRecvBufLen c c.length with
  | none =>
      rw [Storage.memcpy_eq_none] at hm
      omega
  | some m =>
      rcases Storage.memcpy_eq_some.mp hm with ⟨-, -, hdata⟩
      rw [List.take_length] at hdata
      refine ⟨m, ?_, hdata⟩
      rw [b.copyIn_eq, copyLen_of_le h, hm, Option.map_some,
        uint16_of_lt (Nat.lt_of_le_of_lt h (by decide)), List.drop_length]

/-! ## 2. One step -/

section Steps

variable {b b' : RecvBuffer} {R : List UInt8} {h : List EasyPacket} {n : ℕ}

theorem step_copy_some (hc : b.copyIn R = some (b', c)) :
    step _HandlePacket ⟨.copy, b, R, h⟩ = some ⟨.cut, b', c, h⟩ := by
  simp only [step, hc]

theorem step_copy_none (hc : b.copyIn R = none) :
    step _HandlePacket ⟨.copy, b, R, h⟩ = some ⟨.undefined, b, R, h⟩ := by
  simp only [step, hc]

theorem dispatches_iff (hmax : b.m_iRecvBufLen ≤ MAX_INPUT_BUFFER) :
    Dispatches ⟨.cut, b, R, h⟩ ↔
      ∃ n, packetFraming.frameLen b.buffered = some n ∧ n ≤ b.m_iRecvBufLen := by
  have hlen := b.length_buffered hmax
  unfold Dispatches
  constructor
  · rintro ⟨hhead, hfull⟩
    rw [b.iFullLength_data hhead hmax] at hfull
    exact ⟨_, frameLen_of_le (by rwa [hlen]), hfull⟩
  · rintro ⟨n, hn, hle⟩
    obtain ⟨hhead, rfl⟩ := frameLen_eq_some.mp hn
    rw [hlen] at hhead
    exact ⟨hhead, by rwa [b.iFullLength_data hhead hmax]⟩

-- A turn of the inner loop that handles a packet drops `iFullLength` bytes.
theorem step_cut_dispatch (hmax : b.m_iRecvBufLen ≤ MAX_INPUT_BUFFER)
    (hn : packetFraming.frameLen b.buffered = some n) (hle : n ≤ b.m_iRecvBufLen) :
    ∃ b', step _HandlePacket ⟨.cut, b, R, h⟩ =
        some ⟨.cut, b', R, h ++ [EasyPacket.ofBytes b.m_RecvBuf.data]⟩ ∧
      b'.m_iRecvBufLen = b.m_iRecvBufLen - n ∧ b'.buffered = b.buffered.drop n := by
  have hd : Dispatches ⟨.cut, b, R, h⟩ := (dispatches_iff hmax).mpr ⟨n, hn, hle⟩
  have hfull : iFullLength b.m_RecvBuf.data = n :=
    (b.iFullLength_data hd.1 hmax).trans (frameLen_eq_some.mp hn).2
  obtain ⟨b', hcut, hlen, hbuf⟩ := b.cutOut_spec hmax hle
  refine ⟨b', ?_, hlen, hbuf⟩
  simp only [step, if_pos hd, hfull, hcut]
  rw [if_neg (by simp [_HandlePacket])]

theorem step_cut_leave {s : State} (hpc : s.pc = .cut) (hd : ¬ Dispatches s) :
    step _HandlePacket s = some (leave s) := by
  simp only [step, hpc, if_neg hd]

-- Where the inner loop stops, no whole packet is buffered.
theorem front_of_not_dispatches (hmax : b.m_iRecvBufLen ≤ MAX_INPUT_BUFFER)
    (hd : ¬ Dispatches ⟨.cut, b, R, h⟩) :
    packetFraming.front b.buffered = none ∧ packetFraming.frameLen b.buffered ≠ some 0 := by
  rw [dispatches_iff hmax, not_exists] at hd
  refine ⟨?_, fun h0 ↦ hd 0 ⟨h0, Nat.zero_le _⟩⟩
  cases hf : packetFraming.front b.buffered with
  | none => rfl
  | some n =>
      obtain ⟨hn, -, hle⟩ := packetFraming.front_eq_some.mp hf
      rw [b.length_buffered hmax] at hle
      exact absurd ⟨hn, hle⟩ (hd n)

end Steps

/-! ## 3. The inner loop -/

/-- The inner loop turns round on a header whose `iFullLength` is 0. -/
def CutStuck (t : State) : Prop :=
  t.pc = .cut ∧ t.buf.m_iRecvBufLen ≤ MAX_INPUT_BUFFER ∧ packetFraming.Stuck t.buf.buffered

theorem CutStuck.step {s : State} (hs : CutStuck s) :
    ∃ t, step _HandlePacket s = some t ∧ CutStuck t := by
  obtain ⟨pc, b, R, h⟩ := s
  obtain ⟨rfl, hmax, hstuck⟩ : pc = .cut ∧ _ := hs
  have hlen := b.length_buffered hmax
  -- either the header of length 0 is at the front, or a packet before it
  cases hf : packetFraming.front b.buffered with
  | none =>
      have h0 : packetFraming.frameLen b.buffered = some 0 := by
        rwa [Framing.Stuck, packetFraming.rest_of_front_none hf] at hstuck
      obtain ⟨b', hst, hl, hb⟩ := step_cut_dispatch (R := R) (h := h) hmax h0 (Nat.zero_le _)
      exact ⟨_, hst, rfl, by rw [hl]; exact hmax, by rw [hb]; exact hstuck⟩
  | some n =>
      obtain ⟨hn, -, hle⟩ := packetFraming.front_eq_some.mp hf
      rw [hlen] at hle
      obtain ⟨b', hst, hl, hb⟩ := step_cut_dispatch (R := R) (h := h) hmax hn hle
      refine ⟨_, hst, rfl, by rw [hl]; omega, ?_⟩
      rw [hb]
      exact (packetFraming.stuck_of_front hf).mp hstuck

-- A packet at the front whose length does not wrap is handled with exactly its own bytes.
theorem ofBytes_data_of_front {b : RecvBuffer} {n : ℕ}
    (hmax : b.m_iRecvBufLen ≤ MAX_INPUT_BUFFER) (hf : packetFraming.front b.buffered = some n)
    (hwrap : NoWrap b.buffered) :
    EasyPacket.ofBytes b.m_RecvBuf.data = EasyPacket.ofBytes (b.buffered.take n) := by
  obtain ⟨hn, -, hle⟩ := packetFraming.front_eq_some.mp hf
  obtain ⟨hhead, hfull⟩ := frameLen_eq_some.mp hn
  rw [hwrap.iFullLength_eq hhead] at hfull
  have hlen := b.length_buffered hmax
  have hP : PACKET_HEAD = 4 := rfl
  rw [b.ofBytes_data hmax (by omega), EasyPacket.ofBytes, EasyPacket.ofBytes,
    uint16At_take (by omega) hle, uint16At_take (by omega) hle, List.drop_take, List.take_take,
    Nat.min_eq_left (by omega)]

-- Unless it gets stuck, the inner loop cuts the buffered bytes into packets and leaves.
theorem cut_reaches (b : RecvBuffer) (R : List UInt8) (h : List EasyPacket)
    (hmax : b.m_iRecvBufLen ≤ MAX_INPUT_BUFFER) (hstuck : ¬ packetFraming.Stuck b.buffered) :
    ∃ b' ps, Reaches (step _HandlePacket) ⟨.cut, b, R, h⟩ (leave ⟨.cut, b', R, h ++ ps⟩) ∧
      b'.m_iRecvBufLen ≤ MAX_INPUT_BUFFER ∧ b'.buffered = packetFraming.rest b.buffered ∧
      (NoWrap b.buffered → ps = (packetFraming.frames b.buffered).map EasyPacket.ofBytes) := by
  generalize hB : b.buffered = B at hstuck
  induction B using packetFraming.cut_induction generalizing b h with
  | stop B hf =>
      -- a header of another length than 0 announces more than is buffered
      have hd : ¬ Dispatches ⟨.cut, b, R, h⟩ := by
        rw [dispatches_iff hmax, hB]
        rintro ⟨n, hn, hle⟩
        rw [Framing.Stuck, packetFraming.rest_of_front_none hf] at hstuck
        have hpos : n ≠ 0 := by
          rintro rfl
          exact hstuck hn
        have hsome : packetFraming.front B = some n :=
          packetFraming.front_eq_some.mpr
            ⟨hn, by omega, by rw [← hB, b.length_buffered hmax]; exact hle⟩
        rw [hf] at hsome
        cases hsome
      refine ⟨b, [], ?_, hmax, ?_, fun _ ↦ ?_⟩
      · rw [List.append_nil]
        exact reaches_of_step (step_cut_leave rfl hd) .refl
      · rw [hB, packetFraming.rest_of_front_none hf]
      · rw [packetFraming.frames_of_front_none hf, List.map_nil]
  | skip B n hf ih =>
      -- one turn of the loop, and the induction on what is left
      subst hB
      obtain ⟨hn, -, hle⟩ := packetFraming.front_eq_some.mp hf
      rw [b.length_buffered hmax] at hle
      obtain ⟨b₁, hst, hl, hb₁⟩ := step_cut_dispatch (R := R) (h := h) hmax hn hle
      obtain ⟨b', ps, hreach, hmax', hb', hps⟩ := ih b₁ _ (by omega) hb₁
        (fun hs ↦ hstuck ((packetFraming.stuck_of_front hf).mpr hs))
      refine ⟨b', EasyPacket.ofBytes b.m_RecvBuf.data :: ps, ?_, hmax', ?_, fun hwrap ↦ ?_⟩
      · rw [List.append_assoc] at hreach
        exact reaches_of_step hst hreach
      · rw [hb', packetFraming.rest_of_front hf]
      · rw [packetFraming.frames_of_front hf, List.map_cons,
          ofBytes_data_of_front hmax hf hwrap,
          hps ((packetFraming.always_of_front hf).mp hwrap).2]

/-! ## 4. The outer loop -/

/-- The three ways a call can go. -/
inductive Outcome (b : RecvBuffer) (c : List UInt8) (h : List EasyPacket) : Prop
  | undefined (hfit : ¬ CopiesFit b.buffered c) (t : State)
      (hreach : Reaches (step _HandlePacket) ⟨.copy, b, c, h⟩ t) (hpc : t.pc = .undefined)
  | stuck (hfit : CopiesFit b.buffered c) (hstuck : packetFraming.Stuck (b.buffered ++ c))
      (t : State) (hreach : Reaches (step _HandlePacket) ⟨.copy, b, c, h⟩ t) (ht : CutStuck t)
  | returned (hfit : CopiesFit b.buffered c) (hstuck : ¬ packetFraming.Stuck (b.buffered ++ c))
      (b' : RecvBuffer) (ps : List EasyPacket)
      (hreach : Reaches (step _HandlePacket) ⟨.copy, b, c, h⟩ ⟨.returned, b', [], h ++ ps⟩)
      (hmax : b'.m_iRecvBufLen ≤ MAX_INPUT_BUFFER)
      (hbuf : b'.buffered = packetFraming.rest (b.buffered ++ c))
      (hps : NoWrap (b.buffered ++ c) →
        ps = (packetFraming.frames (b.buffered ++ c)).map EasyPacket.ofBytes)

-- A round of the outer loop whose copy has room copies `k` bytes and goes to the inner loop.
theorem copy_reaches {b : RecvBuffer} {c : List UInt8} (h : List EasyPacket) {k : ℕ}
    (hk : copyLen b.m_iRecvBufLen c.length = k) (hkc : k ≤ c.length)
    (hroom : b.m_iRecvBufLen + k ≤ MAX_INPUT_BUFFER) :
    ∃ b', step _HandlePacket ⟨.copy, b, c, h⟩ = some ⟨.cut, b', c.drop k, h⟩ ∧
      b'.m_iRecvBufLen ≤ MAX_INPUT_BUFFER ∧ b'.buffered = b.buffered ++ c.take k := by
  subst hk
  cases hc : b.copyIn c with
  | none =>
      rw [RecvBuffer.copyIn_eq_none] at hc
      omega
  | some p =>
      obtain ⟨b', rest⟩ := p
      obtain ⟨k, rfl, -, -, hmax, hbuf, rfl⟩ := RecvBuffer.copyIn_spec hc
      exact ⟨b', step_copy_some hc, hmax, hbuf⟩

-- The whole chunk fits: one round.
theorem outcome_of_le {b : RecvBuffer} {c : List UInt8} (h : List EasyPacket)
    (hmax : b.m_iRecvBufLen ≤ MAX_INPUT_BUFFER)
    (hle : b.buffered.length + c.length ≤ MAX_INPUT_BUFFER) : Outcome b c h := by
  have hr := b.length_buffered hmax
  obtain ⟨b₁, hst, hmax₁, hb₁⟩ := copy_reaches h
    (copyLen_of_le (by omega : b.m_iRecvBufLen + c.length ≤ _)) (Nat.le_refl _) (by omega)
  rw [List.take_length] at hb₁
  rw [List.drop_length] at hst
  by_cases hs : packetFraming.Stuck (b.buffered ++ c)
  · exact .stuck (copiesFit_of_le hle) hs _ (reaches_of_step hst .refl) ⟨rfl, hmax₁, hb₁ ▸ hs⟩
  · obtain ⟨b', ps, hreach, hmax', hb', hps⟩ := cut_reaches b₁ [] h hmax₁ (hb₁ ▸ hs)
    rw [hb₁] at hb' hps
    exact .returned (copiesFit_of_le hle) hs b' ps (reaches_of_step hst hreach) hmax' hb' hps

-- A round that took `k` bytes of the chunk, so that `l` was buffered, and the call from there on
-- with what the round left of `l`.
theorem Outcome.of_round {b b' : RecvBuffer} {c l : List UInt8} {h ps : List EasyPacket} {k : ℕ}
    (hcat : l ++ c.drop k = b.buffered ++ c) (hbuf : b'.buffered = packetFraming.rest l)
    (hps : NoWrap l → ps = (packetFraming.frames l).map EasyPacket.ofBytes)
    (hreach : Reaches (step _HandlePacket) ⟨.copy, b, c, h⟩ ⟨.copy, b', c.drop k, h ++ ps⟩)
    (hfit : CopiesFit b.buffered c ↔ CopiesFit b'.buffered (c.drop k))
    (hnext : Outcome b' (c.drop k) (h ++ ps)) : Outcome b c h := by
  have hrest : packetFraming.rest (b'.buffered ++ c.drop k) =
      packetFraming.rest (b.buffered ++ c) := by
    rw [hbuf, ← packetFraming.rest_append, hcat]
  have hstuck : packetFraming.Stuck (b'.buffered ++ c.drop k) ↔
      packetFraming.Stuck (b.buffered ++ c) := by
    rw [Framing.Stuck, Framing.Stuck, hrest]
  cases hnext with
  | undefined hfit' t ht hpc =>
      exact .undefined (fun hf ↦ hfit' (hfit.mp hf)) t (hreach.trans ht) hpc
  | stuck hfit' hs t ht hcs => exact .stuck (hfit.mpr hfit') (hstuck.mp hs) t (hreach.trans ht) hcs
  | returned hfit' hs b'' ps' ht hmax hbuf' hps' =>
      rw [List.append_assoc] at ht
      refine .returned (hfit.mpr hfit') (fun h ↦ hs (hstuck.mpr h)) b'' (ps ++ ps')
        (hreach.trans ht) hmax (hbuf'.trans hrest) fun hwrap ↦ ?_
      rw [← hcat] at hwrap
      rw [← hcat, packetFraming.frames_append, List.map_append, hps hwrap.append_left]
      congr 1
      rw [hbuf] at hps'
      exact hps' (Framing.Always.rest_append _ hwrap)

/-- **One call of `OnData`.**  Induction on the length of the chunk, one round of the outer loop at
a time. -/
theorem onData_outcome (b : RecvBuffer) (c : List UInt8) (h : List EasyPacket)
    (hmax : b.m_iRecvBufLen ≤ MAX_INPUT_BUFFER) (hc : c.length < 2 ^ 16) : Outcome b c h := by
  induction hlen : c.length using Nat.strongRecOn generalizing b c h with
  | ind m ih =>
  by_cases hle : b.buffered.length + c.length ≤ MAX_INPUT_BUFFER
  · exact outcome_of_le h hmax hle
  -- the chunk exceeds the room left: the round copies the excess, if there is room for it
  rw [Nat.not_le] at hle
  have hr := b.length_buffered hmax
  have hex := excess_eq b.buffered c
  have hk : copyLen b.m_iRecvBufLen c.length = excess b.buffered c := by
    rw [copyLen_of_lt (by omega) hmax hc, excess_eq, hr]
  have hfit := copiesFit_of_excess hle
  generalize excess b.buffered c = k at hk hex hfit
  by_cases hroom : b.buffered.length + k ≤ MAX_INPUT_BUFFER
  · obtain ⟨b₁, hst, hmax₁, hb₁⟩ := copy_reaches h hk (by omega) (by omega)
    have hcat : b₁.buffered ++ c.drop k = b.buffered ++ c := by
      rw [hb₁, List.append_assoc, List.take_append_drop]
    have hdrop : (c.drop k).length < c.length := by
      rw [List.length_drop]
      omega
    rw [and_iff_right hroom, ← hb₁] at hfit
    by_cases hs : packetFraming.Stuck b₁.buffered
    · exact .stuck (hfit.mpr (.inl hs)) (hcat ▸ hs.append _ _) _ (reaches_of_step hst .refl)
        ⟨rfl, hmax₁, hs⟩
    · obtain ⟨b₂, ps, hreach, hmax₂, hb₂, hps⟩ := cut_reaches b₁ (c.drop k) h hmax₁ hs
      rw [or_iff_right hs, ← hb₂] at hfit
      have hne : c.drop k ≠ [] := List.ne_nil_of_length_pos (by rw [List.length_drop]; omega)
      have hleave : leave ⟨.cut, b₂, c.drop k, h ++ ps⟩ = ⟨.copy, b₂, c.drop k, h ++ ps⟩ := by
        simp only [leave, if_neg hne]
      rw [hleave] at hreach
      exact .of_round hcat hb₂ hps (reaches_of_step hst hreach) hfit
        (ih _ (hlen ▸ hdrop) b₂ _ _ hmax₂ (hdrop.trans hc) rfl)
  · have hnone : b.copyIn c = none := RecvBuffer.copyIn_eq_none.mpr (.inr (by omega))
    exact .undefined (fun hf ↦ hroom (hfit.mp hf).1) _
      (reaches_of_step (step_copy_none hnone) .refl) rfl

end Fantuan
