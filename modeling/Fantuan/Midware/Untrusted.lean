import Fantuan.Midware.Calls

/-!
# Untrusted bytes — what `OnData` does with arbitrary chunks

Nothing is assumed here about the bytes received.  Three things can go wrong, each on its own kind
of input: a header of length 65532 makes `iFullLength` 0 and the inner loop endless, a header of
length 65532 or more makes `iFullLength` shorter than the packet, and a chunk that exceeds the
buffer by more than there is room for is copied past its end, after which nothing is known of what
`OnData` does: such a run ends at `undefined`.
-/

open Lib StateTransition

namespace Fantuan

open OnData EasySession

/-- `t` is a state of the call with the last chunk of `cs ++ [c]`, after the calls with `cs` have
returned. -/
def InCall (s : EasySession) (cs : List (List UInt8)) (c : List UInt8) (t : State) : Prop :=
  ∃ u, Path Receives s.fresh cs u ∧ Reaches (step _HandlePacket) (start u.1 c) t

/-! ## 1. Termination -/

/-- `OnData` returns. -/
def Returns (b : RecvBuffer) (c : List UInt8) : Prop :=
  ∃ t ∈ OnData b c, t.pc = .returned

/-- No copy of the call is outside the chunk or `m_RecvBuf`. -/
def CopiesInside (b : RecvBuffer) (c : List UInt8) : Prop :=
  ∀ t, Reaches (step _HandlePacket) (start b c) t → t.pc ≠ .undefined

/-- The invariant of a call with a chunk of 65536 bytes or more: 65536 of them are never copied. -/
def LongChunk (t : State) : Prop :=
  (t.pc = .copy ∨ t.pc = .cut) ∧ t.buf.m_iRecvBufLen ≤ MAX_INPUT_BUFFER ∧
    2 ^ 16 ≤ t.pData.length ∧ t.pData.length < 2 ^ 32

theorem copyLen_of_long {r n : ℕ} (hn : 2 ^ 16 ≤ n) (hn' : n < 2 ^ 32)
    (hr : r ≤ MAX_INPUT_BUFFER) (hin : r + copyLen r n ≤ MAX_INPUT_BUFFER) :
    2 ^ 16 ≤ n - copyLen r n := by
  unfold copyLen uint32 uint16 at *
  rw [show MAX_INPUT_BUFFER = 1024 from rfl] at *
  split at hin
  · omega
  · rename_i h
    rw [if_neg h]
    omega

theorem LongChunk.step {s t : State} (hs : LongChunk s) (hst : step _HandlePacket s = some t)
    (ht : t.pc ≠ .undefined) : LongChunk t := by
  rcases s with ⟨pc, b, R, h⟩
  rcases hs with ⟨rfl | rfl, hmax, hlo, hhi⟩
  · cases hc : b.copyIn R with
    | none =>
        cases (step_copy_none hc).symm.trans hst
        exact absurd rfl ht
    | some p =>
        rcases p with ⟨b', rest⟩
        cases (step_copy_some hc).symm.trans hst
        rcases RecvBuffer.copyIn_spec hc with ⟨k, rfl, hk, hl, hmax', -, rfl⟩
        have hleft := copyLen_of_long hlo hhi hmax (by rw [← hl]; exact hmax')
        rw [← List.length_drop] at hleft
        refine ⟨.inr rfl, hmax', hleft, Nat.lt_of_le_of_lt ?_ hhi⟩
        rw [List.length_drop]
        exact Nat.sub_le ..
  · by_cases hd : Dispatches ⟨.cut, b, R, h⟩
    · rcases (dispatches_iff hmax).mp hd with ⟨n, hn, hle⟩
      rcases step_cut_dispatch (R := R) (h := h) hmax hn hle with ⟨b', hst', hl, -⟩
      cases hst'.symm.trans hst
      refine ⟨.inr rfl, ?_, hlo, hhi⟩
      show b'.m_iRecvBufLen ≤ MAX_INPUT_BUFFER
      omega
    · cases (step_cut_leave rfl hd).symm.trans hst
      have hne : R ≠ [] := by
        intro he
        rw [he] at hlo
        exact absurd hlo (by decide : ¬ 2 ^ 16 ≤ [].length)
      exact ⟨.inl (if_neg hne), hmax, hlo, hhi⟩

-- A call with so long a chunk does not return: either a copy leaves the buffer, or it goes on
-- forever.
theorem not_returns_of_long {b : RecvBuffer} {c : List UInt8}
    (hmax : b.m_iRecvBufLen ≤ MAX_INPUT_BUFFER) (hlo : 2 ^ 16 ≤ c.length)
    (hhi : c.length < 2 ^ 32) (hin : CopiesInside b c) : ¬ Returns b c := by
  rintro ⟨t, ht, hpc⟩
  rcases mem_eval.mp ht with ⟨hreach, -⟩
  have hinv : LongChunk t := by
    -- the run so far is kept with the invariant, for `hin` to apply to each of its states
    refine (Reaches.invariant (I := fun t ↦ Reaches (OnData.step _HandlePacket) (start b c) t ∧
      LongChunk t) hreach ⟨.refl, .inl rfl, hmax, hlo, hhi⟩ fun s u hs hsu ↦ ?_).2
    have hu := hs.1.tail hsu
    exact ⟨hu, hs.2.step hsu (hin u hu)⟩
  rcases hinv.1 with h | h <;> rw [h] at hpc <;> cases hpc

theorem not_returns_of_cutStuck {b : RecvBuffer} {c : List UInt8} {t : State}
    (ht : Reaches (step _HandlePacket) (start b c) t) (hcs : CutStuck t) : ¬ Returns b c := by
  rintro ⟨u, hu, -⟩
  apply not_dom_of_invariant hcs fun _ ↦ CutStuck.step
  rw [← reaches_eval ht]
  exact Part.dom_iff_mem.mpr ⟨u, hu⟩

/-- **Termination.**  A call whose copies stay inside returns if and only if the chunk is no longer
than a command can carry and no header come to makes `iFullLength` 0. -/
theorem onData_returns_iff (b : RecvBuffer) (c : List UInt8)
    (hmax : b.m_iRecvBufLen ≤ MAX_INPUT_BUFFER) (hc : c.length < 2 ^ 32)
    (hin : CopiesInside b c) :
    Returns b c ↔ c.length < 2 ^ 16 ∧ NoZeroLength (b.buffered ++ c) := by
  rw [noZeroLength_iff]
  by_cases hlt : c.length < 2 ^ 16
  · rw [and_iff_right hlt]
    cases onData_outcome b c [] hmax hlt with
    | undefined _ t ht hpc => exact absurd hpc (hin t ht)
    | stuck _ hstuck t ht hcs =>
        exact iff_of_false (not_returns_of_cutStuck ht hcs) (not_not.mpr hstuck)
    | returned _ hstuck b' ps ht =>
        exact iff_of_true ⟨_, mem_eval.mpr ⟨ht, step_eq_none (.inl rfl)⟩, rfl⟩ hstuck
  · rw [Nat.not_lt] at hlt
    exact iff_of_false (not_returns_of_long hmax hlt hc hin) fun h ↦ absurd h.1 (by omega)

theorem copiesInside_of_short {b : RecvBuffer} {c : List UInt8}
    (h : b.m_iRecvBufLen + c.length ≤ MAX_INPUT_BUFFER) : CopiesInside b c := by
  intro t ht
  have hmax : b.m_iRecvBufLen ≤ MAX_INPUT_BUFFER := by omega
  have hc : c.length < 2 ^ 16 := by
    rw [show MAX_INPUT_BUFFER = 1024 from rfl] at h
    omega
  exact (safe_of_copiesFit hmax hc (copiesFit_of_le (by rwa [b.length_buffered hmax])) ht).1

theorem not_stuck_nil : ¬ packetFraming.Stuck [] := by
  rw [Framing.Stuck, rest_nil]
  decide

/-- One packet in one chunk. -/
theorem onData_returns_one_packet : Returns zeroSession.toRecvBuffer [5, 0, 1, 0, 9] := by
  have hfront : packetFraming.front [5, 0, 1, 0, 9] = some 5 := by decide
  have hstuck : ¬ packetFraming.Stuck [5, 0, 1, 0, 9] := by
    rw [packetFraming.stuck_of_front hfront]
    exact not_stuck_nil
  apply (onData_returns_iff zeroSession.toRecvBuffer [5, 0, 1, 0, 9] (by decide) (by decide)
    (copiesInside_of_short (by decide))).mpr
  exact ⟨by decide, noZeroLength_iff.mpr hstuck⟩

/-- A header that announces 65532 bytes is handled again and again. -/
theorem onData_spins :
    CopiesInside zeroSession.toRecvBuffer [0, 0, 252, 255] ∧
      ¬ Returns zeroSession.toRecvBuffer [0, 0, 252, 255] := by
  have hin : CopiesInside zeroSession.toRecvBuffer [0, 0, 252, 255] :=
    copiesInside_of_short (by decide)
  have hstuck : packetFraming.Stuck [0, 0, 252, 255] := by
    rw [Framing.Stuck, packetFraming.rest_of_front_none (by decide)]
    decide
  refine ⟨hin, ?_⟩
  cases onData_outcome zeroSession.toRecvBuffer [0, 0, 252, 255] [] (by decide) (by decide) with
  | undefined _ t ht hpc => exact absurd hpc (hin t ht)
  | stuck _ _ t ht hcs => exact not_returns_of_cutStuck ht hcs
  | returned _ hns => exact absurd hstuck hns

/-! ## 2. The bounds of `m_RecvBuf` -/

/-- No call with one of `chunks` copies outside the chunk or `m_RecvBuf`, or takes `m_iRecvBufLen`
beyond its size. -/
def RecvSafe (s : EasySession) (chunks : List (List UInt8)) : Prop :=
  ∀ cs c t, cs ++ [c] <+: chunks → InCall s cs c t →
    t.pc ≠ .undefined ∧ t.buf.m_iRecvBufLen ≤ MAX_INPUT_BUFFER

-- A call that never copies outside finds room for its copies.
theorem copiesFit_of_safe {b : RecvBuffer} {c : List UInt8}
    (hmax : b.m_iRecvBufLen ≤ MAX_INPUT_BUFFER) (hc : c.length < 2 ^ 16)
    (hin : CopiesInside b c) : CopiesFit b.buffered c := by
  cases onData_outcome b c [] hmax hc with
  | undefined _ t ht hpc => exact absurd hpc (hin t ht)
  | stuck hfit => exact hfit
  | returned hfit => exact hfit

-- Calls that never copy outside find room for their copies.
theorem copiesFitAll_of_inside {s : EasySession} {chunks : List (List UInt8)}
    (hchunks : ∀ c ∈ chunks, c.length < 2 ^ 16)
    (hsafe : ∀ cs c t, cs ++ [c] <+: chunks → InCall s cs c t → t.pc ≠ .undefined) :
    CopiesFitAll chunks := by
  intro cs c hcs hstuck
  have hfit : ∀ cs c u, cs ++ [c] <+: chunks → Path Receives s.fresh cs u →
      CopiesFit u.1.buffered c := by
    intro cs c u hcs hu
    have hlt := chunks_short hchunks hcs
    apply copiesFit_of_safe (calls_spec hu hlt.1).1 hlt.2
    exact fun t ht ↦ hsafe cs c t hcs ⟨u, hu, ht⟩
  -- the calls before this one return, so its copies are among those that are safe
  have hpre : cs <+: chunks := (List.prefix_append cs [c]).trans hcs
  rcases exists_calls (fresh_buffered s).1 hchunks hfit hpre hstuck with ⟨u, hu⟩
  rw [← (calls_spec hu (chunks_short hchunks hcs).1).2.1]
  exact hfit cs c u hcs hu

theorem recvSafe_of_copiesFitAll {s : EasySession} {chunks : List (List UInt8)}
    (hchunks : ∀ c ∈ chunks, c.length < 2 ^ 16) (hfit : CopiesFitAll chunks) :
    RecvSafe s chunks := by
  rintro cs c t hcs ⟨u, hu, ht⟩
  have hlt := chunks_short hchunks hcs
  rcases calls_spec hu hlt.1 with ⟨hmax, hbuf, hstuck, -⟩
  exact safe_of_copiesFit hmax hlt.2 (by rw [hbuf]; exact hfit cs c hcs hstuck) ht

/-- **The receive buffer.**  For chunks that a command can carry, the calls stay inside the buffer
if and only if the copies fit. -/
theorem recvSafe_iff (s : EasySession) (chunks : List (List UInt8))
    (hchunks : ∀ c ∈ chunks, c.length < 2 ^ 16) : RecvSafe s chunks ↔ CopiesFitAll chunks := by
  constructor
  · exact fun hsafe ↦ copiesFitAll_of_inside hchunks fun cs c t hcs ht ↦ (hsafe cs c t hcs ht).1
  · exact recvSafe_of_copiesFitAll hchunks

/-- A header that announces more than `m_RecvBuf` holds, and part of what it announces. -/
theorem recvSafe_large_header : RecvSafe zeroSession [[0, 0, 0, 8], [1, 2, 3]] :=
  (recvSafe_iff zeroSession [[0, 0, 0, 8], [1, 2, 3]] (by decide)).mpr
    (copiesFitAll_of_short (by decide))

/-- 1024 bytes of a packet that never becomes complete, and one byte more. -/
def filledChunks : List (List UInt8) := [List.replicate 1024 100, [100]]

/-- With the buffer full, `OnData` copies the one byte that is too many behind its end. -/
theorem recvSafe_filled :
    (∀ c ∈ filledChunks, c.length < 2 ^ 16) ∧ ¬ RecvSafe zeroSession filledChunks := by
  have hlt : ∀ c ∈ filledChunks, c.length < 2 ^ 16 := by
    simp only [filledChunks, List.forall_mem_cons, List.length_replicate, List.not_mem_nil,
      false_implies, implies_true, and_true]
    decide
  refine ⟨hlt, fun hsafe ↦ ?_⟩
  have hfull : iFullLength (List.replicate 1024 100) = 25704 := rfl
  have hfront : packetFraming.front (List.replicate 1024 100) = none := by
    rw [Option.eq_none_iff_forall_ne_some]
    intro n hn
    rcases packetFraming.front_eq_some.mp hn with ⟨hlen, -, hle⟩
    rw [List.length_replicate, ← (frameLen_eq_some.mp hlen).2, hfull] at hle
    exact absurd hle (by decide)
  have hrest := packetFraming.rest_of_front_none hfront
  have hstuck : ¬ packetFraming.Stuck (List.replicate 1024 100) := by
    rw [Framing.Stuck, hrest, frameLen_eq_some, hfull]
    exact fun h ↦ absurd h.2 (by decide)
  have hfit := copiesFitAll_of_inside hlt (fun cs c t hcs ht ↦ (hsafe cs c t hcs ht).1)
    [List.replicate 1024 100] [100] (List.prefix_refl _) (by rwa [List.flatten_singleton])
  rw [List.flatten_singleton, hrest, copiesFit_of_excess, excess_eq] at hfit <;>
    simp only [List.length_replicate, List.length_singleton, MAX_INPUT_BUFFER] at *
  · omega
  · omega

/-! ## 3. What `_HandlePacket` is passed -/

/-- The packet handled at `t` is completely buffered, what its reader covers was received, and it is
what the turn of the inner loop removes. -/
structure DispatchSound (received : List UInt8) (t : State) : Prop where
  complete : PACKET_HEAD + uint16At t.buf.m_RecvBuf.data 2 ≤ t.buf.m_iRecvBufLen
  covers : (EasyPacket.ofBytes t.buf.m_RecvBuf.data).m_Buf <:+: received
  covers_length : (EasyPacket.ofBytes t.buf.m_RecvBuf.data).m_Buf.length =
    uint16At t.buf.m_RecvBuf.data 2
  removes : ∃ t', step _HandlePacket t = some t' ∧
    t'.buf.buffered = t.buf.buffered.drop (PACKET_HEAD + uint16At t.buf.m_RecvBuf.data 2) ∧
    t'.buf.m_iRecvBufLen + (PACKET_HEAD + uint16At t.buf.m_RecvBuf.data 2) = t.buf.m_iRecvBufLen

/-- Every packet that the calls with `chunks` pass to `_HandlePacket` is sound, and none of them
copies outside the chunk or `m_RecvBuf`: what such a call handles afterwards may be anything. -/
def DispatchSafe (s : EasySession) (chunks : List (List UInt8)) : Prop :=
  ∀ cs c t, cs ++ [c] <+: chunks → InCall s cs c t →
    t.pc ≠ .undefined ∧
      (t.pc = .cut → Dispatches t → DispatchSound (cs ++ [c]).flatten t)

/-- The header of the packet handled at `t` does not make `iFullLength` wrap. -/
def HeaderFits (t : State) : Prop :=
  t.pc = .cut → Dispatches t → uint16At t.buf.buffered 2 + PACKET_HEAD < 2 ^ 16

theorem DispatchSound.header_fits {b : RecvBuffer} {R received : List UInt8}
    {h : List EasyPacket} (hs : DispatchSound received ⟨.cut, b, R, h⟩)
    (hmax : b.m_iRecvBufLen ≤ MAX_INPUT_BUFFER) (hd : Dispatches ⟨.cut, b, R, h⟩) :
    uint16At b.buffered 2 + PACKET_HEAD < 2 ^ 16 := by
  have hM : MAX_INPUT_BUFFER = 1024 := rfl
  have h2 : uint16At b.m_RecvBuf.data 2 = uint16At b.buffered 2 :=
    b.uint16At_data hd.1 hmax (Nat.le_refl _)
  have hc : PACKET_HEAD + uint16At b.m_RecvBuf.data 2 ≤ b.m_iRecvBufLen := hs.complete
  omega

-- A dispatch is sound exactly when the header does not make `iFullLength` wrap.
theorem dispatchSound_iff {b : RecvBuffer} {R : List UInt8} {h : List EasyPacket}
    {received : List UInt8} (hmax : b.m_iRecvBufLen ≤ MAX_INPUT_BUFFER)
    (hsuf : b.buffered ++ R <:+ received) (hd : Dispatches ⟨.cut, b, R, h⟩) :
    DispatchSound received ⟨.cut, b, R, h⟩ ↔ uint16At b.buffered 2 + PACKET_HEAD < 2 ^ 16 := by
  have hP : PACKET_HEAD = 4 := rfl
  have hM : MAX_INPUT_BUFFER = 1024 := rfl
  have hlen := b.length_buffered hmax
  have h2 : uint16At b.m_RecvBuf.data 2 = uint16At b.buffered 2 :=
    b.uint16At_data hd.1 hmax (Nat.le_refl _)
  refine ⟨fun hs ↦ hs.header_fits hmax hd, fun hlt ↦ ?_⟩
  have hfull : iFullLength b.buffered = PACKET_HEAD + uint16At b.buffered 2 := by
    rw [iFullLength, uint16_of_lt hlt, Nat.add_comm]
  have hle : PACKET_HEAD + uint16At b.buffered 2 ≤ b.m_iRecvBufLen := by
    rw [← hfull, ← b.iFullLength_data hd.1 hmax]
    exact hd.2
  have hpkt := b.ofBytes_data hmax hle
  have hn : packetFraming.frameLen b.buffered = some (PACKET_HEAD + uint16At b.buffered 2) := by
    rw [← hfull]
    exact frameLen_of_le (by rw [hlen]; exact hd.1)
  rcases step_cut_dispatch (R := R) (h := h) hmax hn hle with ⟨b', hst, hl, hbuf⟩
  refine ⟨?_, ?_, ?_, ⟨_, hst, ?_, ?_⟩⟩
  · show PACKET_HEAD + uint16At b.m_RecvBuf.data 2 ≤ b.m_iRecvBufLen
    rwa [h2]
  · show (EasyPacket.ofBytes b.m_RecvBuf.data).m_Buf <:+: received
    rw [hpkt]
    have htake : (EasyPacket.ofBytes b.buffered).m_Buf <+: b.buffered.drop PACKET_HEAD :=
      List.take_prefix _ _
    have hin := htake.isInfix.trans (List.drop_suffix PACKET_HEAD b.buffered).isInfix
    exact (hin.trans (List.prefix_append _ R).isInfix).trans hsuf.isInfix
  · show (EasyPacket.ofBytes b.m_RecvBuf.data).m_Buf.length = uint16At b.m_RecvBuf.data 2
    rw [hpkt, h2]
    show ((b.buffered.drop PACKET_HEAD).take (uint16At b.buffered 2)).length = _
    rw [List.length_take, List.length_drop]
    omega
  · show b'.buffered = b.buffered.drop (PACKET_HEAD + uint16At b.m_RecvBuf.data 2)
    rw [h2, hbuf]
  · show b'.m_iRecvBufLen + (PACKET_HEAD + uint16At b.m_RecvBuf.data 2) = b.m_iRecvBufLen
    rw [h2, hl]
    omega

/-- The invariant of a call when `received` has come so far and `later` is still to come: what is
not yet handled is the end of what was received, and no header in it wraps. -/
structure Unwrapped (received later : List UInt8) (t : State) : Prop where
  le_max : t.buf.m_iRecvBufLen ≤ MAX_INPUT_BUFFER
  suffix : t.buf.buffered ++ t.pData <:+ received
  noWrap : NoWrap (t.buf.buffered ++ t.pData ++ later)
  done : t.pc = .returned → t.pData = []

-- A turn of the inner loop at a header that does not wrap removes a packet from the front.
theorem Unwrapped.front {received later R : List UInt8} {b : RecvBuffer} {h : List EasyPacket}
    (hs : Unwrapped received later ⟨.cut, b, R, h⟩) (hd : Dispatches ⟨.cut, b, R, h⟩) :
    ∃ n, packetFraming.front b.buffered = some n := by
  rcases (dispatches_iff hs.le_max).mp hd with ⟨n, hn, hle⟩
  rcases frameLen_eq_some.mp hn with ⟨hhead, hfull⟩
  have hwrap : NoWrap b.buffered := by
    have h := hs.noWrap
    rw [List.append_assoc] at h
    exact h.append_left
  have hP : PACKET_HEAD = 4 := rfl
  rw [hwrap.iFullLength_eq hhead] at hfull
  exact ⟨n, packetFraming.front_eq_some.mpr
    ⟨hn, by omega, by rwa [b.length_buffered hs.le_max]⟩⟩

theorem Unwrapped.step {received later : List UInt8} {s t : State}
    (hs : Unwrapped received later s) (hst : step _HandlePacket s = some t) :
    Unwrapped received later t := by
  rcases s with ⟨pc, b, R, h⟩
  have hmax : b.m_iRecvBufLen ≤ MAX_INPUT_BUFFER := hs.le_max
  have hsuf : b.buffered ++ R <:+ received := hs.suffix
  have hwrap : NoWrap (b.buffered ++ R ++ later) := hs.noWrap
  cases pc with
  | copy =>
      -- a copy moves bytes from the chunk behind the buffered ones
      cases hc : b.copyIn R with
      | none =>
          cases (step_copy_none hc).symm.trans hst
          exact ⟨hmax, hsuf, hwrap, fun h ↦ (nomatch h)⟩
      | some p =>
          rcases p with ⟨b', rest⟩
          cases (step_copy_some hc).symm.trans hst
          rcases RecvBuffer.copyIn_spec hc with ⟨k, -, -, -, hmax', hbuf, rfl⟩
          have hsame : b'.buffered ++ R.drop k = b.buffered ++ R := by
            rw [hbuf, List.append_assoc, List.take_append_drop]
          exact ⟨hmax', hsame ▸ hsuf, hsame ▸ hwrap, fun h ↦ (nomatch h)⟩
  | cut =>
      by_cases hd : Dispatches ⟨.cut, b, R, h⟩
      · -- a packet goes from the front
        rcases hs.front hd with ⟨n, hf⟩
        rcases packetFraming.front_eq_some.mp hf with ⟨hn, -, hle⟩
        have hle' := hle
        rw [b.length_buffered hmax] at hle'
        rcases step_cut_dispatch (R := R) (h := h) hmax hn hle' with ⟨b', hst', hl, hbuf⟩
        cases hst'.symm.trans hst
        have hdrop : b'.buffered ++ R = (b.buffered ++ R).drop n := by
          rw [hbuf, List.drop_append_of_le_length hle]
        refine ⟨?_, ?_, ?_, fun h ↦ (nomatch h)⟩
        · show b'.m_iRecvBufLen ≤ MAX_INPUT_BUFFER
          omega
        · show b'.buffered ++ R <:+ received
          rw [hdrop]
          exact (List.drop_suffix n _).trans hsuf
        · show NoWrap (b'.buffered ++ R ++ later)
          rw [List.append_assoc] at hwrap ⊢
          have h := ((noWrap_of_front (packetFraming.front_append _ hf)).mp hwrap).2
          rwa [List.drop_append_of_le_length hle, ← hbuf] at h
      · cases (step_cut_leave rfl hd).symm.trans hst
        refine ⟨hmax, hsuf, hwrap, fun h ↦ ?_⟩
        by_contra hne
        have hR : R ≠ [] := hne
        simp only [leave, if_neg hR] at h
        cases h
  | returned => cases (step_eq_none (.inl rfl)).symm.trans hst
  | undefined => cases (step_eq_none (.inr rfl)).symm.trans hst

-- Between calls nothing of a chunk is left, and the invariant passes from call to call.
theorem unwrapped_of_path {s : EasySession} {cs : List (List UInt8)}
    {u : RecvBuffer × List EasyPacket} (h : Path Receives s.fresh cs u) {c later : List UInt8}
    (hwrap : NoWrap (cs.flatten ++ c ++ later)) :
    Unwrapped (cs.flatten ++ c) later (start u.1 c) := by
  induction h generalizing c later with
  | nil =>
      have hbuf : s.fresh.1.buffered = [] := (fresh_buffered s).2
      refine ⟨Nat.zero_le _, ?_, ?_, fun h ↦ (nomatch h)⟩
      · show s.fresh.1.buffered ++ c <:+ _
        rw [hbuf]
        exact List.suffix_refl _
      · show NoWrap (s.fresh.1.buffered ++ c ++ later)
        rw [hbuf]
        exact hwrap
  | @snoc cs t u d hpath hstep ih =>
      rcases hstep with ⟨v, hv, hpc, rfl⟩
      rw [List.flatten_concat] at hwrap ⊢
      have hinv : Unwrapped (cs.flatten ++ d) (c ++ later) v :=
        Reaches.invariant (I := Unwrapped (cs.flatten ++ d) (c ++ later)) (mem_eval.mp hv).1
          (ih (by rwa [List.append_assoc] at hwrap)) fun _ _ ↦ Unwrapped.step
      have hnil := hinv.done hpc
      have hsuf := hinv.suffix
      have hw := hinv.noWrap
      rw [hnil, List.append_nil] at hsuf hw
      refine ⟨hinv.le_max, ?_, ?_, fun h ↦ (nomatch h)⟩
      · rcases hsuf with ⟨front, hfront⟩
        exact ⟨front, by rw [← hfront, List.append_assoc]; rfl⟩
      · show NoWrap (v.buf.buffered ++ c ++ later)
        rwa [List.append_assoc]

-- Where no header wraps every dispatch is sound, up to a copy outside `m_RecvBuf`.
theorem dispatchSound_of_noWrap {s : EasySession} {cs later : List (List UInt8)} {c : List UInt8}
    {t : State} (h : NoWrap (cs ++ [c] ++ later).flatten) (ht : InCall s cs c t)
    (hpc : t.pc = .cut) (hd : Dispatches t) : DispatchSound (cs ++ [c]).flatten t := by
  obtain ⟨pc, b, R, hs⟩ := t
  obtain rfl : pc = .cut := hpc
  rcases ht with ⟨u, hu, ht⟩
  rw [List.flatten_append, List.flatten_concat] at h
  have hinv : Unwrapped (cs.flatten ++ c) later.flatten ⟨.cut, b, R, hs⟩ :=
    Reaches.invariant (I := Unwrapped (cs.flatten ++ c) later.flatten) ht
      (unwrapped_of_path hu h) fun _ _ ↦ Unwrapped.step
  rw [List.flatten_concat]
  apply (dispatchSound_iff hinv.le_max hinv.suffix hd).mpr
  rcases hinv.front hd with ⟨n, hf⟩
  have hw := hinv.noWrap
  rw [List.append_assoc] at hw
  apply ((noWrap_of_front hf).mp hw.append_left).1
  rw [b.length_buffered hinv.le_max]
  exact hd.1

-- The inner loop comes to every header at the front of what is buffered.
theorem noWrap_of_cut {b : RecvBuffer} {R : List UInt8} {h : List EasyPacket}
    (hmax : b.m_iRecvBufLen ≤ MAX_INPUT_BUFFER)
    (hfits : ∀ t, Reaches (step _HandlePacket) ⟨.cut, b, R, h⟩ t → HeaderFits t) :
    NoWrap b.buffered := by
  have hlen := b.length_buffered hmax
  generalize hB : b.buffered = B
  induction B using packetFraming.cut_induction generalizing b h with
  | stop B hf =>
      refine (packetFraming.always_of_front_none hf).mpr fun hhead ↦ ?_
      rw [← hB] at hhead ⊢
      -- a header that wraps is handled at once
      by_contra hwrap
      have hlt := uint16At_lt b.buffered 2
      refine hwrap (hfits _ .refl rfl ?_)
      rw [dispatches_iff hmax]
      refine ⟨_, frameLen_of_le hhead, ?_⟩
      unfold iFullLength uint16
      rw [PACKET_HEAD] at *
      omega
  | skip B n hf ih =>
      subst hB
      obtain ⟨hn, -, hle⟩ := packetFraming.front_eq_some.mp hf
      rw [hlen] at hle
      have hfirst := hfits _ .refl rfl ((dispatches_iff hmax).mpr ⟨n, hn, hle⟩)
      obtain ⟨b', hst, hl, hb'⟩ := step_cut_dispatch (R := R) (h := h) hmax hn hle
      have hmax' : b'.m_iRecvBufLen ≤ MAX_INPUT_BUFFER := by omega
      exact (noWrap_of_front hf).mpr ⟨fun _ ↦ hfirst, ih hmax'
        (fun t ht ↦ hfits t (reaches_of_step hst ht)) (b'.length_buffered hmax') hb'⟩

-- A call whose copies fit comes to every header: induction on the rounds of the outer loop.
theorem noWrap_of_call {b : RecvBuffer} {c : List UInt8} {h : List EasyPacket}
    (hmax : b.m_iRecvBufLen ≤ MAX_INPUT_BUFFER) (hc : c.length < 2 ^ 16)
    (hfit : CopiesFit b.buffered c)
    (hfits : ∀ t, Reaches (step _HandlePacket) ⟨.copy, b, c, h⟩ t → HeaderFits t) :
    NoWrap (b.buffered ++ c) := by
  induction hm : c.length using Nat.strongRecOn generalizing b c h with
  | ind m ih =>
  have hr := b.length_buffered hmax
  by_cases hle : b.buffered.length + c.length ≤ MAX_INPUT_BUFFER
  · -- one round
    obtain ⟨b₁, hst, hmax₁, hb₁⟩ := copy_reaches h
      (copyLen_of_le (by omega : b.m_iRecvBufLen + c.length ≤ _)) (Nat.le_refl _) (by omega)
    rw [List.take_length] at hb₁
    rw [← hb₁]
    exact noWrap_of_cut hmax₁ fun t ht ↦ hfits t (reaches_of_step hst ht)
  · -- what the round copies is cut into packets, and the rest of the chunk comes behind their rest
    rw [Nat.not_le] at hle
    obtain ⟨hroom, hfit'⟩ := (copiesFit_of_excess hle).mp hfit
    have hex := excess_eq b.buffered c
    have hk : copyLen b.m_iRecvBufLen c.length = excess b.buffered c := by
      rw [copyLen_of_lt (by omega) hmax hc, excess_eq, hr]
    generalize excess b.buffered c = k at hk hex hfit' hroom
    obtain ⟨b₁, hst, hmax₁, hb₁⟩ := copy_reaches h hk (by omega) (by omega)
    have hdrop : (c.drop k).length < c.length := by
      rw [List.length_drop]
      omega
    have hwrap : NoWrap b₁.buffered :=
      noWrap_of_cut hmax₁ fun t ht ↦ hfits t (reaches_of_step hst ht)
    obtain ⟨b₂, ps, hreach, hmax₂, hb₂, -⟩ := cut_reaches b₁ (c.drop k) h hmax₁ hwrap.not_stuck
    rw [← hb₁, or_iff_right hwrap.not_stuck, ← hb₂] at hfit'
    have hne : c.drop k ≠ [] := List.ne_nil_of_length_pos (by rw [List.length_drop]; omega)
    have hleave : leave ⟨.cut, b₂, c.drop k, h ++ ps⟩ = ⟨.copy, b₂, c.drop k, h ++ ps⟩ := by
      simp only [leave, if_neg hne]
    rw [hleave] at hreach
    have hnext := ih _ (hm ▸ hdrop) hmax₂ (hdrop.trans hc) hfit'
      (fun t ht ↦ hfits t (reaches_of_step hst (hreach.trans ht))) rfl
    rw [hb₂] at hnext
    have hcat : b.buffered ++ c = b₁.buffered ++ c.drop k := by
      rw [hb₁, List.append_assoc, List.take_append_drop]
    rw [hcat]
    exact hwrap.append_of_rest hnext

-- A stream in which no header wraps has only chunks that a command can carry, if the copies fit.
theorem short_of_copiesFitAll {chunks : List (List UInt8)} (hfit : CopiesFitAll chunks)
    (hwrap : NoWrap chunks.flatten) : ∀ c ∈ chunks, c.length < 2 ^ 16 := by
  intro c hc
  obtain ⟨cs, later, rfl⟩ := List.append_of_mem hc
  rw [List.flatten_append] at hwrap
  have h := hfit cs c ⟨later, by rw [List.append_assoc, List.singleton_append]⟩
    hwrap.append_left.not_stuck
  have hM : MAX_INPUT_BUFFER = 1024 := rfl
  by_cases hle : (packetFraming.rest cs.flatten).length + c.length ≤ MAX_INPUT_BUFFER
  · omega
  · rw [Nat.not_le] at hle
    have hroom := ((copiesFit_of_excess hle).mp h).1
    rw [excess_eq] at hroom
    omega

-- Sound dispatches have headers that do not wrap, and the calls come to every header.
theorem noWrap_of_dispatchSafe {s : EasySession} {chunks : List (List UInt8)}
    (hchunks : ∀ c ∈ chunks, c.length < 2 ^ 16) (hfit : CopiesFitAll chunks)
    (hsafe : DispatchSafe s chunks) : NoWrap chunks.flatten := by
  have hcalls : ∀ cs c u, cs ++ [c] <+: chunks → Path Receives s.fresh cs u →
      CopiesFit u.1.buffered c := by
    intro cs c u hcs hu
    obtain ⟨-, hbuf, hstuck, -⟩ := calls_spec hu (chunks_short hchunks hcs).1
    rw [hbuf]
    exact hfit cs c hcs hstuck
  have hprefix : ∀ cs, cs <+: chunks → NoWrap cs.flatten := by
    intro cs hcs
    induction cs using List.reverseRecOn with
    | nil => exact noWrap_nil
    | append_singleton cs c ih =>
        have hpre : cs <+: chunks := (List.prefix_append cs [c]).trans hcs
        have hwrap := ih hpre
        obtain ⟨u, hu⟩ :=
          exists_calls (fresh_buffered s).1 hchunks hcalls hpre hwrap.not_stuck
        obtain ⟨hlt, hc⟩ := chunks_short hchunks hcs
        obtain ⟨hmax, hbuf, -, -⟩ := calls_spec hu hlt
        have hroom := hcalls cs c u hcs hu
        have hcall : NoWrap (u.1.buffered ++ c) := by
          refine noWrap_of_call (h := []) hmax hc hroom fun t ht hpc hd ↦ ?_
          have hsound := (hsafe cs c t hcs ⟨u, hu, ht⟩).2 hpc hd
          have hmax' := (safe_of_copiesFit hmax hc hroom ht).2
          obtain ⟨pc, b, R, h⟩ := t
          obtain rfl : pc = .cut := hpc
          exact hsound.header_fits hmax' hd
        rw [List.flatten_concat]
        rw [hbuf] at hcall
        exact hwrap.append_of_rest hcall
  exact hprefix chunks (List.prefix_refl _)

/-- **Dispatch.**  If the copies fit and no header come to announces 65532 bytes or more, every
packet passed to `_HandlePacket` is sound; for chunks that a command can carry, only then. -/
theorem dispatchSafe_exactly (s : EasySession) (chunks : List (List UInt8)) :
    (CopiesFitAll chunks ∧ NoWrap chunks.flatten → DispatchSafe s chunks) ∧
      ((∀ c ∈ chunks, c.length < 2 ^ 16) → DispatchSafe s chunks →
        CopiesFitAll chunks ∧ NoWrap chunks.flatten) := by
  constructor
  · rintro ⟨hfit, hwrap⟩ cs c t hcs ht
    have hsafe := recvSafe_of_copiesFitAll (short_of_copiesFitAll hfit hwrap) hfit cs c t hcs ht
    refine ⟨hsafe.1, fun hpc hd ↦ ?_⟩
    obtain ⟨later, rfl⟩ := hcs
    exact dispatchSound_of_noWrap hwrap ht hpc hd
  · intro hchunks hsafe
    have hfit := copiesFitAll_of_inside hchunks fun cs c t hcs ht ↦ (hsafe cs c t hcs ht).1
    exact ⟨hfit, noWrap_of_dispatchSafe hchunks hfit hsafe⟩

/-- A packet of one byte that arrives in two chunks. -/
theorem dispatchSafe_two_chunks : DispatchSafe zeroSession [[5, 0, 1], [0, 9]] :=
  (dispatchSafe_exactly zeroSession [[5, 0, 1], [0, 9]]).1
    ⟨copiesFitAll_of_short (by decide),
      (noWrap_of_front (n := 5) (by decide)).mpr ⟨by decide, noWrap_nil⟩⟩

/-- A header that announces 65533 bytes is handled when only the header has come. -/
theorem dispatch_not_received : ¬ DispatchSafe zeroSession [[0, 0, 253, 255]] := by
  intro hsafe
  rcases copy_reaches (b := zeroSession.fresh.1) (c := [0, 0, 253, 255]) []
    (copyLen_of_le (by decide)) (Nat.le_refl _) (by decide) with ⟨b, hst, hmax, hbuf⟩
  have hbuf' : b.buffered = [0, 0, 253, 255] := by
    rw [hbuf, (fresh_buffered zeroSession).2]
    rfl
  have hlen : b.m_iRecvBufLen = 4 := by
    rw [← b.length_buffered hmax, hbuf']
    rfl
  have hd : Dispatches ⟨.cut, b, [], []⟩ := by
    rw [dispatches_iff hmax, hbuf', hlen]
    exact ⟨1, by decide, by decide⟩
  have hs := (hsafe [] [0, 0, 253, 255] _ (List.prefix_refl _)
    ⟨_, .nil, reaches_of_step hst .refl⟩).2 rfl hd
  rw [List.drop_length, dispatchSound_iff hmax (by rw [hbuf']; exact List.suffix_refl _) hd, hbuf']
    at hs
  exact absurd hs (by decide)

end Fantuan
