import Mathlib.Data.List.Induction
import Fantuan.Midware.OnData

/-!
# Successive calls of `OnData`

What a session has buffered and handled after the calls with the chunks `cs`, and which calls stay
inside `m_RecvBuf`, in terms of the bytes received, `cs.flatten`.
-/

open Lib StateTransition

namespace Fantuan

open OnData EasySession

/-- The successive chunks fit: each call finds room for its copies, unless an earlier one did not
return. -/
def CopiesFitAll (chunks : List (List UInt8)) : Prop :=
  Each (fun cs c ↦ ¬ packetFraming.Stuck cs.flatten → CopiesFit (packetFraming.rest cs.flatten) c)
    chunks

-- A stream that fits `m_RecvBuf` as a whole always finds room.
theorem copiesFitAll_of_short {chunks : List (List UInt8)}
    (h : chunks.flatten.length ≤ MAX_INPUT_BUFFER) : CopiesFitAll chunks := by
  intro cs c hcs _
  have hrest := packetFraming.length_rest_le cs.flatten
  apply copiesFit_of_le
  rcases hcs with ⟨later, rfl⟩
  simp only [List.flatten_append, List.flatten_singleton, List.length_append] at h
  omega

/-- Just the receive members of a session after `Reset`. -/
def EasySession.fresh (s : EasySession) : RecvBuffer × List EasyPacket :=
  (s.Reset.toRecvBuffer, [])

/-! ## 1. One call -/

theorem step_eq_none {s : State} (h : s.pc = .returned ∨ s.pc = .undefined) :
    step _HandlePacket s = none := by
  rcases h with h | h <;> simp only [step, h]

-- A call that returns does what `packetFraming` says with the bytes received.
theorem Receives.spec {b : RecvBuffer} {h : List EasyPacket} {c : List UInt8}
    {s : RecvBuffer × List EasyPacket} (hr : Receives (b, h) c s)
    (hmax : b.m_iRecvBufLen ≤ MAX_INPUT_BUFFER) (hc : c.length < 2 ^ 16) :
    CopiesFit b.buffered c ∧ ¬ packetFraming.Stuck (b.buffered ++ c) ∧
      s.1.m_iRecvBufLen ≤ MAX_INPUT_BUFFER ∧
      s.1.buffered = packetFraming.rest (b.buffered ++ c) ∧
      (NoWrap (b.buffered ++ c) →
        s.2 = h ++ (packetFraming.frames (b.buffered ++ c)).map EasyPacket.ofBytes) := by
  -- a call has one final state, so that the others of its outcomes are out
  obtain ⟨t, ht, hpc, rfl⟩ := hr
  cases onData_outcome b c [] hmax hc with
  | undefined hfit u hu hupc =>
      have hu' : u ∈ OnData b c := mem_eval.mpr ⟨hu, step_eq_none (.inr hupc)⟩
      rw [Part.mem_unique ht hu', hupc] at hpc
      cases hpc
  | stuck hfit hstuck u hu hcs =>
      have hdom : (eval (step _HandlePacket) u).Dom := by
        rw [← reaches_eval hu]
        exact Part.dom_iff_mem.mpr ⟨t, ht⟩
      exact absurd hdom (not_dom_of_invariant hcs fun _ ↦ CutStuck.step)
  | returned hfit hstuck b' ps hreach hmax' hbuf hps =>
      have ht' := Part.mem_unique ht (mem_eval.mpr ⟨hreach, step_eq_none (.inl rfl)⟩)
      subst ht'
      exact ⟨hfit, hstuck, hmax', hbuf, fun hwrap ↦ congrArg (h ++ ·) (hps hwrap)⟩

theorem exists_receives {b : RecvBuffer} {c : List UInt8} (h : List EasyPacket)
    (hmax : b.m_iRecvBufLen ≤ MAX_INPUT_BUFFER) (hc : c.length < 2 ^ 16)
    (hfit : CopiesFit b.buffered c) (hstuck : ¬ packetFraming.Stuck (b.buffered ++ c)) :
    ∃ s, Receives (b, h) c s := by
  cases onData_outcome b c [] hmax hc with
  | undefined hfit' => exact absurd hfit hfit'
  | stuck _ hstuck' => exact absurd hstuck' hstuck
  | returned _ _ b' ps hreach =>
      exact ⟨(b', h ++ ps), _, mem_eval.mpr ⟨hreach, step_eq_none (.inl rfl)⟩, rfl, rfl⟩

/-- The invariant of a call whose copies fit, with `R` the rest of the chunk. -/
def FitInv (pc : Pc) (b : RecvBuffer) (R : List UInt8) : Prop :=
  b.m_iRecvBufLen ≤ MAX_INPUT_BUFFER ∧ R.length < 2 ^ 16 ∧
    match pc with
    | .copy => CopiesFit b.buffered R
    | .cut => packetFraming.Stuck b.buffered ∨ CopiesFit (packetFraming.rest b.buffered) R
    | .returned => True
    | .undefined => False

theorem FitInv.step_copy {b : RecvBuffer} {c : List UInt8} {h : List EasyPacket} {t : State}
    (hs : FitInv .copy b c) (hst : step _HandlePacket ⟨.copy, b, c, h⟩ = some t) :
    FitInv t.pc t.buf t.pData := by
  obtain ⟨hmax, hc, hfit⟩ := hs
  have hr := b.length_buffered hmax
  by_cases hle : b.buffered.length + c.length ≤ MAX_INPUT_BUFFER
  · obtain ⟨b', hst', hmax', hb'⟩ := copy_reaches h
      (copyLen_of_le (by omega : b.m_iRecvBufLen + c.length ≤ _)) (Nat.le_refl _) (by omega)
    obtain rfl := Option.some.inj (hst'.symm.trans hst)
    rw [List.drop_length]
    change FitInv .cut b' []
    refine ⟨hmax', by decide, .inr (copiesFit_of_le ?_)⟩
    have hrest := packetFraming.length_rest_le b'.buffered
    rw [b'.length_buffered hmax'] at hrest
    exact Nat.le_trans hrest hmax'
  · rw [Nat.not_le] at hle
    obtain ⟨hroom, hfit'⟩ := (copiesFit_of_excess hle).mp hfit
    have hk : copyLen b.m_iRecvBufLen c.length = excess b.buffered c := by
      rw [copyLen_of_lt (by omega) hmax hc, excess_eq, hr]
    have hex := excess_eq b.buffered c
    obtain ⟨b', hst', hmax', hb'⟩ := copy_reaches h hk (by omega) (by omega)
    obtain rfl := Option.some.inj (hst'.symm.trans hst)
    rw [← hb'] at hfit'
    change FitInv .cut b' (c.drop (excess b.buffered c))
    exact ⟨hmax', by rw [List.length_drop]; omega, hfit'⟩

theorem FitInv.step_cut {b : RecvBuffer} {c : List UInt8} {h : List EasyPacket} {t : State}
    (hs : FitInv .cut b c) (hst : step _HandlePacket ⟨.cut, b, c, h⟩ = some t) :
    FitInv t.pc t.buf t.pData := by
  obtain ⟨hmax, hc, hfit⟩ := hs
  by_cases hd : Dispatches ⟨.cut, b, c, h⟩
  · obtain ⟨n, hn, hle⟩ := (dispatches_iff hmax).mp hd
    obtain ⟨b', hst', hl, hb'⟩ := step_cut_dispatch (R := c) (h := h) hmax hn hle
    obtain rfl := Option.some.inj (hst'.symm.trans hst)
    change FitInv .cut b' c
    refine ⟨by rw [hl]; exact Nat.le_trans (Nat.sub_le ..) hmax, hc, ?_⟩
    change packetFraming.Stuck b'.buffered ∨ CopiesFit (packetFraming.rest b'.buffered) c
    -- a turn that removes nothing keeps the buffer as it is
    rcases Nat.eq_zero_or_pos n with rfl | hpos
    · rwa [hb', List.drop_zero]
    · have hf : packetFraming.front b.buffered = some n :=
        packetFraming.front_eq_some.mpr ⟨hn, hpos, by rwa [b.length_buffered hmax]⟩
      rwa [hb', ← packetFraming.stuck_of_front hf, ← packetFraming.rest_of_front hf]
  · obtain ⟨hf, h0⟩ := front_of_not_dispatches hmax hd
    obtain rfl := Option.some.inj ((step_cut_leave rfl hd).symm.trans hst)
    dsimp only at hfit
    rw [Framing.Stuck, packetFraming.rest_of_front_none hf, or_iff_right h0] at hfit
    -- the call ends, or goes round with the rest of the chunk
    by_cases hnil : c = []
    · simp only [leave, if_pos hnil]
      exact ⟨hmax, hc, trivial⟩
    · simp only [leave, if_neg hnil]
      exact ⟨hmax, hc, hfit⟩

-- A call whose copies fit keeps inside `m_RecvBuf` wherever it comes to.
theorem safe_of_copiesFit {b : RecvBuffer} {c : List UInt8} {t : State}
    (hmax : b.m_iRecvBufLen ≤ MAX_INPUT_BUFFER) (hc : c.length < 2 ^ 16)
    (hfit : CopiesFit b.buffered c) (ht : Reaches (step _HandlePacket) (start b c) t) :
    t.pc ≠ .undefined ∧ t.buf.m_iRecvBufLen ≤ MAX_INPUT_BUFFER := by
  have hinv : FitInv t.pc t.buf t.pData := by
    refine Reaches.invariant (I := fun t ↦ FitInv t.pc t.buf t.pData) ht
      ⟨hmax, hc, hfit⟩ fun s u hs hsu ↦ ?_
    obtain ⟨pc, b, R, h⟩ := s
    cases pc with
    | copy => exact hs.step_copy hsu
    | cut => exact hs.step_cut hsu
    | returned => rw [step_eq_none (.inl rfl)] at hsu; cases hsu
    | undefined => rw [step_eq_none (.inr rfl)] at hsu; cases hsu
  obtain ⟨hlen, -, hpc⟩ := hinv
  refine ⟨fun hu ↦ ?_, hlen⟩
  rw [hu] at hpc
  exact hpc

/-! ## 2. Successive calls -/

theorem fresh_buffered (s : EasySession) :
    s.fresh.1.m_iRecvBufLen = 0 ∧ s.fresh.1.buffered = [] := ⟨rfl, List.take_zero⟩

theorem rest_nil : packetFraming.rest [] = [] :=
  packetFraming.rest_of_front_none rfl

theorem frames_nil : packetFraming.frames [] = [] :=
  packetFraming.frames_of_front_none rfl

/-- **After the calls with the chunks `cs`** from an empty buffer, it holds what cutting the bytes
received leaves, and the packets it cuts off have been handled. -/
theorem calls_spec_of_empty {b : RecvBuffer} (hb : b.m_iRecvBufLen = 0) {cs : List (List UInt8)}
    {u : RecvBuffer × List EasyPacket} (h : Path Receives (b, []) cs u)
    (hcs : ∀ c ∈ cs, c.length < 2 ^ 16) :
    u.1.m_iRecvBufLen ≤ MAX_INPUT_BUFFER ∧
      u.1.buffered = packetFraming.rest cs.flatten ∧ ¬ packetFraming.Stuck cs.flatten ∧
      (NoWrap cs.flatten →
        u.2 = (packetFraming.frames cs.flatten).map EasyPacket.ofBytes) := by
  induction h with
  | nil =>
      refine ⟨by rw [hb]; exact Nat.zero_le _, ?_, ?_, fun _ ↦ ?_⟩
      · rw [b.buffered_of_eq_zero hb, List.flatten_nil, rest_nil]
      · rw [List.flatten_nil, Framing.Stuck, rest_nil]
        decide
      · rw [List.flatten_nil, frames_nil]
        rfl
  | @snoc cs t u c hpath hstep ih =>
      obtain ⟨hmax, hbuf, hstuck, hps⟩ :=
        ih fun c' hc' ↦ hcs c' (List.mem_append_left _ hc')
      obtain ⟨-, hstuck', hmax', hbuf', hps'⟩ :=
        Receives.spec hstep hmax (hcs c (List.mem_append_right _ (List.mem_singleton_self c)))
      rw [hbuf] at hbuf' hstuck' hps'
      rw [List.flatten_concat]
      refine ⟨hmax', ?_, ?_, fun hwrap ↦ ?_⟩
      · rw [hbuf', ← packetFraming.rest_append]
      · rwa [packetFraming.stuck_rest_append] at hstuck'
      · rw [hps' (Framing.Always.rest_append _ hwrap), hps hwrap.append_left,
          packetFraming.frames_append cs.flatten c, List.map_append]

theorem calls_spec {s : EasySession} {cs : List (List UInt8)} {u : RecvBuffer × List EasyPacket}
    (h : Path Receives s.fresh cs u) (hcs : ∀ c ∈ cs, c.length < 2 ^ 16) :
    u.1.m_iRecvBufLen ≤ MAX_INPUT_BUFFER ∧
      u.1.buffered = packetFraming.rest cs.flatten ∧ ¬ packetFraming.Stuck cs.flatten ∧
      (NoWrap cs.flatten →
        u.2 = (packetFraming.frames cs.flatten).map EasyPacket.ofBytes) :=
  calls_spec_of_empty (fresh_buffered s).1 h hcs

theorem chunks_short {chunks cs : List (List UInt8)} {c : List UInt8}
    (hchunks : ∀ c ∈ chunks, c.length < 2 ^ 16) (hcs : cs ++ [c] <+: chunks) :
    (∀ c' ∈ cs, c'.length < 2 ^ 16) ∧ c.length < 2 ^ 16 := by
  have h := fun c' hc' ↦ hchunks c' (hcs.subset hc')
  exact ⟨fun c' hc' ↦ h c' (List.mem_append_left _ hc'),
    h c (List.mem_append_right _ (List.mem_singleton_self c))⟩

-- If every call finds room, and none turns round forever, all of them return.
theorem exists_calls {b : RecvBuffer} (hb : b.m_iRecvBufLen = 0) {chunks : List (List UInt8)}
    (hchunks : ∀ c ∈ chunks, c.length < 2 ^ 16)
    (hfit : ∀ cs c u, cs ++ [c] <+: chunks → Path Receives (b, []) cs u →
      CopiesFit u.1.buffered c)
    {cs : List (List UInt8)} (hcs : cs <+: chunks) (hstuck : ¬ packetFraming.Stuck cs.flatten) :
    ∃ u, Path Receives (b, []) cs u := by
  induction cs using List.reverseRecOn with
  | nil => exact ⟨_, .nil⟩
  | append_singleton cs c ih =>
      rw [List.flatten_concat] at hstuck
      have hpre : cs <+: chunks := (List.prefix_append cs [c]).trans hcs
      have hshort := chunks_short hchunks hcs
      obtain ⟨⟨b', ps⟩, hpath⟩ := ih hpre fun hs ↦ hstuck (hs.append _ c)
      obtain ⟨hmax, hbuf, -, -⟩ := calls_spec_of_empty hb hpath hshort.1
      obtain ⟨u, hu⟩ := exists_receives ps hmax hshort.2 (hfit cs c _ hcs hpath)
        (by rwa [hbuf, packetFraming.stuck_rest_append])
      exact ⟨u, hpath.snoc hu⟩

end Fantuan
