import Fantuan.Midware.Reassembly

/-!
# easy_baseclient.cpp — the receive side of the client

`EasyBaseClient::_OnCommandOnData` is `EasySession::OnData` over again, with a `uint16` for `iLen`.
Its `m_RecvBuf` has the size of the server's, which is made for packets from the client, and is too
small for packets from the server.
-/

open Lib StateTransition

namespace Fantuan

namespace EasyBaseClient

/-! ## 1. `_OnCommandOnData` -/

/-- Step 1 of the outer loop.  `m_iRecvBufLen + iLen` is an `int` here. -/
def copyIn (b : RecvBuffer) (pData : List UInt8) : Option (RecvBuffer × List UInt8) :=
  let iLen := pData.length
  if b.m_iRecvBufLen + iLen ≤ MAX_INPUT_BUFFER then do
    let m_RecvBuf ← b.m_RecvBuf.memcpy b.m_iRecvBufLen pData iLen
    some (⟨uint16 (b.m_iRecvBufLen + iLen), m_RecvBuf⟩, pData.drop iLen)
  else do
    let iCopyLen := uint16 (b.m_iRecvBufLen + iLen - MAX_INPUT_BUFFER)
    let m_RecvBuf ← b.m_RecvBuf.memcpy b.m_iRecvBufLen pData iCopyLen
    some (⟨uint16 (b.m_iRecvBufLen + iCopyLen), m_RecvBuf⟩, pData.drop iCopyLen)

/-- One step of `_OnCommandOnData`; what it returns is not used by its caller. -/
def step (handlePacket : List EasyPacket → ℤ) (s : OnData.State) : Option OnData.State :=
  match s.pc with
  | .copy =>
      match copyIn s.buf s.pData with
      | some (buf, pData) => some { s with pc := .cut, buf, pData }
      | none => some { s with pc := .undefined }
  | .cut =>
      if OnData.Dispatches s then
        let handled := s.handled ++ [EasyPacket.ofBytes s.buf.m_RecvBuf.data]
        if handlePacket handled ≠ 0 then
          some { s with pc := .returned, handled }
        else
          match s.buf.cutOut (iFullLength s.buf.m_RecvBuf.data) with
          | some buf => some { s with buf, handled }
          | none => some { s with pc := .undefined, handled }
      else some (OnData.leave s)
  | .returned => none
  | .undefined => none

/-- `EasyBaseClient::_HandlePacket` returns 0 for every packet. -/
def _HandlePacket (_ : List EasyPacket) : ℤ := 0

def _OnCommandOnData (b : RecvBuffer) (pData : List UInt8) : Part OnData.State :=
  eval (step _HandlePacket) (OnData.start b pData)

/-- A call that returns. -/
def Receives (s : RecvBuffer × List EasyPacket) (pData : List UInt8)
    (s' : RecvBuffer × List EasyPacket) : Prop :=
  ∃ t ∈ _OnCommandOnData s.1 pData, t.pc = .returned ∧ s' = (t.buf, s.2 ++ t.handled)

/-- After the calls with `chunks`, all of which return, the packet `r` has been handled, and no
other. -/
def Delivered (b : RecvBuffer) (r : SendRequest) (chunks : List (List UInt8)) : Prop :=
  ∃ b', Path Receives (b, []) chunks (b', [r.packet])

/-! ## 2. The client computes what the session computes -/

/-- What `uint16` can hold. -/
def Short (s : OnData.State) : Prop := s.buf.m_iRecvBufLen < 2 ^ 16 ∧ s.pData.length < 2 ^ 16

theorem copyIn_eq {b : RecvBuffer} {pData : List UInt8} (hb : b.m_iRecvBufLen < 2 ^ 16)
    (hlen : pData.length < 2 ^ 16) : copyIn b pData = b.copyIn pData := by
  have hsum : uint32 (b.m_iRecvBufLen + pData.length) = b.m_iRecvBufLen + pData.length :=
    uint32_of_lt (by omega)
  simp only [copyIn, RecvBuffer.copyIn, hsum]

variable {handlePacket : List EasyPacket → ℤ} {s t : OnData.State}

theorem step_eq (hs : Short s) : step handlePacket s = OnData.step handlePacket s := by
  cases hpc : s.pc with
  | copy =>
      have hcopy := copyIn_eq hs.1 hs.2
      cases hc : s.buf.copyIn s.pData with
      | none => simp only [step, OnData.step, hpc, hcopy, hc]
      | some u => simp only [step, OnData.step, hpc, hcopy, hc]
  | cut =>
      cases hc : s.buf.cutOut (iFullLength s.buf.m_RecvBuf.data) with
      | none => simp only [step, OnData.step, hpc, hc]
      | some b => simp only [step, OnData.step, hpc, hc]
  | returned => simp only [step, OnData.step, hpc]
  | undefined => simp only [step, OnData.step, hpc]

theorem length_copyIn {b b' : RecvBuffer} {pData rest : List UInt8}
    (h : b.copyIn pData = some (b', rest)) :
    b'.m_iRecvBufLen < 2 ^ 16 ∧ rest.length ≤ pData.length := by
  rw [b.copyIn_eq, Option.map_eq_some_iff] at h
  cases h with
  | intro m h =>
      cases h.2
      refine ⟨Nat.mod_lt _ (by decide), ?_⟩
      rw [List.length_drop]
      omega

theorem length_cutOut {b b' : RecvBuffer} {n : ℕ} (h : b.cutOut n = some b') :
    b'.m_iRecvBufLen ≤ b.m_iRecvBufLen := by
  unfold RecvBuffer.cutOut at h
  split at h
  · rw [Option.bind_eq_bind, Option.bind_eq_some_iff] at h
    cases h with
    | intro m h =>
        cases h.2
        exact Nat.sub_le _ _
  · cases h
    exact Nat.sub_le _ _

theorem Short.step (hs : Short s) (h : OnData.step handlePacket s = some t) : Short t := by
  cases hpc : s.pc with
  | copy =>
      cases hc : s.buf.copyIn s.pData with
      | none =>
          simp only [OnData.step, hpc, hc, Option.some.injEq] at h
          subst h
          exact hs
      | some p =>
          simp only [OnData.step, hpc, hc, Option.some.injEq] at h
          subst h
          have hlen := length_copyIn hc
          exact ⟨hlen.1, Nat.lt_of_le_of_lt hlen.2 hs.2⟩
  | cut =>
      simp only [OnData.step, hpc] at h
      split at h
      · split at h
        · cases h
          exact hs
        · split at h
          · rename_i hcut
            cases h
            exact ⟨Nat.lt_of_le_of_lt (length_cutOut hcut) hs.1, hs.2⟩
          · cases h
            exact hs
      · cases h
        exact hs
  | returned =>
      simp only [OnData.step, hpc] at h
      cases h
  | undefined =>
      simp only [OnData.step, hpc] at h
      cases h

/-- **The client computes what the session computes**, whatever `_HandlePacket` returns. -/
theorem eval_step_eq (hs : Short s) :
    eval (step handlePacket) s = eval (OnData.step handlePacket) s :=
  eval_congr hs (fun _ h ↦ step_eq h) fun _ _ h hst ↦ h.step hst

theorem short_start {b : RecvBuffer} {pData : List UInt8}
    (hb : b.m_iRecvBufLen ≤ MAX_INPUT_BUFFER) (hlen : pData.length < 2 ^ 16) :
    Short (OnData.start b pData) :=
  ⟨Nat.lt_of_le_of_lt hb (by decide), hlen⟩

/-- **Client and server cut alike.**  From the same buffer and with the same chunk
`_OnCommandOnData` and `OnData` come through the same states, whatever `_HandlePacket` returns: they
handle the same packets, and end both or neither, with the same buffer. -/
theorem framing_agrees (handlePacket : List EasyPacket → ℤ) (b : RecvBuffer)
    (hb : b.m_iRecvBufLen ≤ MAX_INPUT_BUFFER) (pData : List UInt8) (hlen : pData.length < 2 ^ 16) :
    (∀ t, Reaches (step handlePacket) (OnData.start b pData) t ↔
        Reaches (OnData.step handlePacket) (OnData.start b pData) t) ∧
      ((eval (step handlePacket) (OnData.start b pData)).Dom ↔
        (eval (OnData.step handlePacket) (OnData.start b pData)).Dom) ∧
      ∀ t, t ∈ eval (step handlePacket) (OnData.start b pData) ↔
        t ∈ eval (OnData.step handlePacket) (OnData.start b pData) := by
  have hs := short_start hb hlen
  have heval : eval (step handlePacket) (OnData.start b pData) =
      eval (OnData.step handlePacket) (OnData.start b pData) := eval_step_eq hs
  refine ⟨fun t ↦ ?_, ?_, fun t ↦ ?_⟩
  · exact reaches_congr hs (fun _ h ↦ step_eq h) fun _ _ h hst ↦ h.step hst
  · rw [heval]
  · rw [heval]

/-- A header that announces 65532 bytes, and a handler that refuses the second packet. -/
theorem framing_agrees_wrapping :
    (eval (step fun handled ↦ if handled.length = 2 then 1 else 0)
        (OnData.start zeroSession.toRecvBuffer [0, 0, 252, 255])).Dom ↔
      (eval (OnData.step fun handled ↦ if handled.length = 2 then 1 else 0)
        (OnData.start zeroSession.toRecvBuffer [0, 0, 252, 255])).Dom :=
  (framing_agrees (fun handled ↦ if handled.length = 2 then 1 else 0) zeroSession.toRecvBuffer
    (by decide) [0, 0, 252, 255] (by decide)).2.1

theorem receives_iff {u v : RecvBuffer × List EasyPacket} {c : List UInt8}
    (hu : u.1.m_iRecvBufLen ≤ MAX_INPUT_BUFFER) (hc : c.length < 2 ^ 16) :
    Receives u c v ↔ Fantuan.Receives u c v := by
  have heq : _OnCommandOnData u.1 c = EasySession.OnData u.1 c := eval_step_eq (short_start hu hc)
  unfold Receives Fantuan.Receives
  rw [heq]

theorem path_iff {b : RecvBuffer} (hb : b.m_iRecvBufLen = 0) {cs : List (List UInt8)}
    (hcs : ∀ c ∈ cs, c.length < 2 ^ 16) {u : RecvBuffer × List EasyPacket} :
    Path Receives (b, []) cs u ↔ Path Fantuan.Receives (b, []) cs u := by
  induction cs using List.reverseRecOn generalizing u with
  | nil => rw [path_nil, path_nil]
  | append_singleton cs c ih =>
      have hcs' : ∀ c' ∈ cs, c'.length < 2 ^ 16 := fun c' hc' ↦ hcs c' (List.mem_append_left _ hc')
      have hc := hcs c (List.mem_append_right _ (List.mem_singleton_self c))
      rw [path_snoc, path_snoc]
      apply exists_congr
      intro v
      rw [ih hcs']
      apply and_congr_right
      intro hv
      exact receives_iff (calls_spec_of_empty hb hv hcs').1 hc

/-! ## 3. One packet -/

section Packet

variable {r : SendRequest} {chunks : List (List UInt8)}
  (hframe : PACKET_HEAD + r.iLen ≤ MAX_OUTPUT_BUFFER) (hcut : chunks.flatten = r.frame)

include hframe

theorem isFrame_of_output : packetFraming.IsFrame r.frame :=
  r.isFrame (Nat.lt_of_le_of_lt hframe (by decide))

theorem front_of_output : packetFraming.front r.frame = some r.frame.length := by
  have hfront := (isFrame_of_output hframe).front_append _ []
  rwa [List.append_nil] at hfront

include hcut

theorem noWrap_of_whole : NoWrap chunks.flatten := by
  have hlen := congrArg EasyPacket.m_iLen (ofBytes_frame_append r [])
  change uint16At (r.frame ++ []) 2 = r.iLen at hlen
  rw [List.append_nil] at hlen
  rw [hcut, noWrap_of_front (front_of_output hframe), hlen, List.drop_length, Nat.add_comm]
  exact ⟨fun _ ↦ Nat.lt_of_le_of_lt hframe (by decide), noWrap_nil⟩

theorem packet_of_whole :
    (packetFraming.frames chunks.flatten).map EasyPacket.ofBytes = [r.packet] := by
  have h := ofBytes_frame_append r []
  rw [List.append_nil] at h
  rw [hcut, packetFraming.frames_of_front (front_of_output hframe), List.take_length,
    List.drop_length, frames_nil, List.map_singleton, h]

-- A packet that comes in one piece is handled at once.
omit hframe hcut in
theorem exists_handled {b : RecvBuffer} (hb : b.m_iRecvBufLen = 0)
    (hfits : PACKET_HEAD + r.iLen ≤ MAX_INPUT_BUFFER) :
    ∃ u ∈ EasySession.OnData b r.frame, u.pc = .returned ∧ u.handled = [r.packet] := by
  have hin : MAX_INPUT_BUFFER = 1024 := rfl
  have hframe : PACKET_HEAD + r.iLen ≤ MAX_OUTPUT_BUFFER := Nat.le_trans hfits (by decide)
  have hwhole : [r.frame].flatten = r.frame := List.flatten_singleton
  have hwrap := noWrap_of_whole hframe hwhole
  have hpacket := packet_of_whole hframe hwhole
  rw [hwhole] at hwrap hpacket
  have hbuffered := b.buffered_of_eq_zero hb
  have hmax : b.m_iRecvBufLen ≤ MAX_INPUT_BUFFER := by rw [hb]; exact Nat.zero_le _
  have hshort : r.frame.length < 2 ^ 16 := by rw [r.length_frame]; omega
  have hroom : CopiesFit b.buffered r.frame := by
    apply copiesFit_of_le
    rw [hbuffered, List.length_nil, Nat.zero_add, r.length_frame]
    exact hfits
  have hstuck : ¬ packetFraming.Stuck (b.buffered ++ r.frame) := by
    rw [hbuffered]
    exact hwrap.not_stuck
  obtain ⟨v, hv⟩ := exists_receives [] hmax hshort hroom hstuck
  have hspec := (hv.spec hmax hshort).2.2.2.2
  obtain ⟨u, hu, hpc, rfl⟩ := hv
  rw [hbuffered] at hspec
  exact ⟨u, hu, hpc, (hspec hwrap).trans hpacket⟩

end Packet

/-! ## 4. Room for it -/

theorem rest_of_part {f B c : List UInt8} (hf : packetFraming.IsFrame f) (hcat : B ++ c = f)
    (hlt : B.length < f.length) : packetFraming.rest B = B ∧ ¬ packetFraming.Stuck B := by
  have hB : f.take B.length = B := by
    rw [← hcat, List.take_left]
  have hfront : packetFraming.front B = none := by
    rw [← hB]
    exact hf.front_take _ hlt
  have hrest := packetFraming.rest_of_front_none hfront
  refine ⟨hrest, fun hstuck ↦ ?_⟩
  -- the header would announce 0, and not the length of the frame
  rw [Framing.Stuck, hrest] at hstuck
  have hzero := packetFraming.frameLen_append c hstuck
  rw [hcat, hf.1, Option.some.injEq] at hzero
  omega

-- A packet that is larger than `m_RecvBuf` does not find room, however it is cut: the copies
-- would have to bring all of it into the buffer.  Induction on what is left of the chunk.
theorem not_copiesFit_of_long {f B c : List UInt8} (hf : packetFraming.IsFrame f)
    (hlong : MAX_INPUT_BUFFER < f.length) (hcat : B ++ c = f) : ¬ CopiesFit B c := by
  induction hn : c.length using Nat.strongRecOn generalizing B c with
  | ind n ih =>
      have hlen : B.length + c.length = f.length := by
        rw [← hcat, List.length_append]
      rw [copiesFit_of_excess (by omega)]
      have hex := excess_eq B c
      generalize excess B c = k at hex
      intro h
      have hpart : B ++ c.take k ++ c.drop k = f := by
        rw [List.append_assoc, List.take_append_drop, hcat]
      have hlt : (B ++ c.take k).length < f.length := by
        rw [List.length_append, List.length_take]
        omega
      have hrest := rest_of_part hf hpart hlt
      cases h.2 with
      | inl hstuck => exact hrest.2 hstuck
      | inr hfit =>
          rw [hrest.1] at hfit
          apply ih (c.drop k).length _ hpart rfl hfit
          rw [List.length_drop]
          omega

section Delivery

variable {b : RecvBuffer} {r : SendRequest} {chunks : List (List UInt8)}
  (hb : b.m_iRecvBufLen = 0) (hframe : PACKET_HEAD + r.iLen ≤ MAX_OUTPUT_BUFFER)
  (hcut : chunks.flatten = r.frame)
  (hchunks : ∀ c ∈ chunks, 1 ≤ c.length ∧ c.length ≤ MAX_INPUT_BUFFER)

include hb hframe hcut hchunks

-- The last call found room, with everything before it buffered.
theorem fits_of_delivered (h : Delivered b r chunks) :
    PACKET_HEAD + r.iLen ≤ MAX_INPUT_BUFFER := by
  have hlt : ∀ c ∈ chunks, c.length < 2 ^ 16 := fun c hc ↦
    Nat.lt_of_le_of_lt (hchunks c hc).2 (by decide)
  have hwhole := isFrame_of_output hframe
  have hpos := hwhole.2
  apply Nat.le_of_not_lt
  intro hlong
  rw [← r.length_frame] at hlong
  cases h with
  | intro b' h =>
      rw [path_iff hb hlt] at h
      rcases List.eq_nil_or_concat chunks with rfl | ⟨cs, c, rfl⟩
      · rw [← hcut, List.flatten_nil, List.length_nil] at hpos
        omega
      · rw [List.concat_eq_append] at *
        rcases path_snoc.mp h with ⟨u, hu, hc⟩
        have hshort := chunks_short hlt (List.prefix_refl _)
        have hspec := calls_spec_of_empty hb hu hshort.1
        rw [List.flatten_concat] at hcut
        have hlast := hchunks c (List.mem_append_right _ (List.mem_singleton_self c))
        have hrest := rest_of_part hwhole hcut (by
          rw [← hcut, List.length_append]
          omega)
        have hfit := (Receives.spec hc hspec.1 hshort.2).1
        rw [hspec.2.1, hrest.1] at hfit
        exact not_copiesFit_of_long hwhole hlong hcut hfit

theorem delivered_of_fits (hfit : PACKET_HEAD + r.iLen ≤ MAX_INPUT_BUFFER) :
    Delivered b r chunks := by
  have hlt : ∀ c ∈ chunks, c.length < 2 ^ 16 := fun c hc ↦
    Nat.lt_of_le_of_lt (hchunks c hc).2 (by decide)
  have hstuck : ¬ packetFraming.Stuck chunks.flatten := (noWrap_of_whole hframe hcut).not_stuck
  have hroom : ∀ cs c u, cs ++ [c] <+: chunks → Path Fantuan.Receives (b, []) cs u →
      CopiesFit u.1.buffered c := by
    intro cs c u hcs hu
    have hspec := calls_spec_of_empty hb hu (chunks_short hlt hcs).1
    rw [hspec.2.1]
    apply copiesFitAll_of_short _ cs c hcs hspec.2.2.1
    rw [hcut, r.length_frame]
    exact hfit
  rcases exists_calls hb hlt hroom (List.prefix_refl _) hstuck with ⟨⟨b', ps⟩, hpath⟩
  have hspec := calls_spec_of_empty hb hpath hlt
  have hps : ps = [r.packet] :=
    (hspec.2.2.2 (noWrap_of_whole hframe hcut)).trans (packet_of_whole hframe hcut)
  subst hps
  exact ⟨b', (path_iff hb hlt).mpr hpath⟩

end Delivery

/-- **Server-to-client packets.**  A packet that the server can frame reaches the handler, in chunks
of 1 to 1024 bytes, if and only if it fits the client's `m_RecvBuf`. -/
theorem delivered_iff (b : RecvBuffer) (hb : b.m_iRecvBufLen = 0) (r : SendRequest)
    (hframe : PACKET_HEAD + r.iLen ≤ MAX_OUTPUT_BUFFER) (chunks : List (List UInt8))
    (hcut : chunks.flatten = r.frame)
    (hchunks : ∀ c ∈ chunks, 1 ≤ c.length ∧ c.length ≤ MAX_INPUT_BUFFER) :
    Delivered b r chunks ↔ PACKET_HEAD + r.iLen ≤ MAX_INPUT_BUFFER :=
  ⟨fits_of_delivered hb hframe hcut hchunks, delivered_of_fits hb hframe hcut hchunks⟩

/-- A packet of two bytes that arrives in two chunks. -/
theorem delivered_two_chunks :
    Delivered zeroSession.toRecvBuffer ⟨5, [7, 9], by decide, by decide⟩ [[5, 0, 2], [0, 7, 9]] :=
  (delivered_iff zeroSession.toRecvBuffer rfl ⟨5, [7, 9], by decide, by decide⟩ (by decide)
    [[5, 0, 2], [0, 7, 9]] (by decide) (by decide)).mpr (by decide)

/-- The smallest packet that does not fit. -/
def longPacket : SendRequest :=
  ⟨3, List.replicate 1021 0, by decide, by rw [List.length_replicate]; decide⟩

/-- 1025 bytes from the server, in chunks of 1000 and of 25 bytes. -/
theorem not_delivered :
    PACKET_HEAD + longPacket.iLen ≤ MAX_OUTPUT_BUFFER ∧
      [longPacket.frame.take 1000, longPacket.frame.drop 1000].flatten = longPacket.frame ∧
      (∀ c ∈ [longPacket.frame.take 1000, longPacket.frame.drop 1000],
        1 ≤ c.length ∧ c.length ≤ MAX_INPUT_BUFFER) ∧
      ¬ Delivered zeroSession.toRecvBuffer longPacket
        [longPacket.frame.take 1000, longPacket.frame.drop 1000] := by
  have hiLen : longPacket.iLen = 1021 := List.length_replicate
  have hlen : longPacket.frame.length = 1025 := by
    rw [longPacket.length_frame, hiLen]
    rfl
  have hframe : PACKET_HEAD + longPacket.iLen ≤ MAX_OUTPUT_BUFFER := by
    rw [hiLen]
    decide
  have hcut : [longPacket.frame.take 1000, longPacket.frame.drop 1000].flatten =
      longPacket.frame := by
    simp only [List.flatten_cons, List.flatten_nil, List.append_nil, List.take_append_drop]
  have hchunks : ∀ c ∈ [longPacket.frame.take 1000, longPacket.frame.drop 1000],
      1 ≤ c.length ∧ c.length ≤ MAX_INPUT_BUFFER := by
    simp only [List.forall_mem_cons, List.not_mem_nil, false_implies, implies_true, and_true,
      List.length_take, List.length_drop, hlen]
    decide
  refine ⟨hframe, hcut, hchunks, fun h ↦ ?_⟩
  have hfit := fits_of_delivered rfl hframe hcut hchunks h
  rw [hiLen] at hfit
  exact absurd hfit (by decide)

end EasyBaseClient

end Fantuan
