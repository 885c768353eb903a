import Fantuan.Midware.Calls

/-!
# Reassembly — the packets a session handles are the packets that were sent

A stream of packets, each laid out as `SendData` lays it out and small enough for `m_RecvBuf`, is
cut into chunks in any way.  The session handles exactly the packets sent as long as every chunk
finds room; the copy length of the overflow branch of `OnData` is the only thing that can go wrong.
-/

open Lib StateTransition

namespace Fantuan

open OnData EasySession

/-- The bytes that sending `rs` puts on the wire. -/
def stream (rs : List SendRequest) : List UInt8 := (rs.map SendRequest.frame).flatten

/-- Those of `rs` whose packets lie wholly within the first `n` bytes of the stream. -/
def arrived (n : ℕ) (rs : List SendRequest) : List SendRequest :=
  Framing.within (fun r ↦ r.frame.length) n rs

/-- After each call with one of `chunks`, the packets handled so far are those that have wholly
arrived, and what is buffered is the rest of the bytes received. -/
def ReassemblyExact (s : EasySession) (rs : List SendRequest) (chunks : List (List UInt8)) : Prop :=
  ∀ cs, cs <+: chunks →
    ∃ b, Path Receives s.fresh cs (b, (arrived cs.flatten.length rs).map SendRequest.packet) ∧
      b.buffered = cs.flatten.drop (stream (arrived cs.flatten.length rs)).length

/-! ## 1. Streams of packets -/

section Stream

variable {rs : List SendRequest} (hrs : ∀ r ∈ rs, r.iLen ≤ MAX_INPUT_BUFFER - PACKET_HEAD)

include hrs

theorem isFrame_of_small {f : List UInt8} (hf : f ∈ rs.map SendRequest.frame) :
    packetFraming.IsFrame f := by
  rcases List.mem_map.mp hf with ⟨r, hr, rfl⟩
  have h := hrs r hr
  apply r.isFrame
  simp only [MAX_INPUT_BUFFER, PACKET_HEAD] at *
  omega

theorem noWrap_stream : NoWrap (stream rs) := by
  induction rs with
  | nil => exact noWrap_nil
  | cons r rs ih =>
      have hframe := isFrame_of_small hrs (List.mem_map_of_mem (List.mem_cons_self ..))
      have hlen := congrArg EasyPacket.m_iLen (ofBytes_frame_append r (stream rs))
      change uint16At (r.frame ++ stream rs) 2 = r.iLen at hlen
      show NoWrap (r.frame ++ stream rs)
      rw [noWrap_of_front (hframe.front_append _ _), hlen]
      constructor
      · intro _
        have hr := hrs r (List.mem_cons_self ..)
        simp only [MAX_INPUT_BUFFER, PACKET_HEAD] at *
        omega
      · rw [List.drop_left]
        exact ih fun r' hr' ↦ hrs r' (List.mem_cons_of_mem r hr')

variable {chunks cs : List (List UInt8)} (hcut : chunks.flatten = stream rs) (hcs : cs <+: chunks)

include hcut hcs

omit hrs in
theorem flatten_eq_take : cs.flatten = (stream rs).take cs.flatten.length := by
  rcases hcs with ⟨later, rfl⟩
  rw [← hcut, List.flatten_append, List.take_left]

theorem noWrap_received : NoWrap cs.flatten := by
  have h := noWrap_stream hrs
  rw [flatten_eq_take hcut hcs]
  rw [← List.take_append_drop cs.flatten.length (stream rs)] at h
  exact h.append_left

-- Cutting the bytes received gives the packets that have wholly arrived.
theorem frames_received :
    packetFraming.frames cs.flatten =
      (arrived cs.flatten.length rs).map SendRequest.frame := by
  conv_lhs => rw [flatten_eq_take hcut hcs]
  show packetFraming.frames ((rs.map SendRequest.frame).flatten.take _) = _
  rw [packetFraming.frames_take_flatten fun f ↦ isFrame_of_small hrs, Framing.within_map]
  rfl

theorem packets_received :
    (packetFraming.frames cs.flatten).map EasyPacket.ofBytes =
      (arrived cs.flatten.length rs).map SendRequest.packet := by
  rw [frames_received hrs hcut hcs, List.map_map]
  apply List.map_congr_left
  intro r _
  have h := ofBytes_frame_append r []
  rwa [List.append_nil] at h

theorem rest_received :
    packetFraming.rest cs.flatten =
      cs.flatten.drop (stream (arrived cs.flatten.length rs)).length := by
  rw [packetFraming.rest_eq_drop, frames_received hrs hcut hcs]
  rfl

end Stream

-- Chunks that are the first part of a stream.
theorem packets_of_stream {chunks : List (List UInt8)} {rest : List UInt8} {rs : List SendRequest}
    (hrs : ∀ r ∈ rs, r.iLen ≤ MAX_INPUT_BUFFER - PACKET_HEAD)
    (hsent : chunks.flatten ++ rest <+: stream rs) :
    NoWrap chunks.flatten ∧ (packetFraming.frames chunks.flatten).map EasyPacket.ofBytes =
      (arrived chunks.flatten.length rs).map SendRequest.packet := by
  obtain ⟨later, hlater⟩ := hsent
  have hcut : (chunks ++ [rest, later]).flatten = stream rs := by
    rw [List.flatten_append, ← hlater]
    simp only [List.flatten_cons, List.flatten_nil, List.append_nil, List.append_assoc]
  have hpre : chunks <+: chunks ++ [rest, later] := List.prefix_append _ _
  exact ⟨noWrap_received hrs hcut hpre, packets_received hrs hcut hpre⟩

/-! ## 2. Exactness -/

/-- **Reassembly.**  For packets whose header and payload fit `m_RecvBuf`, and any cutting of their
bytes into chunks of 1 to 1024 bytes, reassembly is exact if and only if the copies fit. -/
theorem reassembly_exact_iff (s : EasySession) (rs : List SendRequest)
    (chunks : List (List UInt8)) (hrs : ∀ r ∈ rs, r.iLen ≤ MAX_INPUT_BUFFER - PACKET_HEAD)
    (hcut : chunks.flatten = stream rs)
    (hchunks : ∀ c ∈ chunks, 1 ≤ c.length ∧ c.length ≤ MAX_INPUT_BUFFER) :
    ReassemblyExact s rs chunks ↔ CopiesFitAll chunks := by
  have hlt : ∀ c ∈ chunks, c.length < 2 ^ 16 := fun c hc ↦
    Nat.lt_of_le_of_lt (hchunks c hc).2 (by decide)
  have hstuck : ∀ cs, cs <+: chunks → ¬ packetFraming.Stuck cs.flatten := fun cs hcs ↦
    (noWrap_received hrs hcut hcs).not_stuck
  constructor
  · -- a call that returned found room for its copies
    intro hexact cs c hcs _
    rcases hexact (cs ++ [c]) hcs with ⟨b, hpath, -⟩
    rcases path_snoc.mp hpath with ⟨u, hu, hc⟩
    have hshort := chunks_short hlt hcs
    have hspec := calls_spec hu hshort.1
    rw [← hspec.2.1]
    exact (Receives.spec hc hspec.1 hshort.2).1
  · -- calls that find room return, and what they do is read off the bytes received
    intro hfit cs hcs
    have hfit' : ∀ cs c u, cs ++ [c] <+: chunks → Path Receives s.fresh cs u →
        CopiesFit u.1.buffered c := by
      intro cs c u hpre hu
      have hcs' : cs <+: chunks := (List.prefix_append cs [c]).trans hpre
      rw [(calls_spec hu (chunks_short hlt hpre).1).2.1]
      exact hfit cs c hpre (hstuck cs hcs')
    rcases exists_calls (fresh_buffered s).1 hlt hfit' hcs (hstuck cs hcs) with ⟨⟨b, ps⟩, hpath⟩
    have hspec := calls_spec hpath fun c hc ↦ hlt c (hcs.subset hc)
    have hps : ps = (packetFraming.frames cs.flatten).map EasyPacket.ofBytes :=
      hspec.2.2.2 (noWrap_received hrs hcut hcs)
    rw [packets_received hrs hcut hcs] at hps
    subst hps
    exact ⟨b, hpath, hspec.2.1.trans (rest_received hrs hcut hcs)⟩

/-- One packet that arrives in two chunks. -/
theorem reassembly_exact_two_chunks :
    ReassemblyExact zeroSession [⟨5, [7, 9], by decide, by decide⟩]
      [[5, 0, 2], [0, 7, 9]] :=
  (reassembly_exact_iff zeroSession [⟨5, [7, 9], by decide, by decide⟩] [[5, 0, 2], [0, 7, 9]]
    (by decide) (by decide) (by decide)).mpr (copiesFitAll_of_short (by decide))

/-- The largest packet that fits `m_RecvBuf`. -/
def fullPacket : SendRequest :=
  ⟨0, List.replicate 1020 0, by decide, by rw [List.length_replicate]; decide⟩

/-- Two such packets, cut after 1000 and after 1100 bytes. -/
def overrunChunks : List (List UInt8) :=
  [(stream [fullPacket, fullPacket]).take 1000,
    ((stream [fullPacket, fullPacket]).drop 1000).take 100,
    ((stream [fullPacket, fullPacket]).drop 1000).drop 100]

/-- 1000 bytes of a packet are buffered when 100 bytes come in: `OnData` copies the 76 bytes that
are too many into the 24 that are left. -/
theorem reassembly_overrun :
    (∀ r ∈ [fullPacket, fullPacket], r.iLen ≤ MAX_INPUT_BUFFER - PACKET_HEAD) ∧
      (∀ c ∈ overrunChunks, 1 ≤ c.length ∧ c.length ≤ MAX_INPUT_BUFFER) ∧
      overrunChunks.flatten = stream [fullPacket, fullPacket] ∧
      ¬ ReassemblyExact zeroSession [fullPacket, fullPacket] overrunChunks := by
  have hiLen : fullPacket.iLen = 1020 := List.length_replicate
  have hsmall : ∀ r ∈ [fullPacket, fullPacket], r.iLen ≤ MAX_INPUT_BUFFER - PACKET_HEAD := by
    simp only [List.mem_cons, List.not_mem_nil, or_false, or_self, forall_eq, hiLen]
    decide
  have hframe : fullPacket.frame.length = 1024 := by
    rw [fullPacket.length_frame, hiLen]
    rfl
  have hlen : (stream [fullPacket, fullPacket]).length = 2048 := by
    simp only [stream, List.map_cons, List.map_nil, List.flatten_cons, List.flatten_nil,
      List.append_nil, List.length_append, hframe]
  have hfirst : (stream [fullPacket, fullPacket]).take 1000 = fullPacket.frame.take 1000 :=
    List.take_append_of_le_length (by rw [hframe]; decide)
  unfold overrunChunks
  generalize stream [fullPacket, fullPacket] = S at *
  refine ⟨hsmall, ?_, ?_, ?_⟩
  · simp only [List.forall_mem_cons, List.not_mem_nil, false_implies, implies_true, and_true,
      List.length_take, List.length_drop, hlen]
    decide
  · simp only [List.flatten_cons, List.flatten_nil, List.append_nil, List.take_append_drop]
  · intro hexact
    have hfit : CopiesFit (S.take 1000) ((S.drop 1000).take 100) := by
      rcases hexact [S.take 1000, (S.drop 1000).take 100] ⟨[(S.drop 1000).drop 100], rfl⟩ with
        ⟨b, hpath, -⟩
      change Path Receives _ ([S.take 1000] ++ [(S.drop 1000).take 100]) _ at hpath
      rcases path_snoc.mp hpath with ⟨u, hu, hc⟩
      have hspec := calls_spec hu (by
        simp only [List.mem_singleton, forall_eq, List.length_take]; omega)
      have hwhole : packetFraming.IsFrame fullPacket.frame :=
        isFrame_of_small hsmall (List.mem_map_of_mem (List.mem_cons_self ..))
      have hrest : packetFraming.rest (S.take 1000) = S.take 1000 := by
        apply packetFraming.rest_of_front_none
        rw [hfirst]
        exact hwhole.front_take _ (by rw [hframe]; decide)
      have hbuf := hspec.2.1
      rw [List.flatten_singleton, hrest] at hbuf
      rw [← hbuf]
      exact (Receives.spec hc hspec.1 (by rw [List.length_take]; omega)).1
    rw [copiesFit_of_excess, excess_eq] at hfit <;>
      simp only [List.length_take, List.length_drop, hlen, MAX_INPUT_BUFFER] at *
    · omega
    · omega

end Fantuan
