import Fantuan.Midware.Server
import Fantuan.Midware.StreamCalls

/-!
# Frames of what a stream holds

`SendData` lays a packet out in a frame buffer: `m_SendBuf` of a session (Linux), or a local array
of the client.  The payload is the contents of an `OutputStream`.
-/

open Lib

namespace Fantuan

variable {n iTypeId iLen : ℕ} {buf t : Storage UInt8 n} {pData : List UInt8}

/-! ## 1. The frame buffer -/

/-- The statements of `SendData` that write to the frame buffer. -/
def layOut (buf : Storage UInt8 n) (iTypeId iLen : ℕ) (pData : List UInt8) :
    Option (Storage UInt8 n) := do
  let buf ← buf.write 2 (uint16Bytes iLen)
  let buf ← buf.write 0 (uint16Bytes iTypeId)
  buf.memcpy PACKET_HEAD pData iLen

/-- Where `EasyBaseClient::SendData` lays the packet out. -/
def EasyBaseClient.sendBuf : Storage UInt8 MAX_INPUT_BUFFER := .replicate MAX_INPUT_BUFFER 0

theorem length_uint16Bytes {k : ℕ} : (uint16Bytes k).length = 2 := rfl

theorem isSome_write {off : ℕ} {src : List UInt8} (h : off + src.length ≤ n) :
    ∃ t, buf.write off src = some t :=
  ⟨_, dif_pos h⟩

-- A packet is laid out inside the buffer exactly if it is not longer.
theorem isSome_layOut (h : iLen ≤ pData.length) :
    (layOut buf iTypeId iLen pData).isSome ↔ PACKET_HEAD + iLen ≤ n := by
  have hhead : PACKET_HEAD = 4 := rfl
  constructor
  · intro hsome
    obtain ⟨t, ht⟩ := Option.isSome_iff_exists.mp hsome
    simp only [layOut, Option.bind_eq_bind, Option.bind_eq_some_iff] at ht
    obtain ⟨_, -, b, -, hcopy⟩ := ht
    exact (Storage.memcpy_eq_some.mp hcopy).2.1
  · intro hfit
    obtain ⟨b, hb⟩ : ∃ b, buf.write 2 (uint16Bytes iLen) = some b :=
      isSome_write (by rw [length_uint16Bytes]; omega)
    obtain ⟨b', hb'⟩ : ∃ b', b.write 0 (uint16Bytes iTypeId) = some b' :=
      isSome_write (by rw [length_uint16Bytes]; omega)
    rw [layOut, hb, Option.bind_eq_bind, Option.bind_some, hb', Option.bind_some,
      Option.isSome_iff_ne_none]
    intro hnone
    rw [Storage.memcpy_eq_none] at hnone
    omega

-- What is laid out is the frame that is sent.
theorem take_of_layOut (r : SendRequest) (h : layOut buf r.iTypeId r.iLen r.pData = some t) :
    t.data.take (PACKET_HEAD + r.iLen) = r.frame := by
  simp only [layOut, Option.bind_eq_bind, Option.bind_eq_some_iff] at h
  obtain ⟨b, hb, b', hb', hcopy⟩ := h
  rw [Storage.take_of_memcpy hcopy, SendRequest.iLen, List.take_length, SendRequest.frame]
  congr 1
  obtain ⟨hin, hb⟩ := Storage.write_eq_some.mp hb
  obtain ⟨-, hb'⟩ := Storage.write_eq_some.mp hb'
  rw [length_uint16Bytes] at hin hb hb'
  have htwo : (buf.data.take 2).length = 2 := by
    rw [List.length_take, buf.length_data]
    omega
  -- the type is written in front of the length
  have hdrop : b.data.drop 2 = uint16Bytes r.iLen ++ buf.data.drop 4 := by
    rw [hb, List.append_assoc, List.drop_left' htwo]
  rw [hb', Nat.zero_add, List.take_zero, List.nil_append, hdrop, ← List.append_assoc]
  exact List.take_left' rfl

/-! ## 2. Contents of a stream -/

/-- How many bytes calls of `Serialize` copy. -/
def Value.total (vs : List Value) : ℕ := (vs.map fun v ↦ v.shape.size).sum

theorem length_of_calls {vs : List Value} {s : OutputStream} {oks : List Bool}
    (h : OutputStream.new.calls vs = some (s, oks)) (htrue : ∀ ok ∈ oks, ok = true) :
    s.m_iDataLength = Value.total vs := by
  obtain ⟨s', hs', hat⟩ := OutputStream.calls_at vs
  rw [h, Option.some.injEq, Prod.mk.injEq] at hs'
  obtain ⟨rfl, rfl⟩ := hs'
  rw [hat, Cursor.run_pos_of_all htrue]
  exact Nat.zero_add _

/-- `SendData` can lay out what is in the stream, whatever is in `m_SendBuf`. -/
def OutputStream.Framed (s : OutputStream) (iTypeId : ℕ) : Prop :=
  ∀ m_SendBuf : Storage UInt8 MAX_OUTPUT_BUFFER,
    (layOut m_SendBuf iTypeId s.GetDataLength s.GetBuffer).isSome

def OutputStream.FramedByClient (s : OutputStream) (iTypeId : ℕ) : Prop :=
  (layOut EasyBaseClient.sendBuf iTypeId s.GetDataLength s.GetBuffer).isSome

theorem OutputStream.length_le_of_calls {vs : List Value} {s : OutputStream} {oks : List Bool}
    (h : OutputStream.new.calls vs = some (s, oks)) : s.GetDataLength ≤ s.GetBuffer.length := by
  obtain ⟨s', hs', hat⟩ := OutputStream.calls_at vs
  rw [h, Option.some.injEq, Prod.mk.injEq] at hs'
  rw [OutputStream.GetBuffer, s.m_DataBuffer.length_data, OutputStream.GetDataLength, hs'.1, hat]
  exact Cursor.pos_le _

/-- **What a stream holds is framed** by the session exactly up to `MAX_OUTPUT_BUFFER` bytes with
the header, and by the client up to `MAX_INPUT_BUFFER`. -/
theorem built_stream_framed (vs : List Value) (s : OutputStream) (oks : List Bool)
    (h : OutputStream.new.calls vs = some (s, oks)) (htrue : ∀ ok ∈ oks, ok = true)
    (iTypeId : ℕ) :
    (s.Framed iTypeId ↔ PACKET_HEAD + Value.total vs ≤ MAX_OUTPUT_BUFFER) ∧
      (s.FramedByClient iTypeId ↔ PACKET_HEAD + Value.total vs ≤ MAX_INPUT_BUFFER) := by
  have hlen : s.GetDataLength = Value.total vs := length_of_calls h htrue
  have hbuf := OutputStream.length_le_of_calls h
  rw [← hlen]
  exact ⟨⟨fun hall ↦ (isSome_layOut hbuf).mp (hall (.replicate _ 0)),
    fun hfit m ↦ (isSome_layOut hbuf).mpr hfit⟩, isSome_layOut hbuf⟩

/-- A `uint32`. -/
theorem built_stream_framed_four :
    ∃ s oks, OutputStream.new.calls [⟨.scalar 4, [1, 0, 0, 0], rfl⟩] = some (s, oks) ∧
      s.Framed 7 ∧ s.FramedByClient 7 := by
  obtain ⟨s, hs, -⟩ := OutputStream.calls_at [⟨.scalar 4, [1, 0, 0, 0], rfl⟩]
  obtain ⟨hframed, hclient⟩ := built_stream_framed _ s _ hs (by decide) 7
  exact ⟨s, _, hs, hframed.mpr (by decide), hclient.mpr (by decide)⟩

/-- A stream that is full fits neither buffer. -/
theorem not_built_stream_framed :
    ¬ ∀ vs s oks, OutputStream.new.calls vs = some (s, oks) → (∀ ok ∈ oks, ok = true) →
      ∀ iTypeId, iTypeId < 2 ^ 16 → s.Framed iTypeId ∧ s.FramedByClient iTypeId := by
  intro h
  have hfull : (Cursor.start MAX_OUTPUT_BUFFER).pos + MAX_OUTPUT_BUFFER ≤ MAX_OUTPUT_BUFFER := by
    decide
  obtain ⟨s, hs, hat⟩ := OutputStream.calls_at
    [⟨.scalar MAX_OUTPUT_BUFFER, .replicate MAX_OUTPUT_BUFFER 0, List.length_replicate⟩]
  simp only [List.map_cons, List.map_nil, Cursor.run, Shape.size,
    Cursor.advance_of_le hfull] at hs hat
  have hlen : s.GetDataLength = MAX_OUTPUT_BUFFER := hat
  have hclient := (h _ s _ hs (fun ok hok ↦ List.mem_singleton.mp hok) 0 (by decide)).2
  have hfit := (isSome_layOut (OutputStream.length_le_of_calls hs)).mp hclient
  rw [hlen] at hfit
  exact absurd hfit (by decide)

end Fantuan
