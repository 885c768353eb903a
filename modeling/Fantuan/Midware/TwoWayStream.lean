import Fantuan.Lib.Runs
import Fantuan.Midware.StreamCalls

/-!
# easy_stream.h — the two-way stream

`Stream` writes to its buffer with the statements of `OutputStream` and reads from it with those of
`InputStream`.
-/

open Lib

namespace Fantuan

structure Stream where
  m_iDataLen : ℕ
  m_iDataIndex : ℕ
  m_pDataBuffer : Storage UInt8 MAX_OUTPUT_BUFFER

namespace Stream

/-! ## 1. Calls -/

/-- The default constructor, in memory that holds anything; it does not set `m_iDataIndex`. -/
def construct (memory : Stream) : Stream := { memory with m_iDataLen := 0 }

def asOutput (s : Stream) : OutputStream := ⟨s.m_iDataLen, s.m_pDataBuffer⟩

def asInput (s : Stream) : InputStream := ⟨s.m_iDataLen, s.m_iDataIndex, s.m_pDataBuffer.data⟩

def Serialize (s : Stream) (f : Field) : Option (Stream × Bool) :=
  (f.write s.asOutput).map fun r ↦
    ({ s with m_iDataLen := r.1.m_iDataLength, m_pDataBuffer := r.1.m_DataBuffer }, r.2)

def DeSerialize (s : Stream) (sh : Shape) : Option (Stream × Option (List UInt8)) :=
  (sh.read s.asInput).map fun r ↦ ({ s with m_iDataIndex := r.1.m_iDataIndex }, r.2)

/-- A call and its result. -/
inductive Call
  | Serialize (f : Field) (ok : Bool)
  | DeSerialize (sh : Shape) (r : Option (List UInt8))

inductive Step : Stream → Call → Stream → Prop
  | serialize {s t : Stream} {f : Field} {ok : Bool} (h : s.Serialize f = some (t, ok)) :
      Step s (.Serialize f ok) t
  | deSerialize {s t : Stream} {sh : Shape} {r : Option (List UInt8)}
      (h : s.DeSerialize sh = some (t, r)) : Step s (.DeSerialize sh r) t

def Call.wrote : Call → Option Field
  | Serialize f true => some f
  | _ => none

def Call.readOut : Call → List UInt8
  | DeSerialize _ (some data) => data
  | _ => []

/-- The fields written. -/
def wrote (cs : List Call) : List Field := cs.filterMap Call.wrote

/-- The bytes read. -/
def readOut (cs : List Call) : List UInt8 := cs.flatMap Call.readOut

/-- After some calls the stream behaves like a queue of the fields that were written. -/
structure Fifo (cs : List Call) (s : Stream) : Prop where
  index_le : s.m_iDataIndex ≤ s.m_iDataLen
  next : ∀ fs f fs', wrote cs = fs ++ f :: fs' → (Field.values fs).length = (readOut cs).length →
    ∃ t, s.DeSerialize f.shape = some (t, some f.value)
  refused : ∀ sh : Shape, (Field.values (wrote cs)).length < (readOut cs).length + sh.size →
    s.DeSerialize sh = some (s, none)

variable {s t : Stream} {cs : List Call} {f : Field} {sh : Shape} {ok : Bool}
  {r : Option (List UInt8)}

/-! ## 2. What one call does -/

theorem Serialize_of_fits (hfit : s.m_iDataLen + f.value.length ≤ MAX_OUTPUT_BUFFER) :
    ∃ t, s.Serialize f = some (t, true) ∧ t.m_iDataLen = s.m_iDataLen + f.value.length ∧
      t.m_iDataIndex = s.m_iDataIndex ∧ t.asOutput.written = s.asOutput.written ++ f.value := by
  have hput := s.asOutput.put_of_le (Nat.le_refl f.value.length) hfit
  rw [List.take_length, ← Field.write_eq_put] at hput
  obtain ⟨o, ho, hlen, hw⟩ := hput
  refine ⟨{ s with m_iDataLen := o.m_iDataLength, m_pDataBuffer := o.m_DataBuffer }, ?_, hlen, rfl,
    hw⟩
  rw [Serialize, ho]
  rfl

theorem Serialize_of_not_fits (hfit : MAX_OUTPUT_BUFFER < s.m_iDataLen + f.value.length) :
    s.Serialize f = some (s, false) := by
  rw [Serialize, Field.write_eq_put, OutputStream.put_of_lt hfit]
  rfl

theorem DeSerialize_of_le (hmax : s.m_iDataLen ≤ MAX_OUTPUT_BUFFER)
    (hfit : s.m_iDataIndex + sh.size ≤ s.m_iDataLen) :
    s.DeSerialize sh = some ({ s with m_iDataIndex := s.m_iDataIndex + sh.size },
      some ((s.m_pDataBuffer.data.drop s.m_iDataIndex).take sh.size)) := by
  have hlt : s.m_iDataLen < 2 ^ 16 := Nat.lt_of_le_of_lt hmax (by decide)
  have hbuf : s.m_iDataLen ≤ s.m_pDataBuffer.data.length := by rwa [Storage.length_data]
  rw [DeSerialize, asInput, Shape.read_of_le hfit hlt hbuf]
  rfl

theorem DeSerialize_of_lt (hmax : s.m_iDataLen ≤ MAX_OUTPUT_BUFFER)
    (hi : s.m_iDataIndex ≤ s.m_iDataLen) (hfit : s.m_iDataLen < s.m_iDataIndex + sh.size) :
    s.DeSerialize sh = some (s, none) := by
  have hlt : s.m_iDataLen < 2 ^ 16 := Nat.lt_of_le_of_lt hmax (by decide)
  rw [DeSerialize, asInput, Shape.read_of_lt hi hlt hfit]
  rfl

theorem wrote_snoc {c : Call} : wrote (cs ++ [c]) = wrote cs ++ c.wrote.toList := by
  rw [wrote, List.filterMap_append]
  congr 1

theorem readOut_snoc {c : Call} : readOut (cs ++ [c]) = readOut cs ++ c.readOut := by
  simp [readOut]

/-! ## 3. The queue -/

/-- The bytes written are in the buffer up to `m_iDataLen`, those read are the first of them up to
`m_iDataIndex`. -/
structure Queue (cs : List Call) (s : Stream) : Prop where
  length_le : s.m_iDataLen ≤ MAX_OUTPUT_BUFFER
  written : s.asOutput.written = Field.values (wrote cs)
  index_le : s.m_iDataIndex ≤ s.m_iDataLen
  readOut : readOut cs = (Field.values (wrote cs)).take s.m_iDataIndex

namespace Queue

theorem length (h : Queue cs s) : (Field.values (wrote cs)).length = s.m_iDataLen := by
  have hlen := s.m_pDataBuffer.length_data
  have hle := h.length_le
  rw [← h.written, OutputStream.written, List.length_take]
  exact Nat.min_eq_left (hlen.symm ▸ hle)

theorem length_readOut (h : Queue cs s) : (Stream.readOut cs).length = s.m_iDataIndex := by
  rw [h.readOut, List.length_take, h.length, Nat.min_eq_left h.index_le]

-- What is behind the index is what was written and not yet read.
theorem take_drop (h : Queue cs s) {n : ℕ} (hn : s.m_iDataIndex + n ≤ s.m_iDataLen) :
    (s.m_pDataBuffer.data.drop s.m_iDataIndex).take n =
      ((Field.values (wrote cs)).drop s.m_iDataIndex).take n := by
  have hfront : s.m_pDataBuffer.data.take s.m_iDataLen = Field.values (wrote cs) := h.written
  rw [← hfront, List.drop_take, List.take_take, Nat.min_eq_left (by omega)]

theorem values_append {fs fs' : List Field} :
    Field.values (fs ++ fs') = Field.values fs ++ Field.values fs' := by
  rw [Field.values, List.map_append, List.flatten_append]
  rfl

theorem step {c : Call} (h : Queue cs s) (hs : Step s c t) : Queue (cs ++ [c]) t := by
  cases hs with
  | serialize hcall =>
      rename_i f ok
      by_cases hfit : s.m_iDataLen + f.value.length ≤ MAX_OUTPUT_BUFFER
      · obtain ⟨t', ht', hlen, hindex, hw⟩ := Serialize_of_fits hfit
        rw [hcall, Option.some.injEq, Prod.mk.injEq] at ht'
        obtain ⟨rfl, rfl⟩ := ht'
        have hwrote : Field.values (wrote (cs ++ [.Serialize f true])) =
            Field.values (wrote cs) ++ f.value := by
          rw [wrote_snoc, values_append]
          exact congrArg _ (List.append_nil _)
        refine ⟨hlen ▸ hfit, by rw [hw, h.written, hwrote], ?_, ?_⟩
        · rw [hindex, hlen]
          exact Nat.le_trans h.index_le (Nat.le_add_right _ _)
        · have hle := h.length ▸ h.index_le
          rw [readOut_snoc, hwrote, hindex, List.take_append_of_le_length hle, ← h.readOut]
          exact List.append_nil _
      · rw [Serialize_of_not_fits (by omega), Option.some.injEq, Prod.mk.injEq] at hcall
        obtain ⟨rfl, rfl⟩ := hcall
        refine ⟨h.length_le, ?_, h.index_le, ?_⟩
        · rw [wrote_snoc]
          exact h.written.trans (congrArg _ (List.append_nil _).symm)
        · rw [readOut_snoc, wrote_snoc]
          exact (List.append_nil _).trans (h.readOut.trans (by simp [Call.wrote]))
  | deSerialize hcall =>
      rename_i sh r
      have hwrote : wrote (cs ++ [.DeSerialize sh r]) = wrote cs := by
        rw [wrote_snoc]
        exact List.append_nil _
      by_cases hfit : s.m_iDataIndex + sh.size ≤ s.m_iDataLen
      · rw [DeSerialize_of_le h.length_le hfit, Option.some.injEq, Prod.mk.injEq] at hcall
        obtain ⟨rfl, rfl⟩ := hcall
        refine ⟨h.length_le, ?_, hfit, ?_⟩
        · rw [hwrote]
          exact h.written
        · rw [hwrote, readOut_snoc, h.readOut]
          show _ ++ (s.m_pDataBuffer.data.drop s.m_iDataIndex).take sh.size = _
          rw [h.take_drop hfit, ← List.take_add]
      · rw [DeSerialize_of_lt h.length_le h.index_le (by omega), Option.some.injEq,
          Prod.mk.injEq] at hcall
        obtain ⟨rfl, rfl⟩ := hcall
        refine ⟨h.length_le, ?_, h.index_le, ?_⟩
        · rw [hwrote]
          exact h.written
        · rw [hwrote, readOut_snoc]
          exact (List.append_nil _).trans h.readOut

theorem of_path {memory : Stream} (hindex : memory.m_iDataIndex = 0)
    (h : Path Step (construct memory) cs s) : Queue cs s := by
  have hstart : Queue [] (construct memory) := by
    refine ⟨Nat.zero_le _, rfl, Nat.le_of_eq hindex, ?_⟩
    exact (List.take_of_length_le (Nat.zero_le _)).symm
  exact h.always hstart fun _ _ _ _ hq hs ↦ hq.step hs

-- A queue gives its first field when the shape of that field is read.
theorem fifo (h : Queue cs s) : Fifo cs s := by
  refine ⟨h.index_le, fun fs f fs' hwrote hlen ↦ ?_, fun sh hlong ↦ ?_⟩
  · rw [h.length_readOut] at hlen
    have hvalues : Field.values (wrote cs) = Field.values fs ++ (f.value ++ Field.values fs') := by
      rw [hwrote, values_append, Field.values_cons]
    have hfit : s.m_iDataIndex + f.shape.size ≤ s.m_iDataLen := by
      rw [← h.length, hvalues, f.size_shape, List.length_append, List.length_append]
      omega
    have hread := DeSerialize_of_le h.length_le hfit
    rw [h.take_drop hfit, hvalues, ← hlen, List.drop_left, f.size_shape, List.take_left] at hread
    exact ⟨_, hread⟩
  · rw [h.length, h.length_readOut] at hlong
    exact DeSerialize_of_lt h.length_le h.index_le hlong

end Queue

/-- **The two-way stream is a queue of fields**, in every interleaving of calls, exactly if the
memory it is constructed in has a zero for `m_iDataIndex`. -/
theorem stream_fifo_iff (memory : Stream) :
    (∀ cs s, Path Step (construct memory) cs s → Fifo cs s) ↔ memory.m_iDataIndex = 0 := by
  constructor
  · intro h
    exact Nat.le_zero.mp (h [] _ .nil).index_le
  · exact fun hindex cs s h ↦ (Queue.of_path hindex h).fifo

/-- In other memory the index is behind the end from the start. -/
theorem not_stream_fifo :
    ¬ ∀ memory : Stream, memory.m_iDataIndex < 2 ^ 16 →
      ∀ cs s, Path Step (construct memory) cs s → Fifo cs s := by
  intro h
  have hle := (h ⟨0, 1, .replicate _ 0⟩ (by decide) [] _ .nil).index_le
  exact absurd hle (by decide)

end Stream

end Fantuan
