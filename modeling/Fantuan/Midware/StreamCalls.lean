import Fantuan.Lib.Cursor
import Fantuan.Midware.Stream

/-!
# Calls of the typed streams

Both streams move like a cursor: a call copies all the bytes it counts, or returns `false` and
changes nothing.  For an array it counts the bytes in a `uint16`.
-/

open Lib

namespace Fantuan

/-! ## 1. Calls -/

/-- How many bytes a scalar or an array has; `Shape.size` is how many of them are copied. -/
def Shape.extent : Shape → ℕ
  | scalar sizeof => sizeof
  | array sizeof iCount => iCount * sizeof

/-- What `OutputStream::Serialize` is given. -/
structure Value where
  shape : Shape
  bytes : List UInt8
  length_bytes : bytes.length = shape.extent

def Value.write (s : OutputStream) (v : Value) : Option (OutputStream × Bool) :=
  match v.shape with
  | .scalar _ => s.Serialize v.bytes
  | .array sizeof iCount => s.SerializeArray sizeof iCount v.bytes

/-- One call of `Serialize` after the other: the stream and their results. -/
def OutputStream.calls (s : OutputStream) (vs : List Value) : Option (OutputStream × List Bool) :=
  runCalls Value.write s vs

/-- A call of `InputStream::Serialize`, without the bytes it reads. -/
def InputStream.call (s : InputStream) (sh : Shape) : Option (InputStream × Bool) :=
  (sh.read s).map fun r ↦ (r.1, r.2.isSome)

def InputStream.calls (s : InputStream) (shs : List Shape) : Option (InputStream × List Bool) :=
  runCalls InputStream.call s shs

theorem Shape.size_le_extent (sh : Shape) : sh.size ≤ sh.extent := by
  cases sh with
  | scalar sizeof => exact Nat.le_refl _
  | array sizeof iCount => exact Nat.mod_le _ _

/-! ## 2. Writing -/

namespace Value

variable {s t : OutputStream} {v : Value} {ok : Bool}

theorem write_eq_put_size (s : OutputStream) (v : Value) :
    v.write s = s.put v.bytes v.shape.size := by
  obtain ⟨sh, bytes, hlen⟩ := v
  cases sh with
  | scalar sizeof =>
      have hsize : bytes.length = sizeof := hlen
      show s.put bytes bytes.length = s.put bytes sizeof
      rw [hsize]
  | array sizeof iCount => rfl

theorem write_of_fits (hfit : s.m_iDataLength + v.shape.size ≤ MAX_OUTPUT_BUFFER) :
    ∃ t, v.write s = some (t, true) ∧ t.m_iDataLength = s.m_iDataLength + v.shape.size ∧
      t.written = s.written ++ v.bytes.take v.shape.size := by
  have hlen : v.shape.size ≤ v.bytes.length := by
    rw [v.length_bytes]
    exact v.shape.size_le_extent
  obtain ⟨t, ht, hspec⟩ := s.put_of_le hlen hfit
  exact ⟨t, (write_eq_put_size s v).trans ht, hspec⟩

theorem write_of_not_fits (hfit : MAX_OUTPUT_BUFFER < s.m_iDataLength + v.shape.size) :
    v.write s = some (s, false) :=
  (write_eq_put_size s v).trans (OutputStream.put_of_lt hfit)

end Value

/-- The stream is where the cursor is. -/
def OutputStream.At (s : OutputStream) (c : Cursor MAX_OUTPUT_BUFFER) : Prop :=
  s.m_iDataLength = c.pos

theorem OutputStream.at_write {s : OutputStream} {c : Cursor MAX_OUTPUT_BUFFER} (v : Value)
    (h : s.At c) :
    ∃ t, v.write s = some (t, (c.advance v.shape.size).2) ∧ t.At (c.advance v.shape.size).1 ∧
      ((c.advance v.shape.size).2 = false → t = s) := by
  unfold OutputStream.At at h
  by_cases hfit : c.pos + v.shape.size ≤ MAX_OUTPUT_BUFFER
  · obtain ⟨t, ht, hlen, -⟩ := Value.write_of_fits (h ▸ hfit)
    rw [Cursor.advance_of_le hfit]
    exact ⟨t, ht, by rw [OutputStream.At, hlen, h], nofun⟩
  · rw [Cursor.advance_of_lt (by omega)]
    exact ⟨s, Value.write_of_not_fits (by omega), h, fun _ ↦ rfl⟩

-- Where a stream is after any calls.
theorem OutputStream.calls_at (vs : List Value) :
    ∃ s, OutputStream.new.calls vs =
        some (s, ((Cursor.start MAX_OUTPUT_BUFFER).run (vs.map fun v ↦ v.shape.size)).2) ∧
      s.At ((Cursor.start MAX_OUTPUT_BUFFER).run (vs.map fun v ↦ v.shape.size)).1 := by
  have hstart : OutputStream.new.At (Cursor.start MAX_OUTPUT_BUFFER) := rfl
  refine runCalls_of_call (fun s c v h ↦ ?_) hstart vs
  obtain ⟨t, ht, hat, -⟩ := OutputStream.at_write v h
  exact ⟨t, ht, hat⟩

/-! ## 3. Reading -/

namespace Shape

variable {L i : ℕ} {buf : List UInt8} {sh : Shape}

-- A read of more bytes than are left returns `false`.
theorem read_of_lt (hi : i ≤ L) (hL : L < 2 ^ 16) (hfit : L < i + sh.size) :
    sh.read ⟨L, i, buf⟩ = some (⟨L, i, buf⟩, none) := by
  cases sh with
  | scalar sizeof =>
      have hlt : L < i + sizeof := hfit
      have hdiff : (L : ℤ) - i = (L - i : ℕ) := by omega
      refine if_neg ?_
      show ¬ sizeof ≤ size_t ((L : ℤ) - i)
      rw [hdiff, size_t_of_lt (by omega)]
      omega
  | array sizeof iCount =>
      have hlt : L < i + uint16 (iCount * sizeof) := hfit
      refine if_neg ?_
      show ¬ (uint16 (iCount * sizeof) : ℤ) ≤ L - i
      omega

end Shape

/-- The stream reads these bytes and is where the cursor is. -/
structure InputStream.At (s : InputStream) (buf : List UInt8) (c : Cursor buf.length) : Prop where
  length : s.m_iDataLength = buf.length
  buffer : s.m_DataBuffer = buf
  index : s.m_iDataIndex = c.pos

theorem InputStream.at_read {s : InputStream} {buf : List UInt8} {c : Cursor buf.length}
    (hbuf : buf.length < 2 ^ 16) (sh : Shape) (h : s.At buf c) :
    ∃ t r, sh.read s = some (t, r) ∧ r.isSome = (c.advance sh.size).2 ∧
      t.At buf (c.advance sh.size).1 ∧ (r = none → t = s) := by
  obtain ⟨L, i, b⟩ := s
  obtain ⟨hL, hb, hi⟩ := h
  dsimp only at hL hb hi
  subst hL hb hi
  by_cases hfit : c.pos + sh.size ≤ b.length
  · rw [Cursor.advance_of_le hfit]
    exact ⟨_, _, Shape.read_of_le hfit hbuf (Nat.le_refl _), rfl, ⟨rfl, rfl, rfl⟩, nofun⟩
  · rw [Cursor.advance_of_lt (by omega)]
    exact ⟨_, _, Shape.read_of_lt c.pos_le hbuf (by omega), rfl, ⟨rfl, rfl, rfl⟩, fun _ ↦ rfl⟩

theorem InputStream.calls_at {buf : List UInt8} (hbuf : buf.length < 2 ^ 16) (shs : List Shape) :
    ∃ s, (InputStream.new buf.length buf).calls shs =
        some (s, ((Cursor.start buf.length).run (shs.map Shape.size)).2) ∧
      s.At buf ((Cursor.start buf.length).run (shs.map Shape.size)).1 := by
  have hstart : (InputStream.new buf.length buf).At buf (Cursor.start buf.length) :=
    ⟨uint16_of_lt hbuf, rfl, rfl⟩
  refine runCalls_of_call (fun s c sh h ↦ ?_) hstart shs
  obtain ⟨t, r, hr, hok, hat, -⟩ := InputStream.at_read hbuf sh h
  exact ⟨t, by rw [InputStream.call, hr, ← hok]; rfl, hat⟩

/-! ## 4. Bounded, and nothing changed on failure -/

/-- A call of `Serialize` for `n` bytes took the stream from `s` to `t`. -/
structure OutputStream.Bounded (s t : OutputStream) (n : ℕ) (ok : Bool) : Prop where
  length_le : t.m_iDataLength ≤ MAX_OUTPUT_BUFFER
  forward : s.m_iDataLength ≤ t.m_iDataLength
  unchanged : ok = false → t = s
  succeeds : s.m_iDataLength + n ≤ MAX_OUTPUT_BUFFER → ok = true

/-- The same for an `InputStream` over `buf`. -/
structure InputStream.Bounded (buf : List UInt8) (s t : InputStream) (n : ℕ) (ok : Bool) :
    Prop where
  index_le : t.m_iDataIndex ≤ t.m_iDataLength
  length_le : t.m_iDataLength ≤ buf.length
  forward : s.m_iDataIndex ≤ t.m_iDataIndex
  buffer : t.m_DataBuffer = buf
  unchanged : ok = false → t = s
  succeeds : s.m_iDataIndex + n ≤ s.m_iDataLength → ok = true

theorem OutputStream.bounded_write {s : OutputStream} {c : Cursor MAX_OUTPUT_BUFFER} (v : Value)
    (h : s.At c) : ∃ t ok, v.write s = some (t, ok) ∧ s.Bounded t v.shape.size ok := by
  obtain ⟨t, ht, hat, hsame⟩ := OutputStream.at_write v h
  refine ⟨t, _, ht, ?_, ?_, hsame, fun hfit ↦ ?_⟩
  · rw [hat]
    exact (c.advance v.shape.size).1.pos_le
  · rw [h, hat]
    exact Cursor.pos_le_advance
  · rw [Cursor.advance_of_le (h ▸ hfit)]

theorem InputStream.bounded_read {s : InputStream} {buf : List UInt8} {c : Cursor buf.length}
    (hbuf : buf.length < 2 ^ 16) (sh : Shape) (h : s.At buf c) :
    ∃ t r, sh.read s = some (t, r) ∧ InputStream.Bounded buf s t sh.size r.isSome := by
  obtain ⟨t, r, hr, hok, hat, hsame⟩ := InputStream.at_read hbuf sh h
  refine ⟨t, r, hr, ?_, Nat.le_of_eq hat.length, ?_, hat.buffer, fun hnone ↦ ?_, fun hfit ↦ ?_⟩
  · rw [hat.index, hat.length]
    exact (c.advance sh.size).1.pos_le
  · rw [h.index, hat.index]
    exact Cursor.pos_le_advance
  · exact hsame (Option.isNone_iff_eq_none.mp (Option.isSome_eq_false_iff.mp hnone))
  · rw [h.index, h.length] at hfit
    rw [hok, Cursor.advance_of_le hfit]

/-- **Calls of the streams are bounded and atomic.**  In every sequence of calls each one succeeds
or changes nothing, no copy leaves a buffer, and no cursor goes back or beyond its bound. -/
theorem stream_calls_bounded (vs : List Value) (v : Value) (buf : List UInt8)
    (hbuf : buf.length ≤ 65535) (shs : List Shape) (sh : Shape) :
    (∃ s oks t ok, OutputStream.new.calls vs = some (s, oks) ∧ v.write s = some (t, ok) ∧
      s.Bounded t v.shape.size ok) ∧
    ∃ s oks t r, (InputStream.new buf.length buf).calls shs = some (s, oks) ∧
      sh.read s = some (t, r) ∧ InputStream.Bounded buf s t sh.size r.isSome := by
  have hlt : buf.length < 2 ^ 16 := by omega
  obtain ⟨s, hs, hat⟩ := OutputStream.calls_at vs
  obtain ⟨t, ok, hv, hw⟩ := OutputStream.bounded_write v hat
  obtain ⟨s', hs', hat'⟩ := InputStream.calls_at hlt shs
  obtain ⟨t', r, hsh, hr⟩ := InputStream.bounded_read hlt sh hat'
  exact ⟨⟨s, _, t, ok, hs, hv, hw⟩, s', _, t', r, hs', hsh, hr⟩

/-- A `uint16` is written behind another one, and one is read from two bytes after a read of three
was refused. -/
theorem stream_calls_bounded_two :
    (∃ s oks t ok, OutputStream.new.calls [⟨.scalar 2, [5, 0], rfl⟩] = some (s, oks) ∧
      (⟨.scalar 2, [7, 0], rfl⟩ : Value).write s = some (t, ok) ∧ s.Bounded t 2 ok) ∧
    ∃ s oks t r, (InputStream.new 2 [1, 2]).calls [.scalar 3] = some (s, oks) ∧
      (Shape.scalar 2).read s = some (t, r) ∧ InputStream.Bounded [1, 2] s t 2 r.isSome :=
  stream_calls_bounded [⟨.scalar 2, [5, 0], rfl⟩] ⟨.scalar 2, [7, 0], rfl⟩ [1, 2] (by decide)
    [.scalar 3] (.scalar 2)

/-! ## 5. Arrays -/

/-- `Serialize(iCount, array)` returns `true` only if it has written the whole array, and `false` if
the array does not fit. -/
def OutputStream.AllOrNothing (s : OutputStream) (sizeof iCount : ℕ) : Prop :=
  ∀ array : List UInt8, array.length = iCount * sizeof →
    ∃ t ok, s.SerializeArray sizeof iCount array = some (t, ok) ∧
      (ok = true → t.m_iDataLength = s.m_iDataLength + iCount * sizeof ∧
        t.written = s.written ++ array) ∧
      (MAX_OUTPUT_BUFFER < s.m_iDataLength + iCount * sizeof → ok = false)

/-- The same for reading: the whole array is filled with the next bytes. -/
def InputStream.AllOrNothing (s : InputStream) (sizeof iCount : ℕ) : Prop :=
  ∃ t r, s.SerializeArray sizeof iCount = some (t, r) ∧
    (∀ array, r = some array → array.length = iCount * sizeof ∧
      array = (s.m_DataBuffer.drop s.m_iDataIndex).take (iCount * sizeof) ∧
      t.m_iDataIndex = s.m_iDataIndex + iCount * sizeof) ∧
    (s.m_iDataLength < s.m_iDataIndex + iCount * sizeof → r = none)

/-- The number of bytes is a `uint16`, or what it wraps to does not fit in what is left. -/
def CountsBytes (left sizeof iCount : ℕ) : Prop :=
  iCount * sizeof < 2 ^ 16 ∨ left < uint16 (iCount * sizeof)

instance (left sizeof iCount : ℕ) : Decidable (CountsBytes left sizeof iCount) :=
  inferInstanceAs (Decidable (_ ∨ _))

theorem OutputStream.allOrNothing_iff {s : OutputStream} {sizeof iCount : ℕ}
    (hs : s.m_iDataLength ≤ MAX_OUTPUT_BUFFER) :
    s.AllOrNothing sizeof iCount ↔
      CountsBytes (MAX_OUTPUT_BUFFER - s.m_iDataLength) sizeof iCount := by
  have hmod : uint16 (iCount * sizeof) ≤ iCount * sizeof := Nat.mod_le _ _
  by_cases hfit : s.m_iDataLength + uint16 (iCount * sizeof) ≤ MAX_OUTPUT_BUFFER
  · constructor
    · intro h
      have hlen : (List.replicate (iCount * sizeof) (0 : UInt8)).length = iCount * sizeof :=
        List.length_replicate
      obtain ⟨t, ok, hcall, htrue, -⟩ := h _ hlen
      obtain ⟨t', hput, hgrow, -⟩ := s.put_of_le (by rwa [hlen]) hfit
      rw [SerializeArray, hput, Option.some.injEq, Prod.mk.injEq] at hcall
      obtain ⟨rfl, rfl⟩ := hcall
      have hexact := (htrue rfl).1
      have hlt : uint16 (iCount * sizeof) < 2 ^ 16 := Nat.mod_lt _ (by decide)
      exact .inl (by omega)
    · rintro (hsmall | hleft) array harray
      · rw [uint16_of_lt hsmall] at hfit
        obtain ⟨t, hput, hgrow, hw⟩ := s.put_of_le (Nat.le_of_eq harray.symm) hfit
        rw [← harray, List.take_length] at hw
        refine ⟨t, true, ?_, fun _ ↦ ⟨hgrow, hw⟩, fun hnot ↦ by omega⟩
        rw [SerializeArray, uint16_of_lt hsmall, hput]
      · omega
  · refine iff_of_true (fun array _ ↦ ⟨s, false, put_of_lt (by omega), nofun, fun _ ↦ rfl⟩) ?_
    exact .inr (by omega)

theorem InputStream.allOrNothing_iff {s : InputStream} {sizeof iCount : ℕ}
    (hi : s.m_iDataIndex ≤ s.m_iDataLength) (hL : s.m_iDataLength < 2 ^ 16)
    (hbuf : s.m_iDataLength ≤ s.m_DataBuffer.length) :
    s.AllOrNothing sizeof iCount ↔
      CountsBytes (s.m_iDataLength - s.m_iDataIndex) sizeof iCount := by
  have hmod : uint16 (iCount * sizeof) ≤ iCount * sizeof := Nat.mod_le _ _
  have hlt : uint16 (iCount * sizeof) < 2 ^ 16 := Nat.mod_lt _ (by decide)
  obtain ⟨L, i, buf⟩ := s
  dsimp only at hi hL hbuf ⊢
  by_cases hfit : i + uint16 (iCount * sizeof) ≤ L
  · have hfits : i + (Shape.array sizeof iCount).size ≤ L := hfit
    have hread : SerializeArray ⟨L, i, buf⟩ sizeof iCount = _ := Shape.read_of_le hfits hL hbuf
    constructor
    · rintro ⟨t, r, hcall, hsome, -⟩
      rw [hread, Option.some.injEq, Prod.mk.injEq] at hcall
      obtain ⟨-, rfl⟩ := hcall
      have hlen := (hsome _ rfl).1
      rw [List.length_take] at hlen
      have hsize : (Shape.array sizeof iCount).size = uint16 (iCount * sizeof) := rfl
      exact .inl (by omega)
    · rintro (hsmall | hleft)
      · refine ⟨_, _, hread, ?_, fun hnot ↦ ?_⟩
        · rintro array harray
          have hsize : (Shape.array sizeof iCount).size = iCount * sizeof := uint16_of_lt hsmall
          rw [hsize, Option.some.injEq] at harray
          rw [uint16_of_lt hsmall] at hfit
          refine ⟨?_, harray.symm, by rw [hsize]⟩
          rw [← harray, List.length_take, List.length_drop]
          omega
        · rw [uint16_of_lt hsmall] at hfit
          dsimp only at hnot
          omega
      · omega
  · have hlong : L < i + (Shape.array sizeof iCount).size := Nat.not_le.mp hfit
    have hread : SerializeArray ⟨L, i, buf⟩ sizeof iCount = _ := Shape.read_of_lt hi hL hlong
    exact iff_of_true ⟨_, _, hread, nofun, fun _ ↦ rfl⟩ (.inr (by omega))

/-- **Arrays are written and read as a whole or not at all** exactly if the number of their bytes is
a `uint16`, or what it wraps to does not fit either. -/
theorem array_all_or_nothing (s : OutputStream) (hs : s.m_iDataLength ≤ MAX_OUTPUT_BUFFER)
    (t : InputStream) (ht : t.m_iDataIndex ≤ t.m_iDataLength) (hL : t.m_iDataLength < 2 ^ 16)
    (hbuf : t.m_iDataLength ≤ t.m_DataBuffer.length) (sizeof iCount : ℕ) :
    (s.AllOrNothing sizeof iCount ↔
      CountsBytes (MAX_OUTPUT_BUFFER - s.m_iDataLength) sizeof iCount) ∧
    (t.AllOrNothing sizeof iCount ↔
      CountsBytes (t.m_iDataLength - t.m_iDataIndex) sizeof iCount) :=
  ⟨OutputStream.allOrNothing_iff hs, InputStream.allOrNothing_iff ht hL hbuf⟩

/-- An array of two `uint32`, written to an empty stream and read from one that holds it. -/
theorem array_all_or_nothing_two :
    OutputStream.new.AllOrNothing 4 2 ∧
      (InputStream.new 8 [1, 0, 0, 0, 2, 0, 0, 0]).AllOrNothing 4 2 := by
  obtain ⟨hout, hin⟩ := array_all_or_nothing .new (Nat.zero_le _)
    (.new 8 [1, 0, 0, 0, 2, 0, 0, 0]) (Nat.zero_le _) (by decide) (Nat.le_refl _) 4 2
  exact ⟨hout.mpr (by decide), hin.mpr (by decide)⟩

/-- 256 elements of 256 bytes count as no bytes at all. -/
theorem array_neither : ¬ ∀ sizeof iCount, 1 ≤ sizeof → iCount < 2 ^ 16 →
    OutputStream.new.AllOrNothing sizeof iCount := by
  intro h
  have hcounts := (OutputStream.allOrNothing_iff (Nat.zero_le _)).mp
    (h 256 256 (by decide) (by decide))
  exact absurd hcounts (by decide)

end Fantuan
