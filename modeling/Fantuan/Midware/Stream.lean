import Fantuan.Common
import Fantuan.Lib.Storage

/-!
# easy_stream.h — typed streams

`OutputStream` and `InputStream`.  A value of type `T` is the `sizeof(T)` bytes that `memcpy` copies
of it, an array the bytes of its elements one after the other.
-/

open Lib

namespace Fantuan

/-! ## 1. The two streams -/

structure OutputStream where
  m_iDataLength : ℕ
  m_DataBuffer : Storage UInt8 MAX_OUTPUT_BUFFER

/-- `m_DataBuffer` is what can be read at the pointer of this name. -/
structure InputStream where
  m_iDataLength : ℕ
  m_iDataIndex : ℕ
  m_DataBuffer : List UInt8

namespace OutputStream

/-- The constructor. -/
def new : OutputStream := ⟨0, .replicate MAX_OUTPUT_BUFFER 0⟩

def GetDataLength (s : OutputStream) : ℕ := s.m_iDataLength

def GetBuffer (s : OutputStream) : List UInt8 := s.m_DataBuffer.data

/-- Both `Serialize` functions, from the comparison on: the stream and the result of the call, or
nothing if the copy leaves a buffer. -/
def put (s : OutputStream) (src : List UInt8) (n : ℕ) : Option (OutputStream × Bool) :=
  if s.m_iDataLength + n ≤ MAX_OUTPUT_BUFFER then do
    let m_DataBuffer ← s.m_DataBuffer.memcpy s.m_iDataLength src n
    some (⟨uint16 (s.m_iDataLength + n), m_DataBuffer⟩, true)
  else some (s, false)

def Serialize (s : OutputStream) (value : List UInt8) : Option (OutputStream × Bool) :=
  s.put value value.length

/-- `Serialize` for arrays; the number of bytes is a `uint16` again. -/
def SerializeArray (s : OutputStream) (sizeof iCount : ℕ) (array : List UInt8) :
    Option (OutputStream × Bool) :=
  s.put array (uint16 (iCount * sizeof))

end OutputStream

namespace InputStream

/-- The constructor. -/
def new (iLength : ℕ) (pBuf : List UInt8) : InputStream := ⟨uint16 iLength, 0, pBuf⟩

/-- Copy `n` bytes out of the stream: the stream and the bytes, or nothing if the copy leaves the
buffer. -/
def get (s : InputStream) (n : ℕ) : Option (InputStream × Option (List UInt8)) :=
  if s.m_iDataIndex + n ≤ s.m_DataBuffer.length then
    some ({ s with m_iDataIndex := uint16 (s.m_iDataIndex + n) },
      some ((s.m_DataBuffer.drop s.m_iDataIndex).take n))
  else none

/-- `Serialize` of a `T`; the difference is an `int`, compared as a `size_t`.  Without a result the
call returns `false`. -/
def Serialize (s : InputStream) (sizeof : ℕ) : Option (InputStream × Option (List UInt8)) :=
  if sizeof ≤ size_t (s.m_iDataLength - s.m_iDataIndex) then s.get sizeof else some (s, none)

/-- `Serialize` for arrays; here the difference is compared as an `int`. -/
def SerializeArray (s : InputStream) (sizeof iCount : ℕ) :
    Option (InputStream × Option (List UInt8)) :=
  if (uint16 (iCount * sizeof) : ℤ) ≤ s.m_iDataLength - s.m_iDataIndex then
    s.get (uint16 (iCount * sizeof))
  else some (s, none)

end InputStream

/-! ## 2. Fields -/

/-- A value to write: a scalar, or an array of bytes with a `uint16` count. -/
inductive Field
  | scalar (value : List UInt8)
  | bytes (array : List UInt8) (length_lt : array.length < 2 ^ 16)

/-- What a reader asks for. -/
inductive Shape
  | scalar (sizeof : ℕ)
  | array (sizeof iCount : ℕ)

namespace Field

def value : Field → List UInt8
  | scalar value => value
  | bytes array _ => array

def shape : Field → Shape
  | scalar value => .scalar value.length
  | bytes array _ => .array 1 array.length

def write (s : OutputStream) : Field → Option (OutputStream × Bool)
  | scalar value => s.Serialize value
  | bytes array _ => s.SerializeArray 1 array.length array

/-- Write fields in order; the result is whether all calls returned `true`. -/
def writeAll (s : OutputStream) : List Field → Option (OutputStream × Bool)
  | [] => some (s, true)
  | f :: fs => do
      let (s, ok) ← f.write s
      let (s, oks) ← writeAll s fs
      some (s, ok && oks)

/-- The bytes of some fields. -/
def values (fs : List Field) : List UInt8 := (fs.map value).flatten

end Field

namespace Shape

/-- How many bytes a call reads. -/
def size : Shape → ℕ
  | scalar sizeof => sizeof
  | array sizeof iCount => uint16 (iCount * sizeof)

def read (s : InputStream) : Shape → Option (InputStream × Option (List UInt8))
  | scalar sizeof => s.Serialize sizeof
  | array sizeof iCount => s.SerializeArray sizeof iCount

/-- Read fields in order: the results of the calls. -/
def readAll (s : InputStream) : List Shape → Option (InputStream × List (Option (List UInt8)))
  | [] => some (s, [])
  | f :: fs => do
      let (s, r) ← f.read s
      let (s, rs) ← readAll s fs
      some (s, r :: rs)

end Shape

/-! ## 3. Writing -/

namespace OutputStream

variable {s t : OutputStream} {src : List UInt8} {n : ℕ} {ok : Bool}

/-- The bytes written so far. -/
def written (s : OutputStream) : List UInt8 := s.m_DataBuffer.data.take s.m_iDataLength

theorem put_of_le (hn : n ≤ src.length) (hfit : s.m_iDataLength + n ≤ MAX_OUTPUT_BUFFER) :
    ∃ t, s.put src n = some (t, true) ∧ t.m_iDataLength = s.m_iDataLength + n ∧
      t.written = s.written ++ src.take n := by
  have hlt : s.m_iDataLength + n < 2 ^ 16 := Nat.lt_of_le_of_lt hfit (by decide)
  cases hm : s.m_DataBuffer.memcpy s.m_iDataLength src n with
  | none =>
      rw [Storage.memcpy_eq_none] at hm
      omega
  | some m =>
      refine ⟨⟨s.m_iDataLength + n, m⟩, ?_, rfl, Storage.take_of_memcpy hm⟩
      rw [put, if_pos hfit, hm, uint16_of_lt hlt]
      rfl

theorem put_of_lt (hfit : MAX_OUTPUT_BUFFER < s.m_iDataLength + n) :
    s.put src n = some (s, false) :=
  if_neg (Nat.not_le.mpr hfit)

end OutputStream

namespace Field

variable {s t : OutputStream} {f : Field} {fs : List Field}

theorem write_eq_put (s : OutputStream) (f : Field) : f.write s = s.put f.value f.value.length := by
  cases f with
  | scalar value => rfl
  | bytes array hlt =>
      show s.put array (uint16 (array.length * 1)) = s.put array array.length
      rw [Nat.mul_one, uint16_of_lt hlt]

theorem values_cons : values (f :: fs) = f.value ++ values fs := List.flatten_cons

-- Writing returns `true` for all fields exactly when they fit, and then appends their bytes.
theorem writeAll_spec (s : OutputStream) (fs : List Field)
    (hs : s.m_iDataLength ≤ MAX_OUTPUT_BUFFER) :
    ∃ t ok, writeAll s fs = some (t, ok) ∧
      (ok = true ↔ s.m_iDataLength + (values fs).length ≤ MAX_OUTPUT_BUFFER) ∧
      (ok = true → t.m_iDataLength = s.m_iDataLength + (values fs).length ∧
        t.written = s.written ++ values fs) := by
  induction fs generalizing s with
  | nil =>
      have hnil : (values []).length = 0 := rfl
      refine ⟨s, true, rfl, ?_, fun _ ↦ ⟨rfl, (List.append_nil _).symm⟩⟩
      rw [hnil]
      exact ⟨fun _ ↦ hs, fun _ ↦ rfl⟩
  | cons f fs ih =>
      have hlen : (values (f :: fs)).length = f.value.length + (values fs).length := by
        rw [values_cons, List.length_append]
      by_cases hfit : s.m_iDataLength + f.value.length ≤ MAX_OUTPUT_BUFFER
      · -- the others are written behind it
        obtain ⟨s₁, hput, hs₁, hw₁⟩ := s.put_of_le (Nat.le_refl _) hfit
        obtain ⟨t, ok, hall, hok, hspec⟩ := ih s₁ (by omega)
        rw [List.take_length] at hw₁
        refine ⟨t, ok, ?_, ?_, fun h ↦ ?_⟩
        · simp only [writeAll, write_eq_put, hput, hall, Option.bind_eq_bind, Option.bind_some,
            Bool.true_and]
        · rw [hok, hlen, hs₁]
          omega
        · obtain ⟨ht, hw⟩ := hspec h
          refine ⟨by omega, ?_⟩
          rw [hw, hw₁, values_cons, List.append_assoc]
      · -- the first field does not fit, whatever becomes of the others
        obtain ⟨t, ok, hall, -, -⟩ := ih s hs
        refine ⟨t, false, ?_, ?_, fun h ↦ nomatch h⟩
        · simp only [writeAll, write_eq_put, OutputStream.put_of_lt (Nat.not_le.mp hfit), hall,
            Option.bind_eq_bind, Option.bind_some, Bool.false_and]
        · exact ⟨fun h ↦ (nomatch h), fun h ↦ by omega⟩

-- Fields written to a new stream make up its contents.
theorem writeAll_new (h : writeAll .new fs = some (t, true)) :
    t.m_iDataLength = (values fs).length ∧ t.m_iDataLength ≤ MAX_OUTPUT_BUFFER ∧
      t.written = values fs := by
  obtain ⟨u, ok, hall, hok, hspec⟩ := writeAll_spec .new fs (Nat.zero_le _)
  rw [h, Option.some.injEq, Prod.mk.injEq] at hall
  obtain ⟨rfl, rfl⟩ := hall
  obtain ⟨hlen, hw⟩ := hspec rfl
  have hnew : OutputStream.new.m_iDataLength = 0 := rfl
  rw [hnew, Nat.zero_add] at hlen
  refine ⟨hlen, ?_, hw⟩
  have hfit := hok.mp rfl
  rw [hnew, Nat.zero_add] at hfit
  rwa [hlen]

end Field

/-! ## 4. Reading -/

namespace Shape

variable {L i : ℕ} {buf : List UInt8} {sh : Shape}

-- A read of no more bytes than are left gives the next ones.
theorem read_of_le (hfit : i + sh.size ≤ L) (hL : L < 2 ^ 16) (hbuf : L ≤ buf.length) :
    sh.read ⟨L, i, buf⟩ =
      some (⟨L, i + sh.size, buf⟩, some ((buf.drop i).take sh.size)) := by
  have hget : InputStream.get ⟨L, i, buf⟩ sh.size =
      some (⟨L, i + sh.size, buf⟩, some ((buf.drop i).take sh.size)) := by
    rw [InputStream.get, if_pos (Nat.le_trans hfit hbuf), uint16_of_lt (Nat.lt_of_le_of_lt hfit hL)]
  rw [← hget]
  cases sh with
  | scalar sizeof =>
      have hle : i + sizeof ≤ L := hfit
      have hdiff : (L : ℤ) - i = (L - i : ℕ) := by omega
      refine if_pos ?_
      -- the difference is not negative, so that it survives the conversion
      show sizeof ≤ size_t ((L : ℤ) - i)
      rw [hdiff, size_t_of_lt (by omega)]
      omega
  | array sizeof iCount =>
      have hle : i + uint16 (iCount * sizeof) ≤ L := hfit
      refine if_pos ?_
      show (uint16 (iCount * sizeof) : ℤ) ≤ L - i
      omega

-- A read of at least one byte at the end returns `false`.
theorem read_end (hsize : 1 ≤ sh.size) : sh.read ⟨L, L, buf⟩ = some (⟨L, L, buf⟩, none) := by
  cases sh with
  | scalar sizeof =>
      have hpos : 1 ≤ sizeof := hsize
      refine if_neg ?_
      show ¬ sizeof ≤ size_t ((L : ℤ) - L)
      rw [Int.sub_self]
      exact Nat.not_le.mpr hpos
  | array sizeof iCount =>
      have hpos : 1 ≤ uint16 (iCount * sizeof) := hsize
      refine if_neg ?_
      show ¬ (uint16 (iCount * sizeof) : ℤ) ≤ L - L
      omega

end Shape

theorem Field.size_shape (f : Field) : f.shape.size = f.value.length := by
  cases f with
  | scalar value => rfl
  | bytes array hlt =>
      show uint16 (array.length * 1) = array.length
      rw [Nat.mul_one, uint16_of_lt hlt]

-- Reading fields whose bytes are what is left of a stream gives their values and comes to its
-- end.  Induction on the fields, each of which is at the front of what is left.
theorem Shape.readAll_spec {L i : ℕ} {buf : List UInt8} (fs : List Field)
    (hL : L < 2 ^ 16) (hbuf : L ≤ buf.length) (hi : i ≤ L)
    (h : (buf.take L).drop i = Field.values fs) :
    Shape.readAll ⟨L, i, buf⟩ (fs.map Field.shape) =
      some (⟨L, L, buf⟩, fs.map fun f ↦ some f.value) := by
  have hlen := congrArg List.length h
  rw [List.length_drop, List.length_take, Nat.min_eq_left hbuf] at hlen
  induction fs generalizing i with
  | nil =>
      have hnil : (Field.values []).length = 0 := rfl
      have hend : i = L := by omega
      subst hend
      rfl
  | cons f fs ih =>
      rw [Field.values_cons, List.length_append] at hlen
      rw [Field.values_cons] at h
      have hfit : i + f.shape.size ≤ L := by
        rw [f.size_shape]
        omega
      -- the field comes first in what is left
      have hvalue : (buf.drop i).take f.shape.size = f.value := by
        have hfront := congrArg (List.take f.value.length) h
        rw [List.take_left, List.drop_take, List.take_take, Nat.min_eq_left (by omega)] at hfront
        rw [f.size_shape, hfront]
      have hrest : (buf.take L).drop (i + f.shape.size) = Field.values fs := by
        rw [← List.drop_drop, h, f.size_shape, List.drop_left]
      have hnext := ih hfit hrest (by rw [f.size_shape]; omega)
      simp only [List.map_cons, Shape.readAll, Shape.read_of_le hfit hL hbuf, hvalue, hnext,
        Option.bind_eq_bind, Option.bind_some]

/-! ## 5. Round trip -/

/-- **Typed streams round-trip.**  What is written to a new `OutputStream`, every call returning
`true`, is read back by an `InputStream` over its bytes, field by field and up to the end. -/
theorem stream_round_trip (fs : List Field) (s : OutputStream)
    (h : Field.writeAll .new fs = some (s, true)) :
    ∃ t, Shape.readAll (.new s.GetDataLength s.GetBuffer) (fs.map Field.shape) =
        some (t, fs.map fun f ↦ some f.value) ∧
      t.m_iDataIndex = t.m_iDataLength ∧
      ∀ sh : Shape, 1 ≤ sh.size → sh.read t = some (t, none) := by
  obtain ⟨-, hmax, hw⟩ := Field.writeAll_new h
  have hlt : s.m_iDataLength < 2 ^ 16 := Nat.lt_of_le_of_lt hmax (by decide)
  have hbuf : s.m_iDataLength ≤ s.m_DataBuffer.data.length := by
    rwa [s.m_DataBuffer.length_data]
  have hread := Shape.readAll_spec (i := 0) fs hlt hbuf (Nat.zero_le _) hw
  refine ⟨⟨s.m_iDataLength, s.m_iDataLength, s.m_DataBuffer.data⟩, ?_, rfl,
    fun sh hsize ↦ Shape.read_end hsize⟩
  rw [InputStream.new, OutputStream.GetDataLength, uint16_of_lt hlt]
  exact hread

/-- A `uint16` and three bytes. -/
theorem stream_round_trip_two :
    ∃ s t, Field.writeAll .new [.scalar [1, 0], .bytes [7, 8, 9] (by decide)] = some (s, true) ∧
      Shape.readAll (.new s.GetDataLength s.GetBuffer) [.scalar 2, .array 1 3] =
        some (t, [some [1, 0], some [7, 8, 9]]) := by
  obtain ⟨s, ok, hall, hok, -⟩ := Field.writeAll_spec .new
    [.scalar [1, 0], .bytes [7, 8, 9] (by decide)] (Nat.zero_le _)
  obtain rfl := hok.mpr (by decide)
  obtain ⟨t, hread, -⟩ := stream_round_trip _ s hall
  exact ⟨s, t, hall, hread⟩

end Fantuan
