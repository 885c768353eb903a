import Mathlib.Data.Nat.Bitwise
import Mathlib.Logic.Function.Basic
import Fantuan.Common
import Fantuan.Lib.Regions
import Fantuan.Lib.Words

/-!
# allocator.h, allocator.cpp — `FTAllocator`

A block starts with its size; behind that is the data, which holds the link to the next block while
the block is on a free list.  Pointers have `w` bytes, 4 or 8, and are natural numbers.  What
`malloc` returns is an argument.
-/

open Lib

namespace Fantuan

/-- `mul` is not 0. -/
def ROUND_UP (value mul : ℕ) : ℕ := uint32 (value + (mul - 1)) &&& (2 ^ 32 - mul)

namespace Allocator

def ALIGNMENT : ℕ := 8

def MAX_BYTES : ℕ := 512

def NUM_LIST : ℕ := MAX_BYTES / ALIGNMENT

/-- `offsetof(Object, data)`: the union is aligned for its pointer. -/
def OBJECT_OFFSET (w : ℕ) : ℕ := w

def obj_size (mem : ℤ → UInt8) (pObject : ℕ) : ℕ := Memory.word mem pObject 4

def set_obj_size (mem : ℤ → UInt8) (pObject size : ℕ) : ℤ → UInt8 :=
  Memory.setWord mem pObject 4 size

def free_list_link (w : ℕ) (mem : ℤ → UInt8) (pObject : ℕ) : ℕ :=
  Memory.word mem (pObject + OBJECT_OFFSET w) w

def set_free_list_link (w : ℕ) (mem : ℤ → UInt8) (pObject link : ℕ) : ℤ → UInt8 :=
  Memory.setWord mem (pObject + OBJECT_OFFSET w) w link

end Allocator

open Allocator

structure FTAllocator where
  mem : ℤ → UInt8
  m_pFreeList : ℕ → ℕ
  m_iTotalSize : ℕ → ℕ

/-- Where `allocate` has a block from: a free list, a new chunk that it carves into blocks, or
`DefaultAllocator`. -/
inductive BlockSource
  | freeList
  | chunk (new_bytes bytes : ℕ)
  | DefaultAllocator (bytes : ℕ)

/-- What is asked of `malloc`. -/
def BlockSource.malloc : BlockSource → Option ℕ
  | freeList => none
  | chunk new_bytes _ => some new_bytes
  | DefaultAllocator bytes => some bytes

structure Allocated where
  allocator : FTAllocator
  ptr : ℕ
  source : BlockSource

namespace FTAllocator

/-! ## 1. The methods -/

def _round_up (bytes : ℕ) : ℕ := ROUND_UP bytes ALIGNMENT

/-- The last subtraction wraps around for 0 bytes. -/
def _index (bytes : ℕ) : ℕ :=
  uint32 (uint32 (bytes + (ALIGNMENT - 1)) / ALIGNMENT + (2 ^ 32 - 1))

/-- `new_bytes` of `_chunk_alloc`. -/
def new_bytes (total bytes nobject : ℕ) : ℤ :=
  let total_bytes := int32 (bytes * nobject : ℕ)
  int32 (total_bytes * 2 + ROUND_UP (total / 2 ^ 4) bytes)

variable (w : ℕ) (a : FTAllocator)

/-- The new `m_iTotalSize`, `nobject`, and the size that is asked of `malloc`. -/
def _chunk_alloc (bytes nobject : ℕ) : FTAllocator × ℤ × ℕ :=
  let index := _index bytes
  let new_bytes := new_bytes (a.m_iTotalSize index) bytes nobject
  let total := ((a.m_iTotalSize index + new_bytes) % 2 ^ 32).toNat
  ({ a with m_iTotalSize := Function.update a.m_iTotalSize index total },
    int32 ((new_bytes % 2 ^ 32).toNat / bytes : ℕ), size_t new_bytes)

/-- The loop of `_refill` from `next_obj` on, and the end of the list. -/
def carve (bytes : ℕ) : ℕ → ℕ → (ℤ → UInt8) → ℤ → UInt8
  | 0, next_obj, mem => set_free_list_link w (set_obj_size mem next_obj bytes) next_obj 0
  | count + 1, next_obj, mem =>
      carve bytes count (next_obj + bytes)
        (set_free_list_link w (set_obj_size mem next_obj bytes) next_obj (next_obj + bytes))

def _refill (bytes chunk : ℕ) : Allocated :=
  let c := a._chunk_alloc bytes 20
  let a := c.1
  let nobject := c.2.1
  let mem := set_obj_size a.mem chunk bytes
  let a :=
    if nobject ≠ 1 then
      { a with
        mem := carve w bytes (nobject - 2).toNat (chunk + bytes) mem
        m_pFreeList := Function.update a.m_pFreeList (_index bytes) (chunk + bytes) }
    else { a with mem := mem }
  ⟨a, chunk + OBJECT_OFFSET w, .chunk c.2.2 bytes⟩

/-- No result where the index is not one of `m_pFreeList`. -/
def allocate (bytes malloc : ℕ) : Option Allocated :=
  let bytes := uint32 (bytes + OBJECT_OFFSET w)
  if MAX_BYTES < bytes then
    some ⟨{ a with mem := set_obj_size a.mem malloc bytes }, malloc + OBJECT_OFFSET w,
      .DefaultAllocator bytes⟩
  else if NUM_LIST ≤ _index bytes then none
  else
    let pObject := a.m_pFreeList (_index bytes)
    if pObject = 0 then some (a._refill w (_round_up bytes) malloc)
    else
      some ⟨{ a with
          m_pFreeList :=
            Function.update a.m_pFreeList (_index bytes) (free_list_link w a.mem pObject) },
        pObject + OBJECT_OFFSET w, .freeList⟩

def deallocate (ptr : ℕ) : Option FTAllocator :=
  let pObject := ptr - OBJECT_OFFSET w
  let size := obj_size a.mem pObject
  -- `DefaultAllocator::deallocate` frees the block
  if MAX_BYTES < size then some a
  else if NUM_LIST ≤ _index size then none
  else
    some { a with
      mem := set_free_list_link w a.mem pObject (a.m_pFreeList (_index size))
      m_pFreeList := Function.update a.m_pFreeList (_index size) pObject }

/-! ## 2. Size classes -/

theorem ROUND_UP_le (value mul : ℕ) : ROUND_UP value mul ≤ value + (mul - 1) :=
  Nat.le_trans Nat.and_le_left (Nat.mod_le _ _)

-- `ROUND_UP` takes away what the mask `mul - 1` leaves of the sum.
theorem ROUND_UP_add_and {value mul : ℕ} (hmul : 0 < mul) (hlt : value + (mul - 1) < 2 ^ 32) :
    ROUND_UP value mul + ((value + (mul - 1)) &&& (mul - 1)) = value + (mul - 1) := by
  have hsum := and_complement_add_and hlt (Nat.lt_of_le_of_lt (Nat.le_add_left (mul - 1) value) hlt)
  rw [Nat.sub_add_cancel hmul] at hsum
  rw [ROUND_UP, uint32_of_lt hlt]
  exact hsum

section Classes

variable {bytes i : ℕ}

/-- The size of the blocks on list `i`. -/
def classSize (i : ℕ) : ℕ := ALIGNMENT * (i + 1)

-- `_index` and `_round_up` choose the same class.
theorem _index_spec (hpos : 0 < bytes) (hle : bytes ≤ MAX_BYTES) :
    _index bytes < NUM_LIST ∧ _round_up bytes = classSize (_index bytes) ∧
      bytes ≤ classSize (_index bytes) := by
  have hmax : bytes ≤ 512 := hle
  have hsum : uint32 (bytes + (ALIGNMENT - 1)) = bytes + 7 := uint32_of_lt (by
    show bytes + 7 < 2 ^ 32
    omega)
  have hindex : _index bytes = (bytes + 7) / 8 - 1 := by
    rw [_index, hsum]
    show ((bytes + 7) / 8 + (2 ^ 32 - 1)) % 2 ^ 32 = _
    omega
  have hround : _round_up bytes = (bytes + 7) / 8 * 8 := by
    have hmask : (bytes + 7) &&& 7 = (bytes + 7) % 8 := Nat.and_two_pow_sub_one_eq_mod _ 3
    have hrest : _round_up bytes + ((bytes + 7) &&& 7) = bytes + 7 :=
      ROUND_UP_add_and (by decide) (by show bytes + 7 < 2 ^ 32; omega)
    omega
  rw [hindex, hround]
  refine ⟨?_, ?_, ?_⟩
  · show (bytes + 7) / 8 - 1 < 64
    omega
  · show _ = 8 * ((bytes + 7) / 8 - 1 + 1)
    omega
  · show bytes ≤ 8 * ((bytes + 7) / 8 - 1 + 1)
    omega

theorem classSize_spec (hi : i < NUM_LIST) :
    ALIGNMENT ≤ classSize i ∧ classSize i ≤ MAX_BYTES ∧ _index (classSize i) = i := by
  have hlt : i < 64 := hi
  have hpos : 0 < classSize i := by
    show 0 < 8 * (i + 1)
    omega
  have hle : classSize i ≤ MAX_BYTES := by
    show 8 * (i + 1) ≤ 512
    omega
  refine ⟨by show 8 ≤ 8 * (i + 1); omega, hle, ?_⟩
  have hsum : uint32 (classSize i + (ALIGNMENT - 1)) = 8 * (i + 1) + 7 := uint32_of_lt (by
    show 8 * (i + 1) + 7 < 2 ^ 32
    omega)
  rw [_index, hsum]
  show ((8 * (i + 1) + 7) / 8 + (2 ^ 32 - 1)) % 2 ^ 32 = i
  omega

end Classes

/-! ## 3. A new chunk -/

section Chunk

variable {w i total count next_obj bytes size link : ℕ} {mem : ℤ → UInt8} {a : FTAllocator}

/-- The size of a new chunk for list `i`. -/
def chunkBytes (i total : ℕ) : ℕ := classSize i * 40 + ROUND_UP (total / 2 ^ 4) (classSize i)

theorem chunkBytes_lt (hi : i < NUM_LIST) (ht : total < 2 ^ 32) : chunkBytes i total < 2 ^ 31 := by
  have hle : classSize i ≤ 512 := (classSize_spec hi).2.1
  have hround := ROUND_UP_le (total / 2 ^ 4) (classSize i)
  unfold chunkBytes
  omega

theorem new_bytes_eq (hi : i < NUM_LIST) (ht : total < 2 ^ 32) :
    new_bytes total (classSize i) 20 = chunkBytes i total := by
  have hle : classSize i ≤ 512 := (classSize_spec hi).2.1
  have hlt := chunkBytes_lt hi ht
  have htotal : int32 ((classSize i * 20 : ℕ) : ℤ) = (classSize i * 20 : ℕ) :=
    int32_of_lt (by omega) (by omega)
  have hsum : ((classSize i * 20 : ℕ) : ℤ) * 2 + ROUND_UP (total / 2 ^ 4) (classSize i) =
      chunkBytes i total := by
    unfold chunkBytes
    omega
  unfold new_bytes
  rw [htotal]
  show int32 (((classSize i * 20 : ℕ) : ℤ) * 2 + ROUND_UP (total / 2 ^ 4) (classSize i)) = _
  rw [hsum, int32_of_lt (by omega) (by omega)]

theorem forty_le_div (hi : i < NUM_LIST) : 40 ≤ chunkBytes i total / classSize i := by
  have hpos : 0 < classSize i := Nat.lt_of_lt_of_le (by decide) (classSize_spec hi).1
  rw [Nat.le_div_iff_mul_le hpos, Nat.mul_comm]
  exact Nat.le_add_right _ _

/-- **`_chunk_alloc`** asks for the chunk, and counts the whole blocks in it. -/
theorem _chunk_alloc_spec (hi : i < NUM_LIST) (ht : a.m_iTotalSize i < 2 ^ 32) :
    ∃ total < 2 ^ 32, a._chunk_alloc (classSize i) 20 =
      ({ a with m_iTotalSize := Function.update a.m_iTotalSize i total },
        ((chunkBytes i (a.m_iTotalSize i) / classSize i : ℕ) : ℤ),
        chunkBytes i (a.m_iTotalSize i)) := by
  have hlt := chunkBytes_lt hi ht
  obtain ⟨n, hn⟩ : ∃ n, chunkBytes i (a.m_iTotalSize i) = n := ⟨_, rfl⟩
  rw [hn] at hlt ⊢
  have hmod : ((n : ℤ) % 2 ^ 32).toNat = n := by omega
  have hquot : n / classSize i < 2 ^ 31 := Nat.lt_of_le_of_lt (Nat.div_le_self _ _) hlt
  refine ⟨((a.m_iTotalSize i + (n : ℤ)) % 2 ^ 32).toNat, by omega, ?_⟩
  simp only [_chunk_alloc, (classSize_spec hi).2.2, new_bytes_eq hi ht, hn, hmod,
    int32_of_lt (Int.natCast_nonneg _) (by omega : ((n / classSize i : ℕ) : ℤ) < 2 ^ 31),
    size_t_of_lt (by omega : n < 2 ^ 64)]

-- What `_refill` makes of a chunk with at least two blocks.
theorem _refill_eq {chunk nobject n : ℕ} {b : FTAllocator} (hi : i < NUM_LIST)
    (h : a._chunk_alloc (classSize i) 20 = (b, (nobject : ℤ), n)) (hcount : 2 ≤ nobject) :
    a._refill w (classSize i) chunk =
      ⟨{ b with
        mem := carve w (classSize i) (nobject - 2) (chunk + classSize i)
          (set_obj_size b.mem chunk (classSize i))
        m_pFreeList := Function.update b.m_pFreeList i (chunk + classSize i) },
        chunk + OBJECT_OFFSET w, .chunk n (classSize i)⟩ := by
  have hne : (nobject : ℤ) ≠ 1 := by omega
  have hloop : ((nobject : ℤ) - 2).toNat = nobject - 2 := by omega
  rw [_refill, h]
  simp only [ne_eq, hne, not_false_eq_true, if_true, hloop, (classSize_spec hi).2.2]

-- The two fields of a free block.
theorem fields_spec (hw : 4 ≤ w) (mem : ℤ → UInt8) (o : ℕ) (hsize : size < 2 ^ 32)
    (hlink : link < 256 ^ w) :
    obj_size (set_free_list_link w (set_obj_size mem o size) o link) o = size ∧
      free_list_link w (set_free_list_link w (set_obj_size mem o size) o link) o = link ∧
      (⟨o, w + w⟩ : Region).Frame mem
        (set_free_list_link w (set_obj_size mem o size) o link) := by
  have hset : (⟨o, 4⟩ : Region).Frame mem (set_obj_size mem o size) := Region.frame_setWord
  have hsetlink : (⟨o + w, w⟩ : Region).Frame (set_obj_size mem o size)
      (set_free_list_link w (set_obj_size mem o size) o link) :=
    Region.frame_setWord (o := o + w)
  refine ⟨?_, Memory.word_setWord hlink, ?_⟩
  · have hsame := hsetlink.word (o := o) (k := 4) (Region.disjoint_mk.mpr (by omega))
    exact hsame.trans (Memory.word_setWord hsize)
  · have hfirst : (⟨o, 4⟩ : Region).Inside ⟨o, w + w⟩ := Region.inside_mk.mpr (by omega)
    have hsecond : (⟨o + w, w⟩ : Region).Inside ⟨o, w + w⟩ := Region.inside_mk.mpr (by omega)
    exact (hset.mono hfirst).trans (hsetlink.mono hsecond)

-- The blocks behind the first one are linked in the order of their addresses, where each of them
-- has room for the link.
theorem carve_spec (hw : 4 ≤ w) (hsize : w + w ≤ bytes) (hlt : bytes < 2 ^ 32)
    (hpos : 0 < next_obj) (hend : next_obj + (count + 1) * bytes ≤ 256 ^ w) :
    (⟨next_obj, (count + 1) * bytes⟩ : Region).Frame mem (carve w bytes count next_obj mem) ∧
      (∀ o ∈ List.range' next_obj (count + 1) bytes,
        obj_size (carve w bytes count next_obj mem) o = bytes) ∧
      Linked (free_list_link w (carve w bytes count next_obj mem)) next_obj
        (List.range' next_obj (count + 1) bytes) := by
  induction count generalizing next_obj mem with
  | zero =>
      have hfields := fields_spec hw mem next_obj hlt (Nat.pow_pos (by decide : 0 < 256))
      rw [List.range'_one, Nat.zero_add, Nat.one_mul]
      refine ⟨hfields.2.2.mono ⟨Nat.le_refl _, Nat.add_le_add_left hsize _⟩, fun o ho ↦ ?_, rfl,
        by omega, hfields.2.1⟩
      rw [List.mem_singleton.mp ho]
      exact hfields.1
  | succ count ih =>
      have hmul : (count + 1 + 1) * bytes = (count + 1) * bytes + bytes := by
        rw [Nat.add_mul, Nat.one_mul]
      have hone : bytes ≤ (count + 1) * bytes := Nat.le_mul_of_pos_left _ (Nat.succ_pos _)
      rw [hmul] at hend ⊢
      have hfields := fields_spec hw mem next_obj hlt
        (by omega : next_obj + bytes < 256 ^ w)
      obtain ⟨hframe, hsizes, hlinked⟩ :=
        @ih (next_obj + bytes) (set_free_list_link w (set_obj_size mem next_obj bytes) next_obj
          (next_obj + bytes)) (by omega) (by omega)
      -- the rest of the loop does not come back to the first block
      have hobj_size := hframe.word (o := next_obj) (k := 4) (Region.disjoint_mk.mpr (by omega))
      have hlink := hframe.word (o := next_obj + w) (k := w) (Region.disjoint_mk.mpr (by omega))
      rw [List.range'_succ]
      refine ⟨?_, fun o ho ↦ ?_, rfl, by omega, ?_⟩
      · have hfirst : (⟨next_obj, w + w⟩ : Region).Inside
            ⟨next_obj, (count + 1) * bytes + bytes⟩ := Region.inside_mk.mpr (by omega)
        have hrest : (⟨next_obj + bytes, (count + 1) * bytes⟩ : Region).Inside
            ⟨next_obj, (count + 1) * bytes + bytes⟩ := Region.inside_mk.mpr (by omega)
        exact (hfields.2.2.mono hfirst).trans (hframe.mono hrest)
      · cases List.mem_cons.mp ho with
        | inl hfirst =>
            rw [hfirst]
            exact hobj_size.trans hfields.1
        | inr hrest => exact hsizes o hrest
      · have hnext : free_list_link w (carve w bytes (count + 1) next_obj mem) next_obj =
            next_obj + bytes := hlink.trans hfields.2.1
        rw [hnext]
        exact hlinked

/-- **`_refill`** returns the first block of the chunk and makes a list of the others. -/
theorem _refill_spec {chunk : ℕ} (hw : 4 ≤ w) (hsize : w + w ≤ classSize i) (hi : i < NUM_LIST)
    (ht : a.m_iTotalSize i < 2 ^ 32) :
    ∃ total n : ℕ, ∃ mem : ℤ → UInt8, a._refill w (classSize i) chunk =
        ⟨⟨mem, Function.update a.m_pFreeList i (chunk + classSize i),
          Function.update a.m_iTotalSize i total⟩, chunk + w, .chunk n (classSize i)⟩ ∧
      total < 2 ^ 32 ∧ 40 ≤ n / classSize i ∧
      (0 < chunk → chunk + n ≤ 256 ^ w →
        (⟨chunk, n⟩ : Region).Frame a.mem mem ∧
        (∀ o ∈ List.range' chunk (n / classSize i) (classSize i), obj_size mem o = classSize i) ∧
        Linked (free_list_link w mem) (chunk + classSize i)
          (List.range' (chunk + classSize i) (n / classSize i - 1) (classSize i))) := by
  obtain ⟨total, htotal, hchunk⟩ := _chunk_alloc_spec (a := a) hi ht
  have hcount : 40 ≤ chunkBytes i (a.m_iTotalSize i) / classSize i := forty_le_div hi
  obtain ⟨n, hn⟩ : ∃ n, chunkBytes i (a.m_iTotalSize i) = n := ⟨_, rfl⟩
  rw [hn] at hchunk hcount
  have hle : classSize i ≤ 512 := (classSize_spec hi).2.1
  refine ⟨total, n, carve w (classSize i) (n / classSize i - 2) (chunk + classSize i)
    (set_obj_size a.mem chunk (classSize i)), ?_, htotal, hcount, fun hpos hend ↦ ?_⟩
  · exact _refill_eq hi hchunk (by omega)
  · have hall : n / classSize i * classSize i ≤ n := Nat.div_mul_le_self _ _
    obtain ⟨k, hk⟩ : ∃ k, n / classSize i = k + 2 := ⟨n / classSize i - 2, by omega⟩
    rw [hk] at hall ⊢
    have hmul : (k + 2) * classSize i = (k + 1) * classSize i + classSize i := by
      rw [Nat.add_mul (k + 1) 1, Nat.one_mul]
    obtain ⟨hframe, hsizes, hlinked⟩ := @carve_spec w (k + 2 - 2) (chunk + classSize i)
      (classSize i) (set_obj_size a.mem chunk (classSize i)) hw hsize (by omega) (by omega)
      (by rw [Nat.add_sub_cancel]; omega)
    rw [Nat.add_sub_cancel] at hframe hsizes hlinked ⊢
    have hset : (⟨chunk, 4⟩ : Region).Frame a.mem (set_obj_size a.mem chunk (classSize i)) :=
      Region.frame_setWord
    refine ⟨?_, ?_, hlinked⟩
    · exact (hset.mono (Region.inside_mk.mpr (by omega))).trans
        (hframe.mono (Region.inside_mk.mpr (by omega)))
    · intro o ho
      rw [List.range'_succ] at ho
      cases List.mem_cons.mp ho with
      | inl hfirst =>
          rw [hfirst]
          have hsame := hframe.word (o := chunk) (k := 4) (Region.disjoint_mk.mpr (by omega))
          exact hsame.trans (Memory.word_setWord (Nat.lt_of_le_of_lt hle (by decide)))
      | inr hrest => exact hsizes o hrest

end Chunk

/-! ## 4. Requests -/

section Requests

variable {a : FTAllocator} {n p o i : ℕ}

/-- **`allocate`** never leaves the range of `m_pFreeList`. -/
theorem allocate_spec (hn : n + OBJECT_OFFSET 4 < 2 ^ 32) :
    (MAX_BYTES < n + OBJECT_OFFSET 4 ∧ a.allocate 4 n p =
        some ⟨{ a with mem := set_obj_size a.mem p (n + OBJECT_OFFSET 4) }, p + OBJECT_OFFSET 4,
          .DefaultAllocator (n + OBJECT_OFFSET 4)⟩) ∨
      (n + OBJECT_OFFSET 4 ≤ MAX_BYTES ∧ ∃ i < NUM_LIST,
        _round_up (n + OBJECT_OFFSET 4) = classSize i ∧ n + OBJECT_OFFSET 4 ≤ classSize i ∧
        ((a.m_pFreeList i = 0 ∧ a.allocate 4 n p = some (a._refill 4 (classSize i) p)) ∨
          (a.m_pFreeList i ≠ 0 ∧ a.allocate 4 n p =
            some ⟨{ a with
              m_pFreeList :=
                Function.update a.m_pFreeList i (free_list_link 4 a.mem (a.m_pFreeList i)) },
              a.m_pFreeList i + OBJECT_OFFSET 4, .freeList⟩))) := by
  have hbytes : uint32 (n + OBJECT_OFFSET 4) = n + OBJECT_OFFSET 4 := uint32_of_lt hn
  unfold allocate
  rw [hbytes]
  by_cases hmax : MAX_BYTES < n + OBJECT_OFFSET 4
  · exact .inl ⟨hmax, if_pos hmax⟩
  · have hle : n + OBJECT_OFFSET 4 ≤ MAX_BYTES := Nat.le_of_not_lt hmax
    have hindex := _index_spec (Nat.add_pos_right n (by decide)) hle
    refine .inr ⟨hle, _, hindex.1, hindex.2.1, hindex.2.2, ?_⟩
    rw [if_neg hmax, if_neg (Nat.not_le_of_lt hindex.1), hindex.2.1]
    by_cases hnull : a.m_pFreeList (_index (n + OBJECT_OFFSET 4)) = 0
    · exact .inl ⟨hnull, if_pos hnull⟩
    · exact .inr ⟨hnull, if_neg hnull⟩

theorem deallocate_default (hsize : MAX_BYTES < obj_size a.mem o) :
    a.deallocate 4 (o + OBJECT_OFFSET 4) = some a := by
  rw [deallocate, Nat.add_sub_cancel]
  exact if_pos hsize

/-- **`deallocate`** puts a block in front of the list that it was allocated from. -/
theorem deallocate_class (hi : i < NUM_LIST) (hsize : obj_size a.mem o = classSize i) :
    a.deallocate 4 (o + OBJECT_OFFSET 4) =
      some { a with
        mem := set_free_list_link 4 a.mem o (a.m_pFreeList i)
        m_pFreeList := Function.update a.m_pFreeList i o } := by
  have hclass := classSize_spec hi
  rw [deallocate, Nat.add_sub_cancel]
  simp only [hsize, hclass.2.2, if_neg (Nat.not_lt_of_le hclass.2.1),
    if_neg (Nat.not_le_of_lt hi)]

end Requests

end FTAllocator

end Fantuan
