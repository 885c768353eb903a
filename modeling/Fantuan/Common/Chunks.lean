import Fantuan.Common.Allocator

/-!
# Chunks — what `_chunk_alloc` asks for, and what `_refill` carves of it

A chunk has room for 40 blocks and for what `ROUND_UP` makes of the bytes that the list has asked
for before.  `ROUND_UP` rounds with a mask, which is right if the size of a block is a power of two.
-/

open Lib

namespace Fantuan

open Allocator

namespace FTAllocator

variable {a b : FTAllocator} {w i chunk nobject n total bytes count next_obj : ℕ}
  {mem : ℤ → UInt8}

/-! ## 1. What is right -/

/-- The blocks that `_refill` has made of `chunk`: behind the first one there are `nobject - 1` on
the list, if they have room for a link, and the last one ends with the chunk. -/
structure ChainEnds (r : Allocated) (w i chunk nobject n : ℕ) : Prop where
  linked : w + w ≤ classSize i → 0 < chunk → chunk + n ≤ 256 ^ w → ∃ blocks : List ℕ,
    Linked (free_list_link w r.allocator.mem) (r.allocator.m_pFreeList i) blocks ∧
      blocks.length + 1 = nobject ∧ ∀ last ∈ blocks.getLast?, last + classSize i = chunk + n
  last : ∃ last, last + classSize i = chunk + n ∧ obj_size r.allocator.mem last = classSize i ∧
    free_list_link w r.allocator.mem last = 0

/-- `_chunk_alloc` asks for `n` bytes and sets `nobject`. -/
structure CarvesAll (a : FTAllocator) (i nobject n : ℕ) : Prop where
  asked : (a._chunk_alloc (classSize i) 20).2 = ((nobject : ℤ), n)
  positive : 0 < n
  no_overflow :
    n = classSize i * 20 * 2 + ROUND_UP (a.m_iTotalSize i / 2 ^ 4) (classSize i) ∧ n < 2 ^ 31
  multiple : n = nobject * classSize i
  enough : 40 ≤ nobject
  chain : ∀ w chunk, w = 4 ∨ w = 8 →
    ChainEnds (a._refill w (classSize i) chunk) w i chunk nobject n

def WastesNothing (a : FTAllocator) (i : ℕ) : Prop := ∃ nobject n, CarvesAll a i nobject n

/-- What `ROUND_UP` masks is what is left over when the blocks have been taken away. -/
def MaskIsRemainder (total bytes : ℕ) : Prop :=
  (total / 2 ^ 4 + (bytes - 1)) &&& (bytes - 1) = (total / 2 ^ 4 + (bytes - 1)) % bytes

instance (total bytes : ℕ) : Decidable (MaskIsRemainder total bytes) :=
  inferInstanceAs (Decidable (_ = _))

/-! ## 2. The mask -/

theorem ROUND_UP_dvd_iff (hpos : 0 < bytes) (hlt : total / 2 ^ 4 + (bytes - 1) < 2 ^ 32) :
    bytes ∣ ROUND_UP (total / 2 ^ 4) bytes ↔ MaskIsRemainder total bytes := by
  obtain ⟨x, hx⟩ : ∃ x, total / 2 ^ 4 + (bytes - 1) = x := ⟨_, rfl⟩
  have hsum := ROUND_UP_add_and hpos hlt
  unfold MaskIsRemainder
  rw [hx] at hsum ⊢
  have hmask : x &&& (bytes - 1) < bytes := Nat.lt_of_le_of_lt Nat.and_le_right (by omega)
  constructor
  · intro hdvd
    obtain ⟨k, hk⟩ := hdvd
    calc x &&& (bytes - 1)
        = (bytes * k + (x &&& (bytes - 1))) % bytes := by
          rw [Nat.mul_add_mod, Nat.mod_eq_of_lt hmask]
      _ = x % bytes := by rw [← hk, hsum]
  · intro hmod
    have hround : ROUND_UP (total / 2 ^ 4) bytes = x - x % bytes := by omega
    rw [hround]
    exact Nat.dvd_sub_mod x

theorem maskIsRemainder_iff (hpos : 0 < bytes) :
    (∀ total < 2 ^ 32, MaskIsRemainder total bytes) ↔ bytes.isPowerOfTwo := by
  constructor
  · intro h
    have hmask := h 16 (by decide)
    have hone : 16 / 2 ^ 4 + (bytes - 1) = bytes := by omega
    rw [MaskIsRemainder, hone, Nat.mod_self] at hmask
    exact (Nat.and_sub_one_eq_zero_iff_isPowerOfTwo (Nat.ne_of_gt hpos)).mp hmask
  · intro h total _
    obtain ⟨k, hk⟩ := h
    rw [MaskIsRemainder, hk]
    exact Nat.and_two_pow_sub_one_eq_mod _ k

/-! ## 3. The chain -/

-- The loop ends at the last block, whether or not the ones before it have room for their links.
theorem carve_last (hw : 4 ≤ w) (hlt : bytes < 2 ^ 32) :
    obj_size (carve w bytes count next_obj mem) (next_obj + count * bytes) = bytes ∧
      free_list_link w (carve w bytes count next_obj mem) (next_obj + count * bytes) = 0 := by
  induction count generalizing next_obj mem with
  | zero =>
      rw [Nat.zero_mul, Nat.add_zero]
      have hfields := fields_spec hw mem next_obj hlt (Nat.pow_pos (by decide : 0 < 256))
      exact ⟨hfields.1, hfields.2.1⟩
  | succ count ih =>
      have hnext : next_obj + (count + 1) * bytes = next_obj + bytes + count * bytes := by
        rw [Nat.succ_mul]
        omega
      rw [hnext]
      exact ih

-- If the blocks make up the chunk, the last one ends with it.
theorem chainEnds (hw : w = 4 ∨ w = 8) (hi : i < NUM_LIST)
    (h : a._chunk_alloc (classSize i) 20 = (b, (nobject : ℤ), n)) (hcount : 2 ≤ nobject)
    (hn : n = nobject * classSize i) :
    ChainEnds (a._refill w (classSize i) chunk) w i chunk nobject n := by
  have hw' : 4 ≤ w := by omega
  have hlt : classSize i < 2 ^ 32 := Nat.lt_of_le_of_lt (classSize_spec hi).2.1 (by decide)
  obtain ⟨k, rfl⟩ : ∃ k, nobject = k + 2 := ⟨nobject - 2, by omega⟩
  have hend : n = k * classSize i + classSize i + classSize i := by
    rw [hn, Nat.succ_mul, Nat.succ_mul]
  rw [_refill_eq hi h hcount, Nat.add_sub_cancel]
  constructor
  · intro hroom hpos hfits
    obtain ⟨-, -, hlinked⟩ := @carve_spec w k (chunk + classSize i) (classSize i)
      (set_obj_size b.mem chunk (classSize i)) hw' hroom hlt (by omega)
      (by rw [Nat.succ_mul]; omega)
    refine ⟨List.range' (chunk + classSize i) (k + 1) (classSize i), ?_, ?_, ?_⟩
    · show Linked _ (Function.update b.m_pFreeList i (chunk + classSize i) i) _
      rw [Function.update_self]
      exact hlinked
    · rw [List.length_range']
    · intro last hlast
      rw [List.range'_concat, List.getLast?_concat, Option.mem_some_iff] at hlast
      rw [← hlast, Nat.mul_comm]
      omega
  · have hlast := @carve_last w (classSize i) k (chunk + classSize i)
      (set_obj_size b.mem chunk (classSize i)) hw' hlt
    exact ⟨chunk + classSize i + k * classSize i, by omega, hlast⟩

/-! ## 4. One class -/

theorem sum_lt (hi : i < NUM_LIST) (ht : total < 2 ^ 32) :
    total / 2 ^ 4 + (classSize i - 1) < 2 ^ 32 := by
  have hle : classSize i ≤ 512 := (classSize_spec hi).2.1
  omega

theorem CarvesAll.dvd (h : CarvesAll a i nobject n) :
    classSize i ∣ ROUND_UP (a.m_iTotalSize i / 2 ^ 4) (classSize i) := by
  have hall : classSize i ∣
      classSize i * 20 * 2 + ROUND_UP (a.m_iTotalSize i / 2 ^ 4) (classSize i) := by
    rw [← h.no_overflow.1, h.multiple]
    exact Nat.dvd_mul_left _ _
  have hforty : classSize i ∣ classSize i * 20 * 2 :=
    Nat.dvd_mul_right_of_dvd (Nat.dvd_mul_right _ _) 2
  exact (Nat.dvd_add_right hforty).mp hall

theorem wastesNothing_of_dvd (hi : i < NUM_LIST) (ht : a.m_iTotalSize i < 2 ^ 32)
    (hdvd : classSize i ∣ ROUND_UP (a.m_iTotalSize i / 2 ^ 4) (classSize i)) :
    WastesNothing a i := by
  obtain ⟨total, -, hchunk⟩ := _chunk_alloc_spec (a := a) hi ht
  have hcount : 40 ≤ chunkBytes i (a.m_iTotalSize i) / classSize i := forty_le_div hi
  have hclass : 8 ≤ classSize i := (classSize_spec hi).1
  have hwhole : classSize i ∣ chunkBytes i (a.m_iTotalSize i) :=
    Nat.dvd_add (Nat.dvd_mul_right _ _) hdvd
  have hmultiple := (Nat.div_mul_cancel hwhole).symm
  refine ⟨chunkBytes i (a.m_iTotalSize i) / classSize i, chunkBytes i (a.m_iTotalSize i), ?_⟩
  constructor
  case asked => exact congrArg Prod.snd hchunk
  case positive =>
    unfold chunkBytes
    omega
  case no_overflow =>
    refine ⟨?_, chunkBytes_lt hi ht⟩
    rw [chunkBytes, Nat.mul_assoc]
  case multiple => exact hmultiple
  case enough => exact hcount
  case chain => exact fun w chunk hw ↦ chainEnds hw hi hchunk (by omega) hmultiple

theorem wastesNothing_iff (hi : i < NUM_LIST) (ht : a.m_iTotalSize i < 2 ^ 32) :
    WastesNothing a i ↔ MaskIsRemainder (a.m_iTotalSize i) (classSize i) := by
  have hpos : 0 < classSize i := Nat.lt_of_lt_of_le (by decide) (classSize_spec hi).1
  rw [← ROUND_UP_dvd_iff hpos (sum_lt hi ht)]
  constructor
  · intro h
    obtain ⟨nobject, n, hall⟩ := h
    exact hall.dvd
  · exact wastesNothing_of_dvd hi ht

/-- Chunks of some class have all been carved without waste if its blocks are powers of two. -/
theorem wastesNothing_always_iff (hi : i < NUM_LIST) :
    (∀ a : FTAllocator, a.m_iTotalSize i < 2 ^ 32 → WastesNothing a i) ↔
      (classSize i).isPowerOfTwo := by
  have hpos : 0 < classSize i := Nat.lt_of_lt_of_le (by decide) (classSize_spec hi).1
  rw [← maskIsRemainder_iff hpos]
  constructor
  · intro h total ht
    exact (wastesNothing_iff (a := ⟨fun _ ↦ 0, fun _ ↦ 0, fun _ ↦ total⟩) hi ht).mp (h _ ht)
  · exact fun h a ht ↦ (wastesNothing_iff hi ht).mpr (h _ ht)

/-- **A chunk is carved without waste** if and only if the mask of `ROUND_UP` is the remainder for
what the list has asked for before; that is so for all of it if and only if the size of a block is a
power of two. -/
theorem wastes_nothing_exactly (i : ℕ) (hi : i < NUM_LIST) :
    (∀ a : FTAllocator, a.m_iTotalSize i < 2 ^ 32 →
      (WastesNothing a i ↔ MaskIsRemainder (a.m_iTotalSize i) (classSize i))) ∧
    ((∀ a : FTAllocator, a.m_iTotalSize i < 2 ^ 32 → WastesNothing a i) ↔
      (classSize i).isPowerOfTwo) :=
  ⟨fun _ ht ↦ wastesNothing_iff hi ht, wastesNothing_always_iff hi⟩

/-- The first chunk for blocks of 24 bytes, and any chunk for blocks of 32. -/
theorem wastes_nothing_24_32 :
    WastesNothing ⟨fun _ ↦ 0, fun _ ↦ 0, fun _ ↦ 0⟩ 2 ∧
      WastesNothing ⟨fun _ ↦ 0, fun _ ↦ 0, fun _ ↦ 4294967295⟩ 3 :=
  ⟨((wastes_nothing_exactly 2 (by decide)).1 _ (by decide)).mpr (by decide),
    (wastes_nothing_exactly 3 (by decide)).2.mpr ⟨5, rfl⟩ _ (by decide)⟩

/-- The second chunk for blocks of 24 bytes has 1024 bytes: 16 of them are in no block. -/
theorem not_wastes_nothing : ¬ WastesNothing ⟨fun _ ↦ 0, fun _ ↦ 0, fun _ ↦ 960⟩ 2 := by
  rw [wastesNothing_iff (by decide) (by decide)]
  decide

end FTAllocator

end Fantuan
