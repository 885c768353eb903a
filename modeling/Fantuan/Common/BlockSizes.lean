import Fantuan.Common.Allocator

/-!
# Sizes of blocks

How many bytes the block has that `FTAllocator::allocate` returns, and those that `_refill` carves
for it, for pointers of 4 and of 8 bytes.
-/

open Lib

namespace Fantuan

open Allocator

namespace FTAllocator

variable {w n p bytes size : ℕ} {a : FTAllocator} {r : Allocated}

/-! ## 1. The law -/

/-- `size` can be the size of a block from there that serves a request for `n` bytes.  What is on a
free list was carved for some request that is served from the same list. -/
def HasSize (w n : ℕ) : BlockSource → ℕ → Prop
  | .freeList, size => ∃ m, uint32 (m + OBJECT_OFFSET w) ≤ MAX_BYTES ∧
      _index (uint32 (m + OBJECT_OFFSET w)) = _index (uint32 (n + OBJECT_OFFSET w)) ∧
      size = _round_up (uint32 (m + OBJECT_OFFSET w))
  | .chunk _ bytes, size => size = bytes
  | .DefaultAllocator bytes, size => size = bytes

/-- Linking a block of `bytes` bytes leaves the header of the next one alone. -/
def LinksInside (w bytes : ℕ) : Prop :=
  ∀ mem o link, obj_size (set_free_list_link w mem o link) (o + bytes) = obj_size mem (o + bytes)

structure BlockLaw (w n : ℕ) : Prop where
  returns : ∀ a p, ∃ r, allocate w a n p = some r
  room : ∀ a p r size, allocate w a n p = some r → HasSize w n r.source size →
    OBJECT_OFFSET w + n ≤ size
  carved : ∀ a p r new_bytes bytes, allocate w a n p = some r → r.source = .chunk new_bytes bytes →
    OBJECT_OFFSET w + w ≤ bytes ∧ LinksInside w bytes

theorem linksInside_of_le (h : OBJECT_OFFSET w + w ≤ bytes) : LinksInside w bytes := by
  intro mem o link
  have hframe : (⟨o + OBJECT_OFFSET w, w⟩ : Region).Frame mem (set_free_list_link w mem o link) :=
    Region.frame_setWord (o := o + OBJECT_OFFSET w)
  exact hframe.word (o := o + bytes) (.inr (by show o + OBJECT_OFFSET w + w ≤ o + bytes; omega))

/-! ## 2. Where blocks come from -/

section Sources

variable (hbytes : uint32 (n + OBJECT_OFFSET w) = bytes)
include hbytes

theorem allocate_eq_none :
    allocate w a n p = none ↔ bytes ≤ MAX_BYTES ∧ NUM_LIST ≤ _index bytes := by
  unfold allocate
  simp only [hbytes]
  by_cases hmax : MAX_BYTES < bytes
  · rw [if_pos hmax]
    exact iff_of_false nofun (by omega)
  · rw [if_neg hmax]
    by_cases hindex : NUM_LIST ≤ _index bytes
    · rw [if_pos hindex]
      exact iff_of_true rfl ⟨Nat.le_of_not_lt hmax, hindex⟩
    · rw [if_neg hindex]
      refine iff_of_false ?_ fun h ↦ hindex h.2
      split <;> exact nofun

theorem source_of_default (hmax : MAX_BYTES < bytes) (hr : allocate w a n p = some r) :
    r.source = .DefaultAllocator bytes := by
  unfold allocate at hr
  simp only [hbytes] at hr
  rw [if_pos hmax, Option.some.injEq] at hr
  rw [← hr]

theorem source_of_class (hmax : bytes ≤ MAX_BYTES) (hr : allocate w a n p = some r) :
    r.source = .freeList ∨ ∃ new_bytes, r.source = .chunk new_bytes (_round_up bytes) := by
  unfold allocate at hr
  simp only [hbytes] at hr
  rw [if_neg (Nat.not_lt.mpr hmax)] at hr
  by_cases hindex : NUM_LIST ≤ _index bytes
  · rw [if_pos hindex] at hr
    exact nomatch hr
  · rw [if_neg hindex] at hr
    by_cases hnull : a.m_pFreeList (_index bytes) = 0
    · rw [if_pos hnull, Option.some.injEq] at hr
      rw [← hr]
      exact .inr ⟨_, rfl⟩
    · rw [if_neg hnull, Option.some.injEq] at hr
      rw [← hr]
      exact .inl rfl

/-- Before the first request the lists are empty, so that a chunk is carved. -/
theorem source_of_empty (hmax : bytes ≤ MAX_BYTES) (hindex : _index bytes < NUM_LIST)
    (mem : ℤ → UInt8) :
    ∃ r new_bytes, allocate w ⟨mem, fun _ ↦ 0, fun _ ↦ 0⟩ n p = some r ∧
      r.source = .chunk new_bytes (_round_up bytes) := by
  unfold allocate
  simp only [hbytes]
  rw [if_neg (Nat.not_lt.mpr hmax), if_neg (Nat.not_le.mpr hindex)]
  exact ⟨_, _, rfl, rfl⟩

end Sources

-- The block that serves a request has its class's size, or the size that was asked for.
theorem le_of_hasSize (hpos : 0 < n + OBJECT_OFFSET w) (hn : n + OBJECT_OFFSET w < 2 ^ 32)
    (hr : allocate w a n p = some r) (hsize : HasSize w n r.source size) :
    n + OBJECT_OFFSET w ≤ size := by
  have hbytes : uint32 (n + OBJECT_OFFSET w) = n + OBJECT_OFFSET w := uint32_of_lt hn
  by_cases hmax : MAX_BYTES < n + OBJECT_OFFSET w
  · rw [source_of_default hbytes hmax hr] at hsize
    exact Nat.le_of_eq hsize.symm
  · have hle : n + OBJECT_OFFSET w ≤ MAX_BYTES := Nat.le_of_not_lt hmax
    obtain ⟨hindex, hround, hroom⟩ := _index_spec hpos hle
    rcases source_of_class hbytes hle hr with hlist | ⟨_, hchunk⟩
    · rw [hlist] at hsize
      obtain ⟨m, hmle, hsame, rfl⟩ := hsize
      rw [hbytes] at hsame
      -- no list serves a request that wraps to 0
      have hmpos : 0 < uint32 (m + OBJECT_OFFSET w) := by
        apply Nat.pos_of_ne_zero
        intro hzero
        rw [← hsame, hzero] at hindex
        exact absurd hindex (by decide)
      rw [(_index_spec hmpos hmle).2.1, hsame]
      exact hroom
    · rw [hchunk] at hsize
      have hexact : size = _round_up (n + OBJECT_OFFSET w) := hsize
      rw [hexact, hround]
      exact hroom

/-! ## 3. When the law holds -/

theorem blockLaw_of_lt (hw : w = 4 ∨ w = 8) (hn : n + OBJECT_OFFSET w < 2 ^ 32)
    (hzero : w = 4 ∨ 0 < n) : BlockLaw w n := by
  have hoff : OBJECT_OFFSET w = w := rfl
  have hbytes : uint32 (n + OBJECT_OFFSET w) = n + OBJECT_OFFSET w := uint32_of_lt hn
  have hpos : 0 < n + OBJECT_OFFSET w := by omega
  constructor
  · intro a p
    apply Option.ne_none_iff_exists'.mp
    rw [Ne, allocate_eq_none hbytes]
    intro hnone
    exact Nat.not_le.mpr (_index_spec hpos hnone.1).1 hnone.2
  · intro a p r size hr hsize
    rw [Nat.add_comm]
    exact le_of_hasSize hpos hn hr hsize
  · intro a p r new_bytes bytes hr hsource
    have hle : n + OBJECT_OFFSET w ≤ MAX_BYTES := by
      by_contra hmax
      rw [source_of_default hbytes (by omega) hr] at hsource
      exact nomatch hsource
    have hround : bytes = _round_up (n + OBJECT_OFFSET w) := by
      rcases source_of_class hbytes hle hr with hlist | ⟨_, hchunk⟩
      · rw [hlist] at hsource
        exact nomatch hsource
      · rw [hchunk, BlockSource.chunk.injEq] at hsource
        exact hsource.2.symm
    have hclass := _index_spec hpos hle
    have hsize : classSize (_index (n + OBJECT_OFFSET w)) =
        8 * (_index (n + OBJECT_OFFSET w) + 1) := rfl
    -- of 9 bytes or more the class has 16
    have htwo : OBJECT_OFFSET w + w ≤ bytes := by
      rw [hround]
      omega
    exact ⟨htwo, linksInside_of_le htwo⟩

-- A request that wraps gets a block of the first class, or none.
theorem not_blockLaw_of_le (hw : w = 4 ∨ w = 8) (hn : n < 2 ^ 32)
    (hwrap : 2 ^ 32 ≤ n + OBJECT_OFFSET w) : ¬ BlockLaw w n := by
  have hoff : OBJECT_OFFSET w = w := rfl
  intro h
  obtain ⟨k, hk⟩ : ∃ k, n + OBJECT_OFFSET w = k + 2 ^ 32 := ⟨n + OBJECT_OFFSET w - 2 ^ 32, by omega⟩
  have hbytes : uint32 (n + OBJECT_OFFSET w) = k := by
    rw [hk, uint32, Nat.add_mod_right]
    exact Nat.mod_eq_of_lt (by omega)
  have hle : k ≤ MAX_BYTES := by
    show k ≤ 512
    omega
  cases hzero : k with
  | zero =>
      obtain ⟨r, hr⟩ := h.returns ⟨fun _ ↦ 0, fun _ ↦ 0, fun _ ↦ 0⟩ 0
      rw [hzero] at hbytes
      rw [(allocate_eq_none hbytes).mpr ⟨Nat.zero_le _, by decide⟩] at hr
      exact nomatch hr
  | succ m =>
      obtain ⟨hindex, hround, -⟩ := _index_spec (by omega : 0 < k) hle
      obtain ⟨r, new_bytes, hr, hsource⟩ := source_of_empty (p := 0) hbytes hle hindex fun _ ↦ 0
      have hroom := h.room _ _ r (_round_up k) hr (hsource ▸ rfl)
      have hclass := (classSize_spec hindex).2.1
      rw [hround] at hroom
      have hmax : MAX_BYTES = 512 := rfl
      omega

-- The smallest class has no room for a link of 8 bytes.
theorem not_blockLaw_zero : ¬ BlockLaw 8 0 := by
  intro h
  have hbytes : uint32 (0 + OBJECT_OFFSET 8) = 8 := rfl
  obtain ⟨r, new_bytes, hr, hsource⟩ := source_of_empty (p := 0) hbytes (by decide) (by decide)
    fun _ ↦ 0
  have hcarved := (h.carved _ _ r new_bytes _ hr hsource).1
  exact absurd hcarved (by decide)

/-- **Sizes of blocks.**  The block that a request gets is large enough, and so are those carved for
it, exactly if the header's size can be added to the request without wrapping around and, where
pointers have 8 bytes, the request is not for 0 bytes. -/
theorem block_law_iff (w n : ℕ) (hw : w = 4 ∨ w = 8) (hn : n < 2 ^ 32) :
    BlockLaw w n ↔ n + OBJECT_OFFSET w < 2 ^ 32 ∧ (w = 4 ∨ 0 < n) := by
  constructor
  · intro h
    constructor
    · by_contra hwrap
      exact not_blockLaw_of_le hw hn (Nat.not_lt.mp hwrap) h
    · by_contra hnot
      rw [not_or, Nat.not_lt, Nat.le_zero] at hnot
      obtain ⟨hw4, rfl⟩ := hnot
      obtain rfl := hw.resolve_left hw4
      exact not_blockLaw_zero h
  · exact fun h ↦ blockLaw_of_lt hw h.1 h.2

/-- One byte, with pointers of 8 bytes. -/
theorem block_law_one : BlockLaw 8 1 :=
  (block_law_iff 8 1 (.inr rfl) (by decide)).mpr ⟨by decide, .inr (by decide)⟩

/-- No bytes, with pointers of 8 bytes. -/
theorem not_block_law : ¬ ∀ w n, w = 4 ∨ w = 8 → n < 2 ^ 32 → BlockLaw w n := by
  intro h
  exact not_blockLaw_zero (h 8 0 (.inr rfl) (by decide))

end FTAllocator

end Fantuan
