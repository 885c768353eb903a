import Fantuan.Common.Allocator
import Fantuan.Lib.Runs

/-!
# Heap — `FTAllocator` and its clients

What `malloc` has returned, the blocks that clients have, and any sequence of requests and of writes
to these blocks.  Pointers have 4 bytes.
-/

open Lib

namespace Fantuan

open Allocator

/-! ## 1. The heap -/

/-- A block that a client has.  It asked for `n` bytes. -/
structure Live where
  pObject : ℕ
  n : ℕ
deriving DecidableEq, Repr

namespace Live

variable (b : Live)

def size : ℕ :=
  let bytes := b.n + OBJECT_OFFSET 4
  if MAX_BYTES < bytes then bytes else FTAllocator._round_up bytes

def region : Region := ⟨b.pObject, b.size⟩

open FTAllocator in
theorem size_of_le {i n o : ℕ} (hle : n + OBJECT_OFFSET 4 ≤ MAX_BYTES)
    (hround : _round_up (n + OBJECT_OFFSET 4) = classSize i) : (⟨o, n⟩ : Live).size = classSize i :=
  (if_neg (Nat.not_lt_of_le hle)).trans hround

-- The bytes of the client are in the block.
theorem le_size : b.n + OBJECT_OFFSET 4 ≤ b.size := by
  rw [size]
  by_cases hmax : MAX_BYTES < b.n + OBJECT_OFFSET 4
  · rw [if_pos hmax]
  · have hindex := @FTAllocator._index_spec (b.n + OBJECT_OFFSET 4)
      (Nat.add_pos_right _ (by decide)) (Nat.le_of_not_lt hmax)
    rw [if_neg hmax, hindex.2.1]
    exact hindex.2.2

end Live

/-- What `malloc` has returned, for blocks of `bytes` bytes. -/
structure Chunk where
  base : ℕ
  size : ℕ
  bytes : ℕ
deriving DecidableEq, Repr

namespace Chunk

variable (c : Chunk)

def region : Region := ⟨c.base, c.size⟩

def blocks : List Region := Lib.blocks c.base (c.size / c.bytes) c.bytes

variable {c} {r : Region}

theorem inside_of_mem (h : r ∈ c.blocks) : r.Inside c.region :=
  (mem_blocks h).trans ⟨Nat.le_refl _, Nat.add_le_add_left (Nat.div_mul_le_self _ _) _⟩

theorem blocks_single {base bytes : ℕ} (h : 0 < bytes) :
    (⟨base, bytes, bytes⟩ : Chunk).blocks = [⟨base, bytes⟩] := by
  rw [blocks, Nat.div_self h]
  rfl

end Chunk

/-- The new chunk.  One of `DefaultAllocator` is a single block. -/
def BlockSource.chunks (p : ℕ) : BlockSource → List Chunk
  | freeList => []
  | chunk new_bytes bytes => [⟨p, new_bytes, bytes⟩]
  | DefaultAllocator bytes => [⟨p, bytes, bytes⟩]

structure Heap where
  allocator : FTAllocator
  chunks : List Chunk
  live : List Live

namespace Heap

variable (s : Heap)

def start (mem : ℤ → UInt8) : Heap := ⟨⟨mem, fun _ ↦ 0, fun _ ↦ 0⟩, [], []⟩

/-- `malloc` can return the region. -/
def Fresh (r : Region) : Prop :=
  0 < r.base ∧ r.base + r.size ≤ 2 ^ 32 ∧ ∀ c ∈ s.chunks, r.Disjoint c.region

/-- The chunks after `deallocate`: `DefaultAllocator` calls `free`. -/
def freed (pObject : ℕ) : List Chunk :=
  if MAX_BYTES < obj_size s.allocator.mem pObject then s.chunks.eraseP (·.base = pObject)
  else s.chunks

def written (o : ℕ) (data : List UInt8) : Heap :=
  { s with allocator := { s.allocator with mem := Memory.write s.allocator.mem o data } }

inductive Op
  /-- `allocate(n)`, where `malloc` returns `p` if it is called. -/
  | allocate (n p : ℕ)
  | deallocate (b : Live)
  /-- The client writes to its bytes from `off` on. -/
  | write (b : Live) (off : ℕ) (data : List UInt8)
  /-- Somebody writes where no chunk is. -/
  | elsewhere (o : ℕ) (data : List UInt8)

inductive Step : Heap → Op → Heap → Prop
  | allocate {s : Heap} {n p : ℕ} {r : Allocated} (hn : n + OBJECT_OFFSET 4 < 2 ^ 32)
      (hr : s.allocator.allocate 4 n p = some r)
      (hp : ∀ size ∈ r.source.malloc, s.Fresh ⟨p, size⟩) :
      Step s (.allocate n p)
        ⟨r.allocator, r.source.chunks p ++ s.chunks, ⟨r.ptr - OBJECT_OFFSET 4, n⟩ :: s.live⟩
  | deallocate {s : Heap} {b : Live} {a : FTAllocator} (hb : b ∈ s.live)
      (ha : s.allocator.deallocate 4 (b.pObject + OBJECT_OFFSET 4) = some a) :
      Step s (.deallocate b) ⟨a, s.freed b.pObject, s.live.erase b⟩
  | write {s : Heap} {b : Live} {off : ℕ} {data : List UInt8} (hb : b ∈ s.live)
      (hdata : off + data.length ≤ b.n) :
      Step s (.write b off data) (s.written (b.pObject + OBJECT_OFFSET 4 + off) data)
  | elsewhere {s : Heap} {o : ℕ} {data : List UInt8}
      (hdata : ∀ c ∈ s.chunks, (⟨o, data.length⟩ : Region).Disjoint c.region) :
      Step s (.elsewhere o data) (s.written o data)

/-! ## 2. Where the blocks are -/

open FTAllocator

/-- The blocks on the lists. -/
def freeRegions (free : ℕ → List ℕ) : List Region :=
  (List.range NUM_LIST).flatMap fun i ↦ (free i).map fun o ↦ ⟨o, classSize i⟩

/-- The chunks are disjoint, and made of the blocks that clients have and of those on the lists. -/
structure Accounted (chunks : List Chunk) (live : List Live) (free : ℕ → List ℕ) : Prop where
  partition : (live.map Live.region ++ freeRegions free).Perm (chunks.flatMap Chunk.blocks)
  bytes : ∀ c ∈ chunks, (∃ i < NUM_LIST, c.bytes = classSize i) ∨
    (MAX_BYTES < c.bytes ∧ c.size = c.bytes)
  disjoint : (chunks.map Chunk.region).Pairwise Region.Disjoint
  inside : ∀ c ∈ chunks, 0 < c.base ∧ 0 < c.size ∧ c.base + c.size ≤ 2 ^ 32

section Blocks

variable {chunks : List Chunk} {live : List Live} {free : ℕ → List ℕ} {b : Live} {c : Chunk}
  {r : Region} {i o : ℕ} {u : List ℕ}

theorem mem_freeRegions (hi : i < NUM_LIST) (ho : o ∈ free i) :
    (⟨o, classSize i⟩ : Region) ∈ freeRegions free := by
  apply List.mem_flatMap.mpr
  exact ⟨i, List.mem_range.mpr hi, List.mem_map.mpr ⟨o, ho, rfl⟩⟩

theorem freeRegions_update (hi : i < NUM_LIST) :
    (freeRegions (Function.update free i (u ++ free i))).Perm
      (u.map (fun o ↦ ⟨o, classSize i⟩) ++ freeRegions free) :=
  flatMap_update_perm (g := fun i o ↦ (⟨o, classSize i⟩ : Region)) List.nodup_range
    (List.mem_range.mpr hi)

namespace Accounted

-- The blocks are disjoint.
theorem pairwise (h : Accounted chunks live free) :
    (live.map Live.region ++ freeRegions free).Pairwise Region.Disjoint := by
  apply (h.partition.pairwise_iff Region.Disjoint.symm).mpr
  apply pairwise_parts h.disjoint
  · intro c _
    exact pairwise_blocks
  · intro c _ r hr
    exact Chunk.inside_of_mem hr

theorem exists_chunk (h : Accounted chunks live free)
    (hr : r ∈ live.map Live.region ++ freeRegions free) : ∃ c ∈ chunks, r ∈ c.blocks :=
  List.mem_flatMap.mp (h.partition.mem_iff.mp hr)

-- A block goes from its client to its list.
theorem push (h : Accounted chunks live free) (hi : i < NUM_LIST) (hb : b ∈ live)
    (hsize : b.size = classSize i) :
    Accounted chunks (live.erase b) (Function.update free i (b.pObject :: free i)) := by
  have hregion : b.region = ⟨b.pObject, classSize i⟩ := by rw [Live.region, hsize]
  have hfree : (freeRegions (Function.update free i (b.pObject :: free i))).Perm
      (⟨b.pObject, classSize i⟩ :: freeRegions free) :=
    freeRegions_update (u := [b.pObject]) hi
  have hlive := (List.perm_cons_erase hb).map Live.region
  rw [List.map_cons, hregion] at hlive
  refine { h with partition := List.Perm.trans ?_ h.partition }
  exact ((hfree.append_left _).trans List.perm_middle).trans (hlive.symm.append_right _)

-- The first block of a list goes to a client.
theorem pop {l : List ℕ} (h : Accounted chunks live free) (hi : i < NUM_LIST)
    (hl : free i = b.pObject :: l) (hsize : b.size = classSize i) :
    Accounted chunks (b :: live) (Function.update free i l) := by
  have hregion : b.region = ⟨b.pObject, classSize i⟩ := by rw [Live.region, hsize]
  have hback : Function.update (Function.update free i l) i
      ([b.pObject] ++ Function.update free i l i) = free := by
    rw [Function.update_self, Function.update_idem, List.singleton_append, ← hl,
      Function.update_eq_self]
  have hfree := @freeRegions_update (Function.update free i l) i [b.pObject] hi
  rw [hback, List.map_singleton, ← hregion] at hfree
  refine { h with partition := List.Perm.trans ?_ h.partition }
  exact List.perm_middle.symm.trans (hfree.symm.append_left _)

-- A new chunk: its first block goes to a client, the others to their list.
theorem add (h : Accounted chunks live free) (hi : i < NUM_LIST)
    (hbytes : (∃ i < NUM_LIST, c.bytes = classSize i) ∨ (MAX_BYTES < c.bytes ∧ c.size = c.bytes))
    (hinside : 0 < c.base ∧ 0 < c.size ∧ c.base + c.size ≤ 2 ^ 32)
    (hfresh : ∀ d ∈ chunks, c.region.Disjoint d.region)
    (hblocks : c.blocks = b.region :: u.map fun o ↦ ⟨o, classSize i⟩) :
    Accounted (c :: chunks) (b :: live) (Function.update free i (u ++ free i)) where
  partition := by
    rw [List.map_cons, List.cons_append, List.flatMap_cons, hblocks, List.cons_append]
    apply List.Perm.cons
    have hfree := (@freeRegions_update free i u hi).append_left (live.map Live.region)
    exact (hfree.trans (List.perm_append_comm_assoc _ _ _)).trans (h.partition.append_left _)
  bytes := List.forall_mem_cons.mpr ⟨hbytes, h.bytes⟩
  disjoint := by
    rw [List.map_cons, List.pairwise_cons]
    refine ⟨fun r hr ↦ ?_, h.disjoint⟩
    obtain ⟨d, hd, rfl⟩ := List.mem_map.mp hr
    exact hfresh d hd
  inside := List.forall_mem_cons.mpr ⟨hinside, h.inside⟩

-- The chunk of a block from `DefaultAllocator` has no other block.
theorem chunk_of_default (h : Accounted chunks live free) (hb : b ∈ live)
    (hsize : MAX_BYTES < b.size) : ⟨b.pObject, b.size, b.size⟩ ∈ chunks := by
  obtain ⟨c, hc, hmem⟩ := h.exists_chunk
    (List.mem_append_left _ (List.mem_map.mpr ⟨b, hb, rfl⟩))
  have hbytes : b.size = c.bytes := size_of_mem_blocks hmem
  rcases h.bytes c hc with ⟨i, hi, hclass⟩ | ⟨-, hone⟩
  · have hle := (classSize_spec hi).2.1
    omega
  · rw [Chunk.blocks, hone, Nat.div_self (by omega)] at hmem
    have hregion : b.region = ⟨c.base, c.bytes⟩ := List.mem_singleton.mp hmem
    have hbase : b.pObject = c.base := congrArg Region.base hregion
    rw [hbase, hbytes]
    nth_rewrite 1 [← hone]
    exact hc

-- A block goes back to `DefaultAllocator`.
theorem release (h : Accounted chunks live free) (hb : b ∈ live) (hsize : MAX_BYTES < b.size) :
    Accounted (chunks.eraseP (·.base = b.pObject)) (live.erase b) free := by
  have hpos : 0 < b.size := Nat.zero_lt_of_lt hsize
  have hc := h.chunk_of_default hb hsize
  obtain ⟨a, l₁, l₂, -, ha, hsplit, herase⟩ := List.exists_of_eraseP
    (p := fun c : Chunk ↦ decide (c.base = b.pObject)) hc (decide_eq_true rfl)
  have hsub : (chunks.eraseP (·.base = b.pObject)).Sublist chunks := List.eraseP_sublist
  -- `free` finds the chunk by its address
  have hac : a = ⟨b.pObject, b.size, b.size⟩ := by
    have hamem : a ∈ chunks := by
      rw [hsplit]
      exact List.mem_append_right _ List.mem_cons_self
    have hsymm : Std.Symm fun c d : Chunk ↦ c.region.Disjoint d.region :=
      ⟨fun _ _ hd ↦ hd.symm⟩
    by_contra hne
    have hdisjoint := (List.pairwise_map.mp h.disjoint).forall hamem hc hne
    exact hdisjoint.ne (h.inside a hamem).2.1 hpos (of_decide_eq_true ha)
  have hchunks : (chunks.flatMap Chunk.blocks).Perm
      (b.region :: (chunks.eraseP (·.base = b.pObject)).flatMap Chunk.blocks) := by
    have hone : (⟨b.pObject, b.size, b.size⟩ : Chunk).blocks = [b.region] :=
      Chunk.blocks_single hpos
    rw [herase]
    nth_rewrite 1 [hsplit]
    have hperm := (@List.perm_middle _ a l₁ l₂).flatMap_right Chunk.blocks
    rw [hac, List.flatMap_cons, hone] at hperm
    rw [hac]
    exact hperm
  have hlive := (List.perm_cons_erase hb).map Live.region
  refine ⟨List.Perm.cons_inv (a := b.region) ?_, fun c hcm ↦ h.bytes c (hsub.subset hcm),
    h.disjoint.sublist (hsub.map _), fun c hcm ↦ h.inside c (hsub.subset hcm)⟩
  exact ((hlive.append_right _).symm.trans h.partition).trans hchunks

-- A block on a list is not one that a client has.
theorem free_live (h : Accounted chunks live free) (hi : i < NUM_LIST) (ho : o ∈ free i)
    (hb : b ∈ live) : (⟨o, classSize i⟩ : Region).Disjoint b.region :=
  ((List.pairwise_append.mp h.pairwise).2.2 _ (List.mem_map.mpr ⟨b, hb, rfl⟩) _
    (mem_freeRegions hi ho)).symm

theorem live_live {d : Live} (h : Accounted chunks live free) (hb : b ∈ live) (hd : d ∈ live)
    (hne : b ≠ d) : b.region.Disjoint d.region := by
  have hsymm : Std.Symm fun b d : Live ↦ b.region.Disjoint d.region := ⟨fun _ _ hd ↦ hd.symm⟩
  exact (List.pairwise_map.mp (List.pairwise_append.mp h.pairwise).1).forall hb hd hne

-- What is outside the chunks is outside the blocks.
theorem outside (h : Accounted chunks live free) (hr : ∀ c ∈ chunks, r.Disjoint c.region) :
    (∀ b ∈ live, b.region.Disjoint r) ∧
      ∀ i < NUM_LIST, ∀ o ∈ free i, (⟨o, classSize i⟩ : Region).Disjoint r := by
  have hall : ∀ t ∈ live.map Live.region ++ freeRegions free, t.Disjoint r := by
    intro t ht
    obtain ⟨c, hc, hmem⟩ := h.exists_chunk ht
    exact (hr c hc).symm.mono (Chunk.inside_of_mem hmem) (Region.Inside.refl r)
  constructor
  · intro b hb
    exact hall _ (List.mem_append_left _ (List.mem_map.mpr ⟨b, hb, rfl⟩))
  · intro i hi o ho
    exact hall _ (List.mem_append_right _ (mem_freeRegions hi ho))

theorem bounds (h : Accounted chunks live free)
    (hr : r ∈ live.map Live.region ++ freeRegions free) :
    0 < r.base ∧ r.base + r.size ≤ 2 ^ 32 := by
  obtain ⟨c, hc, hmem⟩ := h.exists_chunk hr
  have hinside := Chunk.inside_of_mem hmem
  have hchunk := h.inside c hc
  exact ⟨Nat.lt_of_lt_of_le hchunk.1 hinside.1, Nat.le_trans hinside.2 hchunk.2.2⟩

end Accounted

end Blocks

/-! ## 3. What the memory says about them -/

structure Fields (a : FTAllocator) (live : List Live) (free : ℕ → List ℕ) : Prop where
  linked : ∀ i < NUM_LIST, Linked (free_list_link 4 a.mem) (a.m_pFreeList i) (free i)
  free_size : ∀ i < NUM_LIST, ∀ o ∈ free i, obj_size a.mem o = classSize i
  live_size : ∀ b ∈ live, obj_size a.mem b.pObject = b.size

section Fields

variable {a : FTAllocator} {live : List Live} {free : ℕ → List ℕ} {b : Live} {mem : ℤ → UInt8}
  {r : Region} {i o : ℕ}

namespace Fields

-- What is written outside the fields leaves them alone.
theorem frame (h : Fields a live free) (hframe : r.Frame a.mem mem)
    (hlive : ∀ b ∈ live, (⟨b.pObject, OBJECT_OFFSET 4⟩ : Region).Disjoint r)
    (hfree : ∀ i < NUM_LIST, ∀ o ∈ free i, (⟨o, ALIGNMENT⟩ : Region).Disjoint r) :
    Fields { a with mem := mem } live free where
  linked i hi := by
    apply (h.linked i hi).congr
    intro o ho
    have hlink : (⟨o + 4, 4⟩ : Region).Inside ⟨o, 8⟩ := Region.inside_mk.mpr (by omega)
    exact hframe.word (o := o + 4) ((hfree i hi o ho).mono hlink (Region.Inside.refl r))
  free_size i hi o ho := by
    have hsize : (⟨o, 4⟩ : Region).Inside ⟨o, 8⟩ := Region.inside_mk.mpr (by omega)
    have hword := hframe.word ((hfree i hi o ho).mono hsize (Region.Inside.refl r))
    exact hword.trans (h.free_size i hi o ho)
  live_size b hb := (hframe.word (hlive b hb)).trans (h.live_size b hb)

-- One of the lists gets other blocks.
theorem update {head : ℕ} {l : List ℕ} (h : Fields a live free)
    (hlinked : Linked (free_list_link 4 a.mem) head l)
    (hsize : ∀ o ∈ l, obj_size a.mem o = classSize i) :
    Fields { a with m_pFreeList := Function.update a.m_pFreeList i head } live
      (Function.update free i l) where
  linked j hj := by
    by_cases hji : j = i
    · rw [hji]
      simp only [Function.update_self]
      exact hlinked
    · simp only [Function.update_of_ne hji]
      exact h.linked j hj
  free_size j hj o ho := by
    by_cases hji : j = i
    · rw [hji, Function.update_self] at ho
      rw [hji]
      exact hsize o ho
    · rw [Function.update_of_ne hji] at ho
      exact h.free_size j hj o ho
  live_size := h.live_size

-- A client gets a block.
theorem cons (h : Fields a live free) (hb : obj_size a.mem b.pObject = b.size) :
    Fields a (b :: live) free where
  linked := h.linked
  free_size := h.free_size
  live_size d hd := by
    cases List.mem_cons.mp hd with
    | inl hfirst => exact hfirst ▸ hb
    | inr hrest => exact h.live_size d hrest

theorem erase (h : Fields a live free) : Fields a (live.erase b) free where
  linked := h.linked
  free_size := h.free_size
  live_size d hd := h.live_size d (List.mem_of_mem_erase hd)

end Fields

end Fields

/-! ## 4. The invariant -/

structure Inv (s : Heap) (free : ℕ → List ℕ) : Prop where
  accounted : Accounted s.chunks s.live free
  fields : Fields s.allocator s.live free
  total : ∀ i < NUM_LIST, s.allocator.m_iTotalSize i < 2 ^ 32

namespace Inv

variable {s : Heap} {free : ℕ → List ℕ} {b : Live} {mem : ℤ → UInt8} {r : Region} {i n p o : ℕ}

theorem start : Inv (Heap.start mem) fun _ ↦ [] where
  accounted :=
    { partition := by
        have hnone : (freeRegions fun _ ↦ []) = [] := List.flatMap_eq_nil_iff.mpr fun _ _ ↦ rfl
        rw [hnone]
        exact List.Perm.refl _
      bytes := fun c hc ↦ nomatch hc
      disjoint := List.Pairwise.nil
      inside := fun c hc ↦ nomatch hc }
  fields :=
    { linked := fun i hi ↦ rfl
      free_size := fun i hi o ho ↦ nomatch ho
      live_size := fun b hb ↦ nomatch hb }
  total i hi := by
    show 0 < 2 ^ 32
    decide

theorem inside_region : (⟨b.pObject, OBJECT_OFFSET 4⟩ : Region).Inside b.region :=
  ⟨Nat.le_refl _, Nat.add_le_add_left (Nat.le_trans (Nat.le_add_left _ _) b.le_size) _⟩

theorem inside_class (hi : i < NUM_LIST) :
    (⟨o, ALIGNMENT⟩ : Region).Inside ⟨o, classSize i⟩ :=
  ⟨Nat.le_refl _, Nat.add_le_add_left (classSize_spec hi).1 _⟩

theorem frame_outside (h : Inv s free) (hframe : r.Frame s.allocator.mem mem)
    (hr : ∀ c ∈ s.chunks, r.Disjoint c.region) :
    Fields { s.allocator with mem := mem } s.live free := by
  have hout := h.accounted.outside hr
  apply h.fields.frame hframe
  · intro b hb
    exact (hout.1 b hb).mono inside_region (Region.Inside.refl r)
  · intro i hi o ho
    exact (hout.2 i hi o ho).mono (inside_class hi) (Region.Inside.refl r)

-- `DefaultAllocator` has a block for the client.
theorem allocate_default (h : Inv s free) (hmax : MAX_BYTES < n + OBJECT_OFFSET 4)
    (hp : s.Fresh ⟨p, n + OBJECT_OFFSET 4⟩) :
    Inv ⟨{ s.allocator with mem := set_obj_size s.allocator.mem p (n + OBJECT_OFFSET 4) },
      ⟨p, n + OBJECT_OFFSET 4, n + OBJECT_OFFSET 4⟩ :: s.chunks, ⟨p, n⟩ :: s.live⟩ free where
  accounted := by
    have hsize : (⟨p, n⟩ : Live).size = n + OBJECT_OFFSET 4 := if_pos hmax
    have hpos : 0 < n + OBJECT_OFFSET 4 := Nat.zero_lt_of_lt hmax
    have hblocks : (⟨p, n + OBJECT_OFFSET 4, n + OBJECT_OFFSET 4⟩ : Chunk).blocks =
        [(⟨p, n⟩ : Live).region] := by
      rw [Chunk.blocks_single hpos, Live.region, hsize]
    -- the lists stay as they are
    have hadd : Accounted (⟨p, n + OBJECT_OFFSET 4, n + OBJECT_OFFSET 4⟩ :: s.chunks)
        (⟨p, n⟩ :: s.live) (Function.update free 0 ([] ++ free 0)) :=
      h.accounted.add (by decide) (.inr ⟨hmax, rfl⟩) ⟨hp.1, hpos, hp.2.1⟩ hp.2.2 hblocks
    rw [List.nil_append, Function.update_eq_self] at hadd
    exact hadd
  fields := by
    have hlt : n + OBJECT_OFFSET 4 < 256 ^ 4 := by
      have hpos : 0 < p := hp.1
      have hend : p + (n + OBJECT_OFFSET 4) ≤ 2 ^ 32 := hp.2.1
      omega
    have hframe : (⟨p, 4⟩ : Region).Frame s.allocator.mem
        (set_obj_size s.allocator.mem p (n + OBJECT_OFFSET 4)) := Region.frame_setWord
    have hinside : (⟨p, 4⟩ : Region).Inside ⟨p, n + OBJECT_OFFSET 4⟩ :=
      ⟨Nat.le_refl _, Nat.add_le_add_left (Nat.le_add_left _ _) _⟩
    apply Fields.cons
    · exact h.frame_outside (hframe.mono hinside) hp.2.2
    · exact (Memory.word_setWord hlt).trans (if_pos hmax).symm
  total := h.total

-- A list is empty: `malloc` has a chunk, whose first block goes to the client.
theorem refill {a : Allocated} (h : Inv s free) (hi : i < NUM_LIST)
    (hsize : (⟨p, n⟩ : Live).size = classSize i) (hnull : s.allocator.m_pFreeList i = 0)
    (ha : a = s.allocator._refill 4 (classSize i) p)
    (hp : ∀ size ∈ a.source.malloc, s.Fresh ⟨p, size⟩) :
    ∃ free', Inv ⟨a.allocator, a.source.chunks p ++ s.chunks,
      ⟨a.ptr - OBJECT_OFFSET 4, n⟩ :: s.live⟩ free' := by
  have hclass : 4 + 4 ≤ classSize i := (classSize_spec hi).1
  obtain ⟨total, k, mem, heq, htotal, hcount, hspec⟩ :=
    @_refill_spec 4 i s.allocator p (Nat.le_refl 4) hclass hi (h.total i hi)
  rw [heq] at ha
  subst ha
  have hfresh : s.Fresh ⟨p, k⟩ := hp k rfl
  obtain ⟨hframe, hsizes, hlinked⟩ := hspec hfresh.1 hfresh.2.1
  obtain ⟨m, hm⟩ : ∃ m, k / classSize i = m + 1 := ⟨k / classSize i - 1, by omega⟩
  rw [hm, Nat.add_sub_cancel] at hlinked
  rw [hm, List.range'_succ] at hsizes
  -- the null pointer at its head says that the list is empty
  have hnil : free i = [] := (h.fields.linked i hi).unique (show Linked _ _ [] from hnull)
  have hblocks : (⟨p, k, classSize i⟩ : Chunk).blocks = (⟨p, n⟩ : Live).region ::
      (List.range' (p + classSize i) m (classSize i)).map fun o ↦ ⟨o, classSize i⟩ := by
    rw [Chunk.blocks, Lib.blocks, hm, List.range'_succ, List.map_cons, Live.region, hsize]
  have hpos : 0 < k := Nat.pos_of_ne_zero fun hzero ↦ by
    rw [hzero, Nat.zero_div] at hcount
    omega
  refine ⟨Function.update free i (List.range' (p + classSize i) m (classSize i) ++ free i),
    ?_, ?_, ?_⟩
  · exact h.accounted.add hi (.inl ⟨i, hi, rfl⟩) ⟨hfresh.1, hpos, hfresh.2.1⟩ hfresh.2.2 hblocks
  · rw [hnil, List.append_nil]
    have hupdate := (h.frame_outside hframe hfresh.2.2).update hlinked
      fun o ho ↦ hsizes o (List.mem_cons_of_mem _ ho)
    have hcons := hupdate.cons (b := ⟨p, n⟩) ((hsizes p List.mem_cons_self).trans hsize.symm)
    exact ⟨hcons.linked, hcons.free_size, hcons.live_size⟩
  · intro j hj
    by_cases hji : j = i
    · rw [hji]
      simp only [Function.update_self]
      exact htotal
    · simp only [Function.update_of_ne hji]
      exact h.total j hj

-- A client gets the first block of a list.
theorem pop (h : Inv s free) (hi : i < NUM_LIST)
    (hsize : ∀ o, (⟨o, n⟩ : Live).size = classSize i) (hne : s.allocator.m_pFreeList i ≠ 0) :
    ∃ free', Inv ⟨{ s.allocator with
      m_pFreeList := Function.update s.allocator.m_pFreeList i
        (free_list_link 4 s.allocator.mem (s.allocator.m_pFreeList i)) },
      s.chunks, ⟨s.allocator.m_pFreeList i, n⟩ :: s.live⟩ free' := by
  have hlinked := h.fields.linked i hi
  cases hl : free i with
  | nil =>
      rw [hl] at hlinked
      exact absurd hlinked hne
  | cons o l =>
      rw [hl] at hlinked
      rw [hlinked.1]
      have hmem : ∀ o' ∈ l, o' ∈ free i := fun o' ho ↦ hl ▸ List.mem_cons_of_mem o ho
      refine ⟨Function.update free i l, ?_, ?_, h.total⟩
      · exact h.accounted.pop hi hl (hsize o)
      · apply Fields.cons
        · exact h.fields.update hlinked.2.2 fun o' ho ↦ h.fields.free_size i hi o' (hmem o' ho)
        · exact (h.fields.free_size i hi o (hl ▸ List.mem_cons_self)).trans (hsize o).symm

theorem allocate {a : Allocated} (h : Inv s free) (hn : n + OBJECT_OFFSET 4 < 2 ^ 32)
    (ha : s.allocator.allocate 4 n p = some a)
    (hp : ∀ size ∈ a.source.malloc, s.Fresh ⟨p, size⟩) :
    ∃ free', Inv ⟨a.allocator, a.source.chunks p ++ s.chunks,
      ⟨a.ptr - OBJECT_OFFSET 4, n⟩ :: s.live⟩ free' := by
  rcases @allocate_spec s.allocator n p hn with
    ⟨hmax, heq⟩ | ⟨hle, i, hi, hround, -, ⟨hnull, heq⟩ | ⟨hne, heq⟩⟩
  · rw [heq, Option.some.injEq] at ha
    subst ha
    exact ⟨free, h.allocate_default hmax (hp _ rfl)⟩
  · rw [heq, Option.some.injEq] at ha
    exact h.refill hi (Live.size_of_le hle hround) hnull ha.symm hp
  · rw [heq, Option.some.injEq] at ha
    subst ha
    exact h.pop hi (fun o ↦ Live.size_of_le hle hround) hne

theorem region_mem (hb : b ∈ s.live) : b.region ∈ s.live.map Live.region ++ freeRegions free :=
  List.mem_append_left _ (List.mem_map.mpr ⟨b, hb, rfl⟩)

-- The size of a block is that of a class, or it is one of `DefaultAllocator`.
theorem size_cases (b : Live) : MAX_BYTES < b.size ∨ ∃ i < NUM_LIST, b.size = classSize i := by
  by_cases hmax : MAX_BYTES < b.n + OBJECT_OFFSET 4
  · exact .inl (Nat.lt_of_lt_of_le hmax b.le_size)
  · have hle := Nat.le_of_not_lt hmax
    have hindex := @_index_spec (b.n + OBJECT_OFFSET 4) (Nat.add_pos_right _ (by decide)) hle
    exact .inr ⟨_, hindex.1, Live.size_of_le hle hindex.2.1⟩

theorem head_lt (h : Inv s free) (hi : i < NUM_LIST) : s.allocator.m_pFreeList i < 2 ^ 32 := by
  have hlinked := h.fields.linked i hi
  cases hl : free i with
  | nil =>
      rw [hl] at hlinked
      rw [show s.allocator.m_pFreeList i = 0 from hlinked]
      decide
  | cons o l =>
      rw [hl] at hlinked
      have hbounds := h.accounted.bounds
        (List.mem_append_right _ (mem_freeRegions hi (hl ▸ List.mem_cons_self)))
      have hend : o + classSize i ≤ 2 ^ 32 := hbounds.2
      have hpos : 8 ≤ classSize i := (classSize_spec hi).1
      rw [hlinked.1]
      omega

-- A client gives a block back to its list.
theorem push (h : Inv s free) (hi : i < NUM_LIST) (hb : b ∈ s.live) (hsize : b.size = classSize i) :
    ∃ free', Inv ⟨{ s.allocator with
        mem := set_free_list_link 4 s.allocator.mem b.pObject (s.allocator.m_pFreeList i)
        m_pFreeList := Function.update s.allocator.m_pFreeList i b.pObject },
      s.chunks, s.live.erase b⟩ free' := by
  have hpush := h.accounted.push hi hb hsize
  have hbounds := h.accounted.bounds (region_mem hb)
  have hframe : (⟨b.pObject + 4, 4⟩ : Region).Frame s.allocator.mem
      (set_free_list_link 4 s.allocator.mem b.pObject (s.allocator.m_pFreeList i)) :=
    Region.frame_setWord (o := b.pObject + 4)
  have hlink : (⟨b.pObject + 4, 4⟩ : Region).Inside ⟨b.pObject, classSize i⟩ := by
    have hge : 8 ≤ classSize i := (classSize_spec hi).1
    exact Region.inside_mk.mpr (by omega)
  -- the link is written into the block, where no other block has a field
  have hfields := (h.fields.erase (b := b)).frame hframe
    (fun d hd ↦ by
      have hmem : b.pObject ∈ Function.update free i (b.pObject :: free i) i := by
        rw [Function.update_self]
        exact List.mem_cons_self
      exact (hpush.free_live hi hmem hd).symm.mono inside_region hlink)
    (fun j hj o ho ↦ by
      have hregion : b.region = ⟨b.pObject, classSize i⟩ := by rw [Live.region, hsize]
      exact (h.accounted.free_live hj ho hb).mono (inside_class hj) (hregion ▸ hlink))
  refine ⟨_, hpush, hfields.update ⟨rfl, Nat.ne_of_gt hbounds.1, ?_⟩ fun o ho ↦ ?_, h.total⟩
  · have hhead : free_list_link 4
        (set_free_list_link 4 s.allocator.mem b.pObject (s.allocator.m_pFreeList i)) b.pObject =
        s.allocator.m_pFreeList i := Memory.word_setWord (h.head_lt hi)
    rw [hhead]
    exact hfields.linked i hi
  · cases List.mem_cons.mp ho with
    | inl hfirst =>
        -- and not over the block's own size
        have hword := hframe.word (o := b.pObject) (k := 4) (Region.disjoint_mk.mpr (by omega))
        rw [hfirst]
        exact (hword.trans (h.fields.live_size b hb)).trans hsize
    | inr hrest => exact hfields.free_size i hi o hrest

theorem deallocate {a : FTAllocator} (h : Inv s free) (hb : b ∈ s.live)
    (ha : s.allocator.deallocate 4 (b.pObject + OBJECT_OFFSET 4) = some a) :
    ∃ free', Inv ⟨a, s.freed b.pObject, s.live.erase b⟩ free' := by
  have hfield := h.fields.live_size b hb
  unfold freed
  rw [hfield]
  rcases size_cases b with hdefault | ⟨i, hi, hclass⟩
  · rw [deallocate_default (hfield ▸ hdefault), Option.some.injEq] at ha
    subst ha
    rw [if_pos hdefault]
    exact ⟨free, h.accounted.release hb hdefault, h.fields.erase, h.total⟩
  · rw [deallocate_class hi (hfield.trans hclass), Option.some.injEq] at ha
    subst ha
    rw [if_neg (Nat.not_lt_of_le (hclass ▸ (classSize_spec hi).2.1))]
    exact h.push hi hb hclass

-- The bytes that a client asked for are no fields.
theorem write {off : ℕ} {data : List UInt8} (h : Inv s free) (hb : b ∈ s.live)
    (hdata : off + data.length ≤ b.n) :
    Inv (s.written (b.pObject + OBJECT_OFFSET 4 + off) data) free where
  accounted := h.accounted
  fields := by
    have hle : b.n + 4 ≤ b.size := b.le_size
    have hinside : (⟨b.pObject + 4 + off, data.length⟩ : Region).Inside b.region :=
      Region.inside_mk.mpr (by omega)
    apply h.fields.frame Region.frame_write
    · intro d hd
      by_cases hbd : b = d
      · -- the bytes of the client are behind its own size
        subst hbd
        exact .inl (show b.pObject + 4 ≤ b.pObject + 4 + off from Nat.le_add_right _ _)
      · exact (h.accounted.live_live hb hd hbd).symm.mono inside_region hinside
    · intro i hi o ho
      exact (h.accounted.free_live hi ho hb).mono (inside_class hi) hinside
  total := h.total

theorem step {t : Heap} {l : Op} (h : Inv s free) (hl : Step s l t) : ∃ free', Inv t free' := by
  cases hl with
  | allocate hn ha hp => exact h.allocate hn ha hp
  | deallocate hb ha => exact h.deallocate hb ha
  | write hb hdata => exact ⟨free, h.write hb hdata⟩
  | elsewhere hdata =>
      exact ⟨free, h.accounted, h.frame_outside Region.frame_write hdata, h.total⟩

end Inv

/-! ## 5. Runs -/

/-- `free i` are the blocks on list `i`.  Every block is in its place, and no request fails. -/
structure Sound (s : Heap) (free : ℕ → List ℕ) : Prop where
  linked : ∀ i < NUM_LIST,
    Linked (free_list_link 4 s.allocator.mem) (s.allocator.m_pFreeList i) (free i)
  acyclic : ∀ i < NUM_LIST, (free i).Nodup
  in_class : ∀ i < NUM_LIST, ∀ o ∈ free i,
    obj_size s.allocator.mem o = classSize i ∧ _index (obj_size s.allocator.mem o) = i
  live_size : ∀ b ∈ s.live, obj_size s.allocator.mem b.pObject = b.size
  disjoint : (s.live.map Live.region ++ freeRegions free).Pairwise Region.Disjoint
  inside : ∀ r ∈ s.live.map Live.region ++ freeRegions free, ∃ c ∈ s.chunks, r.Inside c.region
  not_both : ∀ b ∈ s.live, ∀ i < NUM_LIST, b.pObject ∉ free i
  carved : ∀ c ∈ s.chunks, ∀ r ∈ c.blocks, (∃ b ∈ s.live, b.region = r) ∨
    ∃ i < NUM_LIST, c.bytes = classSize i ∧ r.base ∈ free i
  of_class : ∀ i < NUM_LIST, ∀ o ∈ free i,
    ∃ c ∈ s.chunks, c.bytes ≤ MAX_BYTES ∧ ⟨o, classSize i⟩ ∈ c.blocks
  default : ∀ b ∈ s.live, MAX_BYTES < b.n + OBJECT_OFFSET 4 →
    ⟨b.pObject, b.size, b.size⟩ ∈ s.chunks ∧
      s.allocator.deallocate 4 (b.pObject + OBJECT_OFFSET 4) = some s.allocator
  allocates : ∀ n p, n + OBJECT_OFFSET 4 < 2 ^ 32 → (s.allocator.allocate 4 n p).isSome
  deallocates : ∀ b ∈ s.live,
    (s.allocator.deallocate 4 (b.pObject + OBJECT_OFFSET 4)).isSome

section Runs

variable {s : Heap} {free : ℕ → List ℕ} {mem : ℤ → UInt8} {ls : List Op}

theorem Inv.not_both {b : Live} {i : ℕ} (h : Inv s free) (hb : b ∈ s.live) (hi : i < NUM_LIST) :
    b.pObject ∉ free i := by
  intro ho
  have hclass : 0 < classSize i := Nat.zero_lt_of_lt (classSize_spec hi).1
  have hsize : 0 < b.size := Nat.lt_of_lt_of_le (Nat.add_pos_right _ (by decide)) b.le_size
  exact (h.accounted.free_live hi ho hb).ne hclass hsize rfl

theorem Inv.carved {c : Chunk} {r : Region} (h : Inv s free) (hc : c ∈ s.chunks)
    (hr : r ∈ c.blocks) : (∃ b ∈ s.live, b.region = r) ∨
      ∃ i < NUM_LIST, c.bytes = classSize i ∧ r.base ∈ free i := by
  have hmem := h.accounted.partition.mem_iff.mpr (List.mem_flatMap.mpr ⟨c, hc, hr⟩)
  cases List.mem_append.mp hmem with
  | inl hlive => exact .inl (List.mem_map.mp hlive)
  | inr hfree =>
      obtain ⟨i, hi, hi'⟩ := List.mem_flatMap.mp hfree
      obtain ⟨o, ho, rfl⟩ := List.mem_map.mp hi'
      exact .inr ⟨i, List.mem_range.mp hi, (size_of_mem_blocks hr).symm, ho⟩

theorem Inv.deallocates {b : Live} (h : Inv s free) (hb : b ∈ s.live) :
    (s.allocator.deallocate 4 (b.pObject + OBJECT_OFFSET 4)).isSome := by
  have hfield := h.fields.live_size b hb
  rcases size_cases b with hdefault | ⟨i, hi, hclass⟩
  · rw [deallocate_default (hfield ▸ hdefault)]
    rfl
  · rw [deallocate_class hi (hfield.trans hclass)]
    rfl

theorem Inv.allocates (s : Heap) {n : ℕ} (p : ℕ) (hn : n + OBJECT_OFFSET 4 < 2 ^ 32) :
    (s.allocator.allocate 4 n p).isSome := by
  rcases @allocate_spec s.allocator n p hn with
    ⟨-, heq⟩ | ⟨-, i, -, -, -, ⟨-, heq⟩ | ⟨-, heq⟩⟩
  all_goals
    rw [heq]
    rfl

theorem Inv.sound (h : Inv s free) : Sound s free where
  linked := h.fields.linked
  acyclic i hi := (h.fields.linked i hi).nodup
  in_class i hi o ho := by
    have hsize := h.fields.free_size i hi o ho
    exact ⟨hsize, hsize ▸ (classSize_spec hi).2.2⟩
  live_size := h.fields.live_size
  disjoint := h.accounted.pairwise
  inside r hr := by
    obtain ⟨c, hc, hmem⟩ := h.accounted.exists_chunk hr
    exact ⟨c, hc, Chunk.inside_of_mem hmem⟩
  not_both b hb i hi := h.not_both hb hi
  carved c hc r hr := h.carved hc hr
  of_class i hi o ho := by
    obtain ⟨c, hc, hmem⟩ := h.accounted.exists_chunk
      (List.mem_append_right _ (mem_freeRegions hi ho))
    have hbytes : classSize i = c.bytes := size_of_mem_blocks hmem
    exact ⟨c, hc, hbytes ▸ (classSize_spec hi).2.1, hmem⟩
  default b hb hmax := by
    have hdefault := Nat.lt_of_lt_of_le hmax b.le_size
    exact ⟨h.accounted.chunk_of_default hb hdefault,
      deallocate_default ((h.fields.live_size b hb).symm ▸ hdefault)⟩
  allocates n p hn := Inv.allocates s p hn
  deallocates b hb := h.deallocates hb

theorem inv_of_path (h : Path Step (start mem) ls s) : ∃ free, Inv s free := by
  apply h.always (I := fun _ s ↦ ∃ free, Inv s free)
  · exact ⟨_, Inv.start⟩
  · intro ls s l t hs hl
    obtain ⟨free, hinv⟩ := hs
    exact hinv.step hl

/-- **After any requests, writes to live blocks and writes elsewhere, every block is in its
place.** -/
theorem sound_of_path (h : Path Step (start mem) ls s) : ∃ free, Sound s free := by
  obtain ⟨free, hinv⟩ := inv_of_path h
  exact ⟨free, hinv.sound⟩

end Runs

/-- A client gets the first block of a new chunk, writes to it and gives it back. -/
theorem sound_of_path_three :
    ∃ s, Path Step (start fun _ ↦ 0)
        [.allocate 10 4096, .write ⟨4096, 10⟩ 1 [1, 2, 3], .deallocate ⟨4096, 10⟩] s ∧
      ∃ free, Sound s free := by
  let a := (start fun _ ↦ 0).allocator
  have hsource : (a._refill 4 16 4096).source = .chunk 640 16 := by
    have hbytes : new_bytes (a.m_iTotalSize (_index 16)) 16 20 = 640 := by decide
    simp only [_refill, _chunk_alloc, hbytes]
    rfl
  have hallocate : a.allocate 4 10 4096 = some (a._refill 4 16 4096) := by
    have hbytes : uint32 (10 + OBJECT_OFFSET 4) = 14 := by decide
    have hround : _round_up 14 = 16 := by decide
    simp only [allocate, hbytes, hround]
    rfl
  have hfirst : Step (start fun _ ↦ 0) (.allocate 10 4096)
      ⟨(a._refill 4 16 4096).allocator, [⟨4096, 640, 16⟩], [⟨4096, 10⟩]⟩ := by
    have hp : ∀ size ∈ (a._refill 4 16 4096).source.malloc,
        (start fun _ ↦ 0).Fresh ⟨4096, size⟩ := by
      rw [hsource]
      intro size hsize
      cases (show some 640 = some size from hsize)
      exact ⟨by decide, by decide, fun c hc ↦ absurd hc List.not_mem_nil⟩
    have hstep := Step.allocate (by decide) hallocate hp
    rw [hsource] at hstep
    exact hstep
  have hpath := (Path.nil.snoc hfirst).snoc
    (@Step.write _ ⟨4096, 10⟩ 1 [1, 2, 3] List.mem_cons_self (by decide))
  obtain ⟨free, hinv⟩ := inv_of_path hpath
  obtain ⟨a', ha'⟩ := Option.isSome_iff_exists.mp (hinv.deallocates List.mem_cons_self)
  have hall := hpath.snoc (.deallocate List.mem_cons_self ha')
  exact ⟨_, hall, sound_of_path hall⟩

end Heap

end Fantuan
