import Fantuan.Common.DyArray

/-!
# `push_back(n, value)` and `resize` of a `DyArray`

The cells that are free at the time of the call are filled by `_insert_n`, all of them.  The cells
that `_grow_n` adds are new memory, and it writes to one of them, the one at `m_iCount`.  The value
comes as a `const T&`, which may refer to an element: `_grow_n` reads it once more after it has
freed the block that the elements were in.
-/

open Lib

namespace Fantuan

variable {T : Type} {N : ℕ}

namespace DyArray

/-- The array owns the cells `b` at `m_pHead`, with room for `m_iMaxSize` elements or more. -/
structure Owns (a : DyArray T N) (b : Cells T) : Prop where
  storage : a.storage = some b
  room : a.m_iMaxSize ≤ b.length
  head : a.m_pHead = .m_Elements ↔ a.m_pDynamicElements = none

theorem Stores.owns {a : DyArray T N} {b : Cells T} (h : a.Stores b) : a.Owns b :=
  ⟨h.storage, Nat.le_of_eq h.length.symm, h.head⟩

/-- The elements of `a` are in `a'` as they were. -/
def KeepsOld (a a' : DyArray T N) : Prop := ∀ i < a.m_iCount, a'.get i = a.get i

/-- Behind the elements of `a` there are `n` new ones in `a'`, each of which is `value`. -/
def FillsNew (a a' : DyArray T N) (n : ℕ) (value : T) : Prop :=
  ∀ i, a.m_iCount ≤ i → i < a.m_iCount + n → a'.get i = some value

/-- At the time of the call `value` refers to `v`: an object outside of the array, or an element. -/
def Refers (a : DyArray T N) (value : ValueRef T) (v : T) : Prop :=
  match value with
  | .object w => w = v
  | .element it => it < a.m_iCount ∧ a.get it = some v

/-- `push_back(n, value)` appends `n` copies of `v`. -/
def AppendsCopies (a : DyArray T N) (n : ℕ) (value : ValueRef T) (v : T) : Prop :=
  ∃ a', a.push_back_n n value = some a' ∧ a'.m_iCount = a.m_iCount + n ∧ a.KeepsOld a' ∧
    a.FillsNew a' n v

/-- `resize(newSize)` appends `T()` up to `newSize`. -/
def ResizesWithZeros [Zero T] (a : DyArray T N) (newSize : ℕ) : Prop :=
  ∃ a', a.resize newSize = some a' ∧ a'.m_iCount = newSize ∧
    a.FillsNew a' (newSize - a.m_iCount) 0

/-- `value` refers to an element in the block that `_grow_n` frees. -/
def InBlock (a : DyArray T N) (value : ValueRef T) : Prop :=
  match value with
  | .object _ => False
  | .element _ => a.m_pHead ≠ .m_Elements

/-- There are `n` cells free, or the array is full and one element is added, which is not a copy of
one in the block that is freed. -/
def SpareOrNext (a : DyArray T N) (n : ℕ) (value : ValueRef T) : Prop :=
  a.m_iCount + n ≤ a.m_iMaxSize ∨ a.m_iCount = a.m_iMaxSize ∧ n = 1 ∧ ¬ a.InBlock value

namespace Owns

variable {a : DyArray T N} {b : Cells T} {n : ℕ} {value : ValueRef T} {v : T}

/-! ## 1. The cells after the call -/

theorem stable (h : a.Owns b) (hv : a.Refers value v) : value.Stable b a.m_iCount v := by
  cases value with
  | object w =>
      cases (hv : w = v)
      exact ValueRef.stable_object
  | element it =>
      obtain ⟨hit, hget⟩ := (hv : it < a.m_iCount ∧ a.get it = some v)
      rw [get_eq h.storage] at hget
      exact ValueRef.stable_element hit hget

-- The value is still there when the array grows, unless its block has been freed.
theorem readGrown_eq (h : a.Owns b) (hv : value.read b = some v) (hkept : ¬ a.InBlock value) :
    a.readGrown value = some v := by
  cases value with
  | object w => exact hv
  | element it =>
      have hhead : a.m_pHead = .m_Elements := not_not.mp hkept
      have hs := h.storage
      unfold DyArray.storage at hs
      simp only [hhead, Option.some.injEq] at hs
      rw [readGrown, if_pos hhead, hs]
      exact hv

theorem readGrown_eq_none (hfreed : a.InBlock value) : a.readGrown value = none := by
  cases value with
  | object w => exact hfreed.elim
  | element it => exact if_neg hfreed

theorem inBlock_congr {a' : DyArray T N} (h : a'.m_pHead = a.m_pHead) :
    a'.InBlock value ↔ a.InBlock value := by
  unfold InBlock
  rw [h]

-- `_insert_n` is called with the number of free cells, not with `n`.
theorem fill (h : a.Owns b) (hle : a.m_iCount ≤ a.m_iMaxSize) (hv : a.Refers value v) :
    ∃ a₁ b₁, (if a.m_iCount < a.m_iMaxSize then a._insert_n (a.m_iMaxSize - a.m_iCount) value
        else some a) = some a₁ ∧ a₁.Owns b₁ ∧
      a₁.m_iMaxSize = a.m_iMaxSize ∧ a₁.m_iCount = a.m_iCount ∧ a₁.m_pHead = a.m_pHead ∧
      value.read b₁ = some v ∧
      ∀ i < a.m_iMaxSize, b₁[i]? = if i < a.m_iCount then b[i]? else some (some v) := by
  have hstable := h.stable hv
  have hroom := h.room
  by_cases hlt : a.m_iCount < a.m_iMaxSize
  · have hin : a.m_iCount + (a.m_iMaxSize - a.m_iCount) ≤ b.length := by omega
    rw [if_pos hlt, _insert_n_eq h.storage hin hstable]
    refine ⟨_, _, rfl, ⟨storage_put h.storage, ?_, ?_⟩, put_m_iMaxSize, put_m_iCount, put_m_pHead,
      hstable _ (Block.take_patch_of_le (Nat.le_refl _) (by omega)), ?_⟩
    · rw [Block.length_patch (by rwa [List.length_replicate]), put_m_iMaxSize]
      exact hroom
    · have hhead := h.head
      unfold put
      split
      · exact hhead
      · rename_i hdyn
        exact ⟨fun he ↦ absurd he hdyn, fun he ↦ (nomatch he)⟩
    · intro i hi
      rw [Block.getElem?_patch (by omega), List.length_replicate,
        Nat.add_sub_cancel' hle, if_pos hi, List.getElem?_replicate]
      split
      · rfl
      · rw [if_pos (by omega)]
  · rw [if_neg hlt]
    refine ⟨a, b, rfl, h, rfl, rfl, rfl, hstable b rfl, fun i hi ↦ ?_⟩
    rw [if_pos (by omega)]

/-- **The cells after `push_back(n, value)`**: of those behind `max_size()`, only the one at the old
`size()` has been written. -/
theorem push_back_n (h : a.Owns b) (hle : a.m_iCount ≤ a.m_iMaxSize) (hv : a.Refers value v)
    (n : ℕ) (hfreed : a.m_iMaxSize < a.m_iCount + n → ¬ a.InBlock value) :
    ∃ a', a.push_back_n n value = some a' ∧ a'.m_iCount = a.m_iCount + n ∧
      ∀ i < a.m_iCount + n, a'.get i =
        if i < a.m_iCount then a.get i
        else if i < a.m_iMaxSize ∨ i = a.m_iCount then some v else none := by
  obtain ⟨a₁, b₁, hfill, h₁, hmax, hcount, hhead, hread, hcells⟩ := h.fill hle hv
  have hroom₁ := h₁.room
  simp only [DyArray.push_back_n, hfill, Option.bind_eq_bind, Option.bind_some]
  by_cases hgrow : a.m_iMaxSize < a.m_iCount + n
  · have hextra : a.m_iCount + n - a.m_iMaxSize ≠ 0 := by omega
    have hold : (b₁.take a₁.m_iMaxSize).length = a₁.m_iMaxSize := by
      rw [List.length_take, Nat.min_eq_left hroom₁]
    have hcell : a₁.m_iCount ≤ (b₁.take a₁.m_iMaxSize ++
        List.replicate (a.m_iCount + n - a.m_iMaxSize) none).length := by
      rw [List.length_append, hold]
      omega
    have hgrown : a₁.readGrown value = some v :=
      h₁.readGrown_eq hread (mt (inBlock_congr hhead).mp (hfreed hgrow))
    rw [if_pos hgrow, if_pos hextra,
      _grow_n_eq h₁.storage h₁.head hroom₁ (by omega) hgrown, Option.bind_some]
    refine ⟨_, rfl, congrArg (· + n) hcount, fun i hi ↦ ?_⟩
    rw [get_eq rfl, Block.getElem?_patch hcell, hcount, List.length_singleton, get_eq h.storage]
    by_cases hin : i < a.m_iMaxSize
    · -- an old element or a cell that was free
      have hcond : i < a.m_iMaxSize ∨ i = a.m_iCount := .inl hin
      rw [List.getElem?_append_left (by omega), List.getElem?_take_of_lt (by omega),
        hcells i hin, if_pos hcond]
      by_cases hlt : i < a.m_iCount
      · rw [if_pos hlt, if_pos hlt, if_pos hlt]
      · rw [if_neg hlt, if_neg hlt, if_neg hlt]
        split
        · have hnext : i - a.m_iCount = 0 := by omega
          rw [hnext]
          rfl
        · rfl
    · -- a cell of the new memory
      have hlt : ¬ i < a.m_iCount := by omega
      have hmem : i - a₁.m_iMaxSize < a.m_iCount + n - a.m_iMaxSize := by omega
      rw [if_neg hlt, if_neg hlt, List.getElem?_append_right (by omega), hold,
        List.getElem?_replicate, if_pos hmem]
      by_cases hnext : i = a.m_iCount
      · have hcond : i < a.m_iMaxSize ∨ i = a.m_iCount := .inr hnext
        rw [if_pos hcond, if_pos (by omega), hnext, Nat.sub_self]
        rfl
      · rw [if_neg (by omega), if_neg (by omega)]
        rfl
  · rw [if_neg hgrow, if_neg (not_not_intro rfl), Option.bind_some]
    refine ⟨_, rfl, congrArg (· + n) hcount, fun i hi ↦ ?_⟩
    have hin : i < a.m_iMaxSize := by omega
    have hcond : i < a.m_iMaxSize ∨ i = a.m_iCount := .inl hin
    have hget : a₁.get i = b₁[i]?.join := get_eq h₁.storage i
    show a₁.get i = _
    rw [hget, hcells i hin, get_eq h.storage, if_pos hcond]
    split <;> rfl

-- A copy of an element in the block that is freed cannot be made.
theorem push_back_n_eq_none (h : a.Owns b) (hle : a.m_iCount ≤ a.m_iMaxSize)
    (hv : a.Refers value v) (hgrow : a.m_iMaxSize < a.m_iCount + n) (hfreed : a.InBlock value) :
    a.push_back_n n value = none := by
  obtain ⟨a₁, b₁, hfill, h₁, hmax, -, hhead, hread, -⟩ := h.fill hle hv
  have hroom₁ := h₁.room
  have hextra : a.m_iCount + n - a.m_iMaxSize ≠ 0 := by omega
  have hgrown : a₁.readGrown value = none :=
    readGrown_eq_none ((inBlock_congr hhead).mpr hfreed)
  have hcopy : a₁._grow_n (a.m_iCount + n - a.m_iMaxSize) value = none := by
    simp only [_grow_n, Option.bind_eq_bind, hgrown, Option.bind_none, Option.bind_fun_none]
  simp only [DyArray.push_back_n, hfill, Option.bind_eq_bind, Option.bind_some, if_pos hgrow,
    if_pos hextra, hcopy, Option.bind_none]

/-! ## 2. Which calls fill every new element -/

theorem fillsNew_iff (h : a.Owns b) (hle : a.m_iCount ≤ a.m_iMaxSize) (hv : a.Refers value v)
    (hfreed : a.m_iMaxSize < a.m_iCount + n → ¬ a.InBlock value) {a' : DyArray T N}
    (hcall : a.push_back_n n value = some a') :
    a.FillsNew a' n v ↔ a.SpareOrNext n value := by
  obtain ⟨a'', hcall', -, hget⟩ := h.push_back_n hle hv n hfreed
  cases Option.some.inj (hcall.symm.trans hcall')
  constructor
  · intro hnew
    by_cases hgrow : a.m_iMaxSize < a.m_iCount + n
    · right
      refine ⟨?_, ?_, hfreed hgrow⟩ <;> by_contra hcond
      all_goals
        -- the last of the new cells has never been written
        have hi := hnew (a.m_iCount + n - 1) (by omega) (by omega)
        rw [hget _ (by omega), if_neg (by omega), if_neg (by omega)] at hi
        cases hi
    · exact .inl (by omega)
  · intro hcond i hi hin
    have hcell : i < a.m_iMaxSize ∨ i = a.m_iCount := by
      rcases hcond with hspare | ⟨hfull, hone, -⟩ <;> omega
    rw [hget i hin, if_neg (by omega), if_pos hcell]

theorem appendsCopies_iff (h : a.Owns b) (hle : a.m_iCount ≤ a.m_iMaxSize) (n : ℕ)
    (hv : a.Refers value v) : a.AppendsCopies n value v ↔ a.SpareOrNext n value := by
  by_cases hlost : a.m_iMaxSize < a.m_iCount + n ∧ a.InBlock value
  · obtain ⟨hgrow, hfreed⟩ := hlost
    have hnone := h.push_back_n_eq_none hle hv hgrow hfreed
    constructor
    · intro happ
      obtain ⟨a', hcall, -⟩ := happ
      cases hnone.symm.trans hcall
    · rintro (hspare | ⟨-, -, hkept⟩)
      · omega
      · exact absurd hfreed hkept
  · have hkept : a.m_iMaxSize < a.m_iCount + n → ¬ a.InBlock value :=
      fun hgrow hfreed ↦ hlost ⟨hgrow, hfreed⟩
    obtain ⟨a', hcall, hcount, hget⟩ := h.push_back_n hle hv n hkept
    have hiff := h.fillsNew_iff hle hv hkept hcall
    constructor
    · intro happ
      obtain ⟨a'', hcall', -, -, hnew⟩ := happ
      cases Option.some.inj (hcall.symm.trans hcall')
      exact hiff.mp hnew
    · intro hcond
      refine ⟨a', hcall, hcount, fun i hi ↦ ?_, hiff.mpr hcond⟩
      rw [hget i (by omega), if_pos hi]

theorem resizesWithZeros_iff [Zero T] (h : a.Owns b) (hle : a.m_iCount ≤ a.m_iMaxSize)
    {newSize : ℕ} (hlt : a.m_iCount < newSize) :
    a.ResizesWithZeros newSize ↔ a.SpareOrNext (newSize - a.m_iCount) (0 : T) := by
  have hv : a.Refers (0 : T) 0 := rfl
  have hkept : a.m_iMaxSize < a.m_iCount + (newSize - a.m_iCount) → ¬ a.InBlock (0 : T) :=
    fun _ ↦ not_false
  obtain ⟨a', hcall, hcount, -⟩ := h.push_back_n hle hv (newSize - a.m_iCount) hkept
  have hresize : a.resize newSize = some a' := by
    rw [DyArray.resize, if_neg (by omega), hcall]
  have hiff := h.fillsNew_iff hle hv hkept hcall
  constructor
  · intro hzeros
    obtain ⟨a'', hcall', -, hnew⟩ := hzeros
    cases Option.some.inj (hresize.symm.trans hcall')
    exact hiff.mp hnew
  · intro hcond
    exact ⟨a', hresize, by omega, hiff.mpr hcond⟩

end Owns

/-- **Bulk append fills every new element** if and only if the new elements are all in cells that
were free, or the array was full and gets one more, which is not a copy of an element in the block
that is freed. -/
theorem bulk_append_iff [Zero T] (a : DyArray T N) (b : Cells T) (h : a.Owns b)
    (hle : a.m_iCount ≤ a.m_iMaxSize) :
    (∀ n value v, a.Refers value v → (a.AppendsCopies n value v ↔ a.SpareOrNext n value)) ∧
      ∀ newSize, a.m_iCount < newSize →
        (a.ResizesWithZeros newSize ↔ a.SpareOrNext (newSize - a.m_iCount) (0 : T)) :=
  ⟨fun n _ _ hv ↦ h.appendsCopies_iff hle n hv, fun _ hlt ↦ h.resizesWithZeros_iff hle hlt⟩

/-- An empty array with two cells takes two copies, and so does `resize(2)`; a full one with one
cell takes a copy of its element. -/
theorem bulk_append_two :
    (new UInt8 2).AppendsCopies 2 (7 : UInt8) 7 ∧ (new UInt8 2).ResizesWithZeros 2 ∧
      ({ new UInt8 1 with m_iCount := 1 } : DyArray UInt8 1).AppendsCopies 1 (.element 0) 0 := by
  have h := bulk_append_iff (new UInt8 2) _ stores_new.owns (Nat.zero_le 2)
  have hfull := bulk_append_iff ({ new UInt8 1 with m_iCount := 1 } : DyArray UInt8 1) _
    (stores_new.count 1).owns (Nat.le_refl 1)
  refine ⟨(h.1 2 (7 : UInt8) 7 rfl).mpr (.inl (Nat.le_refl 2)),
    (h.2 2 Nat.zero_lt_two).mpr (.inl (Nat.le_refl 2)),
    (hfull.1 1 (.element 0) 0 ⟨Nat.one_pos, rfl⟩).mpr (.inr ⟨rfl, rfl, fun hin ↦ hin rfl⟩)⟩

/-- Of three copies that an array with one cell takes, and of three elements that it is resized to,
the last one is memory as it came from the allocation. -/
theorem not_bulk_append :
    (new UInt8 1).Owns (List.replicate 1 (some 0)) ∧
      (new UInt8 1).m_iCount ≤ (new UInt8 1).m_iMaxSize ∧
      ¬ (new UInt8 1).AppendsCopies 3 (7 : UInt8) 7 ∧ ¬ (new UInt8 1).ResizesWithZeros 3 := by
  refine ⟨stores_new.owns, Nat.zero_le 1, ?_, ?_⟩
  · intro h
    obtain ⟨a', hcall, -, -, hnew⟩ := h
    have hlast : ((new UInt8 1).push_back_n 3 (7 : UInt8)).bind (fun a ↦ a.get 2) = none := by
      decide
    rw [hcall, Option.bind_some, hnew 2 (by decide) (by decide)] at hlast
    cases hlast
  · intro h
    obtain ⟨a', hcall, -, hnew⟩ := h
    have hlast : ((new UInt8 1).resize 3).bind (fun a ↦ a.get 2) = none := by decide
    rw [hcall, Option.bind_some, hnew 2 (by decide) (by decide)] at hlast
    cases hlast

end DyArray

end Fantuan
