import Mathlib.Data.List.Basic

/-!
# Storage — blocks of memory of a fixed size

A `Storage α n` holds exactly `n` elements.  `memcpy` and `memmove` are partial: they have no result
when they would read outside their source or write outside the block, which is the case that
the C functions of these names leave undefined.
-/

namespace Lib

universe u

/-- A block of `n` elements. -/
@[ext] structure Storage (α : Type u) (n : ℕ) where
  data : List α
  length_data : data.length = n
deriving DecidableEq

namespace Storage

variable {α : Type u} {n : ℕ} {s t : Storage α n} {off len k : ℕ} {src : List α}

attribute [simp] length_data

def replicate (n : ℕ) (a : α) : Storage α n := ⟨List.replicate n a, List.length_replicate⟩

/-- Assign to the element at `off`, an offset inside the block. -/
def set (s : Storage α n) (off : ℕ) (a : α) : Storage α n :=
  ⟨s.data.set off a, by rw [List.length_set, length_data]⟩

/-- Overwrite the elements from `off` on by `src`, if they are all inside the block. -/
def write (s : Storage α n) (off : ℕ) (src : List α) : Option (Storage α n) :=
  if h : off + src.length ≤ n then
    some ⟨s.data.take off ++ src ++ s.data.drop (off + src.length), by
      simp only [List.length_append, List.length_take, List.length_drop, length_data]
      omega⟩
  else none

/-- Copy `len` elements from the front of `src` to offset `off`. -/
def memcpy (s : Storage α n) (off : ℕ) (src : List α) (len : ℕ) : Option (Storage α n) :=
  if len ≤ src.length then s.write off (src.take len) else none

/-- Copy `len` elements inside the block, from offset `k` to offset `off`. -/
def memmove (s : Storage α n) (off k len : ℕ) : Option (Storage α n) :=
  s.memcpy off (s.data.drop k) len

theorem write_of_le (h : off + src.length ≤ n) : ∃ t, s.write off src = some t := ⟨_, dif_pos h⟩

theorem write_of_lt (h : n < off + src.length) : s.write off src = none :=
  dif_neg (Nat.not_le.mpr h)

theorem write_eq_some :
    s.write off src = some t ↔
      off + src.length ≤ n ∧ t.data = s.data.take off ++ src ++ s.data.drop (off + src.length) := by
  unfold write
  split
  · rename_i h
    rw [Option.some.injEq, Storage.ext_iff]
    exact ⟨fun he ↦ ⟨h, he.symm⟩, fun he ↦ he.2.symm⟩
  · rename_i h
    exact ⟨fun he ↦ (nomatch he), fun he ↦ absurd he.1 h⟩

theorem memcpy_eq_some :
    s.memcpy off src len = some t ↔
      len ≤ src.length ∧ off + len ≤ n ∧
        t.data = s.data.take off ++ src.take len ++ s.data.drop (off + len) := by
  unfold memcpy
  split
  · rename_i h
    rw [write_eq_some, List.length_take, Nat.min_eq_left h]
    exact ⟨fun he ↦ ⟨h, he⟩, fun he ↦ he.2⟩
  · rename_i h
    exact ⟨fun he ↦ (nomatch he), fun he ↦ absurd he.1 h⟩

/-- `memcpy` goes outside the source or the block exactly when it has no result. -/
theorem memcpy_eq_none :
    s.memcpy off src len = none ↔ src.length < len ∨ n < off + len := by
  rw [Option.eq_none_iff_forall_ne_some]
  constructor
  · intro h
    -- inside both there is a result: the block with the elements in place
    by_contra hin
    rw [not_or, Nat.not_lt, Nat.not_lt] at hin
    have hlen : (s.data.take off ++ src.take len ++ s.data.drop (off + len)).length = n := by
      simp only [List.length_append, List.length_take, List.length_drop, length_data]
      omega
    exact h ⟨_, hlen⟩ (memcpy_eq_some.mpr ⟨hin.1, hin.2, rfl⟩)
  · intro h t ht
    obtain ⟨hsrc, hdst, -⟩ := memcpy_eq_some.mp ht
    omega

theorem memmove_eq_none :
    s.memmove off k len = none ↔ n < k + len ∧ 0 < len ∨ n < off + len := by
  rw [memmove, memcpy_eq_none, List.length_drop, length_data]
  omega

/-- What stands in front of the copied elements stays, and they follow it. -/
theorem take_of_memcpy (h : s.memcpy off src len = some t) :
    t.data.take (off + len) = s.data.take off ++ src.take len := by
  obtain ⟨hsrc, hdst, he⟩ := memcpy_eq_some.mp h
  have hlen : (s.data.take off ++ src.take len).length = off + len := by
    simp only [List.length_append, List.length_take, length_data]
    omega
  rw [he, ← hlen, List.take_left]

/-- Moving to the front drops what stood there. -/
theorem take_of_memmove_zero (h : s.memmove 0 k len = some t) :
    t.data.take len = (s.data.drop k).take len := by
  have he := take_of_memcpy h
  rwa [Nat.zero_add, List.take_zero, List.nil_append] at he

end Storage

end Lib
