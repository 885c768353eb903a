import Mathlib.Data.List.Basic
import Mathlib.Data.List.GetD

/-!
# Blocks — memory whose size is known at run time only

A block is the list of its cells.  Reading and writing are partial: they have no result outside the
block.
-/

namespace Lib

universe u

namespace Block

variable {α : Type u} {b c src : List α} {off k len : ℕ} {a : α}

/-- `b` with `src` in place of the cells from `off` on. -/
def patch (b : List α) (off : ℕ) (src : List α) : List α :=
  b.take off ++ src ++ b.drop (off + src.length)

def write (b : List α) (off : ℕ) (src : List α) : Option (List α) :=
  if off + src.length ≤ b.length then some (patch b off src) else none

/-- The `len` cells from `off` on. -/
def read (b : List α) (off len : ℕ) : Option (List α) :=
  if off + len ≤ b.length then some ((b.drop off).take len) else none

/-- Move `len` cells inside the block, from offset `k` to offset `off`. -/
def move (b : List α) (off k len : ℕ) : Option (List α) := (read b k len).bind (write b off)

theorem write_of_le (h : off + src.length ≤ b.length) : write b off src = some (patch b off src) :=
  if_pos h

theorem write_eq_none : write b off src = none ↔ b.length < off + src.length := by
  unfold write
  split
  · rename_i h
    simp only [reduceCtorEq, false_iff, Nat.not_lt]
    exact h
  · rename_i h
    exact ⟨fun _ ↦ Nat.not_le.mp h, fun _ ↦ rfl⟩

theorem read_of_le (h : off + len ≤ b.length) : read b off len = some ((b.drop off).take len) :=
  if_pos h

theorem move_of_le (hk : k + len ≤ b.length) (hoff : off + len ≤ b.length) :
    move b off k len = some (patch b off ((b.drop k).take len)) := by
  have hlen : ((b.drop k).take len).length = len := by
    rw [List.length_take, List.length_drop]
    omega
  rw [move, read_of_le hk, Option.bind_some, write_of_le (by rwa [hlen])]

/-! ## What a patched block holds -/

theorem length_patch (h : off + src.length ≤ b.length) : (patch b off src).length = b.length := by
  simp only [patch, List.length_append, List.length_take, List.length_drop]
  omega

theorem take_patch_of_le (hk : k ≤ off) (h : off ≤ b.length) :
    (patch b off src).take k = b.take k := by
  have hlen : (b.take off).length = off := by
    rw [List.length_take]
    omega
  rw [patch, List.append_assoc, List.take_append_of_le_length (by omega), List.take_take,
    Nat.min_eq_left hk]

theorem take_patch (src : List α) (h : off ≤ b.length) :
    (patch b off src).take (off + src.length) = b.take off ++ src := by
  have hlen : (b.take off ++ src).length = off + src.length := by
    rw [List.length_append, List.length_take]
    omega
  rw [patch, ← hlen, List.take_left]

theorem drop_patch (h : off ≤ b.length) :
    (patch b off src).drop (off + src.length) = b.drop (off + src.length) := by
  have hlen : (b.take off ++ src).length = off + src.length := by
    rw [List.length_append, List.length_take]
    omega
  rw [patch, ← hlen, List.drop_left]

theorem getElem?_patch {i : ℕ} (h : off ≤ b.length) :
    (patch b off src)[i]? =
      if i < off then b[i]? else if i < off + src.length then src[i - off]? else b[i]? := by
  have hlen : (b.take off).length = off := by
    rw [List.length_take]
    omega
  unfold patch
  split
  · rename_i hi
    rw [List.append_assoc, List.getElem?_append_left (by omega), List.getElem?_take_of_lt hi]
  · rename_i hi
    split
    · rename_i hsrc
      rw [List.append_assoc, List.getElem?_append_right (by omega), hlen,
        List.getElem?_append_left (by omega)]
    · rename_i hsrc
      have hboth : (b.take off ++ src).length = off + src.length := by
        rw [List.length_append, hlen]
      rw [List.getElem?_append_right (by omega), hboth, List.getElem?_drop,
        Nat.add_sub_cancel' (by omega)]

theorem getElem?_patch_cons (h : off ≤ b.length) : (patch b off (a :: src))[off]? = some a := by
  have hin : off < off + (a :: src).length := by
    rw [List.length_cons]
    omega
  rw [getElem?_patch h, if_neg (Nat.lt_irrefl off), if_pos hin, Nat.sub_self]
  rfl

theorem patch_nil : patch b off [] = b := by
  rw [patch, List.append_nil, List.length_nil, Nat.add_zero, List.take_append_drop]

theorem patch_take : patch b 0 (b.take k) = b := by
  rw [patch, List.take_zero, List.nil_append, Nat.zero_add]
  by_cases h : k ≤ b.length
  · rw [List.length_take, Nat.min_eq_left h, List.take_append_drop]
  · rw [List.take_of_length_le (by omega), List.drop_length, List.append_nil]

theorem patch_singleton (h : off < b.length) : patch b off [a] = b.set off a := by
  rw [patch, List.set_eq_take_cons_drop a h, List.append_assoc]
  rfl

theorem getD_patch {i : ℕ} (h : off ≤ b.length) :
    (patch b off src).getD i a =
      if i < off then b.getD i a
      else if i < off + src.length then src.getD (i - off) a else b.getD i a := by
  simp only [List.getD_eq_getElem?_getD, getElem?_patch h]
  split
  · rfl
  · split <;> rfl

/-- Writing what stands there already. -/
theorem patch_self (h : off + len ≤ b.length) : patch b off ((b.drop off).take len) = b := by
  have hlen : ((b.drop off).take len).length = len := by
    rw [List.length_take, List.length_drop]
    omega
  rw [patch, hlen, List.append_assoc, ← List.drop_drop, List.take_append_drop,
    List.take_append_drop]

/-- Two patches, the second one right behind the first. -/
theorem patch_patch {src' : List α} (h : off + src.length ≤ b.length) :
    patch (patch b off src) (off + src.length) src' = patch b off (src ++ src') := by
  have hdrop : (patch b off src).drop (off + src.length + src'.length) =
      b.drop (off + src.length + src'.length) := by
    rw [← List.drop_drop, drop_patch (by omega), List.drop_drop]
  rw [patch, take_patch src (by omega), hdrop, patch, List.length_append]
  simp only [List.append_assoc, Nat.add_assoc]

end Block

end Lib
