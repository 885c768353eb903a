import Mathlib.Data.Int.Notation
import Mathlib.Data.List.GetD

/-!
# Memory — a map from addresses to cells

Addresses are integers, so that a pointer can leave a buffer on either side.
-/

namespace Lib

universe u

namespace Memory

variable {α : Type u} {m : ℤ → α} {a b : ℤ} {l : List α} {n k : ℕ}

/-- The `n` cells from `a` on. -/
def read (m : ℤ → α) (a : ℤ) : ℕ → List α
  | 0 => []
  | n + 1 => m a :: read m (a + 1) n

/-- Put the elements of `l` into the cells from `a` on. -/
def write (m : ℤ → α) (a : ℤ) (l : List α) : ℤ → α :=
  fun x ↦ if a ≤ x then l.getD (x - a).toNat (m x) else m x

@[simp] theorem read_zero : read m a 0 = [] := rfl

theorem read_succ : read m a (n + 1) = m a :: read m (a + 1) n := rfl

theorem length_read : (read m a n).length = n := by
  induction n generalizing a with
  | zero => rfl
  | succ n ih => rw [read_succ, List.length_cons, ih]

theorem getElem?_read (h : k < n) : (read m a n)[k]? = some (m (a + k)) := by
  induction n generalizing a k with
  | zero => omega
  | succ n ih =>
      cases k with
      | zero => simp [read_succ]
      | succ k =>
          have ha : a + 1 + (k : ℤ) = a + (k + 1 : ℕ) := by omega
          rw [read_succ, List.getElem?_cons_succ, ih (by omega), ha]

/-- The first `n` cells, then the others. -/
theorem read_add : read m a (n + k) = read m a n ++ read m (a + n) k := by
  induction n generalizing a with
  | zero => simp
  | succ n ih =>
      have ha : a + 1 + (n : ℤ) = a + (n + 1 : ℕ) := by omega
      rw [Nat.add_right_comm, read_succ, read_succ, ih, ha, List.cons_append]

theorem read_congr {m' : ℤ → α} (h : ∀ x, a ≤ x → x < a + n → m x = m' x) :
    read m a n = read m' a n := by
  induction n generalizing a with
  | zero => rfl
  | succ n ih =>
      rw [read_succ, read_succ, h a (by omega) (by omega),
        ih fun x hx hlt ↦ h x (by omega) (by omega)]

theorem write_of_lt {x : ℤ} (h : x < a) : write m a l x = m x := if_neg (by omega)

theorem write_of_le {x : ℤ} (h : a + l.length ≤ x) : write m a l x = m x := by
  rw [write, if_pos (by omega), List.getD_eq_default]
  omega

/-- A cell holds an element of the list that is written, or is outside and holds what it held. -/
theorem write_cases (m : ℤ → α) (a : ℤ) (l : List α) (x : ℤ) :
    (∃ i : ℕ, x = a + i ∧ l[i]? = some (write m a l x)) ∨
      (x < a ∨ a + l.length ≤ x) ∧ write m a l x = m x := by
  by_cases hlt : x < a
  · exact .inr ⟨.inl hlt, write_of_lt hlt⟩
  by_cases hle : a + l.length ≤ x
  · exact .inr ⟨.inr hle, write_of_le hle⟩
  have hi : (x - a).toNat < l.length := by omega
  refine .inl ⟨(x - a).toNat, by omega, ?_⟩
  rw [write, if_pos (by omega), List.getD_eq_getElem _ _ hi, List.getElem?_eq_getElem hi]

theorem read_write_of_disjoint (h : a + n ≤ b ∨ b + l.length ≤ a) :
    read (write m b l) a n = read m a n := by
  apply read_congr
  intro x hx hlt
  unfold write
  split
  · rw [List.getD_eq_default]
    omega
  · rfl

theorem read_write : read (write m a l) a l.length = l := by
  induction l generalizing a with
  | nil => rfl
  | cons v l ih =>
      -- the cells behind the first one do not see it
      have htail : read (write m a (v :: l)) (a + 1) l.length =
          read (write m (a + 1) l) (a + 1) l.length := by
        apply read_congr
        intro x hx _
        have hnat : (x - a).toNat = (x - (a + 1)).toNat + 1 := by omega
        rw [write, write, if_pos (by omega), if_pos hx, hnat, List.getD_cons_succ]
      rw [List.length_cons, read_succ, htail, ih, write, if_pos (Int.le_refl a), Int.sub_self]
      rfl

/-- Writing right behind what was read. -/
theorem read_write_append : read (write m (a + n) l) a (n + l.length) = read m a n ++ l := by
  rw [read_add, read_write_of_disjoint (.inl (Int.le_refl _)), read_write]

end Memory

end Lib
