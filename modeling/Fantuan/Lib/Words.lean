import Mathlib.Data.Nat.Digits.Defs
import Fantuan.Lib.Memory
import Fantuan.Lib.Regions

/-!
# Words — masks, and numbers in memory, low byte first
-/

namespace Lib

/-! ## Masks -/

-- A mask and its complement take a word apart.
theorem and_not_add_and {w : ℕ} (x m : BitVec w) :
    (x &&& ~~~m).toNat + (x &&& m).toNat = x.toNat := by
  have hapart : (x &&& ~~~m) &&& (x &&& m) = 0#w := by
    apply BitVec.eq_of_getLsbD_eq
    grind
  have hwhole : (x &&& ~~~m) ||| (x &&& m) = x := by
    apply BitVec.eq_of_getLsbD_eq
    grind
  calc (x &&& ~~~m).toNat + (x &&& m).toNat
      = ((x &&& ~~~m) + (x &&& m)).toNat := (BitVec.toNat_add_of_and_eq_zero hapart).symm
    _ = x.toNat := by rw [BitVec.add_eq_or_of_and_eq_zero _ _ hapart, hwhole]

theorem and_complement_add_and {w x m : ℕ} (hx : x < 2 ^ w) (hm : m < 2 ^ w) :
    (x &&& (2 ^ w - (m + 1))) + (x &&& m) = x := by
  have hsum := and_not_add_and (BitVec.ofNat w x) (BitVec.ofNat w m)
  rw [BitVec.toNat_and, BitVec.toNat_and, BitVec.toNat_not, BitVec.toNat_ofNat, BitVec.toNat_ofNat,
    Nat.mod_eq_of_lt hx, Nat.mod_eq_of_lt hm, Nat.sub_sub, Nat.add_comm 1 m] at hsum
  exact hsum

/-! ## Words of a fixed width -/

/-- The lowest `k` bytes of a number. -/
def leBytes : ℕ → ℕ → List UInt8
  | 0, _ => []
  | k + 1, v => UInt8.ofNat v :: leBytes k (v / 256)

def leValue (l : List UInt8) : ℕ := Nat.ofDigits 256 (l.map UInt8.toNat)

variable {m m' : ℤ → UInt8} {a : ℤ} {k v : ℕ}

@[simp] theorem length_leBytes : (leBytes k v).length = k := by
  induction k generalizing v with
  | zero => rfl
  | succ k ih => rw [leBytes, List.length_cons, ih]

theorem leValue_leBytes (h : v < 256 ^ k) : leValue (leBytes k v) = v := by
  induction k generalizing v with
  | zero =>
      have hzero : v = 0 := by
        rw [Nat.pow_zero] at h
        omega
      rw [hzero]
      rfl
  | succ k ih =>
      have hdiv : v / 256 < 256 ^ k := by
        rw [Nat.pow_succ] at h
        exact Nat.div_lt_of_lt_mul (by rwa [Nat.mul_comm])
      have hrest := ih hdiv
      unfold leValue at hrest ⊢
      rw [leBytes, List.map_cons, Nat.ofDigits_cons, hrest, UInt8.toNat_ofNat']
      show v % 2 ^ 8 + 256 * (v / 256) = v
      omega

namespace Memory

/-- The number in the `k` bytes from `a` on. -/
def word (m : ℤ → UInt8) (a : ℤ) (k : ℕ) : ℕ := leValue (read m a k)

def setWord (m : ℤ → UInt8) (a : ℤ) (k v : ℕ) : ℤ → UInt8 := write m a (leBytes k v)

theorem word_congr (h : ∀ x, a ≤ x → x < a + k → m x = m' x) : word m a k = word m' a k := by
  rw [word, read_congr h, word]

theorem word_setWord (h : v < 256 ^ k) : word (setWord m a k v) a k = v := by
  have hread := read_write (m := m) (a := a) (l := leBytes k v)
  rw [length_leBytes] at hread
  rw [word, setWord, hread, leValue_leBytes h]

end Memory

/-! ## What a write leaves alone -/

namespace Region

variable {α : Type} {r s : Region} {o : ℕ}

/-- The memories differ in the region at most. -/
def Frame (r : Region) (m m' : ℤ → α) : Prop :=
  ∀ x : ℤ, x < r.base ∨ ((r.base + r.size : ℕ) : ℤ) ≤ x → m' x = m x

variable {m₁ m₂ m₃ : ℤ → α}

theorem Frame.mono (h : r.Frame m₁ m₂) (hrs : r.Inside s) : s.Frame m₁ m₂ := by
  intro x hx
  have hbase := hrs.1
  have hend := hrs.2
  exact h x (by omega)

theorem Frame.trans (h : r.Frame m₁ m₂) (h' : r.Frame m₂ m₃) : r.Frame m₁ m₃ :=
  fun x hx ↦ (h' x hx).trans (h x hx)

theorem frame_write {l : List α} : (⟨o, l.length⟩ : Region).Frame m₁ (Memory.write m₁ o l) := by
  intro x hx
  unfold Memory.write
  split
  · rw [List.getD_eq_default]
    have hx' : x < o ∨ ((o + l.length : ℕ) : ℤ) ≤ x := hx
    omega
  · rfl

theorem frame_setWord : (⟨o, k⟩ : Region).Frame m (Memory.setWord m o k v) := by
  have hframe : (⟨o, (leBytes k v).length⟩ : Region).Frame m (Memory.setWord m o k v) := frame_write
  rwa [length_leBytes] at hframe

theorem Frame.word (h : r.Frame m m') (hd : (⟨o, k⟩ : Region).Disjoint r) :
    Memory.word m' o k = Memory.word m o k := by
  apply Memory.word_congr
  intro x hx hlt
  have hout : o + k ≤ r.base ∨ r.base + r.size ≤ o := hd
  exact h x (by omega)

end Region

end Lib
