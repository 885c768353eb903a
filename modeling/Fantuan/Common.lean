import Mathlib.Algebra.Order.Group.Nat
import Mathlib.Algebra.Ring.Int.Defs

/-!
# common.h, type.h — buffer sizes and integer types

Unsigned integers are natural numbers, signed ones integers; `uint16`, `uint32` and `int32` are the
conversions to the fixed-width types, written where the source converts and where the value may not
fit.
-/

namespace Fantuan

def MAXLINE : ℕ := 256

/-- Max size from client to server. -/
def MAX_INPUT_BUFFER : ℕ := 1024

/-- Max size from server to client. -/
def MAX_OUTPUT_BUFFER : ℕ := 65500

def uint16 (n : ℕ) : ℕ := n % 2 ^ 16

def uint32 (n : ℕ) : ℕ := n % 2 ^ 32

def int32 (n : ℤ) : ℤ := n.bmod (2 ^ 32)

/-- Of 64 bits; a negative number is a huge one. -/
def size_t (n : ℤ) : ℕ := (n % 2 ^ 64).toNat

theorem uint16_of_lt {n : ℕ} (h : n < 2 ^ 16) : uint16 n = n := Nat.mod_eq_of_lt h

theorem uint32_of_lt {n : ℕ} (h : n < 2 ^ 32) : uint32 n = n := Nat.mod_eq_of_lt h

theorem int32_of_lt {n : ℤ} (h₀ : 0 ≤ n) (h : n < 2 ^ 31) : int32 n = n :=
  Int.bmod_eq_of_le (by omega) (by omega)

theorem int32_of_le {n : ℤ} (h₀ : 2 ^ 31 ≤ n) (h : n < 2 ^ 32) : int32 n = n - 2 ^ 32 := by
  unfold int32 Int.bmod
  have hmod : n % ((2 ^ 32 : ℕ) : ℤ) = n := Int.emod_eq_of_lt (by omega) (by omega)
  rw [hmod, if_neg (by omega)]
  rfl

theorem size_t_of_lt {n : ℕ} (h : n < 2 ^ 64) : size_t n = n := by
  unfold size_t
  omega

/-- The pointer to an `EasyConnection` by which the network layer names a connection. -/
abbrev ConnID := ℕ

end Fantuan
