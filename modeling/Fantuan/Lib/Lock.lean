import Mathlib.Data.Nat.Notation
import Mathlib.Logic.Relation

/-!
# Locks whose holder can leave its work to another thread

Any number of callers share a lock with one worker.  A caller that has the lock releases it, or
leaves its work, and the lock with it, to the worker, which takes it up later and then releases the
lock.  A semaphore that stands for such a lock is 1 while the lock is free.
-/

namespace Lib

universe u

/-- Who has the lock: nobody, a caller, nobody yet, with work left to the worker, or the worker. -/
inductive Owner (ι : Type u)
  | free
  | caller (i : ι)
  | parked
  | worker

namespace Owner

variable {ι : Type u} {o : Owner ι}

inductive Step : Owner ι → Owner ι → Prop
  | acquire (i : ι) : Step .free (.caller i)
  | release (i : ι) : Step (.caller i) .free
  | park (i : ι) : Step (.caller i) .parked
  | take : Step .parked .worker
  | finish : Step .worker .free

/-- What the semaphore is. -/
def value : Owner ι → ℕ
  | free => 1
  | _ => 0

theorem value_eq_zero : o.value = 0 ↔ o ≠ .free := by
  cases o with
  | free => exact iff_of_false Nat.one_ne_zero fun h ↦ h rfl
  | caller i => exact iff_of_true rfl nofun
  | parked => exact iff_of_true rfl nofun
  | worker => exact iff_of_true rfl nofun

theorem eq_free_of_pos (h : 0 < o.value) : o = .free := by
  cases o with
  | free => rfl
  | caller i => exact absurd h (Nat.lt_irrefl 0)
  | parked => exact absurd h (Nat.lt_irrefl 0)
  | worker => exact absurd h (Nat.lt_irrefl 0)

end Owner

end Lib
