import Mathlib.Algebra.GroupWithZero.Nat

/-!
# Cursors — a position that goes forward in a bounded space

A cursor goes forward by as many elements as a call asks for, or stays where it is when there are
not so many left.  An object whose calls move it like a cursor does so in every sequence of calls.
-/

namespace Lib

universe u v

@[ext] structure Cursor (limit : ℕ) where
  pos : ℕ
  pos_le : pos ≤ limit

namespace Cursor

variable {limit n : ℕ} {c : Cursor limit} {ns : List ℕ}

/-- Before all elements. -/
def start (limit : ℕ) : Cursor limit := ⟨0, Nat.zero_le limit⟩

/-- Go `n` elements forward, if there are so many; the result of a call is whether there are. -/
def advance (c : Cursor limit) (n : ℕ) : Cursor limit × Bool :=
  if h : c.pos + n ≤ limit then (⟨c.pos + n, h⟩, true) else (c, false)

/-- One call after the other. -/
def run (c : Cursor limit) : List ℕ → Cursor limit × List Bool
  | [] => (c, [])
  | n :: ns => (((c.advance n).1.run ns).1, (c.advance n).2 :: ((c.advance n).1.run ns).2)

theorem advance_of_le (h : c.pos + n ≤ limit) : c.advance n = (⟨c.pos + n, h⟩, true) :=
  dif_pos h

theorem advance_of_lt (h : limit < c.pos + n) : c.advance n = (c, false) :=
  dif_neg (Nat.not_le.mpr h)

/-- A call fails exactly if there is not enough left. -/
theorem advance_snd_eq_false : (c.advance n).2 = false ↔ limit < c.pos + n := by
  by_cases h : c.pos + n ≤ limit
  · rw [advance_of_le h]
    exact iff_of_false nofun (by omega)
  · rw [advance_of_lt (by omega)]
    exact iff_of_true rfl (by omega)

theorem pos_le_advance : c.pos ≤ (c.advance n).1.pos := by
  by_cases h : c.pos + n ≤ limit
  · rw [advance_of_le h]
    exact Nat.le_add_right _ _
  · have hpos : (c.advance n).1.pos = c.pos := by
      rw [advance_of_lt (by omega)]
    exact Nat.le_of_eq hpos.symm

/-- When no call fails the cursor has gone forward by all that was asked for. -/
theorem run_pos_of_all (h : ∀ ok ∈ (c.run ns).2, ok = true) :
    (c.run ns).1.pos = c.pos + ns.sum := by
  induction ns generalizing c with
  | nil => rfl
  | cons n ns ih =>
      rw [run, List.forall_mem_cons] at h
      have hle : c.pos + n ≤ limit := by
        rw [← Nat.not_lt, ← advance_snd_eq_false, h.1]
        exact nofun
      have hpos : (c.advance n).1.pos = c.pos + n := by rw [advance_of_le hle]
      rw [run, ih h.2, hpos, List.sum_cons, Nat.add_assoc]

end Cursor

/-! ## Objects that move like a cursor -/

section Calls

variable {σ : Type u} {α : Type v} {call : σ → α → Option (σ × Bool)} {s t : σ} {a : α}
  {as : List α} {oks : List Bool}

/-- One call after the other, with their results. -/
def runCalls (call : σ → α → Option (σ × Bool)) (s : σ) : List α → Option (σ × List Bool)
  | [] => some (s, [])
  | a :: as => do
      let (s, ok) ← call s a
      let (s, oks) ← runCalls call s as
      some (s, ok :: oks)

/-- If every call takes the object where the cursor goes, then every sequence of calls does. -/
theorem runCalls_of_call {limit : ℕ} {size : α → ℕ} {R : σ → Cursor limit → Prop}
    (hcall : ∀ s c a, R s c → ∃ t, call s a = some (t, (c.advance (size a)).2) ∧
      R t (c.advance (size a)).1)
    {c : Cursor limit} (h : R s c) (as : List α) :
    ∃ t, runCalls call s as = some (t, (c.run (as.map size)).2) ∧
      R t (c.run (as.map size)).1 := by
  induction as generalizing s c with
  | nil => exact ⟨s, rfl, h⟩
  | cons a as ih =>
      obtain ⟨t, ht, hR⟩ := hcall s c a h
      obtain ⟨u, hu, hR'⟩ := ih hR
      refine ⟨u, ?_, hR'⟩
      simp only [runCalls, ht, hu, Option.bind_eq_bind, Option.bind_some, List.map_cons,
        Cursor.run]

end Calls

end Lib
