import Mathlib.Algebra.BigOperators.Group.List.Basic
import Mathlib.Algebra.GroupWithZero.Nat
import Mathlib.Algebra.Order.BigOperators.Group.List
import Mathlib.Algebra.Order.Group.Nat

/-!
# Threads — what they have still to execute

A thread is the list of the instructions that it has still to execute.  One step takes the first
instruction from one of the threads and puts what is left of it in its place.  What a program counts
(references that are held, things that are on their way) is the load of its threads: the sum of what
the single instructions weigh.  It changes by the weights of the instructions that come and go, and
not by the order of the threads.
-/

namespace Lib

universe u

/-- What weighs nothing where other weights are zero. -/
theorem sum_map_eq_zero {α : Type u} {f g : α → ℕ} {l : List α} (h : ∀ a, g a = 0 → f a = 0)
    (hg : (l.map g).sum = 0) : (l.map f).sum = 0 := by
  rw [List.sum_eq_zero_iff] at hg ⊢
  intro x hx
  rcases List.mem_map.mp hx with ⟨a, ha, rfl⟩
  exact h a (hg (g a) (List.mem_map_of_mem ha))

section Load

variable {I : Type u} {w v : I → ℕ} {threads : List (List I)} {code code' rest : List I} {i : I}
  {n : ℕ}

/-- What all the instructions weigh. -/
def load (w : I → ℕ) (threads : List (List I)) : ℕ := (threads.flatten.map w).sum

@[simp] theorem load_nil : load w [] = 0 := rfl

@[simp] theorem load_cons : load w (code :: threads) = (code.map w).sum + load w threads := by
  rw [load, List.flatten_cons, List.map_append, List.sum_append, ← load]

theorem load_append {more : List (List I)} :
    load w (threads ++ more) = load w threads + load w more := by
  rw [load, List.flatten_append, List.map_append, List.sum_append, ← load, ← load]

/-- A thread begins. -/
theorem load_start : load w (threads ++ [code]) = load w threads + (code.map w).sum := by
  rw [load_append, load_cons, load_nil, Nat.add_zero]

/-- A thread goes on with other instructions. -/
theorem load_set (h : threads[n]? = some code) :
    load w (threads.set n code') + (code.map w).sum = load w threads + (code'.map w).sum := by
  induction threads generalizing n with
  | nil => cases h
  | cons first threads ih =>
      cases n with
      | zero =>
          cases h
          rw [List.set_cons_zero, load_cons, load_cons]
          omega
      | succ n =>
          have hrest := ih h
          rw [List.set_cons_succ, load_cons, load_cons]
          omega

/-- A thread executes its first instruction. -/
theorem load_step (h : threads[n]? = some (i :: rest)) (next : List I) :
    load w (threads.set n (next ++ rest)) + w i = load w threads + (next.map w).sum := by
  have hset : load w (threads.set n (next ++ rest)) + _ = _ := load_set h
  rw [List.map_cons, List.sum_cons, List.map_append, List.sum_append] at hset
  omega

/-- A thread that had nothing to do. -/
theorem load_idle (h : threads[n]? = some []) :
    load w (threads.set n code) = load w threads + (code.map w).sum :=
  load_set h

theorem sum_le_load (h : threads[n]? = some code) : (code.map w).sum ≤ load w threads := by
  have hset : load w (threads.set n []) + _ = _ := load_set h
  rw [List.map_nil, List.sum_nil] at hset
  omega

/-- The next instruction of a thread is part of the load. -/
theorem le_load (h : threads[n]? = some (i :: rest)) : w i ≤ load w threads := by
  have hsum : _ ≤ load w threads := sum_le_load h
  rw [List.map_cons, List.sum_cons] at hsum
  omega

/-- What a thread goes on with takes the place of what it had, up to order. -/
theorem flatMap_set_perm {β : Type u} (f : I → List β) (h : threads[n]? = some code)
    (next : List I) :
    (code.flatMap f ++ (threads.set n next).flatten.flatMap f).Perm
      (next.flatMap f ++ threads.flatten.flatMap f) := by
  induction threads generalizing n with
  | nil => cases h
  | cons first threads ih =>
      cases n with
      | zero =>
          cases h
          rw [List.set_cons_zero, List.flatten_cons, List.flatten_cons, List.flatMap_append,
            List.flatMap_append]
          exact List.perm_append_comm_assoc _ _ _
      | succ n =>
          rw [List.set_cons_succ, List.flatten_cons, List.flatten_cons, List.flatMap_append,
            List.flatMap_append]
          exact (List.perm_append_comm_assoc _ _ _).trans
            (((ih h).append_left _).trans (List.perm_append_comm_assoc _ _ _))

/-- What a thread keeps is still there, and so is what others have. -/
theorem mem_flatten_set (h : threads[n]? = some code) (hi : i ∈ threads.flatten)
    (hcode : i ∈ code → i ∈ code') : i ∈ (threads.set n code').flatten := by
  induction threads generalizing n with
  | nil => cases h
  | cons first threads ih =>
      rw [List.flatten_cons, List.mem_append] at hi
      cases n with
      | zero =>
          cases h
          rw [List.set_cons_zero, List.flatten_cons, List.mem_append]
          exact hi.imp_left hcode
      | succ n =>
          rw [List.set_cons_succ, List.flatten_cons, List.mem_append]
          exact hi.imp_right (ih h)

theorem load_le_load (h : ∀ i, w i ≤ v i) : load w threads ≤ load v threads :=
  List.sum_le_sum fun i _ ↦ h i

theorem load_add : load (fun i ↦ w i + v i) threads = load w threads + load v threads :=
  List.sum_map_add

end Load

end Lib
