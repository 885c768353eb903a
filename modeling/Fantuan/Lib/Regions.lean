import Mathlib.Data.List.Range
import Mathlib.Logic.Function.Basic

/-!
# Regions — what an allocator hands out

Regions of an address space, blocks laid out one after the other, and lists that are linked through
memory, where 0 is the null pointer.
-/

namespace Lib

/-! ## 1. Regions -/

structure Region where
  base : ℕ
  size : ℕ
deriving DecidableEq, Repr

namespace Region

variable {r s t u : Region}

/-- No address is in both. -/
def Disjoint (r s : Region) : Prop := r.base + r.size ≤ s.base ∨ s.base + s.size ≤ r.base

def Inside (r s : Region) : Prop := s.base ≤ r.base ∧ r.base + r.size ≤ s.base + s.size

theorem disjoint_mk {a n b k : ℕ} :
    (⟨a, n⟩ : Region).Disjoint ⟨b, k⟩ ↔ a + n ≤ b ∨ b + k ≤ a := Iff.rfl

theorem inside_mk {a n b k : ℕ} :
    (⟨a, n⟩ : Region).Inside ⟨b, k⟩ ↔ b ≤ a ∧ a + n ≤ b + k := Iff.rfl

theorem Disjoint.symm (h : r.Disjoint s) : s.Disjoint r := Or.symm h

theorem Disjoint.mono (h : r.Disjoint s) (ht : t.Inside r) (hu : u.Inside s) : t.Disjoint u := by
  unfold Disjoint Inside at *
  omega

theorem Inside.refl (r : Region) : r.Inside r := ⟨Nat.le_refl _, Nat.le_refl _⟩

theorem Inside.trans (h : r.Inside s) (h' : s.Inside t) : r.Inside t :=
  ⟨Nat.le_trans h'.1 h.1, Nat.le_trans h.2 h'.2⟩

theorem Disjoint.ne (h : r.Disjoint s) (hr : 0 < r.size) (hs : 0 < s.size) : r.base ≠ s.base := by
  unfold Disjoint at h
  omega

end Region

/-! ## 2. Blocks of one size -/

section Blocks

variable {base n size o : ℕ}

/-- `n` blocks of the given size, from `base` on. -/
def blocks (base n size : ℕ) : List Region := (List.range' base n size).map fun o ↦ ⟨o, size⟩

theorem mem_blocks {r : Region} (h : r ∈ blocks base n size) : r.Inside ⟨base, n * size⟩ := by
  obtain ⟨o, ho, rfl⟩ := List.mem_map.mp h
  obtain ⟨i, hi, rfl⟩ := List.mem_range'.mp ho
  have hmul : size * i + size ≤ n * size := by
    calc size * i + size = (i + 1) * size := by rw [Nat.add_mul, Nat.one_mul, Nat.mul_comm]
      _ ≤ n * size := Nat.mul_le_mul_right size hi
  constructor
  · show base ≤ base + size * i
    omega
  · show base + size * i + size ≤ base + n * size
    omega

theorem size_of_mem_blocks {r : Region} (h : r ∈ blocks base n size) : r.size = size := by
  obtain ⟨o, ho, rfl⟩ := List.mem_map.mp h
  rfl

theorem pairwise_blocks : (blocks base n size).Pairwise Region.Disjoint := by
  induction n generalizing base with
  | zero => exact List.Pairwise.nil
  | succ n ih =>
      rw [blocks, List.range'_succ, List.map_cons, List.pairwise_cons]
      refine ⟨fun r hr ↦ ?_, ih⟩
      exact .inl (mem_blocks hr).1

end Blocks

/-! ## 3. What regions and lists are made of -/

/-- Parts of disjoint regions. -/
theorem pairwise_parts {α : Type} {l : List α} {whole : α → Region} {parts : α → List Region}
    (h : (l.map whole).Pairwise Region.Disjoint)
    (hparts : ∀ a ∈ l, (parts a).Pairwise Region.Disjoint)
    (hin : ∀ a ∈ l, ∀ r ∈ parts a, r.Inside (whole a)) :
    (l.flatMap parts).Pairwise Region.Disjoint := by
  rw [List.pairwise_map] at h
  apply List.pairwise_flatMap.mpr
  constructor
  · exact hparts
  · apply h.imp_of_mem
    intro a b ha hb hab r hr s hs
    exact hab.mono (hin a ha r hr) (hin b hb s hs)

/-- One of the lists that are put together gets new elements in front. -/
theorem flatMap_update_perm {α β : Type} {f : ℕ → List α} {g : ℕ → α → β} {i : ℕ} {u : List α}
    {l : List ℕ} (hl : l.Nodup) (hi : i ∈ l) :
    (l.flatMap fun j ↦ (Function.update f i (u ++ f i) j).map (g j)).Perm
      (u.map (g i) ++ l.flatMap fun j ↦ (f j).map (g j)) := by
  induction l with
  | nil => cases hi
  | cons j l ih =>
      rw [List.nodup_cons] at hl
      rw [List.flatMap_cons, List.flatMap_cons]
      by_cases hj : j = i
      · -- the other lists are the same
        have hrest : (l.flatMap fun j ↦ (Function.update f i (u ++ f i) j).map (g j)) =
            l.flatMap fun j ↦ (f j).map (g j) := by
          apply List.flatMap_congr
          intro k hk
          have hki : k ≠ i := fun h ↦ hl.1 (hj ▸ h ▸ hk)
          rw [Function.update_of_ne hki]
        rw [hrest, hj, Function.update_self, List.map_append, List.append_assoc]
      · have hil : i ∈ l := (List.mem_cons.mp hi).resolve_left fun h ↦ hj h.symm
        rw [Function.update_of_ne hj]
        exact ((ih hl.2 hil).append_left _).trans (List.perm_append_comm_assoc _ _ _)

/-! ## 4. Linked lists -/

/-- From `head` the links lead through the nodes `l`, to null. -/
def Linked (next : ℕ → ℕ) : ℕ → List ℕ → Prop
  | head, [] => head = 0
  | head, o :: l => head = o ∧ o ≠ 0 ∧ Linked next (next o) l

section Linked

variable {next next' : ℕ → ℕ} {head o : ℕ} {l l' : List ℕ}

theorem Linked.congr (h : Linked next head l) (hnext : ∀ o ∈ l, next' o = next o) :
    Linked next' head l := by
  induction l generalizing head with
  | nil => exact h
  | cons o l ih =>
      obtain ⟨hhead, hne, hrest⟩ := h
      rw [List.forall_mem_cons] at hnext
      refine ⟨hhead, hne, ?_⟩
      rw [hnext.1]
      exact ih hrest hnext.2

theorem Linked.unique (h : Linked next head l) (h' : Linked next head l') : l = l' := by
  induction l generalizing head l' with
  | nil =>
      cases l' with
      | nil => rfl
      | cons o' l' => exact absurd (h'.1.symm.trans h) h'.2.1
  | cons o l ih =>
      cases l' with
      | nil => exact absurd (h.1.symm.trans h') h.2.1
      | cons o' l' =>
          have ho : o = o' := h.1.symm.trans h'.1
          subst ho
          rw [ih h.2.2 h'.2.2]

theorem Linked.drop {l₁ l₂ : List ℕ} (h : Linked next head (l₁ ++ o :: l₂)) :
    Linked next o (o :: l₂) := by
  induction l₁ generalizing head with
  | nil => exact ⟨rfl, h.2.1, h.2.2⟩
  | cons o' l₁ ih => exact ih h.2.2

/-- A linked list has no cycle. -/
theorem Linked.nodup (h : Linked next head l) : l.Nodup := by
  induction l generalizing head with
  | nil => exact List.nodup_nil
  | cons o l ih =>
      refine List.nodup_cons.mpr ⟨fun ho ↦ ?_, ih h.2.2⟩
      -- `o` would be followed by the rest of the list and by a part of it
      obtain ⟨l₁, l₂, hsplit⟩ := List.append_of_mem ho
      have hagain := h.2.2
      rw [hsplit] at hagain
      have heq := (show Linked next o (o :: l) from ⟨rfl, h.2.1, h.2.2⟩).unique hagain.drop
      have hlen := congrArg List.length (hsplit.symm.trans (List.cons.inj heq).2)
      rw [List.length_append, List.length_cons] at hlen
      omega

end Linked

end Lib
