import Mathlib.Algebra.GroupWithZero.Nat
import Mathlib.Data.List.Basic

/-!
# Framing — cutting a stream into frames whose length stands at their front

A `Framing` reads the length of the next frame off the front of a stream, as soon as enough of the
frame's header is there.  `cut` removes complete frames from the front for as long as there are any;
`frames` are the frames it removed and `rest` is what it left.  Everything below holds for any
element type and any way of reading the length, as long as bytes that arrive later do not change a
length already read.
-/

namespace Lib

universe u

/-- A rule that reads the length of the frame at the front of a stream.  `none` means that the
header is not there yet. -/
structure Framing (α : Type u) where
  frameLen : List α → Option ℕ
  frameLen_append : ∀ {l : List α} {n : ℕ} (m : List α),
    frameLen l = some n → frameLen (l ++ m) = some n

namespace Framing

variable {α : Type u} (F : Framing α) {l m : List α} {n : ℕ}

/-- The length of the frame at the front of `l`, when that frame is complete and not empty. -/
def front (l : List α) : Option ℕ :=
  (F.frameLen l).bind fun n ↦ if 0 < n ∧ n ≤ l.length then some n else none

theorem front_eq_some :
    F.front l = some n ↔ F.frameLen l = some n ∧ 0 < n ∧ n ≤ l.length := by
  unfold front
  cases h : F.frameLen l with
  | none => simp
  | some k =>
      simp only [Option.bind_some, Option.some.injEq]
      split
      · rename_i hk
        constructor
        · intro he
          rw [Option.some.injEq] at he
          exact ⟨he, he ▸ hk⟩
        · rintro ⟨rfl, -⟩
          rfl
      · rename_i hk
        constructor
        · intro he
          cases he
        · rintro ⟨rfl, hk'⟩
          exact absurd hk' hk

theorem front_append (m : List α) (h : F.front l = some n) : F.front (l ++ m) = some n := by
  obtain ⟨hlen, hpos, hle⟩ := F.front_eq_some.mp h
  refine F.front_eq_some.mpr ⟨F.frameLen_append m hlen, hpos, ?_⟩
  rw [List.length_append]
  omega

theorem drop_length_lt (h : F.front l = some n) : (l.drop n).length < l.length := by
  obtain ⟨-, hpos, hle⟩ := F.front_eq_some.mp h
  rw [List.length_drop]
  omega

/-- Remove complete frames from the front of `l` until there is none: the frames, and what is
left. -/
def cut (l : List α) : List (List α) × List α :=
  match _h : F.front l with
  | some n => (l.take n :: (cut (l.drop n)).1, (cut (l.drop n)).2)
  | none => ([], l)
termination_by l.length
decreasing_by all_goals exact F.drop_length_lt _h

/-- The complete frames at the front of `l`, in order. -/
def frames (l : List α) : List (List α) := (F.cut l).1

/-- What remains of `l` once its complete frames are removed. -/
def rest (l : List α) : List α := (F.cut l).2

/-- The successive suffixes of `l` at whose front `cut` looks for a frame. -/
def fronts (l : List α) : List (List α) :=
  match _h : F.front l with
  | some n => l :: fronts (l.drop n)
  | none => [l]
termination_by l.length
decreasing_by exact F.drop_length_lt _h

/-- `P` holds of every suffix of `l` at whose front `cut` looks for a frame. -/
def Always (P : List α → Prop) (l : List α) : Prop := ∀ s ∈ F.fronts l, P s

/-- Cutting `l` ends at a frame of length 0, which can be removed any number of times. -/
def Stuck (l : List α) : Prop := F.frameLen (F.rest l) = some 0

/-- `f` is one frame: its header announces its own length. -/
def IsFrame (f : List α) : Prop := F.frameLen f = some f.length ∧ 0 < f.length

instance (P : List α → Prop) [DecidablePred P] : Decidable (F.Always P l) :=
  inferInstanceAs (Decidable (∀ s ∈ F.fronts l, P s))

instance : Decidable (F.Stuck l) :=
  inferInstanceAs (Decidable (F.frameLen (F.rest l) = some 0))

/-! ## 1. One step of cutting -/

theorem cut_of_front (h : F.front l = some n) :
    F.cut l = (l.take n :: F.frames (l.drop n), F.rest (l.drop n)) := by
  rw [cut]
  split
  · rename_i k hk
    rw [hk, Option.some.injEq] at h
    subst h
    rfl
  · rename_i hk
    rw [hk] at h
    cases h

theorem cut_of_front_none (h : F.front l = none) : F.cut l = ([], l) := by
  rw [cut]
  split
  · rename_i k hk
    rw [hk] at h
    cases h
  · rfl

theorem frames_of_front (h : F.front l = some n) :
    F.frames l = l.take n :: F.frames (l.drop n) := by
  rw [frames, F.cut_of_front h]

theorem frames_of_front_none (h : F.front l = none) : F.frames l = [] := by
  rw [frames, F.cut_of_front_none h]

theorem rest_of_front (h : F.front l = some n) : F.rest l = F.rest (l.drop n) := by
  rw [rest, F.cut_of_front h]

theorem rest_of_front_none (h : F.front l = none) : F.rest l = l := by
  rw [rest, F.cut_of_front_none h]

theorem fronts_of_front (h : F.front l = some n) : F.fronts l = l :: F.fronts (l.drop n) := by
  rw [fronts]
  split
  · rename_i k hk
    rw [hk, Option.some.injEq] at h
    subst h
    rfl
  · rename_i hk
    rw [hk] at h
    cases h

theorem fronts_of_front_none (h : F.front l = none) : F.fronts l = [l] := by
  rw [fronts]
  split
  · rename_i k hk
    rw [hk] at h
    cases h
  · rfl

/-- Induction along the cuts: a property holds of `l` if it holds where no frame is complete and
passes from what follows the first frame to the whole. -/
theorem cut_induction {C : List α → Prop}
    (stop : ∀ l, F.front l = none → C l)
    (skip : ∀ l n, F.front l = some n → C (l.drop n) → C l) (l : List α) : C l := by
  induction hk : l.length using Nat.strongRecOn generalizing l with
  | ind k ih =>
      -- a frame has at least one element, so that what follows it is shorter
      cases h : F.front l with
      | none => exact stop l h
      | some n => exact skip l n h (ih _ (hk ▸ F.drop_length_lt h) _ rfl)

/-! ## 2. What cutting keeps -/

/-- No element is lost or reordered: the frames followed by the rest are the stream. -/
theorem frames_flatten_append_rest (l : List α) : (F.frames l).flatten ++ F.rest l = l := by
  induction l using F.cut_induction with
  | stop l h => rw [F.frames_of_front_none h, F.rest_of_front_none h]; rfl
  | skip l n h ih =>
      rw [F.frames_of_front h, F.rest_of_front h, List.flatten_cons, List.append_assoc, ih,
        List.take_append_drop]

theorem length_rest_le (l : List α) : (F.rest l).length ≤ l.length := by
  have h := congrArg List.length (F.frames_flatten_append_rest l)
  rw [List.length_append] at h
  omega

/-- Cutting does not depend on how the stream is split into pieces: to cut `l ++ m` is to cut `l`,
and then what `l` left followed by `m`. -/
theorem cut_append (l m : List α) :
    F.cut (l ++ m) = (F.frames l ++ F.frames (F.rest l ++ m), F.rest (F.rest l ++ m)) := by
  induction l using F.cut_induction with
  | stop l h =>
      rw [F.frames_of_front_none h, F.rest_of_front_none h]
      rfl
  | skip l n h ih =>
      -- the first frame of `l` is the first one of `l ++ m`
      obtain ⟨-, -, hle⟩ := F.front_eq_some.mp h
      rw [F.cut_of_front (F.front_append m h), List.take_append_of_le_length hle,
        List.drop_append_of_le_length hle, F.frames_of_front h, F.rest_of_front h,
        frames, rest, ih, List.cons_append]

theorem frames_append (l m : List α) :
    F.frames (l ++ m) = F.frames l ++ F.frames (F.rest l ++ m) := by
  rw [frames, F.cut_append]

theorem rest_append (l m : List α) : F.rest (l ++ m) = F.rest (F.rest l ++ m) := by
  rw [rest, F.cut_append]

/-! ## 3. Properties of every front -/

theorem always_of_front {P : List α → Prop} (h : F.front l = some n) :
    F.Always P l ↔ P l ∧ F.Always P (l.drop n) := by
  simp only [Always, F.fronts_of_front h, List.forall_mem_cons]

theorem always_of_front_none {P : List α → Prop} (h : F.front l = none) :
    F.Always P l ↔ P l := by
  simp only [Always, F.fronts_of_front_none h, List.mem_singleton, forall_eq]

theorem Always.self {P : List α → Prop} (h : F.Always P l) : P l := by
  cases hf : F.front l with
  | none => exact (F.always_of_front_none hf).mp h
  | some n => exact ((F.always_of_front hf).mp h).1

theorem Always.rest {P : List α → Prop} (h : F.Always P l) : P (F.rest l) := by
  induction l using F.cut_induction with
  | stop l hf => rw [F.rest_of_front_none hf]; exact h.self
  | skip l n hf ih => rw [F.rest_of_front hf]; exact ih ((F.always_of_front hf).mp h).2

/-- Elements that are already there keep their property when more arrive. -/
theorem Always.left {P : List α → Prop} (hP : ∀ s t, P (s ++ t) → P s)
    (h : F.Always P (l ++ m)) : F.Always P l := by
  induction l using F.cut_induction with
  | stop l hf => exact (F.always_of_front_none hf).mpr (hP l m h.self)
  | skip l n hf ih =>
      obtain ⟨-, -, hle⟩ := F.front_eq_some.mp hf
      have h' := (F.always_of_front (F.front_append m hf)).mp h
      rw [List.drop_append_of_le_length hle] at h'
      exact (F.always_of_front hf).mpr ⟨hP l m h'.1, ih h'.2⟩

theorem Always.rest_append {P : List α → Prop} (h : F.Always P (l ++ m)) :
    F.Always P (F.rest l ++ m) := by
  induction l using F.cut_induction with
  | stop l hf => rwa [F.rest_of_front_none hf]
  | skip l n hf ih =>
      obtain ⟨-, -, hle⟩ := F.front_eq_some.mp hf
      have h' := ((F.always_of_front (F.front_append m hf)).mp h).2
      rw [List.drop_append_of_le_length hle] at h'
      rw [F.rest_of_front hf]
      exact ih h'

theorem stuck_of_front (h : F.front l = some n) : F.Stuck l ↔ F.Stuck (l.drop n) := by
  rw [Stuck, Stuck, F.rest_of_front h]

/-- A stream that is stuck stays stuck whatever arrives. -/
theorem Stuck.append (h : F.Stuck l) (m : List α) : F.Stuck (l ++ m) := by
  -- the header is there, so that it goes on to announce 0
  have hlen := F.frameLen_append m h
  have hfront : F.front (F.rest l ++ m) = none := by
    unfold front
    rw [hlen]
    rfl
  rw [Stuck, F.rest_append, F.rest_of_front_none hfront]
  exact hlen

theorem stuck_rest_append : F.Stuck (F.rest l ++ m) ↔ F.Stuck (l ++ m) := by
  rw [Stuck, Stuck, F.rest_append l m]

/-! ## 4. Streams made of whole frames -/

theorem IsFrame.front_append {f : List α} (h : F.IsFrame f) (m : List α) :
    F.front (f ++ m) = some f.length :=
  F.front_append m (F.front_eq_some.mpr ⟨h.1, h.2, Nat.le_refl _⟩)

/-- A frame is not complete before its last element is there. -/
theorem IsFrame.front_take {f : List α} (h : F.IsFrame f) {k : ℕ} (hk : k < f.length) :
    F.front (f.take k) = none := by
  cases hf : F.front (f.take k) with
  | none => rfl
  | some n =>
      -- what is announced is the length of `f`, which is not there
      have hf' := F.front_append (f.drop k) hf
      rw [List.take_append_drop] at hf'
      have hn := (F.front_eq_some.mp hf').1.symm.trans h.1
      have hle := (F.front_eq_some.mp hf).2.2
      rw [Option.some.injEq] at hn
      rw [List.length_take] at hle
      omega

/-- The items of a list that lie wholly within the first `n` elements of the stream they make, when
`size` is the number of elements of an item. -/
def within {β : Type*} (size : β → ℕ) : ℕ → List β → List β
  | _, [] => []
  | n, f :: fs => if size f ≤ n then f :: within size (n - size f) fs else []

theorem within_map {β γ : Type*} (size : γ → ℕ) (g : β → γ) (n : ℕ) (fs : List β) :
    within size n (fs.map g) = (within (fun f ↦ size (g f)) n fs).map g := by
  induction fs generalizing n with
  | nil => rfl
  | cons f fs ih =>
      rw [List.map_cons, within, within]
      split
      · rw [ih, List.map_cons]
      · rfl

theorem within_prefix {β : Type*} (size : β → ℕ) (n : ℕ) (fs : List β) :
    within size n fs <+: fs := by
  induction fs generalizing n with
  | nil => exact List.prefix_refl _
  | cons f fs ih =>
      rw [within]
      split
      · exact List.prefix_cons_inj f |>.mpr (ih _)
      · exact List.nil_prefix

/-- All of them, when there are enough elements for all. -/
theorem within_of_le {β : Type*} {size : β → ℕ} {n : ℕ} {fs : List β}
    (h : (fs.map size).sum ≤ n) : within size n fs = fs := by
  induction fs generalizing n with
  | nil => rfl
  | cons f fs ih =>
      rw [List.map_cons, List.sum_cons] at h
      rw [within, if_pos (by omega), ih (by omega)]

/-- Cutting the first `n` elements of a stream of whole frames gives exactly the frames that lie
wholly within them. -/
theorem frames_take_flatten {fs : List (List α)} (hfs : ∀ f ∈ fs, F.IsFrame f) (n : ℕ) :
    F.frames (fs.flatten.take n) = within List.length n fs := by
  induction fs generalizing n with
  | nil =>
      have h : F.front ([] : List α) = none := by
        cases hf : F.front ([] : List α) with
        | none => rfl
        | some k =>
            have := (F.front_eq_some.mp hf).2
            rw [List.length_nil] at this
            omega
      rw [List.flatten_nil, List.take_nil, F.frames_of_front_none h, within]
  | cons f fs ih =>
      have hf := hfs f (List.mem_cons_self ..)
      rw [List.flatten_cons, within, List.take_append]
      -- the first frame lies within the first `n` elements, or no frame does
      split
      · rename_i hle
        rw [List.take_of_length_le hle, F.frames_of_front (hf.front_append F _), List.take_left,
          List.drop_left, ih fun g hg ↦ hfs g (List.mem_cons_of_mem f hg)]
      · rename_i hlt
        rw [Nat.sub_eq_zero_of_le (by omega), List.take_zero, List.append_nil,
          F.frames_of_front_none (hf.front_take F (by omega))]

/-- What cutting leaves of a stream is what follows its frames. -/
theorem rest_eq_drop (l : List α) : F.rest l = l.drop (F.frames l).flatten.length := by
  have h := congrArg (List.drop (F.frames l).flatten.length) (F.frames_flatten_append_rest l)
  rwa [List.drop_left] at h

end Framing

end Lib
