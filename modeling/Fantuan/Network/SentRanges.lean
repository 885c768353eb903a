import Fantuan.Network.PartialWrites

/-!
# The ranges of one message (Linux)

What `SendMessage(len, buffer)` passes to `send`, call after call, when the other thread leaves it
alone.  An `EINTR` or another error moves the cursor back by a byte, so that it stays inside the
message as long as no more calls have failed than bytes were accepted.
-/

open Lib

namespace Fantuan

/-! ## 1. What the outcomes add up to -/

namespace SendOutcome

/-- How many bytes the call has accepted. -/
def taken : SendOutcome → ℕ
  | accepted k => k
  | _ => 0

/-- The call has failed, and the loop treats -1 as a number of bytes. -/
def failed : SendOutcome → ℕ
  | EINTR => 1
  | error => 1
  | _ => 0

end SendOutcome

variable {o : ℕ → SendOutcome} {i j len : ℕ}

/-- How many bytes the first `i` calls have accepted. -/
def takenBefore (o : ℕ → SendOutcome) : ℕ → ℕ
  | 0 => 0
  | i + 1 => takenBefore o i + (o i).taken

/-- How many of the first `i` calls have failed. -/
def failedBefore (o : ℕ → SendOutcome) : ℕ → ℕ
  | 0 => 0
  | i + 1 => failedBefore o i + (o i).failed

/-- None of the first `i` calls ends the loop: an `EAGAIN`, a 0, or the end of the message. -/
def GoesOn (len : ℕ) (o : ℕ → SendOutcome) (i : ℕ) : Prop :=
  ∀ j < i, o j ≠ .EAGAIN ∧ o j ≠ .zero ∧ takenBefore o (j + 1) ≠ len + failedBefore o (j + 1)

/-- The message fits an `int32`, and when `send` is called no more calls have failed than bytes were
accepted. -/
def FailsBehind (len : ℕ) (o : ℕ → SendOutcome) : Prop :=
  len < 2 ^ 31 ∧ ∀ i, GoesOn len o i → failedBefore o i ≤ takenBefore o i

theorem goesOn_zero : GoesOn len o 0 := fun j hj ↦ absurd hj (Nat.not_lt_zero j)

theorem goesOn_succ :
    GoesOn len o (i + 1) ↔ GoesOn len o i ∧ o i ≠ .EAGAIN ∧ o i ≠ .zero ∧
      takenBefore o (i + 1) ≠ len + failedBefore o (i + 1) := by
  unfold GoesOn
  constructor
  · intro h
    exact ⟨fun j hj ↦ h j (Nat.lt_succ_of_lt hj), h i (Nat.lt_succ_self i)⟩
  · intro h j hj
    cases Nat.lt_or_eq_of_le (Nat.le_of_lt_succ hj) with
    | inl hlt => exact h.1 j hlt
    | inr heq => exact heq ▸ h.2

-- Errors for good.
theorem taken_of_errors (h : ∀ i, j ≤ i → o i = .error) (n : ℕ) :
    takenBefore o (j + n) = takenBefore o j ∧ failedBefore o (j + n) = failedBefore o j + n := by
  induction n with
  | zero => exact ⟨rfl, rfl⟩
  | succ n ih =>
      have herror : o (j + n) = .error := h _ (Nat.le_add_right j n)
      constructor
      · show takenBefore o (j + n) + (o (j + n)).taken = _
        rw [herror, ih.1]
        rfl
      · show failedBefore o (j + n) + (o (j + n)).failed = _
        rw [herror, ih.2]
        rfl

/-! ## 2. The calls of the loop -/

namespace Sender

variable {s t : Sender}

/-- The state in which the loop calls `send` after the first `i` calls, if it does. -/
def calls (s : Sender) (o : ℕ → SendOutcome) : ℕ → Option Sender
  | 0 => some s
  | i + 1 =>
      (calls s o i).bind fun t ↦
        match (t.SendMessage (o i)).command with
        | .sending => some (t.SendMessage (o i))
        | _ => none

/-- The range that `send` is given lies in the `len` bytes from `buffer` on. -/
def RangeInside (buffer : ℤ) (len : ℕ) (t : Sender) : Prop :=
  buffer ≤ t.buffer_ ∧ t.buffer_ + size_t t.len_ ≤ buffer + len

structure LoopRight (s : Sender) (len : ℕ) (o : ℕ → SendOutcome) : Prop where
  inside : ∀ i t, s.calls o i = some t → RangeInside s.buffer_ len t
  exits : ∀ j, (∀ i, j ≤ i → o i = .error) → ∃ i, s.calls o i = none

/-- Where the cursor is, and, as long as it is not in front of the message, what is left. -/
structure CursorAt (s : Sender) (len : ℕ) (o : ℕ → SendOutcome) (i : ℕ) (t : Sender) : Prop where
  command : t.command = .sending
  buffer_ : t.buffer_ = s.buffer_ + takenBefore o i - failedBefore o i
  len_ : failedBefore o i ≤ takenBefore o i →
    0 ≤ t.len_ ∧ t.len_ = len + failedBefore o i - takenBefore o i

theorem calls_succ_of_none (h : s.calls o i = none) : s.calls o (i + 1) = none := by
  rw [calls, h, Option.bind_none]

theorem calls_succ_of_sending (h : s.calls o i = some t)
    (hc : (t.SendMessage (o i)).command = .sending) :
    s.calls o (i + 1) = some (t.SendMessage (o i)) := by
  simp only [calls, h, Option.bind_some, hc]

theorem calls_succ_of_idle (h : s.calls o i = some t)
    (hc : (t.SendMessage (o i)).command = .idle) : s.calls o (i + 1) = none := by
  simp only [calls, h, Option.bind_some, hc]

-- A call that fails gives back a byte.
theorem written_failed (hc : t.command = .sending) (hlen : 0 ≤ t.len_) :
    (t.written (-1)).command = .sending ∧ (t.written (-1)).buffer_ = t.buffer_ - 1 ∧
      (t.len_ + 1 < 2 ^ 31 → (t.written (-1)).len_ = t.len_ + 1) := by
  have hne : ¬ (-1 : ℤ) = t.len_ := by omega
  unfold written
  rw [if_neg hne]
  refine ⟨hc, Int.add_neg_eq_sub, fun hlt ↦ ?_⟩
  show int32 (t.len_ - -1) = t.len_ + 1
  rw [Int.sub_neg, int32_of_lt (by omega) hlt]

-- A call that accepts a part of what is left, or all of it.
theorem written_accepted {k : ℕ} (hc : t.command = .sending) (hlen : 0 ≤ t.len_)
    (hlt : t.len_ < 2 ^ 31) (hk : (k : ℤ) ≤ t.len_) :
    ((k : ℤ) = t.len_ ∧ ((t.accept t.buffer_ k).written k).command = .idle) ∨
      ((k : ℤ) ≠ t.len_ ∧ ((t.accept t.buffer_ k).written k).command = .sending ∧
        ((t.accept t.buffer_ k).written k).buffer_ = t.buffer_ + k ∧
        ((t.accept t.buffer_ k).written k).len_ = t.len_ - k) := by
  have hrest : int32 (t.len_ - k) = t.len_ - k := int32_of_lt (by omega) (by omega)
  by_cases hall : (k : ℤ) = t.len_
  · have hdone : (t.accept t.buffer_ k).written k = _ := if_pos hall
    rw [hdone]
    exact .inl ⟨hall, rfl⟩
  · have hpart : (t.accept t.buffer_ k).written k = _ := if_neg hall
    rw [hpart]
    exact .inr ⟨hall, hc, rfl, hrest⟩

/-! ## 3. Where the cursor is -/

section Cursor

variable (hlen : len < 2 ^ 31) (ho : ∀ i t, s.calls o i = some t → (o i).Possible t.len_)
include hlen ho

-- One turn of the loop, from a cursor that is not in front of the message.
theorem cursorAt_succ (hgo : GoesOn len o i) (hcall : s.calls o i = some t)
    (ht : CursorAt s len o i t) (hle : failedBefore o i ≤ takenBefore o i) :
    (GoesOn len o (i + 1) ∧
        ∃ u, s.calls o (i + 1) = some u ∧ CursorAt s len o (i + 1) u) ∨
      (¬ GoesOn len o (i + 1) ∧ s.calls o (i + 1) = none) := by
  have hpossible := ho i t hcall
  obtain ⟨hpos, hrest⟩ := ht.len_ hle
  have hcursor := ht.buffer_
  have htaken : takenBefore o (i + 1) = takenBefore o i + (o i).taken := rfl
  have hfailed : failedBefore o (i + 1) = failedBefore o i + (o i).failed := rfl
  have herror : (o i).taken = 0 → (o i).failed = 1 → t.SendMessage (o i) = t.written (-1) →
      o i ≠ .EAGAIN → o i ≠ .zero → GoesOn len o (i + 1) ∧
        ∃ u, s.calls o (i + 1) = some u ∧ CursorAt s len o (i + 1) u := by
    intro hzero hone hturn hagain hclosed
    obtain ⟨hc, hback, hmore⟩ := written_failed ht.command hpos
    rw [hzero] at htaken
    rw [hone] at hfailed
    refine ⟨goesOn_succ.mpr ⟨hgo, hagain, hclosed, by omega⟩, _,
      calls_succ_of_sending hcall (hturn ▸ hc), ?_⟩
    rw [hturn]
    refine ⟨hc, by omega, fun hle' ↦ ?_⟩
    rw [hmore (by omega)]
    omega
  cases hoi : o i with
  | accepted k =>
      rw [hoi] at htaken hfailed hpossible
      have hmod : t.len_ % 2 ^ 64 = t.len_ := Int.emod_eq_of_lt hpos (by omega)
      have hk : (k : ℤ) ≤ t.len_ := hmod ▸ hpossible.2.1
      have htaken' : takenBefore o (i + 1) = takenBefore o i + k := htaken
      have hfailed' : failedBefore o (i + 1) = failedBefore o i := hfailed
      have hturn : t.SendMessage (o i) = (t.accept t.buffer_ k).written k := by
        rw [hoi]
        rfl
      cases written_accepted ht.command hpos (by omega) hk with
      | inl hdone =>
          refine .inr ⟨fun hgo' ↦ ?_, calls_succ_of_idle hcall (hturn ▸ hdone.2)⟩
          have hne := (goesOn_succ.mp hgo').2.2.2
          omega
      | inr hpart =>
          obtain ⟨hne, hc, hforward, hleft⟩ := hpart
          refine .inl ⟨goesOn_succ.mpr ⟨hgo, by simp [hoi], by simp [hoi], by omega⟩, _,
            calls_succ_of_sending hcall (hturn ▸ hc), ?_⟩
          rw [hturn]
          exact ⟨hc, by omega, fun _ ↦ by omega⟩
  | EAGAIN =>
      refine .inr ⟨fun hgo' ↦ (goesOn_succ.mp hgo').2.1 hoi, calls_succ_of_idle hcall ?_⟩
      rw [hoi]
      rfl
  | EINTR => exact .inl (herror (by rw [hoi]; rfl) (by rw [hoi]; rfl) (by rw [hoi]; rfl)
      (by simp [hoi]) (by simp [hoi]))
  | error => exact .inl (herror (by rw [hoi]; rfl) (by rw [hoi]; rfl) (by rw [hoi]; rfl)
      (by simp [hoi]) (by simp [hoi]))
  | zero =>
      refine .inr ⟨fun hgo' ↦ (goesOn_succ.mp hgo').2.2.1 hoi, calls_succ_of_idle hcall ?_⟩
      rw [hoi]
      rfl

-- The outcomes alone say whether `send` is called again, and with what.
theorem calls_spec (hs : s.Called len)
    (hbehind : ∀ j < i, GoesOn len o j → failedBefore o j ≤ takenBefore o j) :
    (GoesOn len o i ∧ ∃ t, s.calls o i = some t ∧ CursorAt s len o i t) ∨
      (¬ GoesOn len o i ∧ s.calls o i = none) := by
  induction i with
  | zero =>
      refine .inl ⟨goesOn_zero, s, rfl, hs.command, ?_, fun _ ↦ ?_⟩
      · show s.buffer_ = s.buffer_ + 0 - 0
        omega
      · rw [hs.len_, int32_of_lt (by omega) (by omega)]
        show 0 ≤ (len : ℤ) ∧ (len : ℤ) = len + 0 - 0
        omega
  | succ i ih =>
      cases ih fun j hj ↦ hbehind j (Nat.lt_succ_of_lt hj) with
      | inl hgo =>
          obtain ⟨hgo, t, hcall, ht⟩ := hgo
          exact cursorAt_succ hlen ho hgo hcall ht (hbehind i (Nat.lt_succ_self i) hgo)
      | inr hend =>
          exact .inr ⟨fun hgo ↦ hend.1 (goesOn_succ.mp hgo).1, calls_succ_of_none hend.2⟩

end Cursor

/-! ## 4. Ranges and exit -/

-- The cursor is not in front of the message exactly when the range is inside it.
theorem CursorAt.rangeInside_iff (h : CursorAt s len o i t) (hlen : len < 2 ^ 31) :
    RangeInside s.buffer_ len t ↔ failedBefore o i ≤ takenBefore o i := by
  have hcursor := h.buffer_
  constructor
  · intro hin
    have hfront := hin.1
    omega
  · intro hle
    obtain ⟨hpos, hrest⟩ := h.len_ hle
    obtain ⟨n, hn⟩ := Int.eq_ofNat_of_zero_le hpos
    have hsize : size_t t.len_ = n := by
      rw [hn]
      exact size_t_of_lt (by omega)
    unfold RangeInside
    omega

/-- **Every range is inside the message, and a dead socket ends the loop,** if and only if the
message is shorter than 2^31 bytes and, whenever `send` is called, no more calls have failed than
bytes were accepted. -/
theorem loopRight_iff (s : Sender) (len : ℕ) (hlen : len < 2 ^ 32) (hs : s.Called len)
    (o : ℕ → SendOutcome) (ho : ∀ i t, s.calls o i = some t → (o i).Possible t.len_) :
    s.LoopRight len o ↔ FailsBehind len o := by
  constructor
  · intro h
    have hshort : len < 2 ^ 31 := by
      -- a negative `len_` is a huge `size_t`
      by_contra hlong
      have hrange := (h.inside 0 s rfl).2
      rw [hs.len_, int32_of_le (by omega) (by omega)] at hrange
      unfold size_t at hrange
      omega
    refine ⟨hshort, fun i ↦ ?_⟩
    induction i using Nat.strongRecOn with
    | ind i ih =>
        intro hgo
        cases calls_spec hshort ho hs ih with
        | inl hcall =>
            obtain ⟨-, t, hcall, ht⟩ := hcall
            exact (ht.rangeInside_iff hshort).mp (h.inside i t hcall)
        | inr hend => exact absurd hgo hend.1
  · intro h
    have hspec := fun i ↦ calls_spec (i := i) h.1 ho hs fun j _ ↦ h.2 j
    constructor
    · intro i t hcall
      cases hspec i with
      | inl hgo =>
          obtain ⟨hgo, t', hcall', ht⟩ := hgo
          rw [hcall', Option.some.injEq] at hcall
          exact hcall ▸ (ht.rangeInside_iff h.1).mpr (h.2 i hgo)
      | inr hend =>
          rw [hend.2] at hcall
          exact nomatch hcall
    · intro j herrors
      -- after more errors than bytes were accepted before them
      have hsums := taken_of_errors herrors (takenBefore o j + 1)
      refine ⟨j + (takenBefore o j + 1), ?_⟩
      cases hspec (j + (takenBefore o j + 1)) with
      | inl hgo =>
          have hle := h.2 _ hgo.1
          omega
      | inr hend => exact hend.2

/-- One byte is accepted, the next call is interrupted, and then the socket is full. -/
def interrupted : ℕ → SendOutcome
  | 0 => .accepted 1
  | 1 => .EINTR
  | _ => .EAGAIN

/-- What the `EINTR` gives back is the byte that was accepted: the range is the message again. -/
theorem loopRight_interrupted : (atLoop [7, 8, 9]).LoopRight 3 interrupted := by
  have hcalled : (atLoop [7, 8, 9]).Called 3 := called_atLoop (l := [7, 8, 9]) (by decide)
  refine (loopRight_iff _ 3 (by decide) hcalled interrupted ?_).mpr ⟨by decide, ?_⟩
  · intro i t hcall
    cases i with
    | zero =>
        cases hcall
        decide
    | succ i => cases i <;> trivial
  · intro i hgo
    by_cases hi : 2 < i
    · exact absurd rfl (hgo 2 hi).1
    · have hcases : i = 0 ∨ i = 1 ∨ i = 2 := by omega
      obtain rfl | rfl | rfl := hcases
      · decide
      · decide
      · decide

/-- A dead socket: after the first error `send` is given the byte in front of the message. -/
theorem not_loopRight :
    (atLoop [7]).Called 1 ∧ ¬ (atLoop [7]).LoopRight 1 fun _ ↦ .error := by
  refine ⟨called_atLoop (l := [7]) (by decide), fun h ↦ ?_⟩
  have hrange := h.inside 1 _ rfl
  exact absurd hrange.1 (by decide)

end Sender

end Fantuan
