import Fantuan.Common.DyArray
import Fantuan.Lib.Runs

/-!
# The size of a `DyArray` under bulk operations

`append` lets `resize` count the new elements where it has to grow, and counts them again.  From
then on `size()` exceeds `max_size()`; all other operations keep it in bounds.
-/

open Lib

namespace Fantuan

variable {T : Type} {N : ℕ}

inductive BulkOp (T : Type)
  | push_back (n : ℕ) (value : T)
  | erase (_where : ℕ)
  | erase_range (_first _last : ℕ)
  | clear
  | resize (newSize : ℕ)
  | assign (pData : List T)
  | append (pData : List T) (pos : ℕ)
  | copy (pData : List T)

/-- `size()` is no more than `max_size()`, which is the number of elements at `m_pHead`. -/
def DyArray.Sized (a : DyArray T N) : Prop :=
  a.m_iCount ≤ a.m_iMaxSize ∧ ∃ b, a.storage = some b ∧ b.length = a.m_iMaxSize

namespace BulkOp

def call [Scalar T] : BulkOp T → DyArray T N → Option (DyArray T N)
  | push_back n value, a => a.push_back_n n value
  | erase _where, a => a.erase _where
  | erase_range _first _last, a => a.erase_range _first _last
  | clear, a => a.clear
  | resize newSize, a => a.resize newSize
  | assign pData, a => a.assign pData pData.length
  | append pData pos, a => a.append pData pData.length pos
  | copy pData, a => a.copy pData pData.length

/-- Positions and ranges are those of elements of the array. -/
def Inside : BulkOp T → DyArray T N → Prop
  | erase _where, a => _where < a.m_iCount
  | erase_range _first _last, a => _first ≤ _last ∧ _last ≤ a.m_iCount
  | append _ pos, a => pos ≤ a.m_iCount
  | _, _ => True

/-- The size that a bulk operation leaves. -/
def Leaves : BulkOp T → DyArray T N → DyArray T N → Prop
  | assign pData, _, a' => a'.m_iCount = pData.length
  | append pData _, a, a' => a'.m_iCount = a.m_iCount + pData.length
  | copy pData, a, a' => a'.m_iCount = max a.m_iCount pData.length
  | _, _, _ => True

def Step [Scalar T] (a : DyArray T N) (op : BulkOp T) (a' : DyArray T N) : Prop :=
  op.Inside a ∧ op.call a = some a'

/-- The operation stays inside the storage and leaves the size it should leave. -/
def Right [Scalar T] (a : DyArray T N) (op : BulkOp T) : Prop :=
  op.Inside a → ∃ a', op.call a = some a' ∧ a'.Sized ∧ op.Leaves a a'

/-- An `append` does not come to the call of `resize`, unless there is nothing to append. -/
def Fits (a : DyArray T N) : BulkOp T → Prop
  | append pData pos =>
      pos ≤ a.m_iCount → pData.length = 0 ∨ pData.length + a.m_iCount < a.m_iMaxSize
  | _ => True

end BulkOp

open BulkOp

/-! ## 1. One operation -/

structure DyArray.Bounded (a : DyArray T N) : Prop where
  stores : ∃ b, a.Stores b
  le : a.m_iCount ≤ a.m_iMaxSize

namespace DyArray.Bounded

variable {a a' : DyArray T N}

theorem sized (h : a.Bounded) : a.Sized := by
  cases h.stores with
  | intro b hb => exact ⟨h.le, b, hb.storage, hb.length⟩

-- An `append` that has to grow leaves too large a size, every other operation does what it
-- should.
theorem call [Scalar T] (h : a.Bounded) {op : BulkOp T} (hop : op.Inside a) :
    ∃ a', op.call a = some a' ∧ (∃ b', a'.Stores b') ∧
      (Fits a op → a'.m_iCount ≤ a'.m_iMaxSize ∧ op.Leaves a a') ∧
      (op.Leaves a a' → Fits a op) := by
  have hle := h.le
  obtain ⟨b, hb⟩ := h.stores
  cases op with
  | push_back n value =>
      obtain ⟨a', b', hcall, hb', hcount, hmax, -⟩ := hb.push_back_n (.inr hle) value
      exact ⟨a', hcall, ⟨b', hb'⟩, fun _ ↦ ⟨by omega, trivial⟩, fun _ ↦ trivial⟩
  | erase _where =>
      obtain ⟨a', b', hcall, hb', hcount, hmax, -⟩ := hb.erase hop hle
      exact ⟨a', hcall, ⟨b', hb'⟩, fun _ ↦ ⟨by omega, trivial⟩, fun _ ↦ trivial⟩
  | erase_range _first _last =>
      obtain ⟨a', b', hcall, hb', hcount, hmax, -⟩ := hb.erase_range hop.1 hop.2 hle
      exact ⟨a', hcall, ⟨b', hb'⟩, fun _ ↦ ⟨by omega, trivial⟩, fun _ ↦ trivial⟩
  | clear =>
      obtain ⟨a', b', hcall, hb', hcount, hmax, -⟩ :=
        hb.erase_range (Nat.zero_le a.m_iCount) (Nat.le_refl _) hle
      exact ⟨a', hcall, ⟨b', hb'⟩, fun _ ↦ ⟨by omega, trivial⟩, fun _ ↦ trivial⟩
  | resize newSize =>
      obtain ⟨a', b', hcall, hb', hcount, hmax, -⟩ := hb.resize newSize
      refine ⟨a', hcall, ⟨b', hb'⟩, fun _ ↦ ⟨?_, trivial⟩, fun _ ↦ trivial⟩
      rw [hcount, hmax]
      split <;> omega
  | assign pData =>
      obtain ⟨a', b', hcall, hb', hcount, hmax, -⟩ :=
        hb.assign (Nat.le_refl pData.length) (by omega)
      exact ⟨a', hcall, ⟨b', hb'⟩, fun _ ↦ ⟨by omega, hcount⟩, fun _ ↦ trivial⟩
  | append pData pos =>
      have hpos : pos ≤ min a.m_iCount a.m_iMaxSize := Nat.le_min.mpr ⟨hop, Nat.le_trans hop hle⟩
      obtain ⟨a', b', hcall, hb', hcount, hmax, -⟩ := hb.append (Nat.le_refl pData.length) hpos
      refine ⟨a', hcall, ⟨b', hb'⟩, fun hfits ↦ ?_, fun hleaves _ ↦ ?_⟩
      · -- without a call of `resize`, or with nothing to append, the elements are counted once
        have hfit := hfits hop
        have hleaves : a'.m_iCount = a.m_iCount + pData.length := by
          rw [hcount]
          split <;> omega
        refine ⟨?_, hleaves⟩
        rw [hleaves, hmax]
        split <;> omega
      · -- a call of `resize` would have counted them, too
        have hsize : a'.m_iCount = a.m_iCount + pData.length := hleaves
        rw [hcount] at hsize
        split at hsize <;> omega
  | copy pData =>
      obtain ⟨a', b', hcall, hb', hcount, hmax, -⟩ := hb.copy (Nat.le_refl pData.length) (by omega)
      have hleaves : a'.m_iCount = max a.m_iCount pData.length := by
        rw [hcount]
        split <;> omega
      exact ⟨a', hcall, ⟨b', hb'⟩, fun _ ↦ ⟨by omega, hleaves⟩, fun _ ↦ trivial⟩

theorem right_iff [Scalar T] (h : a.Bounded) (op : BulkOp T) : Right a op ↔ Fits a op := by
  by_cases hop : op.Inside a
  · constructor
    · intro hright
      obtain ⟨a', hcall, -, -, hfits⟩ := h.call hop
      obtain ⟨a'', hcall', -, hleaves⟩ := hright hop
      cases Option.some.inj (hcall.symm.trans hcall')
      exact hfits hleaves
    · intro hfits _
      obtain ⟨a', hcall, hstores, hok, -⟩ := h.call hop
      have hok' := hok hfits
      exact ⟨a', hcall, sized ⟨hstores, hok'.1⟩, hok'.2⟩
  · -- an operation on a position that is not there is never made
    refine ⟨fun _ ↦ ?_, fun _ hop' ↦ absurd hop' hop⟩
    cases op with
    | append pData pos => exact fun hpos ↦ absurd hpos hop
    | _ => exact trivial

theorem step [Scalar T] (h : a.Bounded) {op : BulkOp T} (hright : Right a op)
    (hstep : Step a op a') : a'.Bounded := by
  obtain ⟨a'', hcall, hstores, -⟩ := h.call hstep.1
  obtain ⟨a₃, hcall', hsized, -⟩ := hright hstep.1
  cases Option.some.inj (hcall.symm.trans hstep.2)
  cases Option.some.inj (hcall'.symm.trans hcall)
  exact ⟨hstores, hsized.1⟩

end DyArray.Bounded

/-! ## 2. Sequences of operations -/

/-- **The size is right** after every operation of a sequence if and only if no `append` of the
sequence has to grow the array or fills it up. -/
theorem sizes_right_iff [Scalar T] (ops : List (BulkOp T)) :
    AllSteps Step (.new T N) Right ops ↔ AllSteps Step (.new T N) Fits ops :=
  allSteps_iff (I := DyArray.Bounded) ⟨⟨_, DyArray.stores_new⟩, Nat.zero_le N⟩
    (fun _ _ _ h hright hstep ↦ h.step hright hstep) fun _ op h ↦ h.right_iff op

/-- One element appended to an array with one cell: `size()` is 2 afterwards. -/
theorem not_sizes_right :
    ¬ AllSteps Step (.new UInt8 1) Right [BulkOp.append [7] 0] := by
  intro h
  have happend : Right (.new UInt8 1) (.append [7] 0) :=
    h [] _ _ (List.prefix_refl _) .nil
  obtain ⟨a, hcall, hsized, -⟩ := happend (Nat.le_refl 0)
  have hsize : ((BulkOp.append [7] 0).call (.new UInt8 1)).map
      (fun a ↦ decide (a.m_iCount ≤ a.m_iMaxSize)) = some false := by
    decide
  rw [hcall, Option.map_some, Option.some.injEq, decide_eq_false_iff_not] at hsize
  exact hsize hsized.1

end Fantuan
