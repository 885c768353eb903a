import Fantuan.Common.DyArray
import Fantuan.Lib.Runs

/-!
# `DyArray` as a list

Under the operations on single elements a `DyArray` behaves as the list of its elements, whichever
of its two storages it uses and whatever stale values stand in its spare cells.
-/

open Lib

namespace Fantuan

variable {T : Type} {N : ℕ}

/-- The elements, `m_pHead[0..size())`. -/
def DyArray.elements (a : DyArray T N) : Option (Cells T) := a.storage.map (List.take a.m_iCount)

inductive ElementOp (T : Type)
  | push_back (value : T)
  | erase (_where : ℕ)
  | erase_range (_first _last : ℕ)
  | clear

namespace ElementOp

def call : ElementOp T → DyArray T N → Option (DyArray T N)
  | push_back value, a => a.push_back value
  | erase _where, a => a.erase _where
  | erase_range _first _last, a => a.erase_range _first _last
  | clear, a => a.clear

/-- What the operation does to a list. -/
def onList : ElementOp T → List T → List T
  | push_back value, l => l ++ [value]
  | erase _where, l => l.eraseIdx _where
  | erase_range _first _last, l => l.take _first ++ l.drop _last
  | clear, _ => []

/-- The position, or the range, is one of the list. -/
def Inside : ElementOp T → List T → Prop
  | push_back _, _ => True
  | erase _where, l => _where < l.length
  | erase_range _first _last, l => _first ≤ _last ∧ _last ≤ l.length
  | clear, _ => True

def ListStep (l : List T) (op : ElementOp T) (l' : List T) : Prop := op.Inside l ∧ l' = op.onList l

def ArrayStep (a : DyArray T N) (op : ElementOp T) (a' : DyArray T N) : Prop := op.call a = some a'

end ElementOp

open ElementOp

/-- The array holds the list `l`. -/
structure Represents (a : DyArray T N) (l : List T) : Prop where
  stores : ∃ b, a.Stores b ∧ b.take a.m_iCount = l.map some
  m_iCount : a.m_iCount = l.length
  le : a.m_iCount ≤ a.m_iMaxSize

namespace Represents

variable {a : DyArray T N} {l : List T}

theorem new [Zero T] : Represents (DyArray.new T N) [] :=
  ⟨⟨_, DyArray.stores_new, List.take_zero⟩, rfl, Nat.zero_le N⟩

theorem push_back (h : Represents a l) (value : T) :
    ∃ a', a.push_back value = some a' ∧ Represents a' (l ++ [value]) ∧
      a.m_iMaxSize ≤ a'.m_iMaxSize := by
  obtain ⟨b, hb, htake⟩ := h.stores
  obtain ⟨a', b', hpush, hb', hcount, hmax, htake'⟩ := hb.push_back h.le value
  refine ⟨a', hpush, ⟨⟨b', hb', ?_⟩, ?_, by omega⟩, by omega⟩
  · rw [hcount, htake', htake, List.map_append]
    rfl
  · rw [hcount, h.m_iCount, List.length_append]
    rfl

-- What an array holds whose elements are those of `a` but for the ones from `_first` to `_last`.
theorem of_cut {a' : DyArray T N} {b b' : Cells T} {_first _last : ℕ}
    (htake : b.take a.m_iCount = l.map some) (hcount : a.m_iCount = l.length)
    (hfirst : _first ≤ _last) (hlast : _last ≤ l.length) (hb' : a'.Stores b')
    (hcount' : a'.m_iCount = a.m_iCount - (_last - _first)) (hle' : a'.m_iCount ≤ a'.m_iMaxSize)
    (htake' : b'.take (a.m_iCount - (_last - _first)) =
      b.take _first ++ (b.drop _last).take (a.m_iCount - _last)) :
    Represents a' (l.take _first ++ l.drop _last) := by
  refine ⟨⟨b', hb', ?_⟩, ?_, hle'⟩
  · have hfront : b.take _first = (l.take _first).map some := by
      rw [List.map_take, ← htake, List.take_take, Nat.min_eq_left (by omega)]
    have hback : (b.drop _last).take (a.m_iCount - _last) = (l.drop _last).map some := by
      rw [List.map_drop, ← htake, List.drop_take]
    rw [hcount', htake', hfront, hback, List.map_append]
  · rw [List.length_append, List.length_take, List.length_drop]
    omega

theorem erase_range (h : Represents a l) {_first _last : ℕ} (hfirst : _first ≤ _last)
    (hlast : _last ≤ l.length) :
    ∃ a', a.erase_range _first _last = some a' ∧
      Represents a' (l.take _first ++ l.drop _last) ∧ a'.m_iMaxSize = a.m_iMaxSize := by
  have hle := h.le
  have hcount := h.m_iCount
  obtain ⟨b, hb, htake⟩ := h.stores
  obtain ⟨a', b', herase, hb', hcount', hmax, htake'⟩ :=
    hb.erase_range hfirst (by omega) hle
  exact ⟨a', herase, of_cut htake hcount hfirst hlast hb' hcount' (by omega) htake', hmax⟩

theorem erase (h : Represents a l) {_where : ℕ} (hwhere : _where < l.length) :
    ∃ a', a.erase _where = some a' ∧ Represents a' (l.eraseIdx _where) ∧
      a'.m_iMaxSize = a.m_iMaxSize := by
  have hle := h.le
  have hcount := h.m_iCount
  obtain ⟨b, hb, htake⟩ := h.stores
  have hin : _where < a.m_iCount := by omega
  obtain ⟨a', b', herase, hb', hcount', hmax, htake'⟩ := hb.erase hin hle
  have hone : a.m_iCount - 1 = a.m_iCount - (_where + 1 - _where) := by omega
  rw [hone] at hcount' htake'
  rw [List.eraseIdx_eq_take_drop_succ]
  exact ⟨a', herase,
    of_cut htake hcount (Nat.le_succ _where) hwhere hb' hcount' (by omega) htake', hmax⟩

theorem clear (h : Represents a l) :
    ∃ a', a.clear = some a' ∧ Represents a' [] ∧ a'.m_iMaxSize = a.m_iMaxSize := by
  have herase := h.erase_range (Nat.zero_le l.length) (Nat.le_refl _)
  rwa [List.take_zero, List.drop_length, ← h.m_iCount] at herase

section Iterator

variable {l₁ l₂ : List T} {v : T}

theorem get (h : Represents a (l₁ ++ v :: l₂)) : a.get l₁.length = some v := by
  obtain ⟨b, hb, htake⟩ := h.stores
  have hcount := h.m_iCount
  have hin : l₁.length < a.m_iCount := by
    rw [hcount, List.length_append, List.length_cons]
    omega
  have hcell : b[l₁.length]? = some (some v) := by
    rw [← List.getElem?_take_of_lt hin, htake, List.getElem?_map,
      List.getElem?_append_right (Nat.le_refl _), Nat.sub_self]
    rfl
  rw [hb.get, hcell]
  rfl

theorem set (h : Represents a (l₁ ++ v :: l₂)) (w : T) :
    ∃ a', a.set l₁.length w = some a' ∧ Represents a' (l₁ ++ w :: l₂) := by
  obtain ⟨b, hb, htake⟩ := h.stores
  have hcount := h.m_iCount
  have hle := h.le
  rw [List.length_append, List.length_cons] at hcount
  have hset := hb.set (by omega : l₁.length < a.m_iMaxSize) w
  refine ⟨_, hset.1, ⟨⟨_, hset.2, ?_⟩, ?_, ?_⟩⟩
  · rw [DyArray.put_m_iCount, List.take_set, htake, ← List.map_set,
      List.set_append_right _ _ (Nat.le_refl _), Nat.sub_self]
    rfl
  · rw [DyArray.put_m_iCount, List.length_append, List.length_cons, hcount]
  · rw [DyArray.put_m_iCount, DyArray.put_m_iMaxSize]
    exact hle

end Iterator

/-- **One operation** does to the array what it does to the list. -/
theorem step (h : Represents a l) {op : ElementOp T} (hop : op.Inside l) :
    ∃ a', op.call a = some a' ∧ Represents a' (op.onList l) ∧ a.m_iMaxSize ≤ a'.m_iMaxSize := by
  cases op with
  | push_back value => exact h.push_back value
  | erase _where =>
      obtain ⟨a', hcall, ha', hmax⟩ := h.erase hop
      exact ⟨a', hcall, ha', Nat.le_of_eq hmax.symm⟩
  | erase_range _first _last =>
      obtain ⟨a', hcall, ha', hmax⟩ := h.erase_range hop.1 hop.2
      exact ⟨a', hcall, ha', Nat.le_of_eq hmax.symm⟩
  | clear =>
      obtain ⟨a', hcall, ha', hmax⟩ := h.clear
      exact ⟨a', hcall, ha', Nat.le_of_eq hmax.symm⟩

end Represents

-- All operations of a list run succeed on the array, which never gets smaller.
theorem represents_of_path [Zero T] {ops : List (ElementOp T)} {l : List T}
    (h : Path ListStep [] ops l) :
    ∃ a : DyArray T N, Path ArrayStep (.new T N) ops a ∧ Represents a l ∧
      ∀ before a₀, before <+: ops → Path ArrayStep (.new T N) before a₀ →
        a₀.m_iMaxSize ≤ a.m_iMaxSize := by
  have hdet : ∀ (a : DyArray T N) op a' a'', ArrayStep a op a' → ArrayStep a op a'' → a' = a'' :=
    fun a op a' a'' h h' ↦ Option.some.inj (h.symm.trans h')
  induction h with
  | nil =>
      refine ⟨_, .nil, .new, fun before a₀ hpre h₀ ↦ ?_⟩
      rw [List.prefix_nil] at hpre
      subst hpre
      cases path_nil.mp h₀
      exact Nat.le_refl _
  | @snoc ops l l' op _ hstep ih =>
      obtain ⟨a, hpath, ha, hmono⟩ := ih
      obtain ⟨a', hcall, ha', hle⟩ := ha.step hstep.1
      rw [← hstep.2] at ha'
      refine ⟨a', hpath.snoc hcall, ha', fun before a₀ hpre h₀ ↦ ?_⟩
      rcases List.prefix_concat_iff.mp hpre with rfl | hpre'
      · exact Nat.le_of_eq (congrArg _ (h₀.unique (hpath.snoc hcall) hdet))
      · exact Nat.le_trans (hmono before a₀ hpre' h₀) hle

/-- **`DyArray` refines the list.**  For every sequence of operations whose positions and ranges
exist, the array's elements are those of the list, it has room for them at `m_pHead`, and its
`max_size()` has never been larger before. -/
theorem dyArray_refines_list [Zero T] (ops : List (ElementOp T)) (l : List T)
    (h : Path ListStep [] ops l) :
    ∃ a : DyArray T N, Path ArrayStep (.new T N) ops a ∧
      a.elements = some (l.map some) ∧ a.m_iCount = l.length ∧ a.m_iCount ≤ a.m_iMaxSize ∧
      (∃ b, a.storage = some b ∧ b.length = a.m_iMaxSize) ∧
      (a.m_pHead = .m_Elements ↔ a.m_pDynamicElements = none) ∧
      ∀ before a₀, before <+: ops → Path ArrayStep (.new T N) before a₀ →
        a₀.m_iMaxSize ≤ a.m_iMaxSize := by
  obtain ⟨a, hpath, ha, hmono⟩ := represents_of_path h
  obtain ⟨b, hb, htake⟩ := ha.stores
  refine ⟨a, hpath, ?_, ha.m_iCount, ha.le, ⟨b, hb.storage, hb.length⟩, hb.head, hmono⟩
  rw [DyArray.elements, hb.storage, Option.map_some, htake]

/-- Two elements in an array with one inline cell, of which the first is erased. -/
theorem dyArray_refines_list_three :
    ∃ a : DyArray UInt8 1,
      Path ArrayStep (.new UInt8 1) [.push_back 5, .push_back 7, .erase 0] a ∧
      a.elements = some [some 7] := by
  have h₁ : ListStep ([] : List UInt8) (.push_back 5) [5] := ⟨trivial, rfl⟩
  have h₂ : ListStep ([5] : List UInt8) (.push_back 7) [5, 7] := ⟨trivial, rfl⟩
  have h₃ : ListStep ([5, 7] : List UInt8) (.erase 0) [7] := ⟨Nat.zero_lt_two, rfl⟩
  have h := ((Path.nil.snoc h₁).snoc h₂).snoc h₃
  obtain ⟨a, hpath, helements, -⟩ := dyArray_refines_list (N := 1) _ _ h
  exact ⟨a, hpath, helements⟩

end Fantuan
