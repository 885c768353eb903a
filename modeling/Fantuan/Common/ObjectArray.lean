import Fantuan.Common.DyArray
import Fantuan.Lib.Runs

/-!
# dy_array.h, ds_aux.h — `DyArray` of a class type

The branches that the template takes as for `TypeTraits<T>::isClass`.  A slot is raw, or an object
lives in it; objects are numbered as they are constructed.  A method has no result where it
constructs an object in a slot that is not raw, or reads or destroys one in a slot that is.
-/

open Lib

namespace Fantuan

abbrev Slots := Cells ℕ

structure ObjectArray (N : ℕ) extends DyArray ℕ N where
  constructed : ℕ
  destroyed : List ℕ

namespace ObjectArray

variable {N : ℕ} (a : ObjectArray N)

/-! ## 1. The methods -/

/-- The constructor leaves the slots raw. -/
def new (N : ℕ) : ObjectArray N where
  m_Elements := List.replicate N none
  m_pDynamicElements := none
  m_pHead := .m_Elements
  m_iMaxSize := N
  m_iCount := 0
  constructed := 0
  destroyed := []

/-- The object in a slot. -/
def objectAt (b : Slots) (i : ℕ) : Option ℕ := b[i]?.join

def constructAt (b : Slots) (i id : ℕ) : Option Slots :=
  if b[i]? = some none then some (b.set i (some id)) else none

/-- `object_construct` in a slot at `m_pHead`, from an object elsewhere. -/
def object_construct (i : ℕ) : Option (ObjectArray N) :=
  (a.onHead fun b ↦ constructAt b i a.constructed).map fun a' ↦
    { a with toDyArray := a', constructed := a.constructed + 1 }

def object_destruct (i : ℕ) : Option (ObjectArray N) := do
  let b ← a.storage
  let id ← objectAt b i
  let a' ← a.onHead fun b ↦ some (b.set i none)
  some { a with toDyArray := a', destroyed := a.destroyed ++ [id] }

/-- `object_construct` in a slot at `m_pHead`, from the object in another one. -/
def object_construct_from (i k : ℕ) : Option (ObjectArray N) := do
  let b ← a.storage
  let _ ← objectAt b k
  a.object_construct i

/-- The loop of `object_fill_n`. -/
def object_fill_n (first : ℕ) : ℕ → ObjectArray N → Option (ObjectArray N)
  | 0, a => some a
  | count + 1, a => (a.object_construct first).bind (object_fill_n (first + 1) count)

/-- The loop of `_grow_n` over `m_Elements`, with the number of the next object. -/
def copyOld (src : Slots) (i : ℕ) : ℕ → Slots × ℕ → Option (Slots × ℕ)
  | 0, p => some p
  | count + 1, p => do
      let _ ← objectAt src i
      let pData ← constructAt p.1 i p.2
      copyOld src (i + 1) count (pData, p.2 + 1)

/-- The loop of `_grow_n` over `m_pDynamicElements`: construct, swap, destroy.  The swap exchanges
what the objects hold. -/
def swapOld (src : Slots) (i : ℕ) : ℕ → Slots × ℕ × List ℕ → Option (Slots × ℕ × List ℕ)
  | 0, p => some p
  | count + 1, p => do
      let pData ← constructAt p.1 i p.2.1
      let id ← objectAt src i
      swapOld src (i + 1) count (pData, p.2.1 + 1, p.2.2 ++ [id])

def _grow_n (n : ℕ) : Option (ObjectArray N) := do
  let iOldSize := a.m_iMaxSize
  let m_iMaxSize := a.m_iMaxSize + n
  let pData ← constructAt (List.replicate m_iMaxSize none) a.m_iCount a.constructed
  let p ← (match a.m_pDynamicElements with
    | none => (copyOld a.m_Elements 0 iOldSize (pData, a.constructed + 1)).map fun p ↦
        (p.1, p.2, a.destroyed)
    | some src => swapOld src 0 iOldSize (pData, a.constructed + 1, a.destroyed))
  some { a with
    m_pDynamicElements := some p.1, m_pHead := .m_pDynamicElements, m_iMaxSize
    constructed := p.2.1, destroyed := p.2.2 }

def push_back_n (n : ℕ) : Option (ObjectArray N) := do
  let extra := if a.m_iMaxSize < a.m_iCount + n then a.m_iCount + n - a.m_iMaxSize else 0
  let a ← (if a.m_iCount < a.m_iMaxSize then
      object_fill_n a.m_iCount (a.m_iMaxSize - a.m_iCount) a
    else some a)
  let a ← (if extra ≠ 0 then a._grow_n extra else some a)
  some { a with m_iCount := a.m_iCount + n }

def push_back : Option (ObjectArray N) := a.push_back_n 1

/-- The loop of `erase(value)`: each object is constructed anew in the slot before its own. -/
def shift (it : ℕ) : ℕ → ObjectArray N → Option (ObjectArray N)
  | 0, a => some a
  | count + 1, a => (a.object_construct_from (it - 1) it).bind (shift (it + 1) count)

def erase (_where : ℕ) : Option (ObjectArray N) := do
  let a ← shift (_where + 1) (a.m_iCount - (_where + 1)) a
  let a ← a.object_destruct (a.m_iCount - 1)
  some { a with m_iCount := a.m_iCount - 1 }

/-- The loop of `erase(first, last)`. -/
def moveDown (_first _last : ℕ) : ℕ → ObjectArray N → Option (ObjectArray N)
  | 0, a => some a
  | count + 1, a => do
      let a ← a.object_construct_from _first _last
      let a ← a.object_destruct _last
      moveDown (_first + 1) (_last + 1) count a

def erase_range (_first _last : ℕ) : Option (ObjectArray N) :=
  if _last < _first ∨ a.m_iCount < _last then none
  else do
    let a ← moveDown _first _last (a.m_iCount - _last) a
    some { a with m_iCount := a.m_iCount - (_last - _first) }

def clear : Option (ObjectArray N) := a.erase_range 0 a.m_iCount

/-- The loop of `destroy`. -/
def destroy (_first : ℕ) : ℕ → ObjectArray N → Option (ObjectArray N)
  | 0, a => some a
  | count + 1, a => (a.object_destruct _first).bind (destroy (_first + 1) count)

/-- `~DyArray` destroys the objects in a dynamic block only. -/
def destructor : Option (ObjectArray N) :=
  if a.m_pDynamicElements = none then some a else destroy 0 a.m_iCount a

/-- The slots in which objects live are those at `m_pHead` below `size()`. -/
structure Exact : Prop where
  storage : ∃ b, a.storage = some b ∧ ∀ i, (objectAt b i).isSome ↔ i < a.m_iCount
  inline : a.m_pDynamicElements ≠ none → ∀ i, objectAt a.m_Elements i = none

end ObjectArray

inductive ObjectOp
  | push_back
  | erase (_where : ℕ)
  | erase_range (_first _last : ℕ)
  | clear

namespace ObjectOp

variable {N : ℕ}

def call : ObjectOp → ObjectArray N → Option (ObjectArray N)
  | push_back, a => a.push_back
  | erase _where, a => a.erase _where
  | erase_range _first _last, a => a.erase_range _first _last
  | clear, a => a.clear

/-- The position, or the range, is one of the array. -/
def Inside : ObjectOp → ObjectArray N → Prop
  | push_back, _ => True
  | erase _where, a => _where < a.m_iCount
  | erase_range _first _last, a => _first ≤ _last ∧ _last ≤ a.m_iCount
  | clear, _ => True

def Step (a : ObjectArray N) (op : ObjectOp) (a' : ObjectArray N) : Prop :=
  op.Inside a ∧ op.call a = some a'

/-- The operation constructs in raw slots only, reads and destroys objects that live, and leaves an
object in each slot below `size()` and in no other. -/
def Right (a : ObjectArray N) (op : ObjectOp) : Prop :=
  op.Inside a → ∃ a', op.call a = some a' ∧ a'.Exact

/-- `push_back` to an empty array with one inline slot, `erase` of one element, `erase` of the empty
range at the end, `clear` of an empty array. -/
def Fits (a : ObjectArray N) : ObjectOp → Prop
  | push_back => a.m_iCount = 0 ∧ N = 1
  | erase _ => True
  | erase_range _first _last =>
      _first ≤ _last ∧ _last ≤ a.m_iCount → _first = a.m_iCount ∧ _last = a.m_iCount
  | clear => a.m_iCount = 0

end ObjectOp

open ObjectOp

namespace ObjectArray

/-! ## 2. The arrays that stay balanced -/

variable {N k : ℕ} {a a' : ObjectArray N}

/-- No object is in the array, and those that were have been destroyed. -/
def empty (N k : ℕ) : ObjectArray N := { new N with constructed := k, destroyed := List.range k }

/-- The one inline slot holds the last object constructed. -/
def one (k : ℕ) : ObjectArray 1 where
  m_Elements := [some k]
  m_pDynamicElements := none
  m_pHead := .m_Elements
  m_iMaxSize := 1
  m_iCount := 1
  constructed := k + 1
  destroyed := List.range k

inductive Good : (N : ℕ) → ObjectArray N → Prop
  | empty (N k : ℕ) : Good N (empty N k)
  | one (k : ℕ) : Good 1 (one k)

theorem objectAt_replicate (n i : ℕ) : objectAt (List.replicate n none) i = none := by
  rw [objectAt, List.getElem?_replicate]
  split <;> rfl

theorem Good.exact (h : Good N a) : a.Exact := by
  cases h with
  | empty N k =>
      refine ⟨⟨_, rfl, fun i ↦ ?_⟩, fun hdyn ↦ absurd rfl hdyn⟩
      show (objectAt (List.replicate N none) i).isSome ↔ _
      rw [objectAt_replicate]
      exact iff_of_false Bool.false_ne_true (Nat.not_lt_zero i)
  | one k =>
      refine ⟨⟨_, rfl, fun i ↦ ?_⟩, fun hdyn ↦ absurd rfl hdyn⟩
      cases i with
      | zero => exact iff_of_true rfl Nat.one_pos
      | succ i => exact iff_of_false Bool.false_ne_true (Nat.not_lt.mpr (Nat.le_add_left 1 i))

theorem Exact.live_iff (h : a.Exact) (hhead : a.m_pHead = .m_Elements) (i : ℕ) :
    (objectAt a.m_Elements i).isSome ↔ i < a.m_iCount := by
  obtain ⟨b, hb, hlive⟩ := h.storage
  rw [DyArray.storage, hhead, Option.some.injEq] at hb
  rw [hb]
  exact hlive i

theorem push_back_empty : (empty 1 k).push_back = some (one k) := rfl

theorem erase_one : (one k).erase 0 = some (empty 1 (k + 1)) := by
  rw [empty, List.range_succ]
  rfl

theorem erase_range_empty : (empty N k).erase_range 0 0 = some (empty N k) := rfl

theorem erase_range_end : (one k).erase_range 1 1 = some (one k) := rfl

/-! ## 3. What goes wrong -/

-- An object is constructed over one that lives.
theorem erase_range_begin : (one k).erase_range 0 0 = none := rfl

-- The last object is not destroyed.
theorem erase_range_all : (one k).erase_range 0 1 = some { one k with m_iCount := 0 } := rfl

theorem not_exact_of_all : ¬ ({ one k with m_iCount := 0 } : ObjectArray 1).Exact := by
  intro h
  have hlt := (h.live_iff rfl 0).mp rfl
  exact absurd hlt (Nat.lt_irrefl 0)

-- The inline object stays where it was.
theorem push_back_one : ∃ a, (one k).push_back = some a ∧ ¬ a.Exact := by
  refine ⟨_, rfl, fun h ↦ ?_⟩
  have hinline := h.inline (Option.some_ne_none _) 0
  cases hinline

theorem object_construct_spec {i : ℕ} (h : a.object_construct i = some a')
    (hhead : a.m_pHead = .m_Elements) :
    a'.m_pHead = .m_Elements ∧ a'.m_iCount = a.m_iCount ∧
      ∀ j, j = i ∨ (objectAt a.m_Elements j).isSome → (objectAt a'.m_Elements j).isSome := by
  simp only [object_construct, DyArray.onHead, hhead, constructAt] at h
  split at h
  · rename_i hraw
    simp only [Option.map_some, Option.some.injEq] at h
    subst h
    refine ⟨rfl, rfl, fun j hj ↦ ?_⟩
    show (objectAt (a.m_Elements.set i (some a.constructed)) j).isSome
    by_cases hij : j = i
    · have hlt := (List.getElem?_eq_some_iff.mp hraw).1
      rw [hij, objectAt, List.getElem?_set_self hlt]
      rfl
    · rw [objectAt, List.getElem?_set_ne (Ne.symm hij)]
      exact hj.resolve_left hij
  · cases h

-- The spare slots are filled.
theorem fill_spec {first count : ℕ} (h : object_fill_n first count a = some a')
    (hhead : a.m_pHead = .m_Elements) :
    a'.m_pHead = .m_Elements ∧ a'.m_iCount = a.m_iCount ∧
      ∀ j, first ≤ j ∧ j < first + count ∨ (objectAt a.m_Elements j).isSome →
        (objectAt a'.m_Elements j).isSome := by
  induction count generalizing first a with
  | zero =>
      rw [object_fill_n, Option.some.injEq] at h
      subst h
      refine ⟨hhead, rfl, fun j hj ↦ ?_⟩
      obtain hrange | hlive := hj
      · omega
      · exact hlive
  | succ count ih =>
      rw [object_fill_n, Option.bind_eq_some_iff] at h
      obtain ⟨a₁, hconstruct, hfill⟩ := h
      have h₁ := object_construct_spec hconstruct hhead
      have h₂ := ih hfill h₁.1
      refine ⟨h₂.1, h₂.2.1.trans h₁.2.1, fun j hj ↦ h₂.2.2 j ?_⟩
      by_cases hlater : first + 1 ≤ j ∧ j < first + 1 + count
      · exact .inl hlater
      · refine .inr (h₁.2.2 j ?_)
        obtain hrange | hlive := hj
        · exact .inl (by omega)
        · exact .inr hlive

-- With two or more inline slots the first `push_back` fills them all.
theorem not_exact_push_back (hN : 2 ≤ N) (h : (empty N k).push_back = some a) : ¬ a.Exact := by
  have hroom : (empty N k).m_iCount < (empty N k).m_iMaxSize := Nat.lt_of_lt_of_le Nat.two_pos hN
  have hextra : ¬ (empty N k).m_iMaxSize < (empty N k).m_iCount + 1 :=
    Nat.not_lt.mpr (Nat.le_of_lt hN)
  simp only [push_back, push_back_n, if_pos hroom, if_neg hextra, ne_eq, not_true_eq_false,
    if_false, Option.bind_eq_bind, Option.bind_some, Option.bind_eq_some_iff,
    Option.some.injEq] at h
  obtain ⟨a₁, hfill, ha⟩ := h
  have hspec := fill_spec hfill rfl
  intro hexact
  have hhead : a.m_pHead = .m_Elements := ha ▸ hspec.1
  have hcount : a.m_iCount = 0 + 1 := ha ▸ congrArg (· + 1) hspec.2.1
  -- slot 1 is behind the one element
  have hlive : (objectAt a.m_Elements 1).isSome :=
    ha ▸ hspec.2.2 1 (.inl ⟨Nat.zero_le 1, by show 1 < 0 + (N - 0); omega⟩)
  have hlt := (hexact.live_iff hhead 1).mp hlive
  omega

/-! ## 4. One operation -/

-- The case split over both arrays and all operations, made once.
theorem Good.call (hN : 0 < N) (h : Good N a) {op : ObjectOp} (hin : op.Inside a) :
    (Fits a op ∧ ∃ a', op.call a = some a' ∧ Good N a') ∨
      (¬ Fits a op ∧ ∀ a', op.call a = some a' → ¬ a'.Exact) := by
  cases h with
  | empty N k =>
      cases op with
      | push_back =>
          by_cases hone : N = 1
          · subst hone
            exact .inl ⟨⟨rfl, rfl⟩, _, push_back_empty, .one k⟩
          · exact .inr ⟨fun hfits ↦ hone hfits.2,
              fun a' hcall ↦ not_exact_push_back (by omega) hcall⟩
      | erase _where => exact absurd hin (Nat.not_lt_zero _)
      | erase_range _first _last =>
          have hlast : _last = 0 := Nat.le_zero.mp hin.2
          have hfirst : _first = 0 := Nat.le_zero.mp (hlast ▸ hin.1)
          subst hfirst hlast
          exact .inl ⟨fun _ ↦ ⟨rfl, rfl⟩, _, erase_range_empty, .empty N k⟩
      | clear => exact .inl ⟨rfl, _, erase_range_empty, .empty N k⟩
  | one k =>
      cases op with
      | push_back =>
          refine .inr ⟨fun hfits ↦ Nat.one_ne_zero hfits.1, fun a' hcall ↦ ?_⟩
          obtain ⟨a'', hcall', hnot⟩ := push_back_one (k := k)
          cases Option.some.inj (hcall.symm.trans hcall')
          exact hnot
      | erase _where =>
          have hzero : _where = 0 := Nat.lt_one_iff.mp hin
          subst hzero
          exact .inl ⟨trivial, _, erase_one, .empty 1 (k + 1)⟩
      | erase_range _first _last =>
          have hle : _first ≤ _last ∧ _last ≤ 1 := hin
          -- the empty range at the end, the empty one at the beginning, and all of it
          have hcases : (_first = 1 ∧ _last = 1) ∨ (_first = 0 ∧ _last = 0) ∨
              (_first = 0 ∧ _last = 1) := by omega
          obtain ⟨hfirst, hlast⟩ | ⟨hfirst, hlast⟩ | ⟨hfirst, hlast⟩ := hcases
          · subst hfirst hlast
            exact .inl ⟨fun _ ↦ ⟨rfl, rfl⟩, _, erase_range_end, .one k⟩
          · subst hfirst hlast
            refine .inr ⟨fun hfits ↦ absurd (hfits hin).1 Nat.zero_ne_one, fun a' hcall ↦ ?_⟩
            cases erase_range_begin.symm.trans hcall
          · subst hfirst hlast
            refine .inr ⟨fun hfits ↦ absurd (hfits hin).1 Nat.zero_ne_one, fun a' hcall ↦ ?_⟩
            cases Option.some.inj (hcall.symm.trans erase_range_all)
            exact not_exact_of_all
      | clear =>
          refine .inr ⟨fun hfits ↦ absurd hfits Nat.one_ne_zero, fun a' hcall ↦ ?_⟩
          cases Option.some.inj (hcall.symm.trans erase_range_all)
          exact not_exact_of_all

theorem Good.right_iff (hN : 0 < N) (h : Good N a) (op : ObjectOp) : Right a op ↔ Fits a op := by
  by_cases hin : op.Inside a
  · constructor
    · intro hright
      obtain ⟨a', hcall, hexact⟩ := hright hin
      cases h.call hN hin with
      | inl hok => exact hok.1
      | inr hbad => exact absurd hexact (hbad.2 a' hcall)
    · intro hfits _
      cases h.call hN hin with
      | inl hok =>
          obtain ⟨-, a', hcall, ha'⟩ := hok
          exact ⟨a', hcall, ha'.exact⟩
      | inr hbad => exact absurd hfits hbad.1
  · -- such an operation is never made
    refine ⟨fun _ ↦ ?_, fun _ hin' ↦ absurd hin' hin⟩
    cases op with
    | push_back => exact absurd trivial hin
    | erase _where => trivial
    | erase_range _first _last => exact fun hin' ↦ absurd hin' hin
    | clear => exact absurd trivial hin

theorem Good.step (hN : 0 < N) (h : Good N a) {op : ObjectOp} (hfits : Fits a op)
    (hstep : Step a op a') : Good N a' := by
  cases h.call hN hstep.1 with
  | inl hok =>
      obtain ⟨-, a'', hcall, ha''⟩ := hok
      cases Option.some.inj (hcall.symm.trans hstep.2)
      exact ha''
  | inr hbad => exact absurd hfits hbad.1

/-- The destructor destroys each object that has not been destroyed yet. -/
def Released (a : ObjectArray N) : Prop :=
  ∃ a', a.destructor = some a' ∧ a'.destroyed.Perm (List.range a'.constructed)

theorem Good.released_iff (h : Good N a) : a.Released ↔ a.m_iCount = 0 := by
  cases h with
  | empty N k => exact ⟨fun _ ↦ rfl, fun _ ↦ ⟨_, rfl, List.Perm.refl _⟩⟩
  | one k =>
      constructor
      · intro hreleased
        obtain ⟨a', hcall, hperm⟩ := hreleased
        cases hcall
        have hlen := hperm.length_eq
        simp only [ObjectArray.one, List.length_range] at hlen
        omega
      · intro hcount
        exact absurd hcount Nat.one_ne_zero

/-! ## 5. Sequences of operations -/

/-- **Object lifetimes are balanced** over a sequence of operations and the destructor after it, if
and only if each `push_back` finds the array empty and one inline slot, no range is erased but the
empty one at the end, and the array is empty in the end. -/
theorem lifetimes_balanced_iff (hN : 0 < N) (ops : List ObjectOp) :
    (AllSteps Step (new N) Right ops ∧ ∀ a, Path Step (new N) ops a → a.Released) ↔
      AllSteps Step (new N) Fits ops ∧ ∀ a, Path Step (new N) ops a → a.m_iCount = 0 := by
  have hstart : Good N (new N) := .empty N 0
  have hkeep : ∀ a op a', Good N a → Fits a op → Step a op a' → Good N a' :=
    fun a op a' h hfits hstep ↦ h.step hN hfits hstep
  have hiff : AllSteps Step (new N) Right ops ↔ AllSteps Step (new N) Fits ops :=
    allSteps_iff (I := Good N) hstart
      (fun a op a' h hright hstep ↦ h.step hN ((h.right_iff hN op).mp hright) hstep)
      fun a op h ↦ h.right_iff hN op
  rw [hiff]
  refine and_congr_right fun hfits ↦ forall₂_congr fun a ha ↦ ?_
  exact (hfits.invariant hstart hkeep (List.prefix_refl _) ha).released_iff

/-- An object comes and goes in an array with one inline slot. -/
theorem lifetimes_balanced_one :
    AllSteps Step (new 1) Right [.push_back, .erase 0] ∧
      ∀ a, Path Step (new 1) [.push_back, .erase 0] a → a.Released := by
  apply (lifetimes_balanced_iff Nat.one_pos [.push_back, .erase 0]).mpr
  have hpush : ∀ a, Path Step (new 1) ([] ++ [.push_back]) a → a = one 0 := by
    intro a ha
    obtain ⟨u, hu, hstep⟩ := path_snoc.mp ha
    cases path_nil.mp hu
    cases hstep.2
    rfl
  have hone : AllSteps Step (new 1) Fits ([] ++ [.push_back]) := by
    refine AllSteps.snoc allSteps_nil fun a ha ↦ ?_
    cases path_nil.mp ha
    exact ⟨rfl, rfl⟩
  have htwo : AllSteps Step (new 1) Fits ([.push_back] ++ [.erase 0]) :=
    AllSteps.snoc hone fun _ _ ↦ trivial
  refine ⟨htwo, fun a ha ↦ ?_⟩
  have ha' : Path Step (new 1) ([.push_back] ++ [.erase 0]) a := ha
  obtain ⟨u, hu, hstep⟩ := path_snoc.mp ha'
  cases hpush u hu
  cases Option.some.inj (erase_one.symm.trans hstep.2)
  rfl

/-- Two elements in an array with one inline slot: the first one, moved to the dynamic block, is not
destroyed where it was. -/
theorem not_lifetimes_balanced : ¬ AllSteps Step (new 1) Right [.push_back, .push_back] := by
  intro h
  have hpath : Path Step (new 1) [.push_back] (one 0) := Path.nil.snoc ⟨trivial, rfl⟩
  have hright : Right (one 0) .push_back := h [.push_back] _ _ (List.prefix_refl _) hpath
  obtain ⟨a, hcall, hexact⟩ := hright trivial
  obtain ⟨a', hcall', hnot⟩ := push_back_one (k := 0)
  cases Option.some.inj (hcall.symm.trans hcall')
  exact hnot hexact

end ObjectArray

end Fantuan
