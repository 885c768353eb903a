import Fantuan.Common
import Fantuan.Lib.Block

/-!
# dy_array.h, ds_aux.h — `DyArray` of a scalar type

The template with all branches taken as for `TypeTraits<T>::isScalar`.  An array owns two storages,
the inline `m_Elements` and, once it has grown, the block `*m_pDynamicElements`; `m_pHead` points to
one of them.  A cell is `none` as long as it has not been written since it was allocated.  A method
has no result where it reads or writes outside a storage, or reads memory that it has freed.
Allocations succeed, and iterators are offsets from `m_pHead`.
-/

open Lib

namespace Fantuan

/-- A scalar type, as far as `memset` looks at it: `clearBytes n v` is `v` with its first `n` bytes
set to 0. -/
class Scalar (T : Type) extends Zero T where
  sizeof : ℕ
  sizeof_pos : 0 < sizeof
  clearBytes : ℕ → T → T
  clearBytes_zero : ∀ v, clearBytes 0 v = v

/-- `char`. -/
instance : Scalar UInt8 where
  zero := 0
  sizeof := 1
  sizeof_pos := Nat.one_pos
  clearBytes k v := if k = 0 then v else 0
  clearBytes_zero _ := rfl

abbrev Cells (T : Type) := List (Option T)

/-- What `m_pHead` points to: one of the two storages, or memory that is not the array's. -/
inductive Head
  | m_Elements
  | m_pDynamicElements
  | elsewhere
deriving DecidableEq, Repr

/-- What a `const T&` refers to: an object that is not the array's, or the cell at `m_pHead` with
the index `it`.  It is read each time that it is used. -/
inductive ValueRef (T : Type)
  | object (value : T)
  | element (it : ℕ)
deriving DecidableEq

instance {T : Type} : Coe T (ValueRef T) := ⟨.object⟩

/-- What is read when the cells at `m_pHead` are `b`. -/
def ValueRef.read {T : Type} (b : Cells T) : ValueRef T → Option T
  | .object value => some value
  | .element it => b[it]?.join

namespace ValueRef

variable {T : Type} {b : Cells T} {first : ℕ} {v : T}

/-- The value is `v`, whatever is written from `first` on. -/
def Stable (value : ValueRef T) (b : Cells T) (first : ℕ) (v : T) : Prop :=
  ∀ b' : Cells T, b'.take first = b.take first → value.read b' = some v

theorem stable_object : (object v).Stable b first v := fun _ _ ↦ rfl

theorem stable_element {it : ℕ} (hit : it < first) (h : b[it]?.join = some v) :
    (element it).Stable b first v := by
  intro b' hb'
  have hcell := congrArg (fun l : Cells T ↦ l[it]?) hb'
  simp only [List.getElem?_take_of_lt hit] at hcell
  rw [read, hcell, h]

end ValueRef

structure DyArray (T : Type) (N : ℕ) where
  m_Elements : Cells T
  m_pDynamicElements : Option (Cells T)
  m_pHead : Head
  m_iMaxSize : ℕ
  m_iCount : ℕ
deriving DecidableEq

/-- The loop of `object_fill_n`. -/
def object_fill_n {T : Type} (value : ValueRef T) (first : ℕ) : ℕ → Cells T → Option (Cells T)
  | 0, b => some b
  | count + 1, b => do
      let v ← value.read b
      let b ← Block.write b first [some v]
      object_fill_n value (first + 1) count b

/-- `memset(b, 0, n)`, where `n` counts bytes. -/
def memset {T : Type} [Scalar T] (n : ℕ) (b : Cells T) : Option (Cells T) :=
  if n ≤ b.length * Scalar.sizeof T then
    some (b.mapIdx fun i cell ↦
      if (i + 1) * Scalar.sizeof T ≤ n then some 0
      else cell.map (Scalar.clearBytes (n - i * Scalar.sizeof T)))
  else none

namespace DyArray

variable {T : Type} {N : ℕ} (a : DyArray T N)

/-! ## 1. The methods -/

/-- The constructor. -/
def new (T : Type) (N : ℕ) [Zero T] : DyArray T N where
  m_Elements := List.replicate N (some 0)
  m_pDynamicElements := none
  m_pHead := .m_Elements
  m_iMaxSize := N
  m_iCount := 0

/-- The cells at `m_pHead`. -/
def storage : Option (Cells T) :=
  match a.m_pHead with
  | .m_Elements => some a.m_Elements
  | .m_pDynamicElements => a.m_pDynamicElements
  | .elsewhere => none

/-- Write to the cells at `m_pHead`. -/
def onHead (f : Cells T → Option (Cells T)) : Option (DyArray T N) :=
  match a.m_pHead with
  | .m_Elements => (f a.m_Elements).map fun b ↦ { a with m_Elements := b }
  | .m_pDynamicElements =>
      (a.m_pDynamicElements.bind f).map fun b ↦ { a with m_pDynamicElements := some b }
  | .elsewhere => none

/-- `*it`, to be read; the cell has to have been written before. -/
def get (it : ℕ) : Option T := a.storage.bind fun b ↦ b[it]?.join

/-- `*it = value`. -/
def set (it : ℕ) (value : T) : Option (DyArray T N) :=
  a.onHead fun b ↦ Block.write b it [some value]

def _insert_n (n : ℕ) (value : ValueRef T) : Option (DyArray T N) :=
  a.onHead (object_fill_n value a.m_iCount n)

/-- The cells that `_grow_n` moves to a new block. -/
def owned : Cells T :=
  match a.m_pDynamicElements with
  | none => a.m_Elements
  | some b => b

/-- What `_grow_n` reads, after it has freed the block at `m_pDynamicElements`. -/
def readGrown : ValueRef T → Option T
  | .object value => some value
  | .element it => if a.m_pHead = .m_Elements then a.m_Elements[it]?.join else none

def _grow_n (n : ℕ) (value : ValueRef T) : Option (DyArray T N) := do
  let iOldSize := a.m_iMaxSize
  let m_iMaxSize := a.m_iMaxSize + n
  let pData := List.replicate m_iMaxSize none
  let old ← Block.read a.owned 0 iOldSize
  let pData ← Block.write pData 0 old
  -- of the new cells only the one at `m_iCount` gets the value
  let v ← a.readGrown value
  let pData ← Block.write pData a.m_iCount [some v]
  some { a with m_pDynamicElements := some pData, m_pHead := .m_pDynamicElements, m_iMaxSize }

/-- `push_back(n, value)`. -/
def push_back_n (n : ℕ) (value : ValueRef T) : Option (DyArray T N) := do
  let extra := if a.m_iMaxSize < a.m_iCount + n then a.m_iCount + n - a.m_iMaxSize else 0
  let a ← (if a.m_iCount < a.m_iMaxSize then a._insert_n (a.m_iMaxSize - a.m_iCount) value
    else some a)
  let a ← (if extra ≠ 0 then a._grow_n extra value else some a)
  some { a with m_iCount := a.m_iCount + n }

def push_back (value : ValueRef T) : Option (DyArray T N) := a.push_back_n 1 value

/-- `erase(value)`; behind the elements the number of bytes to move is a negative one. -/
def erase (_where : ℕ) : Option (DyArray T N) :=
  if _where < a.m_iCount then do
    let a ← a.onHead fun b ↦ Block.move b _where (_where + 1) (a.m_iCount - _where - 1)
    some { a with m_iCount := a.m_iCount - 1 }
  else none

/-- `erase(first, last)`, which asserts that the range is one of the array. -/
def erase_range (_first _last : ℕ) : Option (DyArray T N) :=
  if _last < _first ∨ a.m_iCount < _last then none
  else do
    let _off := _last - _first
    let a ← a.onHead fun b ↦ Block.move b _first _last (a.m_iCount - _last)
    some { a with m_iCount := a.m_iCount - _off }

def clear : Option (DyArray T N) := a.erase_range 0 a.m_iCount

def resize [Zero T] (newSize : ℕ) : Option (DyArray T N) :=
  if newSize ≤ a.m_iCount then some { a with m_iCount := newSize }
  else a.push_back_n (newSize - a.m_iCount) (0 : T)

/-- Copy the first `len` elements of `pData` to offset `pos`. -/
def memcpy (pos : ℕ) (pData : List T) (len : ℕ) : Option (DyArray T N) := do
  let src ← Block.read pData 0 len
  a.onHead fun b ↦ Block.write b pos (src.map some)

def assign [Scalar T] (pData : List T) (len : ℕ) : Option (DyArray T N) := do
  let a ← (if a.m_iMaxSize ≤ len then a.resize len else some a)
  let a ← a.onHead (memset a.m_iMaxSize)
  let a ← a.memcpy 0 pData len
  some { a with m_iCount := len }

def append [Zero T] (pData : List T) (len pos : ℕ) : Option (DyArray T N) := do
  let a ← (if a.m_iMaxSize ≤ len + a.m_iCount then a.resize (len + a.m_iCount) else some a)
  let a ← a.memcpy pos pData len
  some { a with m_iCount := a.m_iCount + len }

def copy [Zero T] (pData : List T) (len : ℕ) : Option (DyArray T N) := do
  let a ← (if a.m_iMaxSize ≤ len then a.resize len else some a)
  let a ← a.memcpy 0 pData len
  some { a with m_iCount := if len < a.m_iCount then a.m_iCount else len }

/-! ## 2. Which storage is in use -/

/-- The array owns the storage `m_pHead` points to, which has room for `m_iMaxSize` elements and
holds `b`. -/
structure Stores (b : Cells T) : Prop where
  storage : a.storage = some b
  length : b.length = a.m_iMaxSize
  inline : a.m_Elements.length = N
  le : N ≤ a.m_iMaxSize
  head : a.m_pHead = .m_Elements ↔ a.m_pDynamicElements = none

/-- `b` in place of what is at `m_pHead`. -/
def put (b : Cells T) : DyArray T N :=
  match a.m_pHead with
  | .m_Elements => { a with m_Elements := b }
  | _ => { a with m_pDynamicElements := some b }

section Stores

variable {a} {b b' : Cells T} {n : ℕ} {value : ValueRef T} {v : T}

theorem stores_new [Zero T] : (new T N).Stores (List.replicate N (some 0)) :=
  ⟨rfl, List.length_replicate, List.length_replicate, Nat.le_refl N, fun _ ↦ rfl, fun _ ↦ rfl⟩

@[simp] theorem put_m_iMaxSize : (a.put b).m_iMaxSize = a.m_iMaxSize := by
  unfold put
  split <;> rfl

@[simp] theorem put_m_iCount : (a.put b).m_iCount = a.m_iCount := by
  unfold put
  split <;> rfl

@[simp] theorem put_m_pHead : (a.put b).m_pHead = a.m_pHead := by
  unfold put
  split <;> rfl

theorem onHead_eq (hs : a.storage = some b) (f : Cells T → Option (Cells T)) :
    a.onHead f = (f b).map a.put := by
  unfold storage at hs
  unfold onHead put
  split at hs
  · rename_i hhead
    rw [Option.some.injEq] at hs
    simp only [hhead, hs]
  · rename_i hhead
    simp only [hhead, hs, Option.bind_some]
  · cases hs

theorem storage_put (hs : a.storage = some b) : (a.put b').storage = some b' := by
  unfold storage at hs
  unfold put
  split at hs
  · rename_i hhead
    simp only [hhead, storage]
  · rename_i hhead
    simp only [hhead, storage]
  · cases hs

theorem owned_eq (hs : a.storage = some b)
    (hhead : a.m_pHead = .m_Elements ↔ a.m_pDynamicElements = none) : a.owned = b := by
  unfold storage at hs
  unfold owned
  cases hd : a.m_pDynamicElements with
  | none =>
      rw [hhead.mpr hd, Option.some.injEq] at hs
      exact hs
  | some c =>
      split at hs
      · rename_i hin
        rw [hhead.mp hin] at hd
        cases hd
      · rw [hs, Option.some.injEq] at hd
        exact hd.symm
      · cases hs

theorem get_eq (hs : a.storage = some b) (it : ℕ) : a.get it = b[it]?.join := by
  rw [get, hs, Option.bind_some]

namespace Stores

theorem count (h : a.Stores b) (m_iCount : ℕ) :
    ({ a with m_iCount := m_iCount } : DyArray T N).Stores b :=
  ⟨h.storage, h.length, h.inline, h.le, h.head⟩

theorem onHead_eq (h : a.Stores b) (f : Cells T → Option (Cells T)) :
    a.onHead f = (f b).map a.put :=
  DyArray.onHead_eq h.storage f

theorem put (h : a.Stores b) (hlen : b'.length = b.length) : (a.put b').Stores b' := by
  have hs := h.storage
  have hhead := h.head
  have hinline := h.inline
  unfold DyArray.storage at hs
  unfold DyArray.put
  split at hs
  · rename_i hinl
    rw [Option.some.injEq] at hs
    simp only [hinl]
    refine ⟨rfl, hlen.trans h.length, ?_, h.le, ?_⟩
    · rw [hlen, ← hs, hinline]
    · rw [hinl] at hhead
      exact hhead
  · rename_i hdyn
    simp only [hdyn]
    exact ⟨rfl, hlen.trans h.length, hinline, h.le, fun he ↦ (nomatch he), fun he ↦ (nomatch he)⟩
  · cases hs

theorem get (h : a.Stores b) (it : ℕ) : a.get it = b[it]?.join := get_eq h.storage it

theorem set (h : a.Stores b) {it : ℕ} (hit : it < a.m_iMaxSize) (value : T) :
    a.set it value = some (a.put (b.set it (some value))) ∧
      (a.put (b.set it (some value))).Stores (b.set it (some value)) := by
  have hlen := h.length
  have hin : it + [some value].length ≤ b.length := by
    rw [List.length_singleton]
    omega
  constructor
  · rw [DyArray.set, h.onHead_eq, Block.write_of_le hin, Block.patch_singleton (by omega),
      Option.map_some]
  · exact h.put List.length_set

theorem owned (h : a.Stores b) : a.owned = b := owned_eq h.storage h.head

end Stores

/-! ## 3. `push_back` -/

theorem object_fill_n_eq {first : ℕ} (h : first + n ≤ b.length) (hv : value.Stable b first v) :
    object_fill_n value first n b = some (Block.patch b first (List.replicate n (some v))) := by
  induction n generalizing first b with
  | zero => rw [List.replicate_zero, Block.patch_nil, object_fill_n]
  | succ n ih =>
      have hone : first + [some v].length ≤ b.length := by
        rw [List.length_singleton]
        omega
      have hnext : value.Stable (Block.patch b first [some v]) (first + 1) v := by
        intro b' hb'
        have htake := congrArg (List.take first) hb'
        rw [List.take_take, List.take_take, Nat.min_eq_left (Nat.le_succ first),
          Block.take_patch_of_le (Nat.le_refl _) (by omega)] at htake
        exact hv b' htake
      simp only [object_fill_n, hv b rfl, Block.write_of_le hone, Option.bind_eq_bind,
        Option.bind_some]
      rw [ih (by rw [Block.length_patch hone]; omega) hnext]
      exact congrArg some (Block.patch_patch hone)

-- `_insert_n` writes the value to the next `n` cells.
theorem _insert_n_eq (hs : a.storage = some b) (hn : a.m_iCount + n ≤ b.length)
    (hv : value.Stable b a.m_iCount v) :
    a._insert_n n value =
      some (a.put (Block.patch b a.m_iCount (List.replicate n (some v)))) := by
  rw [_insert_n, onHead_eq hs, object_fill_n_eq hn hv, Option.map_some]

theorem Stores._insert_n (h : a.Stores b) (hn : a.m_iCount + n ≤ a.m_iMaxSize) (v : T) :
    a._insert_n n v = some (a.put (Block.patch b a.m_iCount (List.replicate n (some v)))) :=
  _insert_n_eq h.storage (by rwa [h.length]) ValueRef.stable_object

-- `_grow_n` adds `n` cells, of which it writes the one at `m_iCount`.
theorem _grow_n_eq (hs : a.storage = some b)
    (hhead : a.m_pHead = .m_Elements ↔ a.m_pDynamicElements = none)
    (hlen : a.m_iMaxSize ≤ b.length) (hn : a.m_iCount < a.m_iMaxSize + n)
    (hv : a.readGrown value = some v) :
    a._grow_n n value = some { a with
      m_pDynamicElements :=
        some (Block.patch (b.take a.m_iMaxSize ++ List.replicate n none) a.m_iCount [some v])
      m_pHead := .m_pDynamicElements, m_iMaxSize := a.m_iMaxSize + n } := by
  have hread : Block.read a.owned 0 a.m_iMaxSize = some (b.take a.m_iMaxSize) := by
    rw [owned_eq hs hhead, Block.read_of_le (by omega), List.drop_zero]
  have hold : (b.take a.m_iMaxSize).length = a.m_iMaxSize := by
    rw [List.length_take, Nat.min_eq_left hlen]
  have hroom : 0 + (b.take a.m_iMaxSize).length ≤
      (List.replicate (a.m_iMaxSize + n) (none : Option T)).length := by
    rw [hold, List.length_replicate]
    omega
  have hpatch : Block.patch (List.replicate (a.m_iMaxSize + n) none) 0 (b.take a.m_iMaxSize) =
      b.take a.m_iMaxSize ++ List.replicate n none := by
    rw [Block.patch, List.take_zero, List.nil_append, Nat.zero_add, hold, List.drop_replicate,
      Nat.add_sub_cancel_left]
  have hcell : a.m_iCount + [some v].length ≤
      (b.take a.m_iMaxSize ++ List.replicate n none).length := by
    rw [List.length_append, hold, List.length_replicate, List.length_singleton]
    omega
  simp only [_grow_n, Option.bind_eq_bind, hread, Option.bind_some, Block.write_of_le hroom,
    hpatch, hv, Block.write_of_le hcell]

theorem Stores._grow_n (h : a.Stores b) (hn : a.m_iCount < a.m_iMaxSize + n) (v : T) :
    ∃ a', a._grow_n n v = some a' ∧
      a'.Stores (Block.patch (b ++ List.replicate n none) a.m_iCount [some v]) ∧
      a'.m_iMaxSize = a.m_iMaxSize + n ∧ a'.m_iCount = a.m_iCount := by
  have hlen := h.length
  have hcell : a.m_iCount + [some v].length ≤ (b ++ List.replicate n none).length := by
    rw [List.length_append, List.length_replicate, List.length_singleton]
    omega
  have hread : a.readGrown v = some v := rfl
  have hgrow := _grow_n_eq h.storage h.head (Nat.le_of_eq hlen.symm) hn hread
  rw [List.take_of_length_le (Nat.le_of_eq hlen)] at hgrow
  refine ⟨_, hgrow, ⟨rfl, ?_, h.inline, ?_, fun he ↦ (nomatch he), fun he ↦ (nomatch he)⟩,
    rfl, rfl⟩
  · rw [Block.length_patch hcell, List.length_append, List.length_replicate, hlen]
  · exact Nat.le_trans h.le (Nat.le_add_right _ _)

-- The spare cells are filled before the array grows.
theorem Stores.fill (h : a.Stores b) (v : T) :
    ∃ a' b', (if a.m_iCount < a.m_iMaxSize then a._insert_n (a.m_iMaxSize - a.m_iCount) v
        else some a) = some a' ∧ a'.Stores b' ∧ a'.m_iMaxSize = a.m_iMaxSize ∧
      a'.m_iCount = a.m_iCount ∧
      b'.take (min a.m_iCount a.m_iMaxSize) = b.take (min a.m_iCount a.m_iMaxSize) ∧
      (a.m_iCount < a.m_iMaxSize → b'[a.m_iCount]? = some (some v)) := by
  have hlen := h.length
  by_cases hlt : a.m_iCount < a.m_iMaxSize
  · have hroom : a.m_iCount + (List.replicate (a.m_iMaxSize - a.m_iCount) (some v)).length ≤
        b.length := by
      rw [List.length_replicate]
      omega
    rw [if_pos hlt, h._insert_n (by omega)]
    refine ⟨_, _, rfl, h.put (Block.length_patch hroom), put_m_iMaxSize, put_m_iCount, ?_,
      fun _ ↦ ?_⟩
    · exact Block.take_patch_of_le (Nat.min_le_left _ _) (by omega)
    · have hspare : a.m_iMaxSize - a.m_iCount = a.m_iMaxSize - a.m_iCount - 1 + 1 := by omega
      rw [hspare, List.replicate_succ]
      exact Block.getElem?_patch_cons (by omega)
  · rw [if_neg hlt]
    exact ⟨a, b, rfl, h, rfl, rfl, rfl, fun h' ↦ absurd h' hlt⟩

/-- **`push_back(n, value)`** leaves the elements as they are, makes room, and writes the value to
the first new one. -/
theorem Stores.push_back_n (h : a.Stores b) (hn : 0 < n ∨ a.m_iCount ≤ a.m_iMaxSize) (v : T) :
    ∃ a' b', a.push_back_n n v = some a' ∧ a'.Stores b' ∧
      a'.m_iCount = a.m_iCount + n ∧ a'.m_iMaxSize = max a.m_iMaxSize (a.m_iCount + n) ∧
      b'.take (min a.m_iCount a.m_iMaxSize) = b.take (min a.m_iCount a.m_iMaxSize) ∧
      (0 < n → b'[a.m_iCount]? = some (some v)) := by
  obtain ⟨a₁, b₁, hfill, h₁, hmax, hcount, htake, hget⟩ := h.fill v
  have hlen := h₁.length
  simp only [DyArray.push_back_n, hfill, Option.bind_eq_bind, Option.bind_some]
  by_cases hgrow : a.m_iMaxSize < a.m_iCount + n
  · have hextra : a.m_iCount + n - a.m_iMaxSize ≠ 0 := by omega
    obtain ⟨a₂, hgrow_n, h₂, hmax₂, hcount₂⟩ :=
      h₁._grow_n (n := a.m_iCount + n - a.m_iMaxSize) (by omega) v
    simp only [if_pos hgrow, if_pos hextra, hgrow_n, Option.bind_some]
    have hroom : a₁.m_iCount ≤
        (b₁ ++ List.replicate (a.m_iCount + n - a.m_iMaxSize) none).length := by
      rw [List.length_append, List.length_replicate]
      omega
    refine ⟨_, _, rfl, h₂.count _, ?_, ?_, ?_, fun _ ↦ ?_⟩
    · show a₂.m_iCount + n = _
      omega
    · show a₂.m_iMaxSize = _
      omega
    · rw [Block.take_patch_of_le (by omega) hroom, List.take_append_of_le_length (by omega), htake]
    · rw [hcount] at hroom ⊢
      exact Block.getElem?_patch_cons hroom
  · simp only [if_neg hgrow, ne_eq, not_true_eq_false, if_false, Option.bind_some]
    refine ⟨_, _, rfl, h₁.count _, ?_, ?_, htake, fun hpos ↦ hget (by omega)⟩
    · show a₁.m_iCount + n = _
      omega
    · show a₁.m_iMaxSize = _
      omega

theorem Stores.push_back (h : a.Stores b) (hle : a.m_iCount ≤ a.m_iMaxSize) (v : T) :
    ∃ a' b', a.push_back v = some a' ∧ a'.Stores b' ∧ a'.m_iCount = a.m_iCount + 1 ∧
      a'.m_iMaxSize = max a.m_iMaxSize (a.m_iCount + 1) ∧
      b'.take (a.m_iCount + 1) = b.take a.m_iCount ++ [some v] := by
  obtain ⟨a', b', hpush, h', hcount, hmax, htake, hget⟩ :=
    h.push_back_n (n := 1) (.inl Nat.one_pos) v
  rw [Nat.min_eq_left hle] at htake
  refine ⟨a', b', hpush, h', hcount, hmax, ?_⟩
  rw [List.take_add_one, htake, hget Nat.one_pos]
  rfl

/-! ## 4. `erase` -/

-- Moving the elements behind `_last` to `_first`.
theorem Stores.move (h : a.Stores b) {_first _last : ℕ} (hfirst : _first ≤ _last)
    (hlast : _last ≤ a.m_iCount) (hle : a.m_iCount ≤ a.m_iMaxSize) :
    ∃ b', a.onHead (fun b ↦ Block.move b _first _last (a.m_iCount - _last)) = some (a.put b') ∧
      (a.put b').Stores b' ∧
      b'.take (_first + (a.m_iCount - _last)) =
        b.take _first ++ (b.drop _last).take (a.m_iCount - _last) := by
  have hlen := h.length
  have hsrc : ((b.drop _last).take (a.m_iCount - _last)).length = a.m_iCount - _last := by
    rw [List.length_take, List.length_drop]
    omega
  refine ⟨Block.patch b _first ((b.drop _last).take (a.m_iCount - _last)), ?_, ?_, ?_⟩
  · rw [h.onHead_eq, Block.move_of_le (by omega) (by omega), Option.map_some]
  · exact h.put (Block.length_patch (by omega))
  · have htake := Block.take_patch ((b.drop _last).take (a.m_iCount - _last))
      (by omega : _first ≤ b.length)
    rwa [hsrc] at htake

theorem Stores.erase_range (h : a.Stores b) {_first _last : ℕ} (hfirst : _first ≤ _last)
    (hlast : _last ≤ a.m_iCount) (hle : a.m_iCount ≤ a.m_iMaxSize) :
    ∃ a' b', a.erase_range _first _last = some a' ∧ a'.Stores b' ∧
      a'.m_iCount = a.m_iCount - (_last - _first) ∧ a'.m_iMaxSize = a.m_iMaxSize ∧
      b'.take (a.m_iCount - (_last - _first)) =
        b.take _first ++ (b.drop _last).take (a.m_iCount - _last) := by
  obtain ⟨b', hmove, h', htake⟩ := h.move hfirst hlast hle
  have hcount : _first + (a.m_iCount - _last) = a.m_iCount - (_last - _first) := by omega
  rw [hcount] at htake
  refine ⟨{ a.put b' with m_iCount := (a.put b').m_iCount - (_last - _first) }, b', ?_, h'.count _,
    ?_, put_m_iMaxSize, htake⟩
  · simp only [DyArray.erase_range, if_neg (by omega : ¬ (_last < _first ∨ a.m_iCount < _last)),
      hmove, Option.bind_eq_bind, Option.bind_some]
  · show (a.put b').m_iCount - (_last - _first) = _
    rw [put_m_iCount]

theorem Stores.erase (h : a.Stores b) {_where : ℕ} (hwhere : _where < a.m_iCount)
    (hle : a.m_iCount ≤ a.m_iMaxSize) :
    ∃ a' b', a.erase _where = some a' ∧ a'.Stores b' ∧ a'.m_iCount = a.m_iCount - 1 ∧
      a'.m_iMaxSize = a.m_iMaxSize ∧
      b'.take (a.m_iCount - 1) =
        b.take _where ++ (b.drop (_where + 1)).take (a.m_iCount - (_where + 1)) := by
  obtain ⟨b', hmove, h', htake⟩ := h.move (Nat.le_succ _where) hwhere hle
  have hcount : _where + (a.m_iCount - (_where + 1)) = a.m_iCount - 1 := by omega
  rw [hcount] at htake
  rw [Nat.succ_eq_add_one, ← Nat.sub_sub] at hmove
  refine ⟨{ a.put b' with m_iCount := (a.put b').m_iCount - 1 }, b', ?_, h'.count _, ?_,
    put_m_iMaxSize, htake⟩
  · simp only [DyArray.erase, if_pos hwhere, hmove, Option.bind_eq_bind, Option.bind_some]
  · show (a.put b').m_iCount - 1 = _
    rw [put_m_iCount]

/-! ## 5. Bulk operations -/

theorem Stores.resize [Zero T] (h : a.Stores b) (newSize : ℕ) :
    ∃ a' b', a.resize newSize = some a' ∧ a'.Stores b' ∧ a'.m_iCount = newSize ∧
      a'.m_iMaxSize =
        (if newSize ≤ a.m_iCount then a.m_iMaxSize else max a.m_iMaxSize newSize) ∧
      b'.take (min a.m_iCount a.m_iMaxSize) = b.take (min a.m_iCount a.m_iMaxSize) := by
  unfold DyArray.resize
  by_cases hle : newSize ≤ a.m_iCount
  · rw [if_pos hle, if_pos hle]
    exact ⟨_, b, rfl, h.count newSize, rfl, rfl, rfl⟩
  · obtain ⟨a', b', hpush, h', hcount, hmax, htake, -⟩ :=
      h.push_back_n (n := newSize - a.m_iCount) (.inl (by omega)) 0
    rw [if_neg hle, if_neg hle]
    refine ⟨a', b', hpush, h', by omega, ?_, htake⟩
    rw [hmax]
    congr 1
    omega

theorem Stores.memcpy (h : a.Stores b) {pos len : ℕ} {pData : List T} (hdata : len ≤ pData.length) :
    a.memcpy pos pData len =
      (Block.write b pos ((pData.take len).map some)).map a.put := by
  have hread : Block.read pData 0 len = some (pData.take len) := by
    rw [Block.read_of_le (by omega), List.drop_zero]
  simp only [DyArray.memcpy, hread, Option.bind_eq_bind, Option.bind_some]
  exact h.onHead_eq _

theorem length_memset [Scalar T] (hn : n ≤ b.length) :
    ∃ b', memset n b = some b' ∧ b'.length = b.length := by
  have hpos := Scalar.sizeof_pos (T := T)
  have hroom : n ≤ b.length * Scalar.sizeof T := Nat.le_trans hn (Nat.le_mul_of_pos_right _ hpos)
  exact ⟨_, if_pos hroom, List.length_mapIdx⟩

-- `memset` clears the first element, if it comes to its last byte.
theorem take_memset [Scalar T] (h : memset n b = some b') (hn : Scalar.sizeof T ≤ n)
    (hb : 0 < b.length) : b'.take 1 = [some 0] := by
  unfold memset at h
  split at h
  · rw [Option.some.injEq] at h
    subst h
    cases b with
    | nil => exact absurd hb (Nat.lt_irrefl 0)
    | cons cell b =>
        rw [List.mapIdx_cons, Nat.zero_add, Nat.one_mul, if_pos hn]
        rfl
  · cases h

section Copies

variable {pData : List T} {len : ℕ}

-- `assign` and `copy` start by making room, which they do not do when `m_iCount` claims that the
-- room is there already.
theorem Stores.room [Zero T] (h : a.Stores b) (len : ℕ) :
    ∃ a' b', (if a.m_iMaxSize ≤ len then a.resize len else some a) = some a' ∧ a'.Stores b' ∧
      a'.m_iCount = (if a.m_iMaxSize ≤ len then len else a.m_iCount) ∧
      a'.m_iMaxSize = (if len ≤ a.m_iCount then a.m_iMaxSize else max a.m_iMaxSize len) := by
  by_cases hle : a.m_iMaxSize ≤ len
  · obtain ⟨a', b', hresize, h', hcount, hmax, -⟩ := h.resize len
    rw [if_pos hle, if_pos hle]
    exact ⟨a', b', hresize, h', hcount, hmax⟩
  · rw [if_neg hle, if_neg hle]
    refine ⟨a, b, rfl, h, rfl, ?_⟩
    split <;> omega

theorem Stores.write (h : a.Stores b) (hdata : len ≤ pData.length) (hroom : len ≤ a.m_iMaxSize) :
    ∃ b', a.memcpy 0 pData len = some (a.put b') ∧ (a.put b').Stores b' ∧
      b'.take len = (pData.take len).map some := by
  have hsrc : ((pData.take len).map some).length = len := by
    rw [List.length_map, List.length_take, Nat.min_eq_left hdata]
  have hin : 0 + ((pData.take len).map some).length ≤ b.length := by
    rw [hsrc, h.length]
    omega
  refine ⟨_, ?_, h.put (Block.length_patch hin), ?_⟩
  · rw [h.memcpy hdata, Block.write_of_le hin, Option.map_some]
  · have htake := Block.take_patch ((pData.take len).map some) (Nat.zero_le b.length)
    rwa [hsrc, Nat.zero_add, List.take_zero, List.nil_append] at htake

/-- **`assign`** writes its data, if it finds or makes room. -/
theorem Stores.assign [Scalar T] (h : a.Stores b) (hdata : len ≤ pData.length)
    (hroom : len ≤ a.m_iMaxSize ∨ a.m_iCount < len) :
    ∃ a' b', a.assign pData len = some a' ∧ a'.Stores b' ∧ a'.m_iCount = len ∧
      a'.m_iMaxSize = max a.m_iMaxSize len ∧ b'.take len = (pData.take len).map some := by
  obtain ⟨a₁, b₁, hresize, h₁, -, hmax⟩ := h.room len
  have hmax' : a₁.m_iMaxSize = max a.m_iMaxSize len := by
    rw [hmax]
    split <;> omega
  obtain ⟨b₂, hset, hlen⟩ := length_memset (n := a₁.m_iMaxSize) (Nat.le_of_eq h₁.length.symm)
  have h₂ := h₁.put hlen
  obtain ⟨b₃, hcopy, h₃, htake⟩ := h₂.write hdata (by rw [put_m_iMaxSize]; omega)
  refine ⟨_, b₃, ?_, h₃.count len, rfl, ?_, htake⟩
  · simp only [DyArray.assign, hresize, h₁.onHead_eq, hset, hcopy, Option.bind_eq_bind,
      Option.bind_some, Option.map_some]
  · show ((a₁.put b₂).put b₃).m_iMaxSize = _
    rw [put_m_iMaxSize, put_m_iMaxSize, hmax']

-- Without room `assign` and `copy` write behind the storage.
theorem Stores.no_room [Zero T] (h : a.Stores b) (hdata : len ≤ pData.length)
    (hlt : a.m_iMaxSize < len) : a.memcpy 0 pData len = none := by
  have hover : Block.write b 0 ((pData.take len).map some) = none := by
    have := h.length
    rw [Block.write_eq_none, List.length_map, List.length_take]
    omega
  rw [h.memcpy hdata, hover, Option.map_none]

theorem Stores.assign_eq_none [Scalar T] (h : a.Stores b) (hdata : len ≤ pData.length)
    (hlt : a.m_iMaxSize < len) (hle : len ≤ a.m_iCount) : a.assign pData len = none := by
  obtain ⟨a₁, b₁, hresize, h₁, -, hmax⟩ := h.room len
  rw [if_pos hle] at hmax
  obtain ⟨b₂, hset, hlen⟩ := length_memset (n := a₁.m_iMaxSize) (Nat.le_of_eq h₁.length.symm)
  have hover := (h₁.put hlen).no_room hdata (by rw [put_m_iMaxSize]; omega)
  simp only [DyArray.assign, hresize, h₁.onHead_eq, hset, hover, Option.bind_eq_bind,
    Option.bind_some, Option.map_some, Option.bind_none]

theorem Stores.copy_eq_none [Zero T] (h : a.Stores b) (hdata : len ≤ pData.length)
    (hlt : a.m_iMaxSize < len) (hle : len ≤ a.m_iCount) : a.copy pData len = none := by
  obtain ⟨a₁, b₁, hresize, h₁, -, hmax⟩ := h.room len
  rw [if_pos hle] at hmax
  have hover := h₁.no_room hdata (by omega)
  simp only [DyArray.copy, hresize, hover, Option.bind_eq_bind, Option.bind_some,
    Option.bind_none]

/-- **`copy`**. -/
theorem Stores.copy [Zero T] (h : a.Stores b) (hdata : len ≤ pData.length)
    (hroom : len ≤ a.m_iMaxSize ∨ a.m_iCount < len) :
    ∃ a' b', a.copy pData len = some a' ∧ a'.Stores b' ∧
      a'.m_iCount = (if a.m_iMaxSize ≤ len then len else max a.m_iCount len) ∧
      a'.m_iMaxSize = max a.m_iMaxSize len ∧ b'.take len = (pData.take len).map some := by
  obtain ⟨a₁, b₁, hresize, h₁, hcount, hmax⟩ := h.room len
  have hmax' : a₁.m_iMaxSize = max a.m_iMaxSize len := by
    rw [hmax]
    split <;> omega
  obtain ⟨b₂, hcopy, h₂, htake⟩ := h₁.write hdata (by omega)
  refine ⟨{ a₁.put b₂ with
      m_iCount := if len < (a₁.put b₂).m_iCount then (a₁.put b₂).m_iCount else len },
    b₂, ?_, h₂.count _, ?_, ?_, htake⟩
  · simp only [DyArray.copy, hresize, hcopy, Option.bind_eq_bind, Option.bind_some]
  · show (if len < (a₁.put b₂).m_iCount then (a₁.put b₂).m_iCount else len) = _
    rw [put_m_iCount, hcount]
    split <;> split <;> omega
  · show (a₁.put b₂).m_iMaxSize = _
    rw [put_m_iMaxSize, hmax']

/-- **`append`** makes room and writes its data; where it has to grow, `resize` has already counted
the new elements, and they are counted again. -/
theorem Stores.append [Zero T] (h : a.Stores b) (hdata : len ≤ pData.length) {pos : ℕ}
    (hpos : pos ≤ min a.m_iCount a.m_iMaxSize) :
    ∃ a' b', a.append pData len pos = some a' ∧ a'.Stores b' ∧
      a'.m_iCount =
        a.m_iCount + (if a.m_iMaxSize ≤ len + a.m_iCount then len + len else len) ∧
      a'.m_iMaxSize =
        (if 0 < len then max a.m_iMaxSize (a.m_iCount + len) else a.m_iMaxSize) ∧
      b'.take (pos + len) = b.take pos ++ (pData.take len).map some := by
  have hsrc : ((pData.take len).map some).length = len := by
    rw [List.length_map, List.length_take, Nat.min_eq_left hdata]
  have hgrown : ∃ a₁ b₁, (if a.m_iMaxSize ≤ len + a.m_iCount then a.resize (len + a.m_iCount)
        else some a) = some a₁ ∧ a₁.Stores b₁ ∧
      a₁.m_iCount =
        a.m_iCount + (if a.m_iMaxSize ≤ len + a.m_iCount then len else 0) ∧
      a₁.m_iMaxSize =
        (if 0 < len then max a.m_iMaxSize (a.m_iCount + len) else a.m_iMaxSize) ∧
      b₁.take pos = b.take pos := by
    by_cases hle : a.m_iMaxSize ≤ len + a.m_iCount
    · obtain ⟨a₁, b₁, hresize, h₁, hcount, hmax, htake⟩ := h.resize (len + a.m_iCount)
      rw [if_pos hle, if_pos hle]
      refine ⟨a₁, b₁, hresize, h₁, by omega, ?_, ?_⟩
      · rw [hmax]
        split <;> split <;> omega
      · have htake' := congrArg (List.take pos) htake
        rwa [List.take_take, List.take_take, Nat.min_eq_left hpos] at htake'
    · rw [if_neg hle, if_neg hle]
      refine ⟨a, b, rfl, h, rfl, ?_, rfl⟩
      split <;> omega
  obtain ⟨a₁, b₁, hresize, h₁, hcount, hmax, htake⟩ := hgrown
  have hlen := h₁.length
  have hroom : pos + len ≤ a₁.m_iMaxSize := by
    rw [hmax]
    split <;> omega
  have hin : pos + ((pData.take len).map some).length ≤ b₁.length := by
    omega
  refine ⟨{ a₁.put (Block.patch b₁ pos ((pData.take len).map some)) with
      m_iCount := (a₁.put (Block.patch b₁ pos ((pData.take len).map some))).m_iCount + len },
    _, ?_, (h₁.put (Block.length_patch hin)).count _, ?_, ?_, ?_⟩
  · simp only [DyArray.append, hresize, h₁.memcpy hdata, Block.write_of_le hin, Option.map_some,
      Option.bind_eq_bind, Option.bind_some]
  · show (a₁.put _).m_iCount + len = _
    rw [put_m_iCount, hcount]
    split <;> omega
  · show (a₁.put _).m_iMaxSize = _
    rw [put_m_iMaxSize, hmax]
  · have hwritten := Block.take_patch ((pData.take len).map some) (by omega : pos ≤ b₁.length)
    rwa [hsrc, htake] at hwritten

end Copies

end Stores

end DyArray

end Fantuan
