import Fantuan.Common.ElementOps

/-!
# `DyArray` of a class type, by the values of its elements

The branches for `TypeTraits<T>::isClass` once more, now with the values that the objects have and
without their lifetimes: a cell is `none` as long as no object lives in it, and an object may be
constructed where another one lives.  Copies of an object have its value.  A method has no result
where it reads or destroys an object that does not live, or copies an object to its own place.
-/

open Lib

namespace Fantuan

namespace OfClass

variable {T : Type} {N : ℕ} (a : DyArray T N)

/-! ## 1. The methods -/

/-- The constructor sets the bytes of `m_Elements` to 0; no object lives there. -/
def new (T : Type) (N : ℕ) : DyArray T N where
  m_Elements := List.replicate N none
  m_pDynamicElements := none
  m_pHead := .m_Elements
  m_iMaxSize := N
  m_iCount := 0

/-- `object_construct(&b[i], b[k])`. -/
def object_construct_from (b : Cells T) (i k : ℕ) : Option (Cells T) :=
  if i = k then none else b[k]?.join.bind fun val ↦ Block.write b i [some val]

def object_destruct (b : Cells T) (i : ℕ) : Option (Cells T) :=
  b[i]?.join.map fun _ ↦ b.set i none

/-- Construct objects in `pData` from those of `src` at the same offsets: as copies, or, where
`_grow_n` takes them from a dynamic block, swapped with them. -/
def copyObjects (src : Cells T) (i : ℕ) : ℕ → Cells T → Option (Cells T)
  | 0, pData => some pData
  | count + 1, pData => do
      let val ← src[i]?.join
      let pData ← Block.write pData i [some val]
      copyObjects src (i + 1) count pData

def _grow_n (n : ℕ) (value : T) : Option (DyArray T N) := do
  let iOldSize := a.m_iMaxSize
  let m_iMaxSize := a.m_iMaxSize + n
  let pData ← Block.write (List.replicate m_iMaxSize none) a.m_iCount [some value]
  let pData ← copyObjects a.owned 0 iOldSize pData
  some { a with m_pDynamicElements := some pData, m_pHead := .m_pDynamicElements, m_iMaxSize }

/-- `push_back(n, value)`; `_insert_n` constructs objects where it assigns to scalars. -/
def push_back_n (n : ℕ) (value : T) : Option (DyArray T N) := do
  let extra := if a.m_iMaxSize < a.m_iCount + n then a.m_iCount + n - a.m_iMaxSize else 0
  let a ← (if a.m_iCount < a.m_iMaxSize then a._insert_n (a.m_iMaxSize - a.m_iCount) value
    else some a)
  let a ← (if extra ≠ 0 then _grow_n a extra value else some a)
  some { a with m_iCount := a.m_iCount + n }

def push_back (value : T) : Option (DyArray T N) := push_back_n a 1 value

/-- The loop of `erase(value)`. -/
def shift (it : ℕ) : ℕ → Cells T → Option (Cells T)
  | 0, b => some b
  | count + 1, b => (object_construct_from b (it - 1) it).bind (shift (it + 1) count)

/-- `erase(value)`; behind the elements its loop does not meet `end()`. -/
def erase (_where : ℕ) : Option (DyArray T N) :=
  if _where < a.m_iCount then do
    let a ← a.onHead fun b ↦
      (shift (_where + 1) (a.m_iCount - (_where + 1)) b).bind (object_destruct · (a.m_iCount - 1))
    some { a with m_iCount := a.m_iCount - 1 }
  else none

/-- The loop of `erase(first, last)`. -/
def moveDown (_first _last : ℕ) : ℕ → Cells T → Option (Cells T)
  | 0, b => some b
  | count + 1, b => do
      let b ← object_construct_from b _first _last
      let b ← object_destruct b _last
      moveDown (_first + 1) (_last + 1) count b

def erase_range (_first _last : ℕ) : Option (DyArray T N) :=
  if _last < _first ∨ a.m_iCount < _last then none
  else do
    let a ← a.onHead (moveDown _first _last (a.m_iCount - _last))
    some { a with m_iCount := a.m_iCount - (_last - _first) }

def clear : Option (DyArray T N) := erase_range a 0 a.m_iCount

/-! ## 2. The loops -/

variable {a} {b b' p src : Cells T} {i k count : ℕ} {value : T}

/-- Objects live in the cells from `first` to `last`. -/
def Live (b : Cells T) (first last : ℕ) : Prop :=
  ∀ i, first ≤ i → i < last → ∃ v, b[i]? = some (some v)

theorem live_of_take {l : List T} (h : b.take k = l.map some) (hk : k = l.length) :
    Live b 0 k := by
  intro i _ hi
  have hcell : (l.map some)[i]? = b[i]? := by
    rw [← h, List.getElem?_take_of_lt hi]
  rw [List.getElem?_map, List.getElem?_eq_getElem (by omega : i < l.length)] at hcell
  exact ⟨_, hcell.symm⟩

theorem take_succ_of_getElem? {v : T} (h : b[k]? = some (some v)) :
    (b.drop k).take (count + 1) = some v :: (b.drop (k + 1)).take count := by
  rw [List.getElem?_eq_some_iff] at h
  obtain ⟨hk, hv⟩ := h
  rw [List.drop_eq_getElem_cons hk, hv, List.take_succ_cons]

theorem copyObjects_eq (hsrc : Live src i (i + count)) (hp : i + count ≤ p.length) :
    copyObjects src i count p = some (Block.patch p i ((src.drop i).take count)) := by
  induction count generalizing i p with
  | zero => rw [List.take_zero, Block.patch_nil, copyObjects]
  | succ count ih =>
      obtain ⟨v, hv⟩ := hsrc i (Nat.le_refl i) (by omega)
      have hone : i + [some v].length ≤ p.length := by
        rw [List.length_singleton]
        omega
      have hlater : Live src (i + 1) (i + 1 + count) := fun j hj hlt ↦
        hsrc j (by omega) (by omega)
      simp only [copyObjects, hv, Option.join_some, Option.bind_eq_bind, Option.bind_some,
        Block.write_of_le hone]
      rw [ih hlater (by rw [Block.length_patch hone]; omega), take_succ_of_getElem? hv]
      exact congrArg some (Block.patch_patch hone)

theorem object_construct_from_eq {v : T} (hne : i ≠ k) (hv : b[k]? = some (some v))
    (hi : i < b.length) : object_construct_from b i k = some (b.set i (some v)) := by
  have hone : i + [some v].length ≤ b.length := by
    rw [List.length_singleton]
    omega
  rw [object_construct_from, if_neg hne, hv, Option.join_some, Option.bind_some,
    Block.write_of_le hone, Block.patch_singleton hi]

theorem object_destruct_eq {v : T} (hv : b[i]? = some (some v)) :
    object_destruct b i = some (b.set i none) := by
  rw [object_destruct, hv]
  rfl

-- What `memmove` would do.
theorem shift_eq (hlive : Live b (i + 1) (i + 1 + count)) (hlen : i + count < b.length) :
    shift (i + 1) count b = some (Block.patch b i ((b.drop (i + 1)).take count)) := by
  induction count generalizing i b with
  | zero => rw [List.take_zero, Block.patch_nil, shift]
  | succ count ih =>
      obtain ⟨v, hv⟩ := hlive (i + 1) (Nat.le_refl _) (by omega)
      have hi : i < b.length := by omega
      have hone : i + [some v].length ≤ b.length := by
        rw [List.length_singleton]
        omega
      have hlater : Live (b.set i (some v)) (i + 1 + 1) (i + 1 + 1 + count) := by
        intro j hj hlt
        rw [List.getElem?_set_ne (by omega)]
        exact hlive j (by omega) (by omega)
      have hdrop : (b.set i (some v)).drop (i + 1 + 1) = b.drop (i + 1 + 1) :=
        List.drop_set_of_lt (by omega)
      rw [shift, Nat.add_sub_cancel, object_construct_from_eq (by omega) hv hi, Option.bind_some,
        ih hlater (by rw [List.length_set]; omega), hdrop, take_succ_of_getElem? hv,
        ← Block.patch_singleton hi]
      exact congrArg some (Block.patch_patch hone)

theorem shift_destruct_eq (hlive : Live b 0 k) (hik : i < k) (hlen : k ≤ b.length) :
    ∃ b', (shift (i + 1) (k - (i + 1)) b).bind (object_destruct · (k - 1)) = some b' ∧
      b'.length = b.length ∧
      b'.take (k - 1) = b.take i ++ (b.drop (i + 1)).take (k - (i + 1)) := by
  have hsrc : ((b.drop (i + 1)).take (k - (i + 1))).length = k - (i + 1) := by
    rw [List.length_take, List.length_drop]
    omega
  have hlater : Live b (i + 1) (i + 1 + (k - (i + 1))) := fun j _ hj ↦
    hlive j (Nat.zero_le j) (by omega)
  obtain ⟨v, hv⟩ := hlive (k - 1) (Nat.zero_le _) (by omega)
  -- the object that is destroyed is behind the copies
  have hlast : (Block.patch b i ((b.drop (i + 1)).take (k - (i + 1))))[k - 1]? =
      some (some v) := by
    rw [Block.getElem?_patch (by omega), hsrc, if_neg (by omega), if_neg (by omega), hv]
  refine ⟨(Block.patch b i ((b.drop (i + 1)).take (k - (i + 1)))).set (k - 1) none, ?_, ?_, ?_⟩
  · rw [shift_eq hlater (by omega), Option.bind_some, object_destruct_eq hlast]
  · rw [List.length_set, Block.length_patch (by omega)]
  · have htake := Block.take_patch ((b.drop (i + 1)).take (k - (i + 1)))
      (by omega : i ≤ b.length)
    have hsum : k - 1 = i + (k - (i + 1)) := by omega
    rw [hsrc, ← hsum] at htake
    rw [List.take_set_of_le (Nat.le_refl _), htake]

theorem moveDown_eq {_first _last : ℕ} (hlt : _first < _last)
    (hlive : Live b _last (_last + count)) (hlen : _last + count ≤ b.length) :
    ∃ b', moveDown _first _last count b = some b' ∧ b'.length = b.length ∧
      b'.take (_first + count) = b.take _first ++ (b.drop _last).take count := by
  induction count generalizing _first _last b with
  | zero => exact ⟨b, rfl, rfl, by rw [List.take_zero, List.append_nil, Nat.add_zero]⟩
  | succ count ih =>
      obtain ⟨v, hv⟩ := hlive _last (Nat.le_refl _) (by omega)
      have hi : _first < b.length := by omega
      have hv' : (b.set _first (some v))[_last]? = some (some v) := by
        rw [List.getElem?_set_ne (by omega), hv]
      have hlater : Live ((b.set _first (some v)).set _last none) (_last + 1)
          (_last + 1 + count) := by
        intro j hj hjlt
        rw [List.getElem?_set_ne (by omega), List.getElem?_set_ne (by omega)]
        exact hlive j (by omega) (by omega)
      obtain ⟨b', hmove, hlen', htake⟩ := ih (by omega : _first + 1 < _last + 1) hlater
        (by rw [List.length_set, List.length_set]; omega)
      rw [List.length_set, List.length_set] at hlen'
      refine ⟨b', ?_, hlen', ?_⟩
      · simp only [moveDown, object_construct_from_eq (by omega) hv hi, object_destruct_eq hv',
          Option.bind_eq_bind, Option.bind_some, hmove]
      · -- the copy is the next element of the front, what follows `_last` is as it was
        have hfront : ((b.set _first (some v)).set _last none).take (_first + 1) =
            b.take _first ++ [some v] := by
          rw [List.take_set_of_le (by omega), List.take_add_one, List.take_set_of_le (by omega),
            List.getElem?_set_self hi]
          rfl
        have hback : ((b.set _first (some v)).set _last none).drop (_last + 1) =
            b.drop (_last + 1) := by
          rw [List.drop_set_of_lt (by omega), List.drop_set_of_lt (by omega)]
        rw [Nat.add_right_comm, hfront, hback] at htake
        rw [← Nat.add_assoc, htake, take_succ_of_getElem? hv, List.append_assoc]
        rfl

/-! ## 3. The operations on the list of elements -/

-- A full array gets one more cell.
theorem _grow_n_eq (h : a.Stores b) (hfull : a.m_iCount = a.m_iMaxSize)
    (hlive : Live b 0 a.m_iMaxSize) (value : T) :
    ∃ a', _grow_n a 1 value = some a' ∧ a'.Stores (b ++ [some value]) ∧
      a'.m_iMaxSize = a.m_iMaxSize + 1 ∧ a'.m_iCount = a.m_iCount := by
  have hlen := h.length
  have hnew : Block.write (List.replicate (a.m_iMaxSize + 1) none) a.m_iCount [some value] =
      some (List.replicate a.m_iMaxSize none ++ [some value]) := by
    have hcell : a.m_iCount + [some value].length ≤
        (List.replicate (a.m_iMaxSize + 1) (none : Option T)).length := by
      rw [List.length_replicate, List.length_singleton]
      omega
    rw [Block.write_of_le hcell, hfull, Block.patch, List.take_replicate, List.drop_replicate,
      List.length_singleton, Nat.sub_self, List.replicate_zero, List.append_nil,
      Nat.min_eq_left (Nat.le_succ _)]
  have hold : copyObjects b 0 a.m_iMaxSize (List.replicate a.m_iMaxSize none ++ [some value]) =
      some (b ++ [some value]) := by
    have hroom : 0 + a.m_iMaxSize ≤ (List.replicate a.m_iMaxSize none ++ [some value]).length := by
      rw [List.length_append, List.length_replicate]
      omega
    rw [copyObjects_eq (by rwa [Nat.zero_add]) hroom, List.drop_zero,
      List.take_of_length_le (Nat.le_of_eq hlen), Block.patch, List.take_zero, List.nil_append,
      Nat.zero_add, hlen, List.drop_left' List.length_replicate]
  refine ⟨{ a with
      m_pDynamicElements := some (b ++ [some value])
      m_pHead := .m_pDynamicElements, m_iMaxSize := a.m_iMaxSize + 1 },
    ?_, ⟨rfl, ?_, h.inline, Nat.le_succ_of_le h.le, fun he ↦ (nomatch he),
      fun he ↦ (nomatch he)⟩, rfl, rfl⟩
  · simp only [_grow_n, Option.bind_eq_bind, hnew, h.owned, hold, Option.bind_some]
  · rw [List.length_append, hlen, List.length_singleton]

variable {l : List T}

theorem push_back_eq (h : Represents a l) (value : T) :
    ∃ a', push_back a value = some a' ∧ Represents a' (l ++ [value]) := by
  have hle := h.le
  have hlist := h.m_iCount
  obtain ⟨b, hb, htake⟩ := h.stores
  obtain ⟨a₁, b₁, hfill, h₁, hmax, hcount, htake₁, hget⟩ := hb.fill value
  rw [Nat.min_eq_left hle] at htake₁
  simp only [push_back, push_back_n, hfill, Option.bind_eq_bind, Option.bind_some]
  -- the elements with the new one behind them
  have hlast : ∀ b' : Cells T, b'.take a.m_iCount = b.take a.m_iCount →
      b'[a.m_iCount]? = some (some value) →
      b'.take (a.m_iCount + 1) = (l ++ [value]).map some := by
    intro b' hfront hnext
    rw [List.take_add_one, hfront, hnext, htake, List.map_append]
    rfl
  by_cases hlt : a.m_iCount < a.m_iMaxSize
  · have hnot : ¬ a.m_iMaxSize < a.m_iCount + 1 := by omega
    simp only [if_neg hnot, ne_eq, not_true_eq_false, if_false, Option.bind_some]
    refine ⟨_, rfl, ⟨b₁, h₁.count _, ?_⟩, ?_, ?_⟩
    · show b₁.take (a₁.m_iCount + 1) = _
      rw [hcount]
      exact hlast b₁ htake₁ (hget hlt)
    · show a₁.m_iCount + 1 = _
      rw [hcount, hlist, List.length_append, List.length_singleton]
    · show a₁.m_iCount + 1 ≤ a₁.m_iMaxSize
      omega
  · have hfull : a₁.m_iCount = a₁.m_iMaxSize := by omega
    have hextra : a.m_iCount + 1 - a.m_iMaxSize = 1 := by omega
    have hgrow : a.m_iMaxSize < a.m_iCount + 1 := by omega
    have hall : a.m_iCount = a₁.m_iMaxSize := by omega
    have hlive : Live b₁ 0 a₁.m_iMaxSize := by
      rw [← hall]
      exact live_of_take (htake₁.trans htake) hlist
    have hlen : b₁.length = a.m_iCount := by rw [h₁.length, hall]
    obtain ⟨a₂, hcall, h₂, hmax₂, hcount₂⟩ := _grow_n_eq h₁ hfull hlive value
    simp only [if_pos hgrow, hextra, ne_eq, Nat.one_ne_zero, not_false_eq_true, if_true, hcall,
      Option.bind_some]
    refine ⟨_, rfl, ⟨_, h₂.count _, ?_⟩, ?_, ?_⟩
    · show (b₁ ++ [some value]).take (a₂.m_iCount + 1) = _
      rw [hcount₂, hcount]
      apply hlast
      · rw [List.take_append_of_le_length (Nat.le_of_eq hlen.symm), htake₁]
      · rw [← hlen, List.getElem?_concat_length]
    · show a₂.m_iCount + 1 = _
      rw [hcount₂, hcount, hlist, List.length_append, List.length_singleton]
    · show a₂.m_iCount + 1 ≤ a₂.m_iMaxSize
      omega

theorem erase_eq (h : Represents a l) {_where : ℕ} (hwhere : _where < l.length) :
    ∃ a', erase a _where = some a' ∧ Represents a' (l.eraseIdx _where) := by
  have hle := h.le
  have hcount := h.m_iCount
  obtain ⟨b, hb, htake⟩ := h.stores
  have hlen := hb.length
  have hin : _where < a.m_iCount := by omega
  obtain ⟨b', hcells, hlen', htake'⟩ := shift_destruct_eq (live_of_take htake hcount) hin (by omega)
  refine ⟨{ a.put b' with m_iCount := (a.put b').m_iCount - 1 }, ?_, ?_⟩
  · simp only [erase, if_pos hin, hb.onHead_eq, hcells, Option.map_some, Option.bind_eq_bind,
      Option.bind_some]
  · have hone : a.m_iCount - 1 = a.m_iCount - (_where + 1 - _where) := by omega
    rw [hone] at htake'
    rw [List.eraseIdx_eq_take_drop_succ]
    apply Represents.of_cut htake hcount (Nat.le_succ _where) hwhere ((hb.put hlen').count _)
    · show (a.put b').m_iCount - 1 = _
      rw [DyArray.put_m_iCount, hone]
    · show (a.put b').m_iCount - 1 ≤ (a.put b').m_iMaxSize
      rw [DyArray.put_m_iCount, DyArray.put_m_iMaxSize]
      omega
    · exact htake'

/-- The loop of `erase(first, last)` has nothing to do, or does not copy objects to their places. -/
def Apart (l : List T) (_first _last : ℕ) : Prop := _first < _last ∨ _last = l.length

theorem erase_range_eq (h : Represents a l) {_first _last : ℕ} (hfirst : _first ≤ _last)
    (hlast : _last ≤ l.length) (hapart : Apart l _first _last) :
    ∃ a', erase_range a _first _last = some a' ∧
      Represents a' (l.take _first ++ l.drop _last) := by
  have hle := h.le
  have hcount := h.m_iCount
  obtain ⟨b, hb, htake⟩ := h.stores
  have hlen := hb.length
  have hlive := live_of_take htake hcount
  obtain ⟨b', hmove, hlen', htake'⟩ : ∃ b',
      moveDown _first _last (a.m_iCount - _last) b = some b' ∧ b'.length = b.length ∧
        b'.take (_first + (a.m_iCount - _last)) =
          b.take _first ++ (b.drop _last).take (a.m_iCount - _last) := by
    obtain hlt | hend := hapart
    · exact moveDown_eq hlt (fun i hi hlt ↦ hlive i (Nat.zero_le i) (by omega)) (by omega)
    · have hnone : a.m_iCount - _last = 0 := by omega
      rw [hnone]
      exact ⟨b, rfl, rfl, by rw [List.take_zero, List.append_nil, Nat.add_zero]⟩
  have hrange : ¬ (_last < _first ∨ a.m_iCount < _last) := by omega
  refine ⟨{ a.put b' with m_iCount := (a.put b').m_iCount - (_last - _first) }, ?_, ?_⟩
  · simp only [erase_range, if_neg hrange, hb.onHead_eq, hmove, Option.map_some,
      Option.bind_eq_bind, Option.bind_some]
  · apply Represents.of_cut htake hcount hfirst hlast ((hb.put hlen').count _)
    · show (a.put b').m_iCount - _ = _
      rw [DyArray.put_m_iCount]
    · show (a.put b').m_iCount - _ ≤ (a.put b').m_iMaxSize
      rw [DyArray.put_m_iCount, DyArray.put_m_iMaxSize]
      omega
    · have hsum : a.m_iCount - (_last - _first) = _first + (a.m_iCount - _last) := by omega
      rw [hsum, htake']

-- The first object of the loop is copied to its own place.
theorem erase_range_eq_none (h : Represents a l) {_first _last : ℕ} (hfirst : _first ≤ _last)
    (hlast : _last ≤ l.length) (hapart : ¬ Apart l _first _last) :
    erase_range a _first _last = none := by
  unfold Apart at hapart
  have hcount := h.m_iCount
  obtain ⟨b, hb, -⟩ := h.stores
  have hsame : _first = _last := by omega
  have hrange : ¬ (_last < _first ∨ a.m_iCount < _last) := by omega
  have hsome : a.m_iCount - _last = a.m_iCount - _last - 1 + 1 := by omega
  have hself : moveDown _first _last (a.m_iCount - _last) b = none := by
    rw [hsome, moveDown, object_construct_from, if_pos hsame]
    rfl
  rw [erase_range, if_neg hrange, hb.onHead_eq, hself]
  rfl

theorem represents_new : Represents (new T N) [] := by
  refine ⟨⟨_, ⟨rfl, ?_, ?_, Nat.le_refl N, fun _ ↦ rfl, fun _ ↦ rfl⟩, List.take_zero⟩, rfl,
    Nat.zero_le N⟩
  · exact List.length_replicate
  · exact List.length_replicate

end OfClass

end Fantuan
