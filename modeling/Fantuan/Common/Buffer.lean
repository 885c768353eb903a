import Mathlib.Data.List.DropRight
import Fantuan.Common
import Fantuan.Lib.Runs
import Fantuan.Lib.Storage

/-!
# easy_buffer.cpp — `EasyBuffer`

A stack of bytes in a block of fixed size.  A function has no result where it reads or writes
outside a block of memory.
-/

open Lib

namespace Fantuan

/-! ## 1. The code -/

/-- `m_pTail` is an offset from `m_pData`. -/
structure EasyBuffer (m_iMaxSize : ℕ) where
  m_pData : Storage UInt8 m_iMaxSize
  m_pTail : ℕ
  m_iSize : ℕ

/-- A call with any `uint32` length: the bytes that can be read, or written, at `pItem`. -/
inductive BufferCall
  | Push (pItem : List UInt8) (iLength_lt : pItem.length < 2 ^ 32)
  | Pop (iLength : ℕ) (iLength_lt : iLength < 2 ^ 32) (pItem : Storage UInt8 iLength)

namespace EasyBuffer

variable {m_iMaxSize : ℕ} (b : EasyBuffer m_iMaxSize)

/-- The constructor. -/
def new : EasyBuffer m_iMaxSize := ⟨.replicate _ 0, 0, 0⟩

def Size : ℕ := b.m_iSize

def Push (pItem : List UInt8) (iLength : ℕ) : Option (Bool × EasyBuffer m_iMaxSize) :=
  if m_iMaxSize ≤ uint32 (b.m_iSize + iLength) then some (false, b)
  else do
    let m_pData ← b.m_pData.memcpy b.m_pTail pItem iLength
    some (true, ⟨m_pData, b.m_pTail + iLength, uint32 (b.m_iSize + iLength)⟩)

/-- Into `pItem`, which is not `NULL`. -/
def Pop {n : ℕ} (pItem : Storage UInt8 n) (iLength : ℕ) :
    Option (ℕ × Storage UInt8 n × EasyBuffer m_iMaxSize) :=
  let iLength := if b.m_iSize < iLength then b.m_iSize else iLength
  if iLength ≤ b.m_pTail then do
    let m_pTail := b.m_pTail - iLength
    let pItem ← pItem.memcpy 0 (b.m_pData.data.drop m_pTail) iLength
    some (iLength, pItem, { b with m_pTail, m_iSize := b.m_iSize - iLength })
  else none

/-- The bytes in the buffer. -/
def bytes : List UInt8 := b.m_pData.data.take b.m_iSize

inductive Step : EasyBuffer m_iMaxSize → BufferCall → EasyBuffer m_iMaxSize → Prop
  | Push {b c : EasyBuffer m_iMaxSize} {pItem : List UInt8} {hlt : pItem.length < 2 ^ 32}
      {ret : Bool} (h : b.Push pItem pItem.length = some (ret, c)) : Step b (.Push pItem hlt) c
  | Pop {b c : EasyBuffer m_iMaxSize} {iLength ret : ℕ} {hlt : iLength < 2 ^ 32}
      {pItem item : Storage UInt8 iLength} (h : b.Pop pItem iLength = some (ret, item, c)) :
      Step b (.Pop iLength hlt pItem) c

/-! ## 2. A bounded stack of bytes -/

structure Valid : Prop where
  m_pTail : b.m_pTail = b.m_iSize
  m_iSize_le : b.m_iSize ≤ m_iMaxSize

/-- `Pop` takes the last bytes, as many as there are, and returns their number. -/
def PopsLast {iLength : ℕ} (pItem : Storage UInt8 iLength) : Prop :=
  ∃ item c, b.Pop pItem iLength = some (min iLength b.Size, item, c) ∧ c.Valid ∧
    item.data = b.bytes.rtake iLength ++ pItem.data.drop (min iLength b.Size) ∧
    c.bytes = b.bytes.rdrop iLength

/-- A `Push` fails and changes nothing, or puts the item on the stack, from where `Pop` takes it
again. -/
def PushesAll (pItem : List UInt8) : Prop :=
  ∃ ret c, b.Push pItem pItem.length = some (ret, c) ∧ c.Valid ∧ (ret = false → c = b) ∧
    (ret = true → c.bytes = b.bytes ++ pItem ∧
      ∀ item : Storage UInt8 pItem.length, ∃ item' d,
        c.Pop item pItem.length = some (pItem.length, item', d) ∧ item'.data = pItem ∧
          d.bytes = b.bytes)

def Right (b : EasyBuffer m_iMaxSize) : BufferCall → Prop
  | .Push pItem _ => b.PushesAll pItem
  | .Pop _ _ pItem => b.PopsLast pItem

/-- The sum that `Push` compares does not wrap. -/
def Fits (b : EasyBuffer m_iMaxSize) : BufferCall → Prop
  | .Push pItem _ => b.m_iSize + pItem.length < 2 ^ 32
  | .Pop .. => True

variable {b} {c : EasyBuffer m_iMaxSize} {pItem : List UInt8}

theorem valid_new : (new : EasyBuffer m_iMaxSize).Valid := ⟨rfl, Nat.zero_le _⟩

theorem Valid.length_bytes (h : b.Valid) : b.bytes.length = b.m_iSize := by
  rw [bytes, List.length_take, b.m_pData.length_data, Nat.min_eq_left h.m_iSize_le]

/-! ## 3. `Pop` -/

theorem Valid.pop (h : b.Valid) {n iLength : ℕ} (pItem : Storage UInt8 n) (hfits : iLength ≤ n) :
    ∃ item c, b.Pop pItem iLength = some (min iLength b.Size, item, c) ∧ c.Valid ∧
      item.data = b.bytes.rtake iLength ++ pItem.data.drop (min iLength b.Size) ∧
      c.bytes = b.bytes.rdrop iLength := by
  have hle := h.m_iSize_le
  have hlength := h.length_bytes
  obtain ⟨k, hk⟩ : ∃ k, min iLength b.m_iSize = k := ⟨_, rfl⟩
  have hif : (if b.m_iSize < iLength then b.m_iSize else iLength) = k := by
    rw [← hk]
    split <;> omega
  have hrest : b.m_iSize - iLength = b.m_iSize - k := by omega
  have htop : b.bytes.rtake iLength = (b.m_pData.data.drop (b.m_iSize - k)).take k := by
    rw [List.rtake, hlength, hrest, bytes, List.drop_take, Nat.sub_sub_self (by omega)]
  have hbelow : b.bytes.rdrop iLength = b.m_pData.data.take (b.m_iSize - k) := by
    rw [List.rdrop, hlength, hrest, bytes, List.take_take, Nat.min_eq_left (Nat.sub_le _ _)]
  rw [Size, hk, htop, hbelow]
  cases hcopy : pItem.memcpy 0 (b.m_pData.data.drop (b.m_iSize - k)) k with
  | none =>
      rw [Storage.memcpy_eq_none, List.length_drop, b.m_pData.length_data] at hcopy
      omega
  | some item =>
      obtain ⟨-, -, hdata⟩ := Storage.memcpy_eq_some.mp hcopy
      rw [Nat.zero_add] at hdata
      refine ⟨item, ⟨b.m_pData, b.m_iSize - k, b.m_iSize - k⟩, ?_, ⟨rfl, ?_⟩, hdata, rfl⟩
      · unfold Pop
        rw [hif, h.m_pTail]
        dsimp only
        rw [if_pos (by omega), hcopy]
        rfl
      · exact Nat.le_trans (Nat.sub_le _ _) hle

/-! ## 4. `Push` -/

theorem push_of_full {iLength : ℕ} (hfull : m_iMaxSize ≤ uint32 (b.m_iSize + iLength)) :
    b.Push pItem iLength = some (false, b) :=
  if_pos hfull

-- There is room for the item and one more byte.
theorem Valid.push_of_room (h : b.Valid) (hmax : m_iMaxSize < 2 ^ 32) {iLength : ℕ}
    (hlength : iLength ≤ pItem.length) (hroom : b.m_iSize + iLength < m_iMaxSize) :
    ∃ c, b.Push pItem iLength = some (true, c) ∧ c.Valid ∧
      c.bytes = b.bytes ++ pItem.take iLength := by
  have hsum : uint32 (b.m_iSize + iLength) = b.m_iSize + iLength :=
    uint32_of_lt (Nat.lt_trans hroom hmax)
  cases hcopy : b.m_pData.memcpy b.m_iSize pItem iLength with
  | none =>
      rw [Storage.memcpy_eq_none] at hcopy
      omega
  | some m_pData =>
      have hbytes := Storage.take_of_memcpy hcopy
      refine ⟨⟨m_pData, b.m_iSize + iLength, b.m_iSize + iLength⟩, ?_, ⟨rfl, ?_⟩, hbytes⟩
      · unfold Push
        rw [hsum, if_neg (by omega), h.m_pTail, hcopy]
        rfl
      · exact Nat.le_of_lt hroom

-- The sum wraps: the item is taken for a small one, and copied past the end of the block.
theorem Valid.push_of_wrap (h : b.Valid) (hmax : m_iMaxSize < 2 ^ 32) (hlt : pItem.length < 2 ^ 32)
    (hwrap : 2 ^ 32 ≤ b.m_iSize + pItem.length) : b.Push pItem pItem.length = none := by
  have hle := h.m_iSize_le
  have hsum : uint32 (b.m_iSize + pItem.length) = b.m_iSize + pItem.length - 2 ^ 32 := by
    unfold uint32
    omega
  have hout : b.m_pData.memcpy b.m_iSize pItem pItem.length = none :=
    Storage.memcpy_eq_none.mpr (.inr (by omega))
  unfold Push
  rw [hsum, if_neg (by omega), h.m_pTail, hout]
  rfl

-- What was put on a stack is taken again.
theorem Valid.pop_pushed (h : c.Valid) (hbytes : c.bytes = b.bytes ++ pItem)
    (item : Storage UInt8 pItem.length) :
    ∃ item' d, c.Pop item pItem.length = some (pItem.length, item', d) ∧ item'.data = pItem ∧
      d.bytes = b.bytes := by
  obtain ⟨item', d, hpop, -, hitem, hd⟩ := h.pop item (Nat.le_refl _)
  have hmin : min pItem.length c.Size = pItem.length := by
    have hlength := h.length_bytes
    rw [hbytes, List.length_append] at hlength
    exact Nat.min_eq_left (by rw [Size]; omega)
  rw [hmin] at hpop hitem
  rw [hbytes, List.rtake, List.length_append, Nat.add_sub_cancel, List.drop_left,
    List.drop_of_length_le (Nat.le_of_eq item.length_data), List.append_nil] at hitem
  rw [hbytes, List.rdrop, List.length_append, Nat.add_sub_cancel, List.take_left] at hd
  exact ⟨item', d, hpop, hitem, hd⟩

theorem Valid.pushesAll_iff (h : b.Valid) (hmax : m_iMaxSize < 2 ^ 32)
    (hlt : pItem.length < 2 ^ 32) : b.PushesAll pItem ↔ b.m_iSize + pItem.length < 2 ^ 32 := by
  constructor
  · intro hpushes
    by_contra hwrap
    obtain ⟨ret, c, hpush, -⟩ := hpushes
    rw [h.push_of_wrap hmax hlt (Nat.not_lt.mp hwrap)] at hpush
    exact nomatch hpush
  · intro hfits
    by_cases hroom : b.m_iSize + pItem.length < m_iMaxSize
    · obtain ⟨c, hpush, hvalid, hbytes⟩ := h.push_of_room hmax (Nat.le_refl _) hroom
      rw [List.take_length] at hbytes
      exact ⟨true, c, hpush, hvalid, nofun, fun _ ↦ ⟨hbytes, hvalid.pop_pushed hbytes⟩⟩
    · have hsum := uint32_of_lt hfits
      exact ⟨false, b, push_of_full (by omega), h, fun _ ↦ rfl, nofun⟩

/-! ## 5. Sequences of calls -/

theorem Valid.right_iff (h : b.Valid) (hmax : m_iMaxSize < 2 ^ 32) (call : BufferCall) :
    b.Right call ↔ b.Fits call := by
  cases call with
  | Push pItem hlt => exact h.pushesAll_iff hmax hlt
  | Pop iLength hlt pItem => exact iff_of_true (h.pop pItem (Nat.le_refl _)) trivial

theorem Right.valid {call : BufferCall} (h : b.Right call) (hstep : Step b call c) : c.Valid := by
  cases hstep with
  | Push hpush =>
      obtain ⟨ret, c', hpush', hvalid, -⟩ := h
      rw [hpush, Option.some.injEq, Prod.mk.injEq] at hpush'
      exact hpush'.2 ▸ hvalid
  | Pop hpop =>
      obtain ⟨item, c', hpop', hvalid, -⟩ := h
      rw [hpop, Option.some.injEq, Prod.mk.injEq, Prod.mk.injEq] at hpop'
      exact hpop'.2.2 ▸ hvalid

/-- **`EasyBuffer` is a bounded stack of bytes** in a sequence of calls if and only if `m_iSize` and
the length of the item never add up to 2^32 or more in a `Push`. -/
theorem byteStack_iff (iMaxSize : ℕ) (hmax : iMaxSize < 2 ^ 32) (calls : List BufferCall) :
    AllSteps Step (new : EasyBuffer iMaxSize) Right calls ↔
      AllSteps Step (new : EasyBuffer iMaxSize) Fits calls :=
  allSteps_iff (I := Valid) valid_new (fun _ _ _ _ hright hstep ↦ hright.valid hstep)
    fun _ call hvalid ↦ hvalid.right_iff hmax call

/-- Three bytes go on a stack for sixteen, and two are taken again. -/
theorem byteStack_two :
    AllSteps Step (new : EasyBuffer 16) Right
      [.Push [1, 2, 3] (by decide), .Pop 2 (by decide) (.replicate 2 0)] := by
  apply (byteStack_iff 16 (by decide) _).mpr
  have hpush : AllSteps Step (new : EasyBuffer 16) Fits ([] ++ [.Push [1, 2, 3] (by decide)]) := by
    refine AllSteps.snoc allSteps_nil fun b hpath ↦ ?_
    rw [← path_nil.mp hpath]
    show 0 + 3 < 2 ^ 32
    decide
  exact hpush.snoc fun _ _ ↦ trivial

theorem length_zeros : (List.replicate (2 ^ 32 - 1) (0 : UInt8)).length < 2 ^ 32 := by
  rw [List.length_replicate]
  decide

/-- With one byte on the stack a `Push` of 2^32 - 1 bytes is let through: the sum is 0. -/
theorem not_byteStack :
    ¬ AllSteps Step (new : EasyBuffer 16) Right
      [.Push [7] (by decide), .Push (List.replicate (2 ^ 32 - 1) 0) length_zeros] := by
  intro hright
  have hstart : (new : EasyBuffer 16).Valid := valid_new
  have hroom : (new : EasyBuffer 16).m_iSize + [(7 : UInt8)].length < 16 := by decide
  obtain ⟨b, hpush, hvalid, hbytes⟩ := hstart.push_of_room (by decide) (Nat.le_refl _) hroom
  have hpath : Path Step new ([] ++ [.Push [7] (by decide)]) b := .snoc .nil (.Push hpush)
  have hsize : b.m_iSize = 1 := by
    rw [← hvalid.length_bytes, hbytes]
    rfl
  obtain ⟨ret, c, hagain, -⟩ := hright [.Push [7] (by decide)] _ b (List.prefix_refl _) hpath
  rw [hvalid.push_of_wrap (by decide) length_zeros
    (by rw [hsize, List.length_replicate]; decide)] at hagain
  exact nomatch hagain

end EasyBuffer

end Fantuan
