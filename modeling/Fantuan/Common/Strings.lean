import Fantuan.Common.DyArray
import Fantuan.Lib.Runs

/-!
# string_base.h, dy_string.h — `String` and `WString`

A `FTString` is a `DyArray` of characters that is read up to the first 0.  The texts given to its
methods are elsewhere in memory, except where the argument is the string itself.  There are two
`operator=`: the one of `StringBase`, and the one that the compiler defines for `FTString`, which
hides it and also copies the members of `m_Buffer`.
-/

open Lib

namespace Fantuan

def STRING_DEFAULT_SIZE : ℕ := 64

/-- `char` or `wchar_t`. -/
class Character (T : Type) extends Scalar T where
  sizeof_le : Scalar.sizeof T ≤ STRING_DEFAULT_SIZE

instance : Character UInt8 := ⟨by decide⟩

/-- `wchar_t`, as in Linux. -/
instance : Character UInt32 where
  zero := 0
  sizeof := 4
  sizeof_pos := by decide
  clearBytes k c := c >>> (8 * k.toUInt32) <<< (8 * k.toUInt32)
  clearBytes_zero c := by
    show c >>> 0 <<< 0 = c
    rw [UInt32.shiftRight_zero, UInt32.shiftLeft_zero]
  sizeof_le := by decide

abbrev FTString (T : Type) : Type := DyArray T STRING_DEFAULT_SIZE

/-- What stands before the terminating 0. -/
abbrev Text (T : Type) [Zero T] := { l : List T // 0 ∉ l }

namespace Text

variable {T : Type} [Zero T]

instance : EmptyCollection (Text T) := ⟨⟨[], List.not_mem_nil⟩⟩

instance : Append (Text T) :=
  ⟨fun t u ↦ ⟨t.1 ++ u.1, fun h ↦ (List.mem_append.mp h).elim t.2 u.2⟩⟩

/-- The characters of a text in memory. -/
def pData (t : Text T) : List T := t.1 ++ [0]

/-- `strlen(pData) + 1`. -/
def num (t : Text T) : ℕ := t.1.length + 1

theorem length_pData (t : Text T) : t.pData.length = t.num := List.length_append

end Text

/-- What an `operator=` or `strcpy` gets: a text, or the string itself. -/
inductive Source (T : Type) [Zero T]
  | text (pData : Text T)
  | self

inductive StringOp (T : Type) [Zero T]
  | operator_assign (rhs : Source T)
  | FTString_assign (rhs : Text T)
  | operator_append (pData : Text T)
  | strcpy (rhs : Source T)
  | clear

namespace FTString

/-- Up to the first 0; a cell that has not been written cannot be read. -/
def untilZero {T : Type} [Zero T] [DecidableEq T] : Cells T → Option (List T)
  | some c :: b => if c = 0 then some [] else (untilZero b).map (c :: ·)
  | _ => none

variable {T : Type} [Character T] [DecidableEq T] (s : FTString T)

/-! ## 1. The methods -/

def c_str : Option (List T) := s.storage.bind untilZero

def strlen : Option ℕ := s.c_str.map List.length

/-- The cells that were at the `m_pHead` of `s`: growing frees a dynamic block, but not
`m_Elements`. -/
def stale (s' : FTString T) : Option (Cells T) :=
  match s.m_pHead with
  | .m_Elements => some s'.m_Elements
  | .m_pDynamicElements => if s'.m_iMaxSize = s.m_iMaxSize then s'.m_pDynamicElements else none
  | .elsewhere => none

/-- `DyArray::assign` where `pData` is `m_pHead`. -/
def assign_self (len : ℕ) : Option (FTString T) := do
  let s₁ ← (if s.m_iMaxSize ≤ len then s.resize len else some s)
  let s₂ ← s₁.onHead (memset s₁.m_iMaxSize)
  let pData ← s.stale s₂
  let src ← Block.read pData 0 len
  let s₃ ← s₂.onHead fun b ↦ Block.write b 0 src
  some { s₃ with m_iCount := len }

/-- `DyArray::copy` where `pData` is `m_pHead`. -/
def copy_self (len : ℕ) : Option (FTString T) := do
  let s₁ ← (if s.m_iMaxSize ≤ len then s.resize len else some s)
  let pData ← s.stale s₁
  let src ← Block.read pData 0 len
  let s₂ ← s₁.onHead fun b ↦ Block.write b 0 src
  some { s₂ with m_iCount := if len < s₂.m_iCount then s₂.m_iCount else len }

/-- The constructors: without and with a text. -/
def new : Option (Text T) → Option (FTString T)
  | none => some (DyArray.new T STRING_DEFAULT_SIZE)
  | some t => (DyArray.new T STRING_DEFAULT_SIZE).assign t.pData t.num

/-- `operator=` of `StringBase`. -/
def operator_assign : Source T → Option (FTString T)
  | .text t => s.assign t.pData t.num
  | .self => s.strlen.bind fun n ↦ s.assign_self (n + 1)

/-- `operator=` of `FTString`, with a string on the right that has been made from a text: that of
`StringBase`, and then the members of `m_Buffer`; `m_pHead` points into the other string. -/
def FTString_assign (t : Text T) : Option (FTString T) := do
  let _ ← s.operator_assign (.text t)
  let rhs ← new (some t)
  some { rhs with m_pHead := .elsewhere }

def operator_append (t : Text T) : Option (FTString T) :=
  s.strlen.bind fun pos ↦ s.append t.pData t.num pos

def strcpy : Source T → Option (FTString T)
  | .text t => s.copy t.pData t.num
  | .self => s.strlen.bind fun n ↦ s.copy_self (n + 1)

/-- `ArrayBase::clear`, which is not virtual. -/
def clear : Option (FTString T) := s.onHead (memset s.m_iMaxSize)

/-- There is room for the text, or `size()` does not hide that there is none. -/
def Room (t : Text T) : Prop := t.num ≤ s.m_iMaxSize ∨ s.m_iCount < t.num

end FTString

namespace StringOp

variable {T : Type} [Character T] [DecidableEq T]

def call : StringOp T → FTString T → Option (FTString T)
  | operator_assign rhs, s => FTString.operator_assign s rhs
  | FTString_assign rhs, s => FTString.FTString_assign s rhs
  | operator_append t, s => FTString.operator_append s t
  | strcpy rhs, s => FTString.strcpy s rhs
  | clear, s => FTString.clear s

/-- What the operation does to the text. -/
def onText : StringOp T → Text T → Text T
  | operator_assign (.text t), _ => t
  | operator_assign .self, u => u
  | FTString_assign t, _ => t
  | operator_append t, u => u ++ t
  | strcpy (.text t), _ => t
  | strcpy .self, u => u
  | clear, _ => ∅

/-- A string together with the text it should hold. -/
def Step (p : FTString T × Text T) (op : StringOp T) (p' : FTString T × Text T) : Prop :=
  op.call p.1 = some p'.1 ∧ p'.2 = op.onText p.2

/-- The operation stays inside the storage, and `c_str()` is the right text afterwards. -/
def Right (p : FTString T × Text T) (op : StringOp T) : Prop :=
  ∃ s', op.call p.1 = some s' ∧ FTString.c_str s' = some (op.onText p.2).1

def Safe (p : FTString T × Text T) : StringOp T → Prop
  | operator_assign (.text t) => p.1.Room t
  | operator_assign .self => p.1.strlen = some 0
  | FTString_assign _ => False
  | operator_append _ => True
  | strcpy (.text t) => p.1.Room t
  | strcpy .self => True
  | clear => True

end StringOp

open StringOp

/-! ## 2. One operation -/

namespace FTString

variable {T : Type} [Character T] {s : FTString T} {t u : Text T} {b b' : Cells T}

theorem untilZero_eq [DecidableEq T] {l : List T} (hl : 0 ∉ l)
    (h : b.take (l.length + 1) = (l ++ [0]).map some) : untilZero b = some l := by
  induction l generalizing b with
  | nil =>
      cases b with
      | nil => cases h
      | cons cell b =>
          have hcell : cell = some 0 := (List.cons.inj h).1
          rw [hcell, untilZero, if_pos rfl]
  | cons c l ih =>
      rw [List.mem_cons, not_or] at hl
      cases b with
      | nil => cases h
      | cons cell b =>
          rw [List.length_cons, List.take_succ_cons, List.cons_append, List.map_cons] at h
          have hcell := List.cons.inj h
          rw [hcell.1, untilZero, if_neg (Ne.symm hl.1), ih hl.2 hcell.2]
          rfl

/-- The string holds the text, and `size()` counts it. -/
structure Reads (s : FTString T) (t : Text T) : Prop where
  stores : ∃ b, s.Stores b ∧ b.take t.num = t.pData.map some
  count : t.1.length < s.m_iCount ∨ t = ∅

namespace Reads

theorem num_le (h : Reads s t) : t.num ≤ s.m_iMaxSize := by
  obtain ⟨b, hb, htake⟩ := h.stores
  have hlen := congrArg List.length htake
  rw [List.length_take, List.length_map, t.length_pData, hb.length] at hlen
  omega

theorem length_le (h : Reads s t) : t.1.length ≤ s.m_iCount := by
  cases h.count with
  | inl hlt => exact Nat.le_of_lt hlt
  | inr hempty =>
      rw [hempty]
      exact Nat.zero_le _

theorem new_none : Reads (DyArray.new T STRING_DEFAULT_SIZE) ∅ :=
  ⟨⟨_, DyArray.stores_new, rfl⟩, .inr rfl⟩

theorem assign (h : Reads s u) (hroom : s.Room t) :
    ∃ s', s.assign t.pData t.num = some s' ∧ Reads s' t := by
  obtain ⟨b, hb, -⟩ := h.stores
  obtain ⟨s', b', hcall, hb', hcount, -, htake⟩ :=
    hb.assign (Nat.le_of_eq t.length_pData.symm) hroom
  rw [← t.length_pData, List.take_length, t.length_pData] at htake
  refine ⟨s', hcall, ⟨b', hb', htake⟩, .inl ?_⟩
  rw [hcount]
  exact Nat.lt_succ_self _

theorem copy (h : Reads s u) (hroom : s.Room t) :
    ∃ s', s.copy t.pData t.num = some s' ∧ Reads s' t := by
  obtain ⟨b, hb, -⟩ := h.stores
  obtain ⟨s', b', hcall, hb', hcount, -, htake⟩ := hb.copy (Nat.le_of_eq t.length_pData.symm) hroom
  rw [← t.length_pData, List.take_length, t.length_pData] at htake
  refine ⟨s', hcall, ⟨b', hb', htake⟩, .inl ?_⟩
  have hnum : t.num = t.1.length + 1 := rfl
  rw [hcount]
  split <;> omega

theorem clear (h : Reads s u) : ∃ s', s.clear = some s' ∧ Reads s' ∅ := by
  obtain ⟨b, hb, -⟩ := h.stores
  have hmax : STRING_DEFAULT_SIZE ≤ s.m_iMaxSize := hb.le
  have hsize := Character.sizeof_le (T := T)
  obtain ⟨b', hset, hlen⟩ := DyArray.length_memset (n := s.m_iMaxSize) (Nat.le_of_eq hb.length.symm)
  have hpos : 0 < b.length := by
    rw [hb.length]
    exact Nat.lt_of_lt_of_le (by decide) hmax
  refine ⟨s.put b', ?_, ⟨b', hb.put hlen, ?_⟩, .inr rfl⟩
  · rw [FTString.clear, hb.onHead_eq, hset, Option.map_some]
  · exact DyArray.take_memset hset (Nat.le_trans hsize hmax) hpos

variable [DecidableEq T]

theorem c_str (h : Reads s t) : s.c_str = some t.1 := by
  obtain ⟨b, hb, htake⟩ := h.stores
  rw [FTString.c_str, hb.storage, Option.bind_some, untilZero_eq t.2 htake]

theorem strlen (h : Reads s t) : s.strlen = some t.1.length := by
  rw [FTString.strlen, h.c_str, Option.map_some]

theorem append (h : Reads s u) (t : Text T) :
    ∃ s', s.operator_append t = some s' ∧ Reads s' (u ++ t) := by
  have hnum : t.num = t.1.length + 1 := rfl
  have hpos : u.1.length ≤ min s.m_iCount s.m_iMaxSize :=
    Nat.le_min.mpr ⟨h.length_le, Nat.le_of_succ_le h.num_le⟩
  obtain ⟨b, hb, htake⟩ := h.stores
  obtain ⟨s', b', hcall, hb', hcount, -, htake'⟩ :=
    hb.append (Nat.le_of_eq t.length_pData.symm) hpos
  refine ⟨s', ?_, ⟨b', hb', ?_⟩, .inl ?_⟩
  · rw [operator_append, h.strlen, Option.bind_some, hcall]
  · have hfront : b.take u.1.length = u.1.map some := by
      have hle : u.1.length ≤ u.num := Nat.le_succ _
      have hshort := congrArg (List.take u.1.length) htake
      rw [List.take_take, Nat.min_eq_left hle, ← List.map_take, Text.pData,
        List.take_left] at hshort
      exact hshort
    have hlen : (u ++ t).num = u.1.length + t.num := by
      show (u.1 ++ t.1).length + 1 = _
      rw [List.length_append, hnum, Nat.add_assoc]
    have hdata : (u ++ t).pData = u.1 ++ t.pData := List.append_assoc _ _ _
    rw [hlen, htake', hfront, ← t.length_pData, List.take_length, hdata, List.map_append]
  · have hle := h.length_le
    show (u.1 ++ t.1).length < _
    rw [List.length_append, hcount]
    split <;> omega

end Reads

/-! ## 3. The string itself as the argument -/

theorem stale_eq {T : Type} {s s' : FTString T} {b : Cells T} (h : s'.Stores b)
    (hhead : s'.m_pHead = s.m_pHead) (hmax : s'.m_iMaxSize = s.m_iMaxSize) :
    s.stale s' = some b := by
  have hs := h.storage
  unfold stale
  cases hhd : s'.m_pHead with
  | m_Elements =>
      rw [DyArray.storage, hhd] at hs
      rw [← hhead, hhd]
      exact hs
  | m_pDynamicElements =>
      rw [DyArray.storage, hhd] at hs
      rw [← hhead, hhd]
      exact (if_pos hmax).trans hs
  | elsewhere =>
      rw [DyArray.storage, hhd] at hs
      cases hs

namespace Reads

-- An own text does not make the array grow.
theorem room_self (h : Reads s u) :
    ∃ n, (if s.m_iMaxSize ≤ u.num then s.resize u.num else some s) =
      some { s with m_iCount := n } := by
  obtain ⟨b, hb, -⟩ := h.stores
  have hmax : STRING_DEFAULT_SIZE ≤ s.m_iMaxSize := hb.le
  by_cases hle : s.m_iMaxSize ≤ u.num
  · have hcount : u.num ≤ s.m_iCount := by
      cases h.count with
      | inl hlt => exact hlt
      | inr hempty =>
          -- the empty string has room in `m_Elements`
          rw [hempty] at hle
          have hone : STRING_DEFAULT_SIZE ≤ 1 := Nat.le_trans hmax hle
          exact absurd hone (by decide)
    refine ⟨u.num, ?_⟩
    rw [if_pos hle, DyArray.resize, if_pos hcount]
  · exact ⟨s.m_iCount, if_neg hle⟩

theorem assign_self (h : Reads s u) : ∃ s', s.assign_self u.num = some s' ∧ Reads s' ∅ := by
  have hnum := h.num_le
  obtain ⟨b, hb, -⟩ := h.stores
  obtain ⟨n, hroom⟩ := h.room_self
  have hmax : STRING_DEFAULT_SIZE ≤ s.m_iMaxSize := hb.le
  have hsize := Character.sizeof_le (T := T)
  have hlen := hb.length
  obtain ⟨b', hset, hlen'⟩ := DyArray.length_memset (n := s.m_iMaxSize) (Nat.le_of_eq hlen.symm)
  have hpos : 0 < b.length := by
    rw [hlen]
    exact Nat.lt_of_lt_of_le (by decide) hmax
  have hb₁ := hb.count n
  have hb₂ := hb₁.put hlen'
  -- what is copied is what `memset` has left
  have hstale : s.stale (DyArray.put { s with m_iCount := n } b') = some b' :=
    stale_eq hb₂ DyArray.put_m_pHead DyArray.put_m_iMaxSize
  have hread : Block.read b' 0 u.num = some (b'.take u.num) := by
    rw [Block.read_of_le (by omega), List.drop_zero]
  have hwrite : Block.write b' 0 (b'.take u.num) = some b' := by
    rw [Block.write_of_le (by rw [List.length_take]; omega), Block.patch_take]
  have htake := DyArray.take_memset hset (Nat.le_trans hsize hmax) hpos
  refine ⟨_, ?_, ⟨b', (hb₂.put rfl).count u.num, htake⟩, .inr rfl⟩
  simp only [FTString.assign_self, hroom, hb₁.onHead_eq, hset, hstale, hread, hb₂.onHead_eq, hwrite,
    Option.bind_eq_bind, Option.bind_some, Option.map_some]

theorem copy_self (h : Reads s u) : ∃ s', s.copy_self u.num = some s' ∧ Reads s' u := by
  have hnum := h.num_le
  obtain ⟨b, hb, htake⟩ := h.stores
  obtain ⟨n, hroom⟩ := h.room_self
  have hlen := hb.length
  have hb₁ := hb.count n
  have hstale : s.stale { s with m_iCount := n } = some b := stale_eq hb₁ rfl rfl
  have hread : Block.read b 0 u.num = some (b.take u.num) := by
    rw [Block.read_of_le (by omega), List.drop_zero]
  have hwrite : Block.write b 0 (b.take u.num) = some b := by
    rw [Block.write_of_le (by rw [List.length_take]; omega), Block.patch_take]
  obtain ⟨s₂, hs₂⟩ : ∃ s₂, s₂ = DyArray.put { s with m_iCount := n } b := ⟨_, rfl⟩
  have hb₂ : s₂.Stores b := hs₂ ▸ hb₁.put rfl
  refine ⟨{ s₂ with m_iCount := if u.num < s₂.m_iCount then s₂.m_iCount else u.num }, ?_,
    ⟨b, hb₂.count _, htake⟩, .inl ?_⟩
  · simp only [FTString.copy_self, hroom, hstale, hread, hb₁.onHead_eq, hwrite, hs₂,
      Option.bind_eq_bind, Option.bind_some, Option.map_some]
  · have hlt : u.1.length < u.num := Nat.lt_succ_self _
    show u.1.length < if u.num < s₂.m_iCount then s₂.m_iCount else u.num
    split <;> omega

end Reads

/-! ## 4. Sequences of operations -/

theorem reads_new (start : Option (Text T)) :
    ∃ s, new start = some s ∧ Reads s (start.getD ∅) := by
  cases start with
  | none => exact ⟨_, rfl, .new_none⟩
  | some t => exact Reads.new_none.assign (.inr (Nat.succ_pos _))

theorem not_room (h : ¬ s.Room t) : s.m_iMaxSize < t.num ∧ t.num ≤ s.m_iCount := by
  rw [Room, not_or] at h
  omega

variable [DecidableEq T] {op : StringOp T}

theorem Reads.step (h : Reads s u) (hsafe : Safe (s, u) op) :
    ∃ s', op.call s = some s' ∧ Reads s' (op.onText u) := by
  cases op with
  | operator_assign rhs =>
      cases rhs with
      | text t => exact h.assign hsafe
      | self =>
          have hnil : u.1 = [] := by
            have hlen : s.strlen = some 0 := hsafe
            rw [h.strlen, Option.some.injEq, List.length_eq_zero_iff] at hlen
            exact hlen
          obtain ⟨s', hcall, hs'⟩ := h.assign_self
          refine ⟨s', ?_, ?_⟩
          · show s.operator_assign .self = some s'
            rw [FTString.operator_assign, h.strlen, Option.bind_some]
            exact hcall
          · have hempty : u = ∅ := Subtype.ext hnil
            show Reads s' u
            rw [hempty]
            exact hs'
  | FTString_assign t => exact absurd hsafe not_false
  | operator_append t => exact h.append t
  | strcpy rhs =>
      cases rhs with
      | text t => exact h.copy hsafe
      | self =>
          obtain ⟨s', hcall, hs'⟩ := h.copy_self
          refine ⟨s', ?_, hs'⟩
          show s.strcpy .self = some s'
          rw [FTString.strcpy, h.strlen, Option.bind_some]
          exact hcall
  | clear => exact h.clear

-- What makes an operation unsafe makes it go wrong.
theorem Reads.safe_of_right (h : Reads s u) (hright : Right (s, u) op) : Safe (s, u) op := by
  obtain ⟨b, hb, -⟩ := h.stores
  obtain ⟨s', hcall, hc_str⟩ := hright
  cases op with
  | operator_assign rhs =>
      cases rhs with
      | text t =>
          show s.Room t
          by_contra hnot
          have hroom := not_room hnot
          have hnone := hb.assign_eq_none (Nat.le_of_eq t.length_pData.symm) hroom.1 hroom.2
          exact absurd (hnone.symm.trans hcall) (Option.some_ne_none s').symm
      | self =>
          obtain ⟨s'', hcall', hs''⟩ := h.assign_self
          have hcall'' : s.operator_assign .self = some s' := hcall
          rw [FTString.operator_assign, h.strlen, Option.bind_some] at hcall''
          cases Option.some.inj (hcall''.symm.trans hcall')
          have hnil : (∅ : Text T).1 = u.1 := Option.some.inj (hs''.c_str.symm.trans hc_str)
          show s.strlen = some 0
          rw [h.strlen, ← hnil]
          rfl
  | FTString_assign t =>
      have hcopied : s.FTString_assign t = some s' := hcall
      simp only [FTString.FTString_assign, Option.bind_eq_bind, Option.bind_eq_some_iff,
        Option.some.injEq] at hcopied
      obtain ⟨_, -, rhs, -, hs'⟩ := hcopied
      -- nothing can be read at a `m_pHead` that is not the string's
      rw [← hs'] at hc_str
      cases hc_str
  | operator_append t => trivial
  | strcpy rhs =>
      cases rhs with
      | text t =>
          show s.Room t
          by_contra hnot
          have hroom := not_room hnot
          have hnone := hb.copy_eq_none (Nat.le_of_eq t.length_pData.symm) hroom.1 hroom.2
          exact absurd (hnone.symm.trans hcall) (Option.some_ne_none s').symm
      | self => trivial
  | clear => trivial

theorem Reads.right_iff (h : Reads s u) : Right (s, u) op ↔ Safe (s, u) op := by
  constructor
  · exact h.safe_of_right
  · intro hsafe
    obtain ⟨s', hcall, hs'⟩ := h.step hsafe
    exact ⟨s', hcall, hs'.c_str⟩

/-- **Strings behave as strings.**  A string starts with its text, and every operation of a sequence
stays inside the storage and leaves the right `c_str()`, if and only if each `operator=` or `strcpy`
of a text finds room for it or a `size()` that shows the lack of room, no string is assigned to
itself unless it is empty, and `operator=` is never that of `FTString`. -/
theorem c_str_right_iff (start : Option (Text T)) :
    ∃ s₀, new start = some s₀ ∧ c_str s₀ = some (start.getD ∅).1 ∧
      ∀ ops, AllSteps Step (s₀, start.getD ∅) Right ops ↔
        AllSteps Step (s₀, start.getD ∅) Safe ops := by
  obtain ⟨s₀, hnew, h₀⟩ := reads_new start
  refine ⟨s₀, hnew, h₀.c_str, fun ops ↦ ?_⟩
  apply allSteps_iff (I := fun p ↦ Reads p.1 p.2)
  · exact h₀
  · intro p op p' hp hright hstep
    obtain ⟨s', hcall, hs'⟩ := hp.step (hp.right_iff.mp hright)
    cases Option.some.inj (hcall.symm.trans hstep.1)
    rw [hstep.2]
    exact hs'
  · intro p op hp
    exact hp.right_iff

/-- A text of `n` letters. -/
def letters (n : ℕ) : Text UInt8 :=
  ⟨List.replicate n 97, fun h ↦ absurd (List.eq_of_mem_replicate h) (by decide)⟩

/-- 63 letters are appended to an empty string, which makes `size()` 128; then 100 letters are
assigned, with room for 64. -/
theorem not_c_str_right :
    ∃ s₀, new (none : Option (Text UInt8)) = some s₀ ∧
      ¬ AllSteps Step (s₀, ∅) Right
        [.operator_append (letters 63), .operator_assign (.text (letters 100))] := by
  refine ⟨_, rfl, fun h ↦ ?_⟩
  have hnew : (DyArray.new UInt8 STRING_DEFAULT_SIZE).Stores _ := DyArray.stores_new
  obtain ⟨s₁, -, happend, -, hcount, hmax, -⟩ :=
    hnew.append (Nat.le_of_eq (letters 63).length_pData.symm) (Nat.zero_le _)
  have hcount' : s₁.m_iCount = 128 := hcount
  have hmax' : s₁.m_iMaxSize = 64 := hmax
  obtain ⟨s₂, hcall, hs₂⟩ := Reads.new_none.append (letters 63)
  have hsame : s₁ = s₂ := by
    rw [operator_append, Reads.new_none.strlen, Option.bind_some] at hcall
    exact Option.some.inj (happend.symm.trans hcall)
  have hright := h [.operator_append (letters 63)] _ (s₂, ∅ ++ letters 63) (List.prefix_refl _)
    (Path.nil.snoc ⟨hcall, rfl⟩)
  have hroom : s₂.Room (letters 100) := hs₂.safe_of_right hright
  rw [Room, ← hsame, hcount', hmax'] at hroom
  exact absurd hroom (by decide)

end FTString

end Fantuan
