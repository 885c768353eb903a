import Fantuan.Common.Characters
import Fantuan.Lib.Block
import Fantuan.Lib.Storage

/-!
# array.h, local_string.h — `LocalString` and `LocalWString`

A local string is an `Array` of `size` characters, in an array of `size * sizeof(T)` `char`s.
`Array::append` gets a position in characters and adds it to a pointer to `char`.  As for
`FTString`, the `operator=` of `StringBase` is hidden by the one that the compiler defines, which
also copies the members of `m_Buffer`.
-/

open Lib

namespace Fantuan

/-- What `m_pHead` points to: the elements of the array itself, or those of one that is gone. -/
inductive ArrayHead
  | m_Elements
  | elsewhere
deriving DecidableEq, Repr

structure FTArray (T : Type) [Scalar T] (N : ℕ) where
  m_Elements : Storage UInt8 (N * Scalar.sizeof T)
  m_pHead : ArrayHead

namespace FTArray

variable {T : Type} [Encoded T] {N : ℕ} (a : FTArray T N)

/-! ## 1. The methods -/

/-- The constructor. -/
def new : FTArray T N := ⟨.replicate _ 0, .m_Elements⟩

/-- A method has no result where an `FT_ASSERT` fails or memory outside `m_Elements` is written. -/
def assign (pData : List T) (len : ℕ) : Option (FTArray T N) :=
  if len ≤ N then do
    let m_Elements := Storage.replicate (N * Scalar.sizeof T) 0
    let m_Elements ← m_Elements.memcpy 0 (pack pData) (Scalar.sizeof T * len)
    some { a with m_Elements }
  else none

def append (pData : List T) (len pos : ℕ) : Option (FTArray T N) :=
  if len + pos ≤ N then do
    -- `pos` is added to a pointer to `char`
    let m_Elements ← a.m_Elements.memcpy pos (pack pData) (Scalar.sizeof T * len)
    some { a with m_Elements }
  else none

end FTArray

abbrev FTLocalString (T : Type) [Encoded T] (size : ℕ) : Type := FTArray T size

abbrev LocalString (size : ℕ) : Type := FTLocalString UInt8 size

abbrev LocalWString (size : ℕ) : Type := FTLocalString UInt32 size

inductive LocalOp (T : Type) [Zero T]
  | operator_assign (pData : Text T)
  | LocalString_assign (rhs : Text T)
  | operator_append (pData : Text T)

namespace FTLocalString

variable {T : Type} [Encoded T] [DecidableEq T] {size : ℕ} (s : FTLocalString T size)

def c_str : Option (List T) :=
  match s.m_pHead with
  | .m_Elements => readText s.m_Elements.data
  | .elsewhere => none

def strlen : Option ℕ := s.c_str.map List.length

/-- The constructor with a text. -/
def new (t : Text T) : Option (FTLocalString T size) := FTArray.new.assign t.pData t.num

/-- `operator=` of `StringBase`. -/
def operator_assign (t : Text T) : Option (FTLocalString T size) := s.assign t.pData t.num

/-- `operator=` of `LocalString` and `LocalWString`: the text is made a string, then comes what
`StringBase` does, and then the members of `m_Buffer`; `m_pHead` points into the other string. -/
def LocalString_assign (t : Text T) : Option (FTLocalString T size) := do
  let _ ← s.operator_assign t
  let rhs : FTLocalString T size ← new t
  some { rhs with m_pHead := .elsewhere }

def operator_append (t : Text T) : Option (FTLocalString T size) :=
  s.strlen.bind fun pos ↦ s.append t.pData t.num pos

end FTLocalString

namespace LocalOp

variable {T : Type} [Encoded T] [DecidableEq T] {size : ℕ}

def call : LocalOp T → FTLocalString T size → Option (FTLocalString T size)
  | operator_assign t, s => FTLocalString.operator_assign s t
  | LocalString_assign t, s => FTLocalString.LocalString_assign s t
  | operator_append t, s => FTLocalString.operator_append s t

/-- What the operation does to the text. -/
def onText : LocalOp T → Text T → Text T
  | operator_assign t, _ => t
  | LocalString_assign t, _ => t
  | operator_append t, u => u ++ t

/-- A string together with the text it should hold. -/
def Step (p : FTLocalString T size × Text T) (op : LocalOp T)
    (p' : FTLocalString T size × Text T) : Prop :=
  op.call p.1 = some p'.1 ∧ p'.2 = op.onText p.2

/-- The resulting text and its terminator fit the string. -/
def Fits (p : FTLocalString T size × Text T) (op : LocalOp T) : Prop := (op.onText p.2).num ≤ size

/-- The operation stays inside the elements, and `c_str()` is the right text afterwards. -/
def Right (p : FTLocalString T size × Text T) (op : LocalOp T) : Prop :=
  ∃ s', op.call p.1 = some s' ∧ FTLocalString.c_str s' = some (op.onText p.2).1

/-- Appending `t` to `u` at byte `strlen` is appending it: the characters are single bytes, or there
are none yet, or only a terminator is written, over bytes that are 0. -/
def InPlace (u t : Text T) : Prop :=
  Scalar.sizeof T = 1 ∨ u = ∅ ∨
    t = ∅ ∧ ((pack u.pData).drop u.1.length).take (Scalar.sizeof T) =
      List.replicate (Scalar.sizeof T) 0

def Safe (p : FTLocalString T size × Text T) : LocalOp T → Prop
  | operator_assign _ => True
  | LocalString_assign _ => False
  | operator_append t => InPlace p.2 t

end LocalOp

open LocalOp

/-! ## 2. One operation -/

namespace FTLocalString

variable {T : Type} [Encoded T] {size : ℕ} {s : FTLocalString T size} {t u : Text T}

/-- The string holds the text, and zeros behind it. -/
structure Holds (s : FTLocalString T size) (u : Text T) : Prop where
  head : s.m_pHead = .m_Elements
  data : ∃ k, s.m_Elements.data = pack u.pData ++ List.replicate k 0

-- Copying a text with its terminator.
theorem memcpy_text (m : Storage UInt8 (size * Scalar.sizeof T)) (t : Text T) {off : ℕ}
    (h : off + Scalar.sizeof T * t.num ≤ size * Scalar.sizeof T) :
    ∃ m', m.memcpy off (pack t.pData) (Scalar.sizeof T * t.num) = some m' ∧
      m'.data = Block.patch m.data off (pack t.pData) := by
  have hlen := t.length_pack_pData
  cases hm : m.memcpy off (pack t.pData) (Scalar.sizeof T * t.num) with
  | none =>
      rw [Storage.memcpy_eq_none] at hm
      omega
  | some m' =>
      refine ⟨m', rfl, ?_⟩
      have hdata := (Storage.memcpy_eq_some.mp hm).2.2
      rw [hdata, Block.patch, hlen, ← hlen, List.take_length]

theorem assign_spec (s : FTLocalString T size) (ht : t.num ≤ size) :
    ∃ s', s.assign t.pData t.num = some s' ∧ s'.m_pHead = s.m_pHead ∧
      ∃ k, s'.m_Elements.data = pack t.pData ++ List.replicate k 0 := by
  have hroom : 0 + Scalar.sizeof T * t.num ≤ size * Scalar.sizeof T := by
    rw [Nat.zero_add, Nat.mul_comm]
    exact Nat.mul_le_mul_right _ ht
  rcases memcpy_text (Storage.replicate (size * Scalar.sizeof T) 0) t hroom with ⟨m', hm, hdata⟩
  refine ⟨{ s with m_Elements := m' }, ?_, rfl, ?_⟩
  · rw [FTArray.assign, if_pos ht]
    simp only [hm, Option.bind_eq_bind, Option.bind_some]
  · refine ⟨size * Scalar.sizeof T - (0 + (pack t.pData).length), ?_⟩
    rw [hdata, Block.patch, List.take_zero, List.nil_append, Storage.replicate,
      List.drop_replicate]

theorem new_spec (ht : t.num ≤ size) : ∃ s : FTLocalString T size, new t = some s ∧ Holds s t := by
  rcases assign_spec (FTArray.new : FTLocalString T size) ht with ⟨s, hnew, hhead, hdata⟩
  exact ⟨s, hnew, hhead, hdata⟩

theorem Holds.assign (h : Holds s u) (ht : t.num ≤ size) :
    ∃ s', s.operator_assign t = some s' ∧ Holds s' t := by
  rcases assign_spec s ht with ⟨s', hcall, hhead, hdata⟩
  exact ⟨s', hcall, hhead.trans h.head, hdata⟩

-- The byte at which `operator+=` writes comes before the terminator.
theorem Holds.pos_le (h : Holds s u) : u.1.length ≤ s.m_Elements.data.length := by
  rcases h.data with ⟨k, hk⟩
  have hz := Scalar.sizeof_pos (T := T)
  have hlen := u.length_pack_pData
  have hmul : u.num ≤ Scalar.sizeof T * u.num := Nat.le_mul_of_pos_left _ hz
  have hnum : u.num = u.1.length + 1 := rfl
  rw [hk, List.length_append]
  omega

variable [DecidableEq T]

namespace Holds

theorem c_str (h : Holds s u) : s.c_str = some u.1 := by
  rcases h.data with ⟨k, hk⟩
  rw [FTLocalString.c_str, h.head]
  apply readText_eq_some.mpr
  rw [hk]
  exact ⟨u.2, List.prefix_append _ _⟩

theorem strlen (h : Holds s u) : s.strlen = some u.1.length := by
  rw [FTLocalString.strlen, h.c_str, Option.map_some]

-- What `operator+=` does to the bytes.
theorem append (h : Holds s u) (hfits : (u ++ t).num ≤ size) :
    ∃ s', s.operator_append t = some s' ∧ s'.m_pHead = .m_Elements ∧
      s'.m_Elements.data = Block.patch s.m_Elements.data u.1.length (pack t.pData) := by
  have hz := Scalar.sizeof_pos (T := T)
  have hsum : (u ++ t).num = u.1.length + t.num := by
    show (u.1 ++ t.1).length + 1 = u.1.length + (t.1.length + 1)
    rw [List.length_append, Nat.add_assoc]
  have hroom : u.1.length + Scalar.sizeof T * t.num ≤ size * Scalar.sizeof T := by
    calc u.1.length + Scalar.sizeof T * t.num
        ≤ Scalar.sizeof T * u.1.length + Scalar.sizeof T * t.num :=
          Nat.add_le_add_right (Nat.le_mul_of_pos_left _ hz) _
      _ = (u ++ t).num * Scalar.sizeof T := by rw [← Nat.mul_add, hsum, Nat.mul_comm]
      _ ≤ size * Scalar.sizeof T := Nat.mul_le_mul_right _ hfits
  rcases memcpy_text s.m_Elements t hroom with ⟨m', hm, hdata⟩
  refine ⟨{ s with m_Elements := m' }, ?_, h.head, hdata⟩
  rw [operator_append, h.strlen, Option.bind_some, FTArray.append, if_pos (by omega)]
  simp only [hm, Option.bind_eq_bind, Option.bind_some]

-- Where bytes are characters, or there is nothing to count, the text comes behind the old one.
theorem append_at (h : Holds s u) (hfits : (u ++ t).num ≤ size)
    (hpos : u.1.length = (pack u.1).length) :
    ∃ s', s.operator_append t = some s' ∧ Holds s' (u ++ t) := by
  rcases h.data with ⟨k, hk⟩
  rcases h.append hfits with ⟨s', hcall, hhead, hdata⟩
  refine ⟨s', hcall, hhead, ?_⟩
  rw [u.pack_pData, List.append_assoc, ← List.replicate_add] at hk
  rw [hpos, hk, Block.patch, List.take_left, ← List.drop_drop, List.drop_left,
    List.drop_replicate, ← pack_append] at hdata
  have hboth : (u ++ t).pData = u.1 ++ t.pData := List.append_assoc _ _ _
  rw [hboth]
  exact ⟨_, hdata⟩

-- Where zeros stand already nothing changes.
theorem append_zeros (h : Holds s u) (hfits : (u ++ t).num ≤ size) (ht : t = ∅)
    (hzeros : ((pack u.pData).drop u.1.length).take (Scalar.sizeof T) =
      List.replicate (Scalar.sizeof T) 0) :
    ∃ s', s.operator_append t = some s' ∧ Holds s' (u ++ t) := by
  subst ht
  rcases h.data with ⟨k, hk⟩
  rcases h.append hfits with ⟨s', hcall, hhead, hdata⟩
  have hend := u.length_add_le
  have hwritten : pack (∅ : Text T).pData =
      (s.m_Elements.data.drop u.1.length).take (Scalar.sizeof T) := by
    rw [hk, List.drop_append_of_le_length (by omega),
      List.take_append_of_le_length (by rw [List.length_drop]; omega), hzeros, Text.pack_pData]
    rfl
  have hsame : u ++ (∅ : Text T) = u := Subtype.ext (List.append_nil u.1)
  rw [hwritten, Block.patch_self (by rw [hk, List.length_append]; omega)] at hdata
  rw [hsame]
  exact ⟨s', hcall, hhead, k, hdata.trans hk⟩

end Holds

/-! ## 3. Appending at the wrong byte -/

section Misplaced

omit [DecidableEq T]

-- Behind its characters a text has zeros only.
theorem getD_behind (t : Text T) (k : ℕ) {i : ℕ} (hi : t.1.length * Scalar.sizeof T ≤ i) :
    (pack t.pData ++ List.replicate k 0).getD i 0 = 0 := by
  have hlen : (pack t.1).length ≤ i := by rwa [length_pack]
  rw [t.pack_pData, List.append_assoc, ← List.replicate_add,
    List.getD_append_right _ _ _ _ hlen, List.getD_eq_getElem?_getD,
    List.getElem?_getD_replicate_default_eq]

-- The bytes of a character in the middle.
theorem getD_middle (l : List T) (c : T) (rest : List UInt8) {k : ℕ} (hk : k < Scalar.sizeof T) :
    (pack l ++ (pack [c] ++ rest)).getD (l.length * Scalar.sizeof T + k) 0 =
      (pack [c]).getD k 0 := by
  have hc : (pack [c]).length = Scalar.sizeof T := by
    rw [length_pack, List.length_singleton, Nat.one_mul]
  rw [List.getD_append_right _ _ _ _ (by rw [length_pack]; omega), length_pack,
    Nat.add_sub_cancel_left, List.getD_append _ _ _ _ (by omega)]

-- The last character of an appended text would have to be 0: the bytes in its place are behind all
-- that was written, but for one byte if there was a single character before.
theorem not_misplaced (hz : 1 < Scalar.sizeof T) (hu : 0 < u.1.length) (h : Holds s u)
    (ht : t ≠ ∅) :
    ¬ pack (u ++ t).pData <+:
      Block.patch s.m_Elements.data u.1.length (pack t.pData) := by
  rintro ⟨rest, hpre⟩
  have hpos := h.pos_le
  rcases h.data with ⟨k₀, hdata⟩
  rcases List.eq_nil_or_concat t.1 with hnil | ⟨l, c, hlc⟩
  · exact ht (Subtype.ext hnil)
  rw [List.concat_eq_append] at hlc
  have hn : t.1.length = l.length + 1 := by
    rw [hlc, List.length_append, List.length_singleton]
  have hmul : t.1.length * Scalar.sizeof T = l.length * Scalar.sizeof T + Scalar.sizeof T := by
    rw [hn, Nat.succ_mul]
  have hlen : (pack t.pData).length = t.1.length * Scalar.sizeof T + Scalar.sizeof T := by
    rw [t.length_pack_pData, Text.num, Nat.mul_succ, Nat.mul_comm]
  obtain ⟨D, hD⟩ : ∃ D, D = Block.patch s.m_Elements.data u.1.length (pack t.pData) := ⟨_, rfl⟩
  rw [← hD] at hpre
  -- where the character is read, and where it was written
  have hread : ∀ k, k < Scalar.sizeof T →
      D.getD ((u.1.length + l.length) * Scalar.sizeof T + k) 0 = (pack [c]).getD k 0 := by
    intro k hk
    have hsplit : pack (u ++ t).pData ++ rest =
        pack (u.1 ++ l) ++ (pack [c] ++ (pack [(0 : T)] ++ rest)) := by
      have hboth : (u ++ t).pData = u.1 ++ l ++ [c] ++ [0] := by
        show u.1 ++ t.1 ++ [0] = _
        rw [hlc, ← List.append_assoc]
      rw [hboth, pack_append, pack_append, List.append_assoc, List.append_assoc]
    rw [← hpre, hsplit, ← List.length_append, getD_middle _ _ _ hk]
  have hwritten : ∀ k, k < Scalar.sizeof T →
      (pack t.pData).getD (l.length * Scalar.sizeof T + k) 0 = (pack [c]).getD k 0 := by
    intro k hk
    rw [Text.pData, hlc, pack_append, pack_append, List.append_assoc, getD_middle _ _ _ hk]
  have hbehind : ∀ i, u.1.length * Scalar.sizeof T ≤ i →
      u.1.length + t.1.length * Scalar.sizeof T ≤ i → D.getD i 0 = 0 := by
    intro i hi hti
    rw [hD, Block.getD_patch hpos, if_neg (by omega)]
    split
    · have hzero := getD_behind t 0 (i := i - u.1.length) (by omega)
      rwa [List.replicate_zero, List.append_nil] at hzero
    · rw [hdata]
      exact getD_behind u k₀ hi
  have hlast : ∀ k, k < Scalar.sizeof T → 1 < u.1.length ∨ 0 < k →
      (pack [c]).getD k 0 = 0 := by
    intro k hk hone
    rw [← hread k hk]
    have hsum : (u.1.length + l.length) * Scalar.sizeof T =
        u.1.length * Scalar.sizeof T + l.length * Scalar.sizeof T := Nat.add_mul _ _ _
    apply hbehind
    · omega
    · have hgap : u.1.length + Scalar.sizeof T ≤ u.1.length * Scalar.sizeof T + k := by
        rcases hone with hone | hone
        · exact Nat.le_trans (Nat.add_le_mul hone hz) (Nat.le_add_right _ _)
        · have hle : u.1.length * 1 + Scalar.sizeof T ≤ u.1.length * Scalar.sizeof T + 1 := by
            rcases Nat.exists_eq_add_of_lt hu with ⟨m, hm⟩
            rcases Nat.exists_eq_add_of_lt hz with ⟨w, hw⟩
            rw [hm, hw]
            ring_nf
            omega
          omega
      omega
  have hall : ∀ k, k < Scalar.sizeof T → (pack [c]).getD k 0 = 0 := by
    intro k hk
    by_cases hone : 1 < u.1.length ∨ 0 < k
    · exact hlast k hk hone
    · -- one byte further on stands the last byte of the same character
      have hu1 : u.1.length = 1 := by omega
      have hk0 : k = 0 := by omega
      have hi : (u.1.length + l.length) * Scalar.sizeof T =
          l.length * Scalar.sizeof T + Scalar.sizeof T := by
        rw [hu1, Nat.add_mul, Nat.one_mul, Nat.add_comm]
      rw [← hread k hk, hD, Block.getD_patch hpos, if_neg (by omega), if_pos (by omega)]
      have hprev : (u.1.length + l.length) * Scalar.sizeof T + k - u.1.length =
          l.length * Scalar.sizeof T + (Scalar.sizeof T - 1) := by omega
      rw [hprev, hwritten _ (by omega)]
      exact hlast _ (by omega) (.inr (by omega))
  -- so that the text would have a 0 in it
  have hzero : pack [c] = pack [(0 : T)] := by
    have hc : (pack [c]).length = Scalar.sizeof T := by
      rw [length_pack, List.length_singleton, Nat.one_mul]
    rw [pack_zero, List.eq_replicate_iff]
    refine ⟨hc, fun b hb ↦ ?_⟩
    rcases List.getElem_of_mem hb with ⟨k, hk, rfl⟩
    have hb := hall k (by omega)
    rwa [List.getD_eq_getElem _ _ hk] at hb
  rw [pack, pack, Codec.pack_singleton, Codec.pack_singleton, Codec.encode_inj] at hzero
  apply t.2
  rw [hlc, hzero]
  exact List.mem_append_right _ (List.mem_singleton_self 0)

-- A terminator that is written into the text has to be there already.
theorem zeros_of_prefix (h : Holds s u)
    (hpre : pack u.pData <+: Block.patch s.m_Elements.data u.1.length (pack (∅ : Text T).pData)) :
    ((pack u.pData).drop u.1.length).take (Scalar.sizeof T) =
      List.replicate (Scalar.sizeof T) 0 := by
  have hpos := h.pos_le
  have hend := u.length_add_le
  have hpart : (s.m_Elements.data.take u.1.length).length = u.1.length := by
    rw [List.length_take]
    omega
  have hterm : pack (∅ : Text T).pData = List.replicate (Scalar.sizeof T) 0 := by
    rw [Text.pack_pData]
    rfl
  rcases hpre with ⟨rest, hrest⟩
  have hdrop := congrArg (fun b ↦ (b.drop u.1.length).take (Scalar.sizeof T)) hrest
  rw [List.drop_append_of_le_length (by omega),
    List.take_append_of_le_length (by rw [List.length_drop]; omega), Block.patch, hterm,
    List.append_assoc, List.drop_left' hpart, List.take_left' List.length_replicate] at hdrop
  exact hdrop

end Misplaced

/-! ## 4. Sequences of operations -/

variable {p : FTLocalString T size × Text T} {op : LocalOp T}

theorem Holds.step (h : Holds p.1 p.2) (hfits : Fits p op) (hsafe : Safe p op) :
    ∃ s', op.call p.1 = some s' ∧ Holds s' (op.onText p.2) := by
  cases op with
  | operator_assign t => exact h.assign hfits
  | LocalString_assign t => exact hsafe.elim
  | operator_append t =>
      rcases hsafe with hone | hempty | ⟨ht, hzeros⟩
      · apply h.append_at hfits
        rw [length_pack, hone, Nat.mul_one]
      · apply h.append_at hfits
        rw [hempty]
        rfl
      · exact h.append_zeros hfits ht hzeros

theorem Holds.safe_of_right (h : Holds p.1 p.2) (hfits : Fits p op) (hright : Right p op) :
    Safe p op := by
  rcases hright with ⟨s', hcall, hs'⟩
  cases op with
  | operator_assign t => trivial
  | LocalString_assign t =>
      -- whatever was assigned, it is somewhere else
      have ht : t.num ≤ size := hfits
      rcases h.assign ht with ⟨s₁, hassign, -⟩
      have hrhs : ∃ rhs : FTLocalString T size, new t = some rhs ∧ Holds rhs t := new_spec ht
      rcases hrhs with ⟨rhs, hnew, -⟩
      have hcall' : LocalString_assign p.1 t = some s' := hcall
      rw [LocalString_assign, hassign, hnew] at hcall'
      cases hcall'
      cases hs'
  | operator_append t =>
      rcases h.append hfits with ⟨s₁, happend, hhead, hdata⟩
      cases happend.symm.trans hcall
      rw [FTLocalString.c_str, hhead] at hs'
      have hpre := (readText_eq_some.mp hs').2
      rw [hdata] at hpre
      show InPlace p.2 t
      by_cases hone : Scalar.sizeof T = 1
      · exact .inl hone
      by_cases hempty : p.2 = ∅
      · exact .inr (.inl hempty)
      have hz := Scalar.sizeof_pos (T := T)
      have hu : 0 < p.2.1.length :=
        List.length_pos_iff.mpr fun hnil ↦ hempty (Subtype.ext hnil)
      by_cases ht : t = ∅
      · rw [ht] at hpre
        have hsame : p.2.1 ++ (∅ : Text T).1 = p.2.1 := List.append_nil _
        rw [onText, show (p.2 ++ (∅ : Text T)).1 = p.2.1 from hsame] at hpre
        exact .inr (.inr ⟨ht, zeros_of_prefix h hpre⟩)
      · exact absurd hpre (not_misplaced (by omega) hu h ht)

theorem Holds.right_iff (h : Holds p.1 p.2) (hfits : Fits p op) : Right p op ↔ Safe p op := by
  constructor
  · exact h.safe_of_right hfits
  · intro hsafe
    rcases h.step hfits hsafe with ⟨s', hcall, hs'⟩
    exact ⟨s', hcall, hs'.c_str⟩

/-- **Fixed-size strings.**  From a text that fits, and with operations whose results fit, every
operation stays inside the elements and leaves the right `c_str()` if and only if `operator=` is
never the one of the string itself and `operator+=` always appends in place. -/
theorem localString_right_iff (start : Text T) (hstart : start.num ≤ size) :
    ∃ s₀ : FTLocalString T size, new start = some s₀ ∧ c_str s₀ = some start.1 ∧
      ∀ ops, AllSteps Step (s₀, start) Fits ops →
        (AllSteps Step (s₀, start) Right ops ↔ AllSteps Step (s₀, start) Safe ops) := by
  rcases new_spec hstart with ⟨s₀, hnew, h₀⟩
  refine ⟨s₀, hnew, h₀.c_str, fun ops hfits ↦ ?_⟩
  have hboth : AllSteps Step (s₀, start) (fun p op ↦ Fits p op ∧ Right p op) ops ↔
      AllSteps Step (s₀, start) (fun p op ↦ Fits p op ∧ Safe p op) ops := by
    apply allSteps_iff (I := fun p ↦ Holds p.1 p.2)
    · exact h₀
    · intro p op p' hp hfr hstep
      rcases hp.step hfr.1 (hp.safe_of_right hfr.1 hfr.2) with ⟨s', hcall, hs'⟩
      cases Option.some.inj (hcall.symm.trans hstep.1)
      rw [hstep.2]
      exact hs'
    · intro p op hp
      apply and_congr_right
      exact hp.right_iff
  rw [allSteps_and, allSteps_and, and_iff_right hfits, and_iff_right hfits] at hboth
  exact hboth

/-- A single character. -/
def letter (c : T) (hc : 0 ≠ c) : Text T := ⟨[c], fun h ↦ hc (List.mem_singleton.mp h)⟩

/-- A `LocalString<3>` of one letter, to which one is appended before it gets a third one. -/
theorem localString_right_one :
    ∃ s₀ : LocalString 3, new (letter 97 (by decide)) = some s₀ ∧ c_str s₀ = some [97] ∧
      AllSteps Step (s₀, letter 97 (by decide)) Right
        [.operator_append (letter 98 (by decide)), .operator_assign (letter 99 (by decide))] := by
  obtain ⟨s₀, hnew, htext, hall⟩ :=
    localString_right_iff (T := UInt8) (letter 97 (by decide)) (by decide : _ ≤ 3)
  have hfits : AllSteps Step (s₀, letter 97 (by decide)) Fits
      ([] ++ [.operator_append (letter 98 (by decide))] ++
        [.operator_assign (letter 99 (by decide))]) := by
    refine .snoc (.snoc allSteps_nil fun p hp ↦ ?_) fun p _ ↦ ?_
    · cases path_nil.mp hp
      show (letter 97 (by decide) ++ letter 98 (by decide) : Text UInt8).num ≤ 3
      decide
    · show (letter (99 : UInt8) (by decide)).num ≤ 3
      decide
  refine ⟨s₀, hnew, htext, (hall _ hfits).mpr fun before op p hpre _ ↦ ?_⟩
  have hmem := hpre.subset (List.mem_append_right before (List.mem_singleton_self op))
  rw [List.nil_append, List.mem_append, List.mem_singleton, List.mem_singleton] at hmem
  rcases hmem with rfl | rfl
  · exact .inl rfl
  · trivial

/-- A `LocalWString<3>` of one letter to which one is appended; and a `LocalString<3>` of one letter
to which one is assigned. -/
theorem not_localString_right :
    (∃ s₀ : LocalWString 3, new (letter 97 (by decide)) = some s₀ ∧
      Fits (s₀, letter 97 (by decide)) (.operator_append (letter 98 (by decide))) ∧
      ¬ Right (s₀, letter 97 (by decide)) (.operator_append (letter 98 (by decide)))) ∧
    ∃ s₀ : LocalString 3, new (letter 97 (by decide)) = some s₀ ∧
      Fits (s₀, letter 97 (by decide)) (.LocalString_assign (letter 98 (by decide))) ∧
      ¬ Right (s₀, letter 97 (by decide)) (.LocalString_assign (letter 98 (by decide))) := by
  constructor
  · have hnew : ∃ s₀ : LocalWString 3, new (letter 97 (by decide)) = some s₀ ∧
        Holds s₀ (letter 97 (by decide)) := new_spec (by decide)
    rcases hnew with ⟨s₀, hnew, h₀⟩
    have hfits : Fits (s₀, letter 97 (by decide)) (.operator_append (letter 98 (by decide))) :=
      (by decide : 3 ≤ 3)
    refine ⟨s₀, hnew, hfits, fun hright ↦ ?_⟩
    have hsafe : InPlace (letter (97 : UInt32) (by decide)) (letter 98 (by decide)) :=
      h₀.safe_of_right hfits hright
    rcases hsafe with hone | hempty | ⟨hempty, -⟩
    · exact absurd hone (by decide : (4 : ℕ) ≠ 1)
    · cases congrArg Subtype.val hempty
    · cases congrArg Subtype.val hempty
  · have hnew : ∃ s₀ : LocalString 3, new (letter 97 (by decide)) = some s₀ ∧
        Holds s₀ (letter 97 (by decide)) := new_spec (by decide)
    rcases hnew with ⟨s₀, hnew, h₀⟩
    have hfits : Fits (s₀, letter 97 (by decide)) (.LocalString_assign (letter 98 (by decide))) :=
      (by decide : 2 ≤ 3)
    exact ⟨s₀, hnew, hfits, fun hright ↦ h₀.safe_of_right hfits hright⟩

end FTLocalString

end Fantuan
