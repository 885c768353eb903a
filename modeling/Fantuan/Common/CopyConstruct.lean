import Fantuan.Common.ClassElements

/-!
# The copy constructor of `DyArray`

The new array has the elements of the other one in its cells, of whichever storage, but the size 0
and the `max_size()` of an array that has not grown: neither of the two fields is set again after
the initialiser list.
-/

open Lib

namespace Fantuan

variable {T : Type} {N : ℕ}

/-- What `TypeTraits<T>` says of the type of the elements.  The bytes of `zero` are all 0. -/
inductive TypeTraits (T : Type)
  | isScalar (zero : Zero T)
  | isClass

namespace TypeTraits

variable (traits : TypeTraits T)

/-- `m_Elements` after its bytes have been set to 0. -/
def cleared (N : ℕ) : Cells T :=
  match traits with
  | isScalar zero => List.replicate N (some zero.zero)
  | isClass => List.replicate N none

/-- The constructor. -/
def new (N : ℕ) : DyArray T N :=
  match traits with
  | isScalar _ => .new T N
  | isClass => OfClass.new T N

/-- Copies of the first `_size` elements of `src`, by `memcpy` or one by one. -/
def copyCells (src : Cells T) (_size : ℕ) (b : Cells T) : Option (Cells T) :=
  match traits with
  | isScalar _ => (Block.read src 0 _size).bind (Block.write b 0)
  | isClass => OfClass.copyObjects src 0 _size b

/-- The copy constructor. -/
def copy_construct (rhs : DyArray T N) : Option (DyArray T N) :=
  let _size := rhs.m_iCount
  match rhs.m_pDynamicElements with
  | none => do
      let m_Elements ← traits.copyCells rhs.m_Elements _size (traits.cleared N)
      some ⟨m_Elements, none, .m_Elements, N, 0⟩
  | some m_pDynamicElements => do
      -- `_buy(rhs.max_size())`
      let b ← traits.copyCells m_pDynamicElements _size (List.replicate rhs.m_iMaxSize none)
      some ⟨traits.cleared N, some b, .m_pDynamicElements, N, 0⟩

end TypeTraits

namespace ElementOp

def callOfClass : ElementOp T → DyArray T N → Option (DyArray T N)
  | push_back value, a => OfClass.push_back a value
  | erase _where, a => OfClass.erase a _where
  | erase_range _first _last, a => OfClass.erase_range a _first _last
  | clear, a => OfClass.clear a

def callFor : TypeTraits T → ElementOp T → DyArray T N → Option (DyArray T N)
  | .isScalar _, op, a => op.call a
  | .isClass, op, a => op.callOfClass a

/-- The position, or the range, is one of the array. -/
def InArray : ElementOp T → DyArray T N → Prop
  | erase _where, a => _where < a.m_iCount
  | erase_range _first _last, a => _first ≤ _last ∧ _last ≤ a.m_iCount
  | _, _ => True

/-- `erase(first, last)` would copy objects to their own places. -/
def NoResult : TypeTraits T → ElementOp T → List T → Prop
  | .isClass, erase_range _first _last, l => ¬ OfClass.Apart l _first _last
  | _, _, _ => False

def StepFor (traits : TypeTraits T) (a : DyArray T N) (op : ElementOp T) (a' : DyArray T N) :
    Prop :=
  op.InArray a ∧ op.callFor traits a = some a'

end ElementOp

open ElementOp

/-- Any operations that can be carried out on one of the arrays can be on the other, and leave the
same elements. -/
def SameContents (traits : TypeTraits T) (a b : DyArray T N) : Prop :=
  ∀ ops, (∀ a', Path (StepFor traits) a ops a' →
      ∃ b', Path (StepFor traits) b ops b' ∧ b'.elements = a'.elements) ∧
    ∀ b', Path (StepFor traits) b ops b' →
      ∃ a', Path (StepFor traits) a ops a' ∧ a'.elements = b'.elements

/-- A copy of `a` has its size and its elements and a `max_size()` that is the one of its own
storage, and behaves like `a` from then on. -/
def CopyPreserves (traits : TypeTraits T) (a : DyArray T N) : Prop :=
  ∃ b, traits.copy_construct a = some b ∧ b.m_iCount = a.m_iCount ∧
    (∀ i < a.m_iCount, b.get i = a.get i) ∧
    (∃ s, b.storage = some s ∧ s.length = b.m_iMaxSize) ∧ SameContents traits a b

/-! ## 1. Operations on arrays that hold the same list -/

variable {traits : TypeTraits T} {a a' b : DyArray T N} {l : List T} {op : ElementOp T}

namespace Represents

theorem elements (h : Represents a l) : a.elements = some (l.map some) := by
  obtain ⟨b, hb, htake⟩ := h.stores
  rw [DyArray.elements, hb.storage, Option.map_some, htake]

theorem inside_iff (h : Represents a l) : op.InArray a ↔ op.Inside l := by
  cases op with
  | push_back value => exact Iff.rfl
  | erase _where => rw [InArray, Inside, h.m_iCount]
  | erase_range _first _last => rw [InArray, Inside, h.m_iCount]
  | clear => exact Iff.rfl

theorem callFor (h : Represents a l) (hin : op.Inside l) (hop : ¬ NoResult traits op l) :
    ∃ a', op.callFor traits a = some a' ∧ Represents a' (op.onList l) := by
  cases traits with
  | isScalar zero =>
      obtain ⟨a', hcall, ha', -⟩ := h.step hin
      exact ⟨a', hcall, ha'⟩
  | isClass =>
      cases op with
      | push_back value => exact OfClass.push_back_eq h value
      | erase _where => exact OfClass.erase_eq h hin
      | erase_range _first _last =>
          exact OfClass.erase_range_eq h hin.1 hin.2 (not_not.mp hop)
      | clear =>
          have hclear := OfClass.erase_range_eq h (Nat.zero_le l.length) (Nat.le_refl _) (.inr rfl)
          rwa [List.take_zero, List.drop_length, ← h.m_iCount] at hclear

theorem callFor_eq_none (h : Represents a l) (hin : op.Inside l) (hop : NoResult traits op l) :
    op.callFor traits a = none := by
  cases traits with
  | isScalar zero => exact absurd hop (by cases op <;> exact id)
  | isClass =>
      cases op with
      | erase_range _first _last => exact OfClass.erase_range_eq_none h hin.1 hin.2 hop
      | _ => exact absurd hop id

theorem of_new : Represents (traits.new N) [] := by
  cases traits with
  | isScalar zero => exact new
  | isClass => exact OfClass.represents_new

end Represents

/-- The two arrays hold the same list. -/
def SameList (a b : DyArray T N) : Prop := ∃ l, Represents a l ∧ Represents b l

namespace SameList

theorem symm (h : SameList a b) : SameList b a := by
  obtain ⟨l, ha, hb⟩ := h
  exact ⟨l, hb, ha⟩

theorem elements (h : SameList a b) : b.elements = a.elements := by
  obtain ⟨l, ha, hb⟩ := h
  rw [ha.elements, hb.elements]

theorem step (hstep : StepFor traits a op a') (h : SameList a b) :
    ∃ b', StepFor traits b op b' ∧ SameList a' b' := by
  obtain ⟨l, ha, hb⟩ := h
  have hin := ha.inside_iff.mp hstep.1
  by_cases hop : NoResult traits op l
  · cases (ha.callFor_eq_none hin hop).symm.trans hstep.2
  · obtain ⟨a'', hcall, ha''⟩ := ha.callFor hin hop
    obtain ⟨b', hcall', hb'⟩ := hb.callFor hin hop
    cases Option.some.inj (hcall.symm.trans hstep.2)
    exact ⟨b', ⟨hb.inside_iff.mpr hin, hcall'⟩, _, ha'', hb'⟩

theorem path {ops : List (ElementOp T)} (h : SameList a b)
    (hpath : Path (StepFor traits) a ops a') :
    ∃ b', Path (StepFor traits) b ops b' ∧ SameList a' b' :=
  hpath.simulated SameList h fun _ _ _ _ hstep hsame ↦ hsame.step hstep

theorem sameContents (h : SameList a b) : SameContents traits a b := by
  refine fun ops ↦ ⟨fun a' hpath ↦ ?_, fun b' hpath ↦ ?_⟩
  · obtain ⟨b', hpath', hsame⟩ := h.path hpath
    exact ⟨b', hpath', hsame.elements⟩
  · obtain ⟨a', hpath', hsame⟩ := h.symm.path hpath
    exact ⟨a', hpath', hsame.elements⟩

end SameList

/-! ## 2. Where the elements of an array are -/

/-- An array leaves its inline storage when it grows. -/
def Grown (a : DyArray T N) : Prop := a.m_pHead = .m_Elements ∨ N < a.m_iMaxSize

/-- What an operation does to `m_pHead` and `m_iMaxSize`. -/
def KeepsOrGrows (a a' : DyArray T N) : Prop :=
  a'.m_pHead = a.m_pHead ∧ a'.m_iMaxSize = a.m_iMaxSize ∨ a.m_iMaxSize < a'.m_iMaxSize

theorem onHead_keeps {f : Cells T → Option (Cells T)} (h : a.onHead f = some a') :
    a'.m_pHead = a.m_pHead ∧ a'.m_iMaxSize = a.m_iMaxSize := by
  unfold DyArray.onHead at h
  split at h
  · obtain ⟨c, -, rfl⟩ := Option.map_eq_some_iff.mp h
    exact ⟨rfl, rfl⟩
  · obtain ⟨c, -, rfl⟩ := Option.map_eq_some_iff.mp h
    exact ⟨rfl, rfl⟩
  · cases h

-- The two stages of `push_back(n, value)`, the second with either way to grow.
theorem push_keeps (grow : ℕ → DyArray T N → Option (DyArray T N))
    (hgrow : ∀ extra a a', grow extra a = some a' → a'.m_iMaxSize = a.m_iMaxSize + extra)
    (n : ℕ) (value : T)
    (h : (do
      let extra := if a.m_iMaxSize < a.m_iCount + n then a.m_iCount + n - a.m_iMaxSize else 0
      let a ← (if a.m_iCount < a.m_iMaxSize then a._insert_n (a.m_iMaxSize - a.m_iCount) value
        else some a)
      let a ← (if extra ≠ 0 then grow extra a else some a)
      some { a with m_iCount := a.m_iCount + n }) = some a') : KeepsOrGrows a a' := by
  simp only [Option.bind_eq_bind, Option.bind_eq_some_iff, Option.some.injEq] at h
  obtain ⟨a₁, hfill, a₂, hmore, rfl⟩ := h
  have hkeeps : a₁.m_pHead = a.m_pHead ∧ a₁.m_iMaxSize = a.m_iMaxSize := by
    split at hfill
    · exact onHead_keeps hfill
    · cases hfill
      exact ⟨rfl, rfl⟩
  by_cases hextra : (if a.m_iMaxSize < a.m_iCount + n then a.m_iCount + n - a.m_iMaxSize else 0) ≠ 0
  · rw [if_pos hextra] at hmore
    have hmax := hgrow _ _ _ hmore
    right
    show a.m_iMaxSize < a₂.m_iMaxSize
    omega
  · rw [if_neg hextra] at hmore
    cases hmore
    exact .inl hkeeps

theorem _grow_n_max {value : T} (extra : ℕ) (a a' : DyArray T N)
    (h : a._grow_n extra value = some a') : a'.m_iMaxSize = a.m_iMaxSize + extra := by
  simp only [DyArray._grow_n, Option.bind_eq_bind, Option.bind_eq_some_iff, Option.some.injEq] at h
  obtain ⟨_, -, _, -, _, -, _, -, rfl⟩ := h
  rfl

theorem _grow_n_max_of_class {value : T} (extra : ℕ) (a a' : DyArray T N)
    (h : OfClass._grow_n a extra value = some a') : a'.m_iMaxSize = a.m_iMaxSize + extra := by
  simp only [OfClass._grow_n, Option.bind_eq_bind, Option.bind_eq_some_iff, Option.some.injEq] at h
  obtain ⟨_, -, _, -, rfl⟩ := h
  rfl

-- Both kinds of `erase` change the cells and then the size, unless they assert.
theorem erase_keeps {C : Prop} [Decidable C] {f : Cells T → Option (Cells T)} {off : ℕ}
    (h : (if C then (a.onHead f).bind fun a ↦ some { a with m_iCount := a.m_iCount - off }
      else none) = some a') : KeepsOrGrows a a' := by
  split at h
  · obtain ⟨a₁, hcells, hlast⟩ := Option.bind_eq_some_iff.mp h
    have hkeeps := onHead_keeps hcells
    cases hlast
    exact .inl hkeeps
  · cases h

theorem erase_range_keeps {C : Prop} [Decidable C] {f : Cells T → Option (Cells T)} {off : ℕ}
    (h : (if C then none
      else (a.onHead f).bind fun a ↦ some { a with m_iCount := a.m_iCount - off }) = some a') :
    KeepsOrGrows a a' := by
  rw [← ite_not] at h
  exact erase_keeps h

theorem callFor_keeps (h : op.callFor traits a = some a') : KeepsOrGrows a a' := by
  cases traits with
  | isScalar zero =>
      cases op with
      | push_back value => exact push_keeps (fun n a ↦ a._grow_n n value) _grow_n_max 1 value h
      | erase _where => exact erase_keeps h
      | erase_range _first _last => exact erase_range_keeps h
      | clear => exact erase_range_keeps h
  | isClass =>
      cases op with
      | push_back value =>
          exact push_keeps (fun n a ↦ OfClass._grow_n a n value) _grow_n_max_of_class 1 value h
      | erase _where => exact erase_keeps h
      | erase_range _first _last => exact erase_range_keeps h
      | clear => exact erase_range_keeps h

/-- What the operations keep: the array holds a list, and is in its inline storage as long as it has
the room of one that has not grown. -/
def Reached (a : DyArray T N) : Prop := (∃ l, Represents a l) ∧ Grown a

theorem reached_of_path {ops : List (ElementOp T)}
    (h : Path (StepFor traits) (traits.new N) ops a) : Reached a := by
  apply h.always (I := fun _ a ↦ Reached a)
  · refine ⟨⟨[], Represents.of_new⟩, ?_⟩
    cases traits <;> exact .inl rfl
  · intro _ a op a' hreached hstep
    obtain ⟨⟨l, ha⟩, hgrown⟩ := hreached
    obtain ⟨a'', hstep', l', ha', -⟩ := SameList.step hstep ⟨l, ha, ha⟩
    refine ⟨⟨l', ha'⟩, ?_⟩
    obtain ⟨b, hb, -⟩ := ha.stores
    have hle := hb.le
    obtain ⟨hhead, hmax⟩ | hmax := callFor_keeps hstep.2
    · unfold Grown
      rw [hhead, hmax]
      exact hgrown
    · exact .inr (by omega)

/-! ## 3. Copies -/

-- No field but `m_pHead` and the pointers is set for the copy.
theorem copy_construct_fields (h : traits.copy_construct a = some b) :
    b.m_iCount = 0 ∧ b.m_iMaxSize = N := by
  unfold TypeTraits.copy_construct at h
  split at h
  · obtain ⟨_, -, hb⟩ := Option.bind_eq_some_iff.mp h
    cases hb
    exact ⟨rfl, rfl⟩
  · obtain ⟨_, -, hb⟩ := Option.bind_eq_some_iff.mp h
    cases hb
    exact ⟨rfl, rfl⟩

theorem copyCells_zero (src c : Cells T) : traits.copyCells src 0 c = some c := by
  cases traits with
  | isScalar zero =>
      have hread : Block.read src 0 0 = some [] := by
        rw [Block.read_of_le (Nat.zero_le _), List.take_zero]
      have hin : 0 + ([] : Cells T).length ≤ c.length := Nat.zero_le _
      rw [TypeTraits.copyCells, hread, Option.bind_some, Block.write_of_le hin, Block.patch_nil]
  | isClass => rfl

-- A copy of an empty array is a new one, or one with a block that it has no use for.
theorem copy_construct_inline (hempty : a.m_iCount = 0) (hd : a.m_pDynamicElements = none) :
    traits.copy_construct a = some (traits.new N) := by
  simp only [TypeTraits.copy_construct, hd, hempty, copyCells_zero, Option.bind_eq_bind,
    Option.bind_some]
  cases traits <;> rfl

theorem copy_construct_dynamic {src : Cells T} (hempty : a.m_iCount = 0)
    (hd : a.m_pDynamicElements = some src) :
    traits.copy_construct a = some ⟨traits.cleared N, some (List.replicate a.m_iMaxSize none),
      .m_pDynamicElements, N, 0⟩ := by
  simp only [TypeTraits.copy_construct, hd, hempty, copyCells_zero, Option.bind_eq_bind,
    Option.bind_some]

namespace Reached

variable (h : Reached a)

include h

-- The array is in its inline storage if and only if it has the room of a new one.
theorem inline_iff : a.m_pDynamicElements = none ↔ a.m_iMaxSize = N := by
  obtain ⟨⟨l, ha⟩, hgrown⟩ := h
  obtain ⟨b, hb, -⟩ := ha.stores
  rw [← hb.head]
  constructor
  · intro hhead
    have hs := hb.storage
    rw [DyArray.storage, hhead, Option.some.injEq] at hs
    rw [← hb.length, ← hs, hb.inline]
  · intro hmax
    obtain hhead | hlt := hgrown
    · exact hhead
    · omega

theorem copyPreserves_iff : CopyPreserves traits a ↔ a.m_iCount = 0 ∧ a.m_iMaxSize = N := by
  constructor
  · intro hcopy
    obtain ⟨b, hb, hcount, -, ⟨s, hs, hlen⟩, -⟩ := hcopy
    have hfields := copy_construct_fields hb
    have hempty : a.m_iCount = 0 := hcount.symm.trans hfields.1
    refine ⟨hempty, ?_⟩
    cases hd : a.m_pDynamicElements with
    | none => exact h.inline_iff.mp hd
    | some src =>
        -- the block of the copy is as large as the one of `a`
        cases (copy_construct_dynamic hempty hd).symm.trans hb
        cases hs
        rwa [List.length_replicate] at hlen
  · intro hnew
    have hcopy : traits.copy_construct a = some (traits.new N) :=
      copy_construct_inline hnew.1 (h.inline_iff.mpr hnew.2)
    obtain ⟨⟨l, ha⟩, -⟩ := h
    have hl : l = [] := List.eq_nil_of_length_eq_zero (ha.m_iCount.symm.trans hnew.1)
    have hfields := copy_construct_fields hcopy
    have hrep : Represents (traits.new N) [] := Represents.of_new
    obtain ⟨s, hs, -⟩ := hrep.stores
    refine ⟨_, hcopy, hfields.1.trans hnew.1.symm, fun i hi ↦ ?_, ⟨s, hs.storage, hs.length⟩,
      SameList.sameContents ⟨[], hl ▸ ha, hrep⟩⟩
    omega

end Reached

/-- **Copy construction preserves the value** of an array that `push_back`, `erase` and `clear` have
led to if and only if the array is empty and has never grown. -/
theorem copy_preserves_iff (traits : TypeTraits T) (ops : List (ElementOp T)) (a : DyArray T N)
    (h : Path (StepFor traits) (traits.new N) ops a) :
    CopyPreserves traits a ↔ a.m_iCount = 0 ∧ a.m_iMaxSize = N :=
  (reached_of_path h).copyPreserves_iff

/-- An array with four inline cells, of a class type, whose one element has been erased. -/
theorem copy_preserves_erased :
    ∃ a : DyArray String 4,
      Path (StepFor .isClass) (TypeTraits.isClass.new 4) [.push_back "a", .erase 0] a ∧
        CopyPreserves .isClass a := by
  have hpush : StepFor .isClass (TypeTraits.isClass.new 4) (.push_back "a")
      (⟨List.replicate 4 (some "a"), none, .m_Elements, 4, 1⟩ : DyArray String 4) :=
    ⟨trivial, rfl⟩
  have herase : StepFor .isClass (⟨List.replicate 4 (some "a"), none, .m_Elements, 4, 1⟩ :
      DyArray String 4) (.erase 0)
      ⟨[none, some "a", some "a", some "a"], none, .m_Elements, 4, 0⟩ :=
    ⟨Nat.one_pos, rfl⟩
  have hpath := (Path.nil.snoc hpush).snoc herase
  exact ⟨_, hpath, (copy_preserves_iff .isClass _ _ hpath).mpr ⟨rfl, rfl⟩⟩

/-- The copy of an array with one element has the size 0. -/
theorem not_copy_preserves :
    ∃ a : DyArray UInt8 4,
      Path (StepFor (.isScalar ⟨0⟩)) ((TypeTraits.isScalar ⟨0⟩).new 4) [.push_back 5] a ∧
        ¬ CopyPreserves (.isScalar ⟨0⟩) a := by
  have hpush : StepFor (.isScalar ⟨0⟩) ((TypeTraits.isScalar ⟨0⟩).new 4) (.push_back 5)
      (⟨List.replicate 4 (some 5), none, .m_Elements, 4, 1⟩ : DyArray UInt8 4) :=
    ⟨trivial, rfl⟩
  refine ⟨_, Path.nil.snoc hpush, fun h ↦ ?_⟩
  obtain ⟨b, hb, hcount, -⟩ := h
  have hzero : ((TypeTraits.isScalar ⟨0⟩).copy_construct
      (⟨List.replicate 4 (some 5), none, .m_Elements, 4, 1⟩ : DyArray UInt8 4)).map
      DyArray.m_iCount = some 0 := by
    decide
  rw [hb, Option.map_some, hcount] at hzero
  cases hzero

end Fantuan
