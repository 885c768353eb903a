import Mathlib.Data.List.Nodup
import Mathlib.Logic.Function.Basic

/-!
# Linked stacks — singly linked lists whose links are in the entries

An entry has one link.  An entry that is pushed while it is on the stack loses its successor, and
the stack does not end any more.
-/

namespace Lib

universe u

variable {α : Type u}

/-- The first entry, and the links of all entries. -/
structure LinkedStack (α : Type u) where
  head : Option α
  next : α → Option α

namespace LinkedStack

variable {s : LinkedStack α} {a b : α} {l l' : List α}

def empty : LinkedStack α := ⟨none, fun _ ↦ none⟩

def push [DecidableEq α] (s : LinkedStack α) (a : α) : LinkedStack α :=
  ⟨some a, Function.update s.next a s.head⟩

def pop (s : LinkedStack α) : Option (α × LinkedStack α) :=
  s.head.map fun a ↦ (a, { s with head := s.next a })

/-- `l` are the entries, from the first to the last. -/
def Holds (l : List α) (s : LinkedStack α) : Prop :=
  match l with
  | [] => s.head = none
  | a :: l => s.head = some a ∧ Holds l { s with head := s.next a }

theorem holds_empty : Holds [] (empty : LinkedStack α) := rfl

-- The entries are determined.
theorem Holds.unique (h : Holds l s) (h' : Holds l' s) : l = l' := by
  induction l generalizing s l' with
  | nil =>
      cases l' with
      | nil => rfl
      | cons b l' => cases (show s.head = none from h).symm.trans h'.1
  | cons a l ih =>
      cases l' with
      | nil => cases (show s.head = none from h').symm.trans h.1
      | cons b l' =>
          cases h.1.symm.trans h'.1
          rw [ih h.2 h'.2]

-- The links of other entries do not matter.
theorem Holds.congr {t : LinkedStack α} (h : Holds l s) (hhead : t.head = s.head)
    (hnext : ∀ a ∈ l, t.next a = s.next a) : Holds l t := by
  induction l generalizing s t with
  | nil => exact hhead.trans h
  | cons a l ih =>
      refine ⟨hhead.trans h.1, ih h.2 ?_ fun b hb ↦ hnext b (List.mem_cons_of_mem a hb)⟩
      exact hnext a List.mem_cons_self

/-- A new entry comes first. -/
theorem Holds.push [DecidableEq α] (h : Holds l s) (ha : a ∉ l) : Holds (a :: l) (s.push a) := by
  refine ⟨rfl, h.congr ?_ fun b hb ↦ ?_⟩
  · exact Function.update_self a s.head s.next
  · have hne : b ≠ a := fun he ↦ ha (he ▸ hb)
    exact Function.update_of_ne hne s.head s.next

/-- The first entry is taken, if there is one. -/
theorem Holds.pop (h : Holds l s) :
    s.pop = none ∧ l = [] ∨ ∃ a rest t, s.pop = some (a, t) ∧ l = a :: rest ∧ Holds rest t := by
  cases l with
  | nil =>
      refine .inl ⟨?_, rfl⟩
      rw [LinkedStack.pop, show s.head = none from h, Option.map_none]
  | cons a rest =>
      refine .inr ⟨a, rest, { s with head := s.next a }, ?_, rfl, h.2⟩
      rw [LinkedStack.pop, h.1, Option.map_some]

/-- An entry that is pushed right after it has been popped is back where it was. -/
theorem pop_push [DecidableEq α] {t : LinkedStack α} (h : s.pop = some (a, t)) : t.push a = s := by
  unfold pop at h
  obtain ⟨b, hb, hpair⟩ := Option.map_eq_some_iff.mp h
  cases hpair
  unfold push
  rw [Function.update_eq_self, ← hb]

/-- The entries, whether or not they come to an end. -/
inductive Entry (s : LinkedStack α) : α → Prop
  | first {a : α} (h : s.head = some a) : Entry s a
  | next {a b : α} (h : Entry s a) (hb : s.next a = some b) : Entry s b

theorem entry_cons (h : s.head = some a) :
    s.Entry b ↔ b = a ∨ ({ s with head := s.next a } : LinkedStack α).Entry b := by
  constructor
  · intro hb
    induction hb with
    | first hc => exact .inl (Option.some.inj (hc.symm.trans h))
    | next _ hc ih =>
        cases ih with
        | inl he => exact .inr (.first (he ▸ hc))
        | inr hrest => exact .inr (.next hrest hc)
  · intro hb
    cases hb with
    | inl he => exact .first (he ▸ h)
    | inr hrest =>
        induction hrest with
        | first hc => exact .next (.first h) hc
        | next _ hc ih => exact .next ih hc

theorem Holds.entry_iff (h : Holds l s) : s.Entry a ↔ a ∈ l := by
  induction l generalizing s with
  | nil =>
      refine ⟨fun ha ↦ ?_, fun ha ↦ absurd ha List.not_mem_nil⟩
      have hnone : s.head = none := h
      induction ha with
      | first hc => cases hnone.symm.trans hc
      | next _ _ ih => exact absurd ih List.not_mem_nil
  | cons b l ih => rw [entry_cons h.1, ih h.2, List.mem_cons]

/-- An entry that is pushed twice in a row has itself for a successor. -/
theorem not_holds_push_twice [DecidableEq α] : ¬ ∃ l, Holds l ((s.push a).push a) := by
  rintro ⟨l, hl⟩
  have hself : ((s.push a).push a).next a = some a := by
    simp [LinkedStack.push]
  -- the rest of the entries are the entries again
  have hloop : ∀ l t, Holds l t → t.head = some a → t.next a ≠ some a := by
    intro l
    induction l with
    | nil =>
        intro t ht hhead
        cases (show t.head = none from ht).symm.trans hhead
    | cons b l ih =>
        intro t ht hhead hnext
        cases ht.1.symm.trans hhead
        exact ih _ ht.2 hnext hnext
  exact hloop l _ hl rfl hself

end LinkedStack

end Lib
