import Mathlib.Computability.StateTransition

/-!
# Runs — what holds along the runs of a transition system

Two kinds of systems: a step function `σ → Option σ`, whose runs and final states are Mathlib's
`StateTransition.Reaches` and `StateTransition.eval`, and a labelled step relation, whose runs are
`Path`.  For both there is one induction rule: what holds at the start and is kept by every step
holds wherever the run comes to.
-/

namespace Lib

universe u v

/-! ## 1. Deterministic systems -/

section Deterministic

variable {σ : Type u} {f : σ → Option σ} {a b : σ} {I : σ → Prop}

open StateTransition

theorem reaches_of_step {c : σ} (h : f a = some b) (hbc : Reaches f b c) : Reaches f a c :=
  Relation.ReflTransGen.head h hbc

/-- An invariant of the step function holds in every state of a run. -/
theorem Reaches.invariant (h : Reaches f a b) (ha : I a)
    (hstep : ∀ s t, I s → f s = some t → I t) : I b := by
  induction h with
  | refl => exact ha
  | tail _ hst ih => exact hstep _ _ ih hst

/-- A run that can always go on from the states of an invariant does not end. -/
theorem not_dom_of_invariant (ha : I a) (hstep : ∀ s, I s → ∃ t, f s = some t ∧ I t) :
    ¬ (eval f a).Dom := by
  intro hdom
  obtain ⟨hreach, hnone⟩ := mem_eval.mp (Part.get_mem hdom)
  have hinv : I ((eval f a).get hdom) := Reaches.invariant hreach ha fun s t hs hst ↦ by
    obtain ⟨t', ht', hI⟩ := hstep s hs
    rw [ht', Option.some.injEq] at hst
    exact hst ▸ hI
  obtain ⟨t, ht, -⟩ := hstep _ hinv
  rw [hnone] at ht
  cases ht

/-- Step functions that agree on the states of an invariant have the same runs. -/
theorem reaches_congr {g : σ → Option σ} (ha : I a) (hfg : ∀ s, I s → g s = f s)
    (hstep : ∀ s t, I s → f s = some t → I t) : Reaches g a b ↔ Reaches f a b := by
  have hto : ∀ c, Reaches f a c → Reaches g a c ∧ I c := by
    intro c hc
    induction hc with
    | refl => exact ⟨.refl, ha⟩
    | tail _ hst ih => exact ⟨ih.1.tail ((hfg _ ih.2).trans hst), hstep _ _ ih.2 hst⟩
  constructor
  · intro h
    induction h with
    | refl => exact .refl
    | tail _ hst ih => exact ih.tail ((hfg _ (hto _ ih).2).symm.trans hst)
  · exact fun h ↦ (hto b h).1

/-- Step functions that agree on the states of an invariant have the same final states. -/
theorem eval_congr {g : σ → Option σ} (ha : I a) (hfg : ∀ s, I s → g s = f s)
    (hstep : ∀ s t, I s → f s = some t → I t) : eval g a = eval f a := by
  apply Part.ext
  intro c
  rw [mem_eval, mem_eval, reaches_congr ha hfg hstep]
  apply and_congr_right
  intro hc
  rw [hfg c (Reaches.invariant hc ha hstep)]

end Deterministic

/-! ## 2. Labelled systems -/

section Labelled

variable {S : Type u} {L : Type v} {R : S → L → S → Prop} {s t : S} {ls : List L}

/-- `Path R s ls t`: the system can go from `s` to `t` by steps with the labels `ls`. -/
inductive Path (R : S → L → S → Prop) (s : S) : List L → S → Prop
  | nil : Path R s [] s
  | snoc {ls : List L} {t u : S} {l : L} : Path R s ls t → R t l u → Path R s (ls ++ [l]) u

/-- The steps of `R` that start in a state, and have a label, that meet `C`. -/
def Guarded (C : S → L → Prop) (R : S → L → S → Prop) : S → L → S → Prop :=
  fun s l t ↦ C s l ∧ R s l t

/-- Each of the labels comes after labels with which `A` allows it. -/
def Each (A : List L → L → Prop) (ls : List L) : Prop :=
  ∀ before l, before ++ [l] <+: ls → A before l

/-- `P` holds of every step that runs with the labels `ls` come to: of the state before it and of
its label. -/
def AllSteps (R : S → L → S → Prop) (s : S) (P : S → L → Prop) (ls : List L) : Prop :=
  ∀ before l t, before ++ [l] <+: ls → Path R s before t → P t l

theorem path_nil : Path R s [] t ↔ s = t := by
  constructor
  · intro h
    generalize hls : ([] : List L) = ls at h
    cases h with
    | nil => rfl
    | snoc => exact absurd hls.symm (List.append_ne_nil_of_right_ne_nil _ (List.cons_ne_nil _ _))
  · rintro rfl
    exact .nil

theorem path_snoc {l : L} : Path R s (ls ++ [l]) t ↔ ∃ u, Path R s ls u ∧ R u l t := by
  constructor
  · intro h
    -- the last step of the run is the one with the label `l`
    generalize hm : ls ++ [l] = m at h
    cases h with
    | nil => exact absurd hm (List.append_ne_nil_of_right_ne_nil _ (List.cons_ne_nil l []))
    | snoc hpath hl =>
        rcases List.append_inj' hm rfl with ⟨rfl, hsingle⟩
        cases hsingle
        exact ⟨_, hpath, hl⟩
  · rintro ⟨u, hpath, hl⟩
    exact hpath.snoc hl

theorem Path.mono {R' : S → L → S → Prop} (h : Path R s ls t)
    (hR : ∀ s l t, R s l t → R' s l t) : Path R' s ls t := by
  induction h with
  | nil => exact .nil
  | snoc _ hl ih => exact ih.snoc (hR _ _ _ hl)

theorem Path.of_guarded {C : S → L → Prop} (h : Path (Guarded C R) s ls t) : Path R s ls t :=
  h.mono fun _ _ _ hl ↦ hl.2

theorem Path.append {ms : List L} {u : S} (h : Path R s ls t) (hu : Path R t ms u) :
    Path R s (ls ++ ms) u := by
  induction hu with
  | nil =>
      rw [List.append_nil]
      exact h
  | snoc _ hl ih =>
      rw [← List.append_assoc]
      exact ih.snoc hl

/-- A run begins with a run. -/
theorem Path.of_prefix {before : List L} (h : Path R s ls t) (hpre : before <+: ls) :
    ∃ u, Path R s before u := by
  induction h with
  | nil =>
      rw [List.prefix_nil.mp hpre]
      exact ⟨s, .nil⟩
  | snoc hpath hl ih =>
      rcases List.prefix_concat_iff.mp hpre with rfl | hpre'
      · exact ⟨_, hpath.snoc hl⟩
      · exact ih hpre'

/-- Where every step has one result, so has every run. -/
theorem Path.unique {u : S} (h : Path R s ls t) (hu : Path R s ls u)
    (hR : ∀ s l t u, R s l t → R s l u → t = u) : t = u := by
  induction h generalizing u with
  | nil => exact path_nil.mp hu
  | snoc _ hl ih =>
      rcases path_snoc.mp hu with ⟨v, hv, hlu⟩
      cases ih hv
      exact hR _ _ _ _ hl hlu

/-- A relation between the states of two systems that holds at the start, and that a step of the
second can keep up with every step of the first, holds at the end of runs with the same labels. -/
theorem Path.simulated {S' : Type u} {R' : S' → L → S' → Prop} {s' : S'} (h : Path R s ls t)
    (Rel : S → S' → Prop) (hs : Rel s s')
    (hstep : ∀ s l t s', R s l t → Rel s s' → ∃ t', R' s' l t' ∧ Rel t t') :
    ∃ t', Path R' s' ls t' ∧ Rel t t' := by
  induction h with
  | nil => exact ⟨s', .nil, hs⟩
  | snoc _ hl ih =>
      obtain ⟨t', hpath, ht⟩ := ih
      obtain ⟨u', hl', hu⟩ := hstep _ _ _ _ hl ht
      exact ⟨u', hpath.snoc hl', hu⟩

/-- The same where a step of the first system is a step of the second or no step at all. -/
theorem Path.stuttering {σ : Type u} {A : σ → σ → Prop} {a : σ} (h : Path R s ls t)
    (Rel : S → σ → Prop) (hs : Rel s a)
    (hstep : ∀ s l t a, R s l t → Rel s a → ∃ b, Relation.ReflGen A a b ∧ Rel t b) :
    ∃ b, Relation.ReflTransGen A a b ∧ Rel t b := by
  induction h with
  | nil => exact ⟨a, .refl, hs⟩
  | snoc _ hl ih =>
      obtain ⟨b, hab, hb⟩ := ih
      obtain ⟨c, hbc, hc⟩ := hstep _ _ _ _ hl hb
      exact ⟨c, hab.trans hbc.to_reflTransGen, hc⟩

/-- A run of a larger system is one of a smaller, where each of its steps is a step of the smaller
under the label that `f` gives it, or has no label there and leaves the smaller state alone. -/
theorem Path.projected {S' : Type u} {L' : Type v} {R' : S' → L' → S' → Prop} {f : L → Option L'}
    {g : S → S'} (h : Path R s ls t)
    (hkept : ∀ s l t m, R s l t → f l = some m → R' (g s) m (g t))
    (hother : ∀ s l t, R s l t → f l = none → g t = g s) :
    Path R' (g s) (ls.filterMap f) (g t) := by
  induction h with
  | nil => exact .nil
  | @snoc ls t u l _ hl ih =>
      rw [List.filterMap_append]
      cases hf : f l with
      | none =>
          rw [List.filterMap_cons_none hf, List.filterMap_nil, List.append_nil, hother t l u hl hf]
          exact ih
      | some m =>
          rw [List.filterMap_cons_some hf, List.filterMap_nil]
          exact ih.snoc (hkept t l u m hl hf)

theorem each_nil {A : List L → L → Prop} : Each A [] := by
  intro before l h
  exact absurd (List.prefix_nil.mp h) (List.append_ne_nil_of_right_ne_nil _ (List.cons_ne_nil l []))

theorem each_snoc {A : List L → L → Prop} {l : L} :
    Each A (ls ++ [l]) ↔ Each A ls ∧ A ls l := by
  constructor
  · intro h
    exact ⟨fun before l' hb ↦ h before l' (hb.trans (List.prefix_append ls [l])),
      h ls l (List.prefix_refl _)⟩
  · rintro ⟨h, hl⟩ before l' hb
    rcases List.prefix_concat_iff.mp hb with he | hb'
    · rcases List.append_inj' he rfl with ⟨rfl, hsingle⟩
      cases hsingle
      exact hl
    · exact h before l' hb'

theorem each_of_mem {A : List L → L → Prop} (h : ∀ l ∈ ls, ∀ before, A before l) : Each A ls :=
  fun before l hl ↦ h l (hl.subset (by simp)) before

theorem Each.left {A : List L → L → Prop} {ms : List L} (h : Each A (ls ++ ms)) : Each A ls :=
  fun before l hl ↦ h before l (hl.trans (List.prefix_append ls ms))

theorem each_and {A B : List L → L → Prop} :
    Each (fun before l ↦ A before l ∧ B before l) ls ↔ Each A ls ∧ Each B ls :=
  ⟨fun h ↦ ⟨fun before l hl ↦ (h before l hl).1, fun before l hl ↦ (h before l hl).2⟩,
    fun h before l hl ↦ ⟨h.1 before l hl, h.2 before l hl⟩⟩

/-- One of the labels is an `A`, and no label after it is a `B`. -/
def Since (A B : L → Prop) (ls : List L) : Prop :=
  ∃ before l after, ls = before ++ l :: after ∧ A l ∧ ∀ m ∈ after, ¬ B m

theorem since_nil {A B : L → Prop} : ¬ Since A B [] := by
  rintro ⟨before, l, after, he, -⟩
  exact absurd he.symm (List.append_ne_nil_of_right_ne_nil _ (List.cons_ne_nil l after))

theorem since_snoc {A B : L → Prop} {l : L} :
    Since A B (ls ++ [l]) ↔ A l ∨ Since A B ls ∧ ¬ B l := by
  constructor
  · rintro ⟨before, m, after, he, hm, hafter⟩
    rcases List.eq_nil_or_concat after with rfl | ⟨middle, last, rfl⟩
    · rcases List.append_inj' he rfl with ⟨-, hlast⟩
      cases hlast
      exact .inl hm
    · rw [List.concat_eq_append] at he hafter
      rw [← List.cons_append, ← List.append_assoc] at he
      rcases List.append_inj' he rfl with ⟨rfl, hlast⟩
      cases hlast
      right
      constructor
      · exact ⟨before, m, middle, rfl, hm, fun m' hmem ↦ hafter m' (List.mem_append_left _ hmem)⟩
      · exact hafter l (List.mem_append_right _ (List.mem_singleton_self l))
  · rintro (hl | ⟨⟨before, m, after, rfl, hm, hafter⟩, hl⟩)
    · exact ⟨ls, l, [], rfl, hl, fun _ hmem ↦ absurd hmem List.not_mem_nil⟩
    · refine ⟨before, m, after ++ [l], by simp, hm, fun m' hmem ↦ ?_⟩
      rcases List.mem_append.mp hmem with hmem | hmem
      · exact hafter m' hmem
      · rw [List.mem_singleton.mp hmem]
        exact hl

/-- What holds at the start and is kept by every step that `A` allows holds at the end of every run
whose labels `A` allows. -/
theorem Path.invariant {I : List L → S → Prop} {A : List L → L → Prop} (h : Path R s ls t)
    (hA : Each A ls) (hs : I [] s)
    (hstep : ∀ ls s l t, Each A ls → I ls s → A ls l → R s l t → I (ls ++ [l]) t) : I ls t := by
  induction h with
  | nil => exact hs
  | snoc _ hl ih =>
      rw [each_snoc] at hA
      exact hstep _ _ _ _ hA.1 (ih hA.1) hA.2 hl

/-- What holds at the start and is kept by every step holds at the end of every run. -/
theorem Path.always {I : List L → S → Prop} (h : Path R s ls t) (hs : I [] s)
    (hstep : ∀ ls s l t, I ls s → R s l t → I (ls ++ [l]) t) : I ls t :=
  h.invariant (A := fun _ _ ↦ True) (fun _ _ _ ↦ trivial) hs
    fun ls s l t _ hI _ hst ↦ hstep ls s l t hI hst

theorem allSteps_nil {P : S → L → Prop} : AllSteps R s P [] := by
  intro before l t h
  exact absurd (List.prefix_nil.mp h) (List.append_ne_nil_of_right_ne_nil _ (List.cons_ne_nil l []))

theorem AllSteps.snoc {P : S → L → Prop} {l : L} (h : AllSteps R s P ls)
    (hl : ∀ t, Path R s ls t → P t l) : AllSteps R s P (ls ++ [l]) := by
  intro before l' t hpre ht
  rcases List.prefix_concat_iff.mp hpre with he | hpre'
  · rcases List.append_inj' he rfl with ⟨rfl, hsingle⟩
    cases hsingle
    exact hl t ht
  · exact h before l' t hpre' ht

/-- What holds at the start and is kept by the steps of which `P` holds. -/
theorem AllSteps.invariant {P : S → L → Prop} {I : S → Prop} {before : List L}
    (h : AllSteps R s P ls) (hs : I s) (hkeep : ∀ s l t, I s → P s l → R s l t → I t)
    (hpre : before <+: ls) (ht : Path R s before t) : I t := by
  induction ht with
  | nil => exact hs
  | snoc hpath hl ih =>
      have hpre' := (List.prefix_append _ _).trans hpre
      exact hkeep _ _ _ (ih hpre') (h _ _ _ hpre hpath) hl

theorem allSteps_and {P Q : S → L → Prop} :
    AllSteps R s (fun t l ↦ P t l ∧ Q t l) ls ↔ AllSteps R s P ls ∧ AllSteps R s Q ls := by
  constructor
  · intro h
    exact ⟨fun before l t hpre ht ↦ (h before l t hpre ht).1,
      fun before l t hpre ht ↦ (h before l t hpre ht).2⟩
  · intro h before l t hpre ht
    exact ⟨h.1 before l t hpre ht, h.2 before l t hpre ht⟩

/-- Two conditions on steps that agree on the states of an invariant, which either of them keeps,
hold of the same runs. -/
theorem allSteps_iff {P Q : S → L → Prop} {I : S → Prop} (hs : I s)
    (hkeep : ∀ s l t, I s → P s l → R s l t → I t) (hiff : ∀ s l, I s → (P s l ↔ Q s l)) :
    AllSteps R s P ls ↔ AllSteps R s Q ls := by
  constructor
  · intro h before l t hpre ht
    have hI := h.invariant hs hkeep ((List.prefix_append _ _).trans hpre) ht
    exact (hiff t l hI).mp (h before l t hpre ht)
  · intro h before l t hpre ht
    have hI := h.invariant hs (fun s l t hI hQ ↦ hkeep s l t hI ((hiff s l hI).mpr hQ))
      ((List.prefix_append _ _).trans hpre) ht
    exact (hiff t l hI).mpr (h before l t hpre ht)

end Labelled

end Lib
