import Fantuan.Common.ElementOps

/-!
# easy_baseserver.cpp — `PushCommand` and `_CommandHandler`

Any thread may push a command; one thread executes them.  What is done while `m_CommandMutex` is
held is one step.  `wait_for` gives the mutex up while it waits, so a thread may push then, and
between two iterations.
-/

open Lib

namespace Fantuan

variable {ι : Type}

def ARRAY_MIN_SIZE : ℕ := 1

/-- An `EasyCommand*`. -/
inductive CommandPtr (ι : Type)
  | null
  | to (pCommand : ι)
deriving DecidableEq

instance : Zero (CommandPtr ι) := ⟨.null⟩

inductive CommandEvent (ι : Type)
  | executed (pCommand : ι)
  | deleted (pCommand : ι)
deriving DecidableEq

def CommandEvent.executed? : CommandEvent ι → Option ι
  | executed pCommand => some pCommand
  | deleted _ => none

/-- Where `_CommandHandler` is: between two critical sections, or in `wait_for`, where it may have
been notified. -/
inductive HandlerPoint
  | running
  | waiting (notified : Bool)
deriving DecidableEq

/-- `notify_one()`, which has no effect when nobody waits. -/
def HandlerPoint.notify_one : HandlerPoint → HandlerPoint
  | running => running
  | waiting _ => waiting true

/-- How `wait_for` ends. -/
inductive Wakes
  | notified
  | spurious
  | timeout
deriving DecidableEq

structure CommandQueue (ι : Type) where
  m_CommandList : DyArray (CommandPtr ι) ARRAY_MIN_SIZE
  handler : HandlerPoint
  log : List (CommandEvent ι)
deriving DecidableEq

inductive CommandStep (ι : Type)
  | PushCommand (pCommand : ι)
  | wait_for
  | returns (how : Wakes)

namespace CommandQueue

variable (q : CommandQueue ι)

/-! ## 1. The two threads -/

def new (ι : Type) : CommandQueue ι where
  m_CommandList := .new _ _
  handler := .running
  log := []

def PushCommand (pCommand : ι) : Option (CommandQueue ι) := do
  let m_CommandList ← q.m_CommandList.push_back (CommandPtr.to pCommand)
  some { q with handler := q.handler.notify_one, m_CommandList }

/-- The loop over the commands: `_OnCommand(*it); SAFE_DELETE(*it);`. -/
def serve (it : ℕ) : ℕ → CommandQueue ι → Option (CommandQueue ι)
  | 0, q => some q
  | count + 1, q =>
      match q.m_CommandList.get it with
      | some (.to pCommand) => do
          let m_CommandList ← q.m_CommandList.set it .null
          serve (it + 1) count
            { q with m_CommandList, log := q.log ++ [.executed pCommand, .deleted pCommand] }
      | _ => none

/-- The rest of the iteration, from where `wait_for` returns. -/
def returns (how : Wakes) : Option (CommandQueue ι) := do
  let q ← (if how ≠ .timeout then do
      let q ← serve 0 q.m_CommandList.m_iCount q
      let m_CommandList ← q.m_CommandList.clear
      some { q with m_CommandList }
    else some q)
  some { q with handler := .running }

def call : CommandStep ι → Option (CommandQueue ι)
  | .PushCommand pCommand => q.PushCommand pCommand
  | .wait_for => some { q with handler := .waiting false }
  | .returns how => q.returns how

def Enabled : CommandStep ι → Prop
  | .PushCommand _ => True
  | .wait_for => q.handler = .running
  | .returns .notified => q.handler = .waiting true
  | .returns _ => q.handler ≠ .running

def Step (q : CommandQueue ι) (l : CommandStep ι) (q' : CommandQueue ι) : Prop :=
  q.Enabled l ∧ q.call l = some q'

/-- The commands that were passed to `_OnCommand`. -/
def executed : List ι := q.log.filterMap CommandEvent.executed?

/-- The commands that the steps push, in the order in which they take the lock. -/
def pushed (ls : List (CommandStep ι)) : List ι :=
  ls.filterMap fun
    | .PushCommand pCommand => some pCommand
    | _ => none

/-! ## 2. One critical section -/

/-- `done` has been executed, `l` is in the list. -/
structure Holds (q : CommandQueue ι) (done l : List ι) : Prop where
  list : Represents q.m_CommandList (l.map .to)
  log : q.log = done.flatMap fun c ↦ [.executed c, .deleted c]

variable {q} {done l : List ι}

theorem holds_new : (new ι).Holds [] [] := ⟨.new, rfl⟩

theorem filterMap_executed (done : List ι) :
    (done.flatMap fun c ↦ [.executed c, .deleted c]).filterMap CommandEvent.executed? = done := by
  induction done with
  | nil => rfl
  | cons c done ih =>
      rw [List.flatMap_cons, List.filterMap_append, ih]
      rfl

theorem Holds.executed (h : q.Holds done l) : q.executed = done := by
  rw [CommandQueue.executed, h.log, filterMap_executed]

theorem Holds.elements (h : q.Holds done l) :
    q.m_CommandList.elements = some (l.map fun c ↦ some (.to c)) := by
  cases h.list.stores with
  | intro b hb =>
      rw [DyArray.elements, hb.1.storage, Option.map_some, hb.2, List.map_map]
      rfl

theorem Holds.PushCommand (h : q.Holds done l) (pCommand : ι) :
    ∃ q', q.PushCommand pCommand = some q' ∧ q'.Holds done (l ++ [pCommand]) := by
  have hpush := h.list.push_back (.to pCommand)
  cases hpush with
  | intro a ha =>
      refine ⟨{ q with handler := q.handler.notify_one, m_CommandList := a }, ?_, ?_, h.log⟩
      · simp only [CommandQueue.PushCommand, ha.1, Option.bind_eq_bind, Option.bind_some]
      · rw [List.map_append]
        exact ha.2.1

-- The loop comes to the commands one after the other and leaves null pointers behind.
theorem serve_eq (nulls : List (CommandPtr ι))
    (h : Represents q.m_CommandList (nulls ++ l.map .to)) :
    ∃ q' nulls', serve nulls.length l.length q = some q' ∧ Represents q'.m_CommandList nulls' ∧
      q'.log = q.log ++ l.flatMap fun c ↦ [.executed c, .deleted c] := by
  induction l generalizing q nulls with
  | nil =>
      rw [List.map_nil, List.append_nil] at h
      exact ⟨q, nulls, rfl, h, (List.append_nil _).symm⟩
  | cons c l ih =>
      rw [List.map_cons] at h
      have hset := h.set .null
      cases hset with
      | intro a ha =>
          -- the pointer to `c` is null now, as those before it
          have hrest : Represents a ((nulls ++ [.null]) ++ l.map .to) := by
            rw [List.append_assoc]
            exact ha.2
          have hloop := ih (q := { q with
            m_CommandList := a, log := q.log ++ [.executed c, .deleted c] }) _ hrest
          rw [List.length_append] at hloop
          simp only [List.length_cons, serve, h.get, ha.1, Option.bind_eq_bind, Option.bind_some]
          rwa [List.append_assoc] at hloop

theorem Holds.served (h : q.Holds done l) {how : Wakes} (hhow : how ≠ .timeout) :
    ∃ q', q.returns how = some q' ∧ q'.Holds (done ++ l) [] := by
  have hcount : q.m_CommandList.m_iCount = l.length := by
    rw [h.list.m_iCount, List.length_map]
  obtain ⟨q₁, nulls, hserve, hlist, hlog⟩ := serve_eq [] h.list
  obtain ⟨a, hclear, ha, -⟩ := hlist.clear
  refine ⟨{ q₁ with m_CommandList := a, handler := .running }, ?_, ha, ?_⟩
  · rw [List.length_nil] at hserve
    simp only [CommandQueue.returns, if_pos hhow, hcount, hserve, hclear, Option.bind_eq_bind,
      Option.bind_some]
  · show q₁.log = _
    rw [hlog, h.log, List.flatMap_append]

theorem returns_timeout : q.returns .timeout = some { q with handler := .running } := rfl

/-- **One step** neither loses nor repeats a command. -/
theorem Holds.step (h : q.Holds done l) (label : CommandStep ι) :
    ∃ q' done' l', q.call label = some q' ∧ q'.Holds done' l' ∧
      done' ++ l' = done ++ l ++ pushed [label] := by
  cases label with
  | PushCommand pCommand =>
      obtain ⟨q', hcall, h'⟩ := h.PushCommand pCommand
      exact ⟨q', done, l ++ [pCommand], hcall, h', (List.append_assoc _ _ _).symm⟩
  | wait_for =>
      exact ⟨{ q with handler := .waiting false }, done, l, rfl, ⟨h.list, h.log⟩,
        (List.append_nil _).symm⟩
  | returns how =>
      by_cases hhow : how = .timeout
      · rw [hhow]
        exact ⟨{ q with handler := .running }, done, l, returns_timeout, ⟨h.list, h.log⟩,
          (List.append_nil _).symm⟩
      · obtain ⟨q', hcall, h'⟩ := h.served hhow
        exact ⟨q', done ++ l, [], hcall, h', rfl⟩

/-! ## 3. Runs -/

theorem holds_of_path {ls : List (CommandStep ι)} (h : Path Step (new ι) ls q) :
    ∃ done l, q.Holds done l ∧ done ++ l = pushed ls := by
  induction h with
  | nil => exact ⟨[], [], holds_new, rfl⟩
  | @snoc ls q q' label _ hstep ih =>
      obtain ⟨done, l, hq, hpushed⟩ := ih
      obtain ⟨q'', done', l', hcall, hq', hall⟩ := hq.step label
      cases Option.some.inj (hcall.symm.trans hstep.2)
      refine ⟨done', l', hq', ?_⟩
      rw [hall, hpushed, pushed, pushed, pushed, List.filterMap_append]

/-- **Commands are executed once, in the order in which they were pushed.**  In every state that the
threads come to, the commands executed and then those in the list are the commands pushed; each
execution is followed by the one deletion of its command; and no step fails. -/
theorem commands_in_order {ls : List (CommandStep ι)} (h : Path Step (new ι) ls q) :
    (∃ l, q.m_CommandList.elements = some (l.map fun c ↦ some (.to c)) ∧
      q.executed ++ l = pushed ls) ∧
    q.log = (q.executed.flatMap fun c ↦ [.executed c, .deleted c]) ∧
    ∀ label, q.Enabled label → ∃ q', Step q label q' := by
  obtain ⟨done, l, hq, hpushed⟩ := holds_of_path h
  refine ⟨⟨l, hq.elements, ?_⟩, ?_, fun label henabled ↦ ?_⟩
  · rw [hq.executed, hpushed]
  · rw [hq.executed, hq.log]
  · obtain ⟨q', -, -, hcall, -⟩ := hq.step label
    exact ⟨q', henabled, hcall⟩

/-- Two commands are pushed while the handler waits, and executed. -/
theorem commands_in_order_two :
    ∃ q : CommandQueue ℕ,
      Path Step (new ℕ) [.wait_for, .PushCommand 5, .PushCommand 7, .returns .notified] q ∧
      q.executed = [5, 7] ∧
      q.executed = pushed [.wait_for, .PushCommand 5, .PushCommand 7, .returns .notified] ∧
      q.m_CommandList.elements = some [] := by
  have h₁ : Path Step (new ℕ) [.wait_for] _ := Path.nil.snoc ⟨rfl, rfl⟩
  have h₂ : Path Step (new ℕ) [.wait_for, .PushCommand 5] _ := h₁.snoc ⟨trivial, rfl⟩
  have h₃ : Path Step (new ℕ) [.wait_for, .PushCommand 5, .PushCommand 7] _ :=
    h₂.snoc ⟨trivial, rfl⟩
  have h₄ : Path Step (new ℕ) [.wait_for, .PushCommand 5, .PushCommand 7, .returns .notified] _ :=
    h₃.snoc ⟨rfl, rfl⟩
  obtain ⟨⟨l, hl, hpushed⟩, -, -⟩ := commands_in_order h₄
  have hnil : l = [] := by
    cases l with
    | nil => rfl
    | cons c l => cases hl
  rw [hnil, List.append_nil] at hpushed
  exact ⟨_, h₄, rfl, hpushed, rfl⟩

/-! ## 4. Lost wake-ups -/

/-- An iteration executes the commands that are in the list when its `wait_for` returns. -/
def Served (q : CommandQueue ι) : CommandStep ι → Prop
  | .returns how => q.Enabled (.returns how) →
      ∃ q' l, q.returns how = some q' ∧
        q.m_CommandList.elements = some (l.map fun c ↦ some (.to c)) ∧
        q'.executed = q.executed ++ l
  | _ => True

/-- No command is in the list when `wait_for` times out. -/
def NothingLate (q : CommandQueue ι) : CommandStep ι → Prop
  | .returns .timeout => q.handler ≠ .running → q.m_CommandList.m_iCount = 0
  | _ => True

theorem Holds.served_iff (h : q.Holds done l) (label : CommandStep ι) :
    q.Served label ↔ q.NothingLate label := by
  have hcount : q.m_CommandList.m_iCount = l.length := by
    rw [h.list.m_iCount, List.length_map]
  cases label with
  | PushCommand pCommand => exact Iff.rfl
  | wait_for => exact Iff.rfl
  | returns how =>
      by_cases hhow : how = .timeout
      · subst hhow
        constructor
        · intro hserved hwaits
          -- nothing is executed, so there was nothing in the list
          obtain ⟨q', l', hcall, helements, hexecuted⟩ := hserved hwaits
          rw [returns_timeout, Option.some.injEq] at hcall
          subst hcall
          have hnil : l' = [] := by
            have hsame : q.executed = q.executed ++ l' := hexecuted
            rwa [List.self_eq_append_right] at hsame
          rw [hnil, h.elements, Option.some.injEq, List.map_nil, List.map_eq_nil_iff] at helements
          rw [hcount, helements]
          rfl
        · intro hempty hwaits
          have hnil : l = [] := List.length_eq_zero_iff.mp (hcount.symm.trans (hempty hwaits))
          exact ⟨_, l, returns_timeout, h.elements, by rw [hnil, List.append_nil]; rfl⟩
      · refine ⟨fun _ ↦ ?_, fun _ _ ↦ ?_⟩
        · cases how with
          | timeout => exact absurd rfl hhow
          | notified => trivial
          | spurious => trivial
        · obtain ⟨q', hcall, hq'⟩ := h.served hhow
          refine ⟨q', l, hcall, h.elements, ?_⟩
          rw [hq'.executed, h.executed]

/-- **Every iteration executes the commands it finds**, in all iterations of a run if and only if no
`wait_for` of the run times out with commands in the list. -/
theorem served_iff_nothingLate (ls : List (CommandStep ι)) :
    AllSteps Step (new ι) Served ls ↔ AllSteps Step (new ι) NothingLate ls := by
  apply allSteps_iff (I := fun q ↦ ∃ done l, q.Holds done l)
  · exact ⟨[], [], holds_new⟩
  · intro q label q' hq _ hstep
    obtain ⟨done, l, hq⟩ := hq
    obtain ⟨q'', done', l', hcall, hq', -⟩ := hq.step label
    cases Option.some.inj (hcall.symm.trans hstep.2)
    exact ⟨done', l', hq'⟩
  · intro q label hq
    obtain ⟨done, l, hq⟩ := hq
    exact hq.served_iff label

/-- A command is pushed when nobody waits, and then `wait_for` times out. -/
theorem not_served :
    ¬ AllSteps Step (new ℕ) Served [.PushCommand 5, .wait_for, .returns .timeout] := by
  intro h
  have h₁ : Path Step (new ℕ) [.PushCommand 5] _ := Path.nil.snoc ⟨trivial, rfl⟩
  have h₂ : Path Step (new ℕ) [.PushCommand 5, .wait_for] _ := h₁.snoc ⟨rfl, rfl⟩
  obtain ⟨q', l, hcall, hl, hexecuted⟩ := h _ _ _ (List.prefix_refl _) h₂ HandlerPoint.noConfusion
  cases hcall
  cases l with
  | nil => cases hl
  | cons c l => cases hexecuted

end CommandQueue

end Fantuan
