import Fantuan.Network.Iocp

/-!
# The output contexts (Windows)

A context goes from the pool through `SendData`, both `AsyncSend` and the worker back to the pool.
`AsyncSend(len, buf)` returns without the context when the message is too long.
-/

open Lib

namespace Fantuan

namespace Iocp

/-! ## 1. Where the contexts are -/

def Instr.contexts : Instr → List ContextPtr
  | AsyncSendBuffer _ _ pContext => [pContext]
  | AsyncSend _ pContext => [pContext]
  | WSASend _ pContext => [pContext]
  | PushOutputContext pContext => [pContext]
  | _ => []

def Operation.contexts : Operation → List ContextPtr
  | send _ pContext => [pContext]
  | _ => []

namespace State

variable (s : State)

/-- The contexts that threads hold. -/
def held : List ContextPtr := s.threads.flatten.flatMap Instr.contexts

/-- The contexts of sends that are under way. -/
def sending : List ContextPtr := s.posted.flatMap Operation.contexts

/-- Every context is on the pool, or held, or sent; none is on the pool twice. -/
def Conserved : Prop :=
  ∃ pooled, LinkedStack.Holds pooled s.shared.pool.output_context_pool_ ∧ pooled.Nodup ∧
    s.shared.pool.output_context_count_ = pooled.length + s.held.length + s.sending.length

end State

/-- The functions that threads call while `SendData` is the only one that takes contexts. -/
def SendCall : Instr → Prop
  | .Start | .Stop => True
  | .SendData _ iLen => iLen < 2 ^ 16
  | .AsyncRecv _ release => release = false
  | .AsyncDisconnect _ => True
  | .PushCommand command => command.connId = none
  | _ => False

/-! ## 2. What a step does to the contexts -/

/-- The places of the context `k`, but for the pool. -/
def places (k : ContextPtr) : Weight where
  instr i := i.contexts.count k
  op o := o.contexts.count k
  command _ := 0

/-- The number of contexts that are not on the pool. -/
def taken : Weight where
  instr i := i.contexts.length
  op o := o.contexts.length
  command _ := 0

section Places

variable {s : State} {k : ContextPtr} {pooled : List ContextPtr}

theorem total_places (s : State) (k : ContextPtr) :
    (places k).total s = s.held.count k + s.sending.count k := by
  rw [State.held, State.sending, List.count_flatMap, List.count_flatMap]
  simp [Weight.total, places, load, Function.comp_def]

theorem total_taken (s : State) : taken.total s = s.held.length + s.sending.length := by
  rw [State.held, State.sending, List.length_flatMap, List.length_flatMap]
  simp [Weight.total, taken, load]

-- Only `SendData` and `PushOutputContext` use the pool, and only `AsyncSend(len, buf)` loses a
-- context.
theorem exec_places_other (ok : Bool) (s : Shared) (i : Instr)
    (hsend : ∀ c iLen, i ≠ .SendData c iLen) (hpush : ∀ k, i ≠ .PushOutputContext k)
    (hfit : ∀ c len k, i = .AsyncSendBuffer c len k → len ≤ s.pool.output_buffer_size_) :
    (exec ok s i).shared.pool = s.pool ∧
      ∀ k, (places k).added (exec ok s i) = (places k).instr i := by
  fun_cases exec ok s i <;>
    first
      | exact ⟨rfl, fun k ↦ rfl⟩
      | simp_all [Weight.added, places, Instr.contexts, Operation.contexts]
  -- `AsyncSend(len, buf)`, when the message is too long
  omega

/-- The context `k` has been created. -/
def known (pool : EasyContextPool) (k : ContextPtr) : ℕ :=
  if k < pool.output_context_count_ then 1 else 0

theorem exec_places (ok : Bool) (s : Shared) (i : Instr)
    (hpool : LinkedStack.Holds pooled s.pool.output_context_pool_)
    (hfit : ∀ c len k, i = .AsyncSendBuffer c len k → len ≤ s.pool.output_buffer_size_)
    (hpush : ∀ k, i = .PushOutputContext k → k ∉ pooled) :
    ∃ pooled', LinkedStack.Holds pooled' (exec ok s i).shared.pool.output_context_pool_ ∧
      ∀ k, pooled'.count k + (places k).added (exec ok s i) + known s.pool k =
        pooled.count k + (places k).instr i + known (exec ok s i).shared.pool k := by
  by_cases hsend : ∃ c iLen, i = .SendData c iLen
  · rcases hsend with ⟨c, iLen, rfl⟩
    rcases hpool.pop with ⟨hpop, rfl⟩ | ⟨k, rest, pool, hpop, rfl, hrest⟩
    · cases ok with
      | false =>
          refine ⟨[], ?_, fun k ↦ ?_⟩
          · simpa [exec, hpop] using hpool
          · simp [exec, hpop, Weight.added, places, Instr.contexts]
      | true =>
          refine ⟨[], ?_, fun k ↦ ?_⟩
          · simpa [exec, hpop] using hpool
          · simp [exec, hpop, Weight.added, places, Instr.contexts, known]
            grind
    · refine ⟨rest, ?_, fun k' ↦ ?_⟩
      · simpa [exec, hpop] using hrest
      · simp [exec, hpop, Weight.added, places, Instr.contexts, known, List.count_cons]
  · by_cases hgive : ∃ k, i = .PushOutputContext k
    · rcases hgive with ⟨k, rfl⟩
      refine ⟨k :: pooled, hpool.push (hpush k rfl), fun k' ↦ ?_⟩
      simp [exec, Weight.added, places, Instr.contexts, known, List.count_cons]
      rfl
    · rcases exec_places_other ok s i (fun c iLen he ↦ hsend ⟨c, iLen, he⟩)
        (fun k he ↦ hgive ⟨k, he⟩) hfit with ⟨hsame, hplaces⟩
      rw [hsame]
      exact ⟨pooled, hpool, fun k ↦ by rw [hplaces]⟩

theorem completed_places (bResult : Bool) (data : EasyCommandOnData) (s : Shared)
    (op : Operation) (k : ContextPtr) :
    ((completed bResult data s op).map (places k).instr).sum = (places k).op op := by
  apply completed_sum <;> simp [places, Instr.contexts, Operation.contexts]

theorem ofAction_places (actions : List Action) (k : ContextPtr) :
    ((actions.flatMap ofAction).map (places k).instr).sum = 0 := by
  apply ofAction_sum <;> simp [places, Instr.contexts]

/-- Every context that has been created is in one place. -/
structure Tracked (pooled : List ContextPtr) (s : State) : Prop where
  size : s.shared.pool.output_buffer_size_ = MAX_OUTPUT_BUFFER
  holds : LinkedStack.Holds pooled s.shared.pool.output_context_pool_
  once : ∀ k, pooled.count k + (places k).total s = known s.shared.pool k

theorem sendCall_places {i : Instr} (hi : SendCall i) : (places k).instr i = 0 := by
  cases i <;> simp_all [SendCall, places, Instr.contexts]

/-- `AsyncSend(len, buf)` is not called with a message that is too long. -/
def Fits (event : Event) : Prop :=
  ∀ c len k ok, event = .Run (.AsyncSendBuffer c len k) ok → len ≤ MAX_OUTPUT_BUFFER

theorem exec_size (ok : Bool) (s : Shared) (i : Instr) :
    (exec ok s i).shared.pool.output_buffer_size_ = s.pool.output_buffer_size_ := by
  fun_cases exec ok s i <;> rfl

theorem step_size {calls : Instr → Prop} {t : State} {event : Event}
    (hst : Step calls s event t) :
    t.shared.pool.output_buffer_size_ = s.shared.pool.output_buffer_size_ := by
  cases hst with
  | call => rfl
  | run => exact exec_size _ s.shared _
  | complete => rfl
  | execute =>
      show (s.shared.executed _ _).pool.output_buffer_size_ = _
      rw [Shared.executed_pool]

theorem Tracked.step {t : State} {event : Event} (h : Tracked pooled s)
    (hst : Step SendCall s event t) (hfits : Fits event) : ∃ pooled', Tracked pooled' t := by
  have honce := h.once
  have hsize := (step_size hst).trans h.size
  cases hst with
  | @call i hi =>
      refine ⟨pooled, hsize, h.holds, fun k ↦ ?_⟩
      rw [total_start, List.map_singleton, List.sum_singleton, sendCall_places hi]
      exact honce k
  | @run i n rest ok hthread =>
      -- a context that is given back is not on the pool
      have hpush : ∀ k, i = .PushOutputContext k → k ∉ pooled := by
        rintro k rfl hmem
        have hle := le_total (w := places k) hthread
        have hpos : 0 < pooled.count k := List.count_pos_iff.mpr hmem
        have hk := honce k
        have hone : (places k).instr (.PushOutputContext k) = 1 := by
          simp [places, Instr.contexts]
        unfold known at hk
        split at hk
        · omega
        · omega
      have hfit : ∀ c len k, i = .AsyncSendBuffer c len k →
          len ≤ s.shared.pool.output_buffer_size_ := by
        rintro c len k rfl
        rw [h.size]
        exact hfits c len k ok rfl
      rcases exec_places ok s.shared i h.holds hfit hpush with ⟨pooled', hpool, hplaces⟩
      refine ⟨pooled', hsize, hpool, fun k ↦ ?_⟩
      have htotal := total_run (w := places k) hthread (exec ok s.shared i)
      have hk := honce k
      have hstep := hplaces k
      show _ = known (exec ok s.shared i).shared.pool k
      omega
  | @complete op bResult data hop =>
      refine ⟨pooled, hsize, h.holds, fun k ↦ ?_⟩
      have htotal := total_complete (w := places k) hop (completed bResult data s.shared op)
      rw [completed_places] at htotal
      rw [Nat.add_right_cancel htotal]
      exact honce k
  | @execute e rest server hidle hlist hex =>
      have hsame : (s.shared.executed e.1 server).pool = s.shared.pool := Shared.executed_pool
      refine ⟨pooled, hsize, ?_, fun k ↦ ?_⟩
      · show LinkedStack.Holds pooled (s.shared.executed e.1 server).pool.output_context_pool_
        rw [hsame]
        exact h.holds
      · have htotal := total_execute (w := places k) hidle hlist (s.shared.executed e.1 server)
          (e.2.flatMap ofAction)
        rw [ofAction_places] at htotal
        show _ = known (s.shared.executed e.1 server).pool k
        rw [hsame, Nat.add_right_cancel htotal]
        exact honce k

theorem Tracked.conserved (h : Tracked pooled s) : s.Conserved := by
  have hperm : (pooled ++ s.held ++ s.sending).Perm
      (List.range s.shared.pool.output_context_count_) := by
    apply List.perm_iff_count.mpr
    intro k
    have hk := h.once k
    rw [total_places] at hk
    rw [List.count_append, List.count_append, List.count_range, Nat.add_assoc, hk, known]
  have hnodup : (pooled ++ s.held ++ s.sending).Nodup := hperm.nodup_iff.mpr List.nodup_range
  refine ⟨pooled, h.holds, ?_, ?_⟩
  · rw [List.append_assoc] at hnodup
    exact hnodup.of_append_left
  · rw [← List.length_range (n := s.shared.pool.output_context_count_), ← hperm.length_eq,
      List.length_append, List.length_append]

-- Without the context of a message that is too long, the number is too small.
theorem not_conserved {c : ConnID} {len n : ℕ} {rest : List Instr} {ok : Bool}
    (h : s.Conserved) (hthread : s.threads[n]? = some (.AsyncSendBuffer c len k :: rest))
    (hlen : s.shared.pool.output_buffer_size_ < len) :
    ¬ (s.run n rest (exec ok s.shared (.AsyncSendBuffer c len k))).Conserved := by
  have hexec : exec ok s.shared (.AsyncSendBuffer c len k) = { shared := s.shared } := by
    simp only [exec, if_pos hlen]
  have htotal := total_run (w := taken) hthread { shared := s.shared }
  rw [hexec]
  rintro ⟨pooled', hpool', -, hcount'⟩
  rcases h with ⟨pooled, hpool, -, hcount⟩
  have hsame : pooled' = pooled := hpool'.unique hpool
  have hone : taken.instr (.AsyncSendBuffer c len k) = 1 := rfl
  have hzero : taken.added { shared := s.shared } = 0 := rfl
  rw [total_taken, total_taken, hone, hzero] at htotal
  rw [hsame] at hcount'
  have hcount'' : s.shared.pool.output_context_count_ = _ := hcount'
  omega

end Places

/-! ## 3. Runs -/

theorem tracked_init (iMaxSession : ℕ) (memory : SessionPtr → EasySession)
    (array : ℕ → SessionPtr) : Tracked [] (init iMaxSession memory array) :=
  ⟨rfl, LinkedStack.holds_empty, fun _ ↦ rfl⟩

/-- **The output contexts** are conserved in all states of a run exactly if no message in it is too
long. -/
theorem contexts_conserved_iff (iMaxSession : ℕ) (memory : SessionPtr → EasySession)
    (array : ℕ → SessionPtr) (es : List Event) (s : State)
    (h : Path (Step SendCall) (init iMaxSession memory array) es s) :
    (∀ before t, before <+: es → Path (Step SendCall) (init iMaxSession memory array) before t →
      t.Conserved) ↔ ∀ event ∈ es, Fits event := by
  constructor
  · intro hall event hevent
    rcases List.append_of_mem hevent with ⟨before, rest, rfl⟩
    rintro c len k ok rfl
    have hpre : before ++ [Event.Run (.AsyncSendBuffer c len k) ok] <+:
        before ++ Event.Run (.AsyncSendBuffer c len k) ok :: rest := by
      exact ⟨rest, by simp⟩
    rcases h.of_prefix hpre with ⟨u, hu⟩
    rcases path_snoc.mp hu with ⟨t, ht, hst⟩
    have hconserved := hall before t ((List.prefix_append _ _).trans hpre) ht
    have hsize : t.shared.pool.output_buffer_size_ = MAX_OUTPUT_BUFFER :=
      ht.always (I := fun _ s ↦ s.shared.pool.output_buffer_size_ = MAX_OUTPUT_BUFFER) rfl
        fun _ s l t hs hst ↦ (step_size hst).trans hs
    by_contra hlen
    cases hst with
    | run hthread =>
        apply not_conserved hconserved hthread
        · rw [hsize]
          exact Nat.lt_of_not_le hlen
        · exact hall _ _ hpre hu
  · intro hfits before t hpre ht
    have htracked : ∃ pooled, Tracked pooled t := by
      apply ht.invariant (I := fun _ s ↦ ∃ pooled, Tracked pooled s) (A := fun _ l ↦ Fits l)
      · intro before' event hevent
        exact hfits event ((hevent.trans hpre).subset (by simp))
      · exact ⟨[], tracked_init iMaxSession memory array⟩
      · rintro ls s l t - ⟨pooled, hI⟩ hfit hst
        exact hI.step hst hfit
    rcases htracked with ⟨pooled, htracked⟩
    exact htracked.conserved

/-- A message of 5 bytes of data. -/
theorem contexts_conserved_short :
    ∃ es s, Path (Step SendCall) (init 1 (fun _ ↦ zeroSession) fun _ ↦ 0) es s ∧
      s.shared.pool.output_context_count_ = 1 ∧ s.held = [0] ∧
      ((∀ before t, before <+: es →
        Path (Step SendCall) (init 1 (fun _ ↦ zeroSession) fun _ ↦ 0) before t → t.Conserved) ↔
          ∀ event ∈ es, Fits event) := by
  have hcall : Path (Step SendCall) (init 1 (fun _ ↦ zeroSession) fun _ ↦ 0) _ _ :=
    path_call .nil (.SendData 7 5) (show 5 < 2 ^ 16 by decide)
  have hsend := path_turns hcall [(1, true), (1, true)]
  exact ⟨_, _, hsend, rfl, rfl, contexts_conserved_iff 1 _ _ _ _ hsend⟩

/-- With 65500 bytes of data, the message has 65504 bytes, and its context is lost. -/
theorem context_lost :
    ¬ ∀ es s, Path (Step SendCall) (init 1 (fun _ ↦ zeroSession) fun _ ↦ 0) es s →
      s.Conserved := by
  intro hall
  have hcall : Path (Step SendCall) (init 1 (fun _ ↦ zeroSession) fun _ ↦ 0) _ _ :=
    path_call .nil (.SendData 7 65500) (show 65500 < 2 ^ 16 by decide)
  have hsend := path_turns hcall [(1, true), (1, true)]
  rcases hall _ _ hsend with ⟨pooled, hpool, -, hcount⟩
  have hempty : pooled = [] := hpool.unique LinkedStack.holds_empty
  have hzero : 1 = pooled.length + 0 + 0 := hcount
  rw [hempty] at hzero
  exact Nat.one_ne_zero hzero

end Iocp

end Fantuan
