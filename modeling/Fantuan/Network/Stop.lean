import Fantuan.Network.Iocp

/-!
# Stopping the acceptor (Windows)

`Stop` sets `running_` to 0, which only `Start` looks at: a worker that takes the completion of an
accept calls `Accept` again all the same, and it decrements `iorefs_` only when the completion
reports success.
-/

open Lib

namespace Fantuan

namespace Iocp

/-! ## 1. The accepts -/

/-- The accepts that have been posted and are not fully handled, from the increment of `iorefs_`. -/
def accepts : Weight where
  instr
    | .AcceptEx _ => 1
    | .AcceptDecrement => 1
    | _ => 0
  op
    | .accept _ => 1
    | _ => 0
  command _ := 0

/-- The threads in `Accept`, or in `Start` on the way there. -/
def accepting : Weight where
  instr
    | .StartWait => 1
    | .Accept => 1
    | .SetConnection _ => 1
    | .AcceptIncrement _ => 1
    | .AcceptEx _ => 1
    | _ => 0
  op _ := 0
  command _ := 0

/-- The accepts for which `context_.connection_` has been set. -/
def addressed : Weight where
  instr
    | .AcceptIncrement _ => 1
    | .AcceptEx _ => 1
    | _ => 0
  op
    | .accept _ => 1
    | _ => 0
  command _ := 0

/-- `Stop` was called, and `Start` not since then. -/
def Stopped (es : List Event) : Prop :=
  ∃ before after ok, es = before ++ .Run .Stop ok :: after ∧ ∀ ok', .Run .Start ok' ∉ after

/-- No accept is posted after `Stop`. -/
def NoAccept (before : List Event) (event : Event) : Prop :=
  Stopped before → ∀ c ok, event ≠ .Run (.AcceptEx c) ok

/-- `Stop` is not called while a thread is in `Accept`, or in `Start`. -/
def StopsBetween (s : State) (event : Event) : Prop :=
  ∀ ok, event = .Run .Stop ok → accepting.total s = 0

/-- Accepts complete with success, and not after `Stop`. -/
def AcceptsWell (before : List Event) (event : Event) : Prop :=
  ∀ c bResult data, event = .Complete (.accept c) bResult data → bResult = true ∧ ¬ Stopped before

theorem stopped_iff {es : List Event} :
    Stopped es ↔ Since (fun e ↦ ∃ ok, e = .Run .Stop ok) (fun e ↦ ∃ ok, e = .Run .Start ok) es := by
  constructor
  · rintro ⟨before, after, ok, rfl, hafter⟩
    refine ⟨before, _, after, rfl, ⟨ok, rfl⟩, ?_⟩
    rintro event hevent ⟨ok', rfl⟩
    exact hafter ok' hevent
  · rintro ⟨before, event, after, rfl, ⟨ok, rfl⟩, hafter⟩
    exact ⟨before, after, ok, rfl, fun ok' hevent ↦ hafter _ hevent ⟨ok', rfl⟩⟩

theorem stopped_snoc {es : List Event} {event : Event} :
    Stopped (es ++ [event]) ↔
      (∃ ok, event = .Run .Stop ok) ∨ Stopped es ∧ ∀ ok, event ≠ .Run .Start ok := by
  rw [stopped_iff, since_snoc, ← stopped_iff, not_exists]

/-! ## 2. What a step does to the accepts -/

theorem exec_accepts (ok : Bool) (s : Shared) (i : Instr) :
    (exec ok s i).shared.acceptor.iorefs_ + accepts.instr i =
      s.acceptor.iorefs_ + accepts.added (exec ok s i) := by
  fun_cases exec ok s i <;>
    first
      | rfl
      | simp [Weight.added, accepts]

-- Only `Start` makes a thread enter `Accept`.
theorem exec_accepting (ok : Bool) (s : Shared) (i : Instr) (hi : i ≠ .Start) :
    accepting.added (exec ok s i) ≤ accepting.instr i := by
  fun_cases exec ok s i <;>
    first
      | exact absurd rfl hi
      | exact Nat.zero_le _
      | exact Nat.le_refl _

theorem exec_addressed (ok : Bool) (s : Shared) (i : Instr) :
    (exec ok s i).shared.acceptor.connection_ ≠ none ∧ (∃ c, i = .SetConnection c) ∨
      (exec ok s i).shared.acceptor.connection_ = s.acceptor.connection_ ∧
        addressed.added (exec ok s i) ≤ addressed.instr i := by
  fun_cases exec ok s i <;>
    first
      | exact .inr ⟨rfl, Nat.zero_le _⟩
      | exact .inr ⟨rfl, Nat.le_refl _⟩
      | simp

theorem completed_accepts (bResult : Bool) (data : EasyCommandOnData) (s : Shared)
    (op : Operation)
    (hop : ∀ c, op = .accept c → bResult = true ∧ s.acceptor.connection_ ≠ none) :
    ((completed bResult data s op).map accepts.instr).sum = accepts.op op := by
  cases op with
  | accept c =>
      rcases hop c rfl with ⟨rfl, hknown⟩
      rcases Option.ne_none_iff_exists'.mp hknown with ⟨d, hd⟩
      simp [completed, hd, accepts]
  | recv c =>
      simp only [completed]
      split <;> simp [accepts]
  | send c k => simp [completed, accepts]
  | disconnect c => simp [completed, accepts]

-- Only after an accept does a worker call `Accept`.
theorem completed_accepting (bResult : Bool) (data : EasyCommandOnData) (s : Shared)
    (op : Operation) (hop : ∀ c, op ≠ .accept c) :
    ((completed bResult data s op).map accepting.instr).sum = 0 := by
  fun_cases completed bResult data s op <;> simp_all [accepting]

theorem completed_addressed (bResult : Bool) (data : EasyCommandOnData) (s : Shared)
    (op : Operation) : ((completed bResult data s op).map addressed.instr).sum = 0 := by
  fun_cases completed bResult data s op <;> simp [addressed]

theorem publicCall_accepts {i : Instr} (hi : PublicCall i) :
    accepts.instr i = 0 ∧ accepting.instr i = 0 ∧ addressed.instr i = 0 := by
  cases i <;> simp_all [PublicCall, accepts, accepting, addressed]

/-! ## 3. Runs -/

structure Accepting (es : List Event) (s : State) : Prop where
  silent : Each NoAccept es
  refs : s.shared.acceptor.iorefs_ = accepts.total s
  stopped : Stopped es → accepting.total s = 0
  known : 0 < addressed.total s → s.shared.acceptor.connection_ ≠ none

variable {es : List Event} {s t : State} {event : Event}

namespace Accepting

theorem call (h : Accepting es s) {i : Instr} (hi : PublicCall i) :
    Accepting (es ++ [.Call i]) (s.start [i]) := by
  rcases publicCall_accepts hi with ⟨hzero, hzero', hzero''⟩
  have hrefs := h.refs
  have hsame := total_start (w := accepts) (s := s) [i]
  have hsame' := total_start (w := accepting) (s := s) [i]
  have hsame'' := total_start (w := addressed) (s := s) [i]
  rw [List.map_singleton, List.sum_singleton, hzero] at hsame
  rw [List.map_singleton, List.sum_singleton, hzero'] at hsame'
  rw [List.map_singleton, List.sum_singleton, hzero''] at hsame''
  constructor
  · exact each_snoc.mpr ⟨h.silent, fun _ c ok he ↦ by cases he⟩
  · rw [hsame]
    exact hrefs
  · intro hs
    rcases stopped_snoc.mp hs with ⟨ok, he⟩ | ⟨hs, -⟩
    · cases he
    · rw [hsame']
      exact h.stopped hs
  · rw [hsame'']
    exact h.known

theorem run (h : Accepting es s) {i : Instr} {n : ℕ} {rest : List Instr} {ok : Bool}
    (hthread : s.threads[n]? = some (i :: rest)) (hstop : StopsBetween s (.Run i ok)) :
    Accepting (es ++ [.Run i ok]) (s.run n rest (exec ok s.shared i)) := by
  have hrefs := h.refs
  have hle := le_total (w := accepting) hthread
  have hexec := exec_accepts ok s.shared i
  have htotal := total_run (w := accepts) hthread (exec ok s.shared i)
  have htotal' := total_run (w := accepting) hthread (exec ok s.shared i)
  have htotal'' := total_run (w := addressed) hthread (exec ok s.shared i)
  constructor
  · refine each_snoc.mpr ⟨h.silent, fun hs c ok' he ↦ ?_⟩
    cases he
    have hone : accepting.instr (.AcceptEx c) = 1 := rfl
    have hzero := h.stopped hs
    omega
  · show (exec ok s.shared i).shared.acceptor.iorefs_ = _
    omega
  · intro hs
    have hzero : accepting.total s = 0 ∧ i ≠ .Start := by
      rcases stopped_snoc.mp hs with ⟨ok', he⟩ | ⟨hs, he⟩
      · cases he
        exact ⟨hstop ok rfl, by simp⟩
      · exact ⟨h.stopped hs, fun hi ↦ he ok (by rw [hi])⟩
    have hadded := exec_accepting ok s.shared i hzero.2
    omega
  · intro hpos
    show (exec ok s.shared i).shared.acceptor.connection_ ≠ none
    rcases exec_addressed ok s.shared i with ⟨hnew, -⟩ | ⟨hsame, hadded⟩
    · exact hnew
    · rw [hsame]
      exact h.known (by omega)

theorem complete (h : Accepting es s) {op : Operation} {bResult : Bool} {data : EasyCommandOnData}
    (hop : op ∈ s.posted) (haccept : AcceptsWell es (.Complete op bResult data)) :
    Accepting (es ++ [.Complete op bResult data])
      { s.start (completed bResult data s.shared op) with posted := s.posted.erase op } := by
  have hrefs := h.refs
  have hknown : ∀ c, op = .accept c → bResult = true ∧ s.shared.acceptor.connection_ ≠ none := by
    rintro c rfl
    have hone : addressed.op (.accept c) = 1 := rfl
    have hle := op_le_total (w := addressed) hop
    exact ⟨(haccept c bResult data rfl).1, h.known (by omega)⟩
  have htotal := total_complete (w := accepts) hop (completed bResult data s.shared op)
  have htotal' := total_complete (w := accepting) hop (completed bResult data s.shared op)
  have htotal'' := total_complete (w := addressed) hop (completed bResult data s.shared op)
  rw [completed_accepts bResult data s.shared op hknown] at htotal
  rw [completed_addressed] at htotal''
  constructor
  · exact each_snoc.mpr ⟨h.silent, fun _ c ok he ↦ by cases he⟩
  · rw [Nat.add_right_cancel htotal]
    exact hrefs
  · intro hs
    have hstopped : Stopped es := by
      rcases stopped_snoc.mp hs with ⟨ok, he⟩ | ⟨hs, -⟩
      · cases he
      · exact hs
    have hnot : ∀ c, op ≠ .accept c := by
      rintro c rfl
      exact (haccept c bResult data rfl).2 hstopped
    rw [completed_accepting bResult data s.shared op hnot] at htotal'
    have hzero := h.stopped hstopped
    omega
  · intro hpos
    exact h.known (by omega)

theorem execute (h : Accepting es s) {e : Executed} {rest : List EasyCommand}
    (server : EasyBaseServer) (hidle : s.threads[0]? = some [])
    (hlist : s.m_CommandList = e.1 :: rest) :
    Accepting (es ++ [.Execute e])
      { s with
        shared := s.shared.executed e.1 server
        threads := s.threads.set 0 (e.2.flatMap ofAction)
        m_CommandList := rest } := by
  have hrefs := h.refs
  have htotal := total_execute (w := accepts) hidle hlist (s.shared.executed e.1 server)
    (e.2.flatMap ofAction)
  have htotal' := total_execute (w := accepting) hidle hlist (s.shared.executed e.1 server)
    (e.2.flatMap ofAction)
  have htotal'' := total_execute (w := addressed) hidle hlist (s.shared.executed e.1 server)
    (e.2.flatMap ofAction)
  rw [ofAction_sum e.2 (fun _ _ ↦ rfl) (fun _ ↦ rfl) fun _ ↦ rfl] at htotal
  rw [ofAction_sum e.2 (fun _ _ ↦ rfl) (fun _ ↦ rfl) fun _ ↦ rfl] at htotal'
  rw [ofAction_sum e.2 (fun _ _ ↦ rfl) (fun _ ↦ rfl) fun _ ↦ rfl] at htotal''
  constructor
  · exact each_snoc.mpr ⟨h.silent, fun _ c ok he ↦ by cases he⟩
  · show (s.shared.executed e.1 server).acceptor.iorefs_ = _
    rw [Shared.executed_acceptor, Nat.add_right_cancel htotal]
    exact hrefs
  · intro hs
    rcases stopped_snoc.mp hs with ⟨ok, he⟩ | ⟨hs, -⟩
    · cases he
    · rw [Nat.add_right_cancel htotal']
      exact h.stopped hs
  · show _ → (s.shared.executed e.1 server).acceptor.connection_ ≠ none
    rw [Shared.executed_acceptor, Nat.add_right_cancel htotal'']
    exact h.known

theorem step (h : Accepting es s) (hst : Step PublicCall s event t)
    (hstop : StopsBetween s event) (haccept : AcceptsWell es event) :
    Accepting (es ++ [event]) t := by
  cases hst with
  | call hi => exact h.call hi
  | run hthread => exact h.run hthread hstop
  | complete hop => exact h.complete hop haccept
  | @execute e rest server hidle hlist hex => exact h.execute server hidle hlist

end Accepting

theorem accepting_init (iMaxSession : ℕ) (memory : SessionPtr → EasySession)
    (array : ℕ → SessionPtr) : Accepting [] (init iMaxSession memory array) := by
  constructor
  · exact each_nil
  · rfl
  · exact fun _ ↦ rfl
  · exact fun h ↦ absurd h (Nat.lt_irrefl 0)

/-- **Stopping**: in a run in which `Stop` is not called in the middle of `Accept` or `Start`, and
accepts complete with success and not after `Stop`, no accept is posted after `Stop`, and `iorefs_`
is the number of accepts. -/
theorem stop_stops (iMaxSession : ℕ) (memory : SessionPtr → EasySession)
    (array : ℕ → SessionPtr) (es : List Event) (s : State)
    (h : Path (Guarded StopsBetween (Step PublicCall)) (init iMaxSession memory array) es s)
    (hes : Each AcceptsWell es) :
    Each NoAccept es ∧ s.shared.acceptor.iorefs_ = accepts.total s := by
  have haccepting : Accepting es s := by
    apply h.invariant hes
    · exact accepting_init iMaxSession memory array
    · exact fun ls s l t _ hI hA hst ↦ hI.step hst.2 hst.1 hA
  exact ⟨haccepting.silent, haccepting.refs⟩

/-- `Start` posts an accept, and then the acceptor is stopped. -/
theorem stop_stops_pending :
    ∃ es s, Path (Guarded StopsBetween (Step PublicCall))
        (init 1 (fun _ ↦ zeroSession) fun _ ↦ 0) es s ∧
      Stopped es ∧ s.posted = [.accept 0] ∧
      Each NoAccept es ∧ s.shared.acceptor.iorefs_ = accepts.total s := by
  have hstart : Path (Guarded StopsBetween (Step PublicCall))
      (init 1 (fun _ ↦ zeroSession) fun _ ↦ 0) startEvents started := by
    apply path_started trivial
    rintro t event hevent ok rfl
    simp [startEvents] at hevent
  have hcall := guarded_call hstart .Stop trivial fun _ he ↦ by cases he
  have hrun : Step PublicCall (started.start [.Stop]) (.Run .Stop true) _ :=
    .run (n := 2) rfl
  have hstop := hcall.snoc ⟨fun _ _ ↦ rfl, hrun⟩
  refine ⟨_, _, hstop, stopped_snoc.mpr (.inl ⟨true, rfl⟩), rfl, ?_⟩
  apply stop_stops 1 _ _ _ _ hstop
  apply each_of_mem
  intro event hevent before c bResult data he
  rw [he] at hevent
  simp [startEvents] at hevent

/-- The accept completes after `Stop`: the worker posts another one.  One that fails leaves
`iorefs_` too large. -/
theorem accept_after_stop :
    (¬ ∀ es s, Path (Step PublicCall) (init 1 (fun _ ↦ zeroSession) fun _ ↦ 0) es s →
      Each NoAccept es) ∧
    ¬ ∀ es s, Path (Step PublicCall) (init 1 (fun _ ↦ zeroSession) fun _ ↦ 0) es s →
      s.shared.acceptor.iorefs_ = accepts.total s := by
  have hstart : Path (Step PublicCall) (init 1 (fun _ ↦ zeroSession) fun _ ↦ 0) _ started :=
    (path_started (C := fun _ _ ↦ True) trivial fun _ _ _ ↦ trivial).of_guarded
  have hstop : Path (Step PublicCall) (init 1 (fun _ ↦ zeroSession) fun _ ↦ 0)
      (startEvents ++ [.Call .Stop] ++ [.Run .Stop true]) _ :=
    path_turns (path_call hstart .Stop trivial) [(2, true)]
  have hmem : Operation.accept 0 ∈ [Operation.accept 0] := List.mem_singleton_self _
  constructor
  · intro hall
    have hdone := path_complete hstop (.accept 0) true ⟨[], by decide⟩ hmem
    have hpost := path_turns hdone [(3, true), (3, true), (3, true)]
    have hlast : Path (Step PublicCall) (init 1 (fun _ ↦ zeroSession) fun _ ↦ 0)
        (startEvents ++ [.Call .Stop] ++ [.Run .Stop true] ++
          [.Complete (.accept 0) true ⟨[], by decide⟩] ++ [.Run .Accept true] ++
          [.Run (.SetConnection 1) true] ++ [.Run (.AcceptIncrement 1) true] ++
          [.Run (.AcceptEx 1) true]) _ := path_turns hpost [(3, true)]
    have hnone := (each_snoc.mp (hall _ _ hlast)).2
    exact hnone ⟨startEvents ++ [.Call .Stop], _, true, rfl, by simp⟩ 1 true rfl
  · intro hall
    have hfail := path_complete hstop (.accept 0) false ⟨[], by decide⟩ hmem
    have hone : (1 : ℤ) = 0 := hall _ _ hfail
    exact absurd hone (by decide)

end Iocp

end Fantuan
