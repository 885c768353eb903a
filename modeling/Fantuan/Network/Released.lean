import Fantuan.Network.Lifecycle

/-!
# Connections after their end (Windows)

A connection is given back when it has no references: `OPERATION_DISCONNECT` is posted again until
`iorefs_` is 0.  But `OnConnection` is called before the accepting worker takes its first reference,
so that the command thread can disconnect the connection before it.
-/

open Lib

namespace Fantuan

namespace Iocp

/-! ## 1. What an accept leads to -/

/-- `c` is being accepted, or a receive follows, is under way, or is handled. -/
def accepted (c : ConnID) : Weight where
  instr
    | .UpdateAcceptContext d => about c d 1
    | .SetConnected d => about c d 1
    | .OnConnection d => about c d 1
    | .PushCommand command =>
        match command with
        | .OnConnect d => about c d 1
        | .OnData d _ => about c d 1
        | _ => 0
    | .PopInputContext d => about c d 1
    | .AsyncRecv d _ => about c d 1
    | .WSARecv d _ => about c d 1
    | .OnData d _ => about c d 1
    | _ => 0
  op
    | .recv d => about c d 1
    | _ => 0
  command _ := 0

/-- `OnDisconnect` was called for `c`, and since then no accept of `c` has completed. -/
def Released (c : ConnID) : List Event → Prop :=
  Since (fun event ↦ ∃ ok, event = .Run (.OnDisconnect c) ok)
    fun event ↦ ∃ data, event = .Complete (.accept c) true data

/-- No receive is posted, and no data is delivered, on a connection that was released. -/
def Silent (before : List Event) (event : Event) : Prop :=
  ∀ c, Released c before → (∀ release ok, event ≠ .Run (.WSARecv c release) ok) ∧
    ∀ data ok, event ≠ .Run (.OnData c data) ok

section Exec

variable (ok : Bool) (s : Shared) (i : Instr) (c : ConnID)

theorem exec_accepted : (accepted c).added (exec ok s i) ≤ (accepted c).instr i := by
  fun_cases exec ok s i <;>
    first
      | exact Nat.zero_le _
      | exact Nat.le_refl _
      | simp [Weight.added, accepted]

theorem completed_accepted (bResult : Bool) (data : EasyCommandOnData) (op : Operation)
    (haccept : ∀ d, op = .accept d → bResult = true → s.acceptor.connection_ ≠ some c) :
    ((completed bResult data s op).map (accepted c).instr).sum ≤ (accepted c).op op := by
  fun_cases completed bResult data s op
  case case1 d e he =>
    have hne : e ≠ c := by
      rintro rfl
      exact haccept d rfl rfl he
    simp [accepted, about, hne]
  case case2 => exact Nat.zero_le _
  all_goals simp [accepted]

end Exec

variable {c : ConnID} {conns free : List ConnID} {es : List Event} {s t : State} {event : Event}

theorem accepted_le (s : State) (c : ConnID) :
    (accepted c).total s ≤ (quiet c).total s + (receiving c).total s := by
  apply total_le_add
  · intro i
    cases i with
    | PushCommand command => cases command <;> simp [accepted, quiet, receiving]
    | _ =>
        first
          | exact Nat.zero_le _
          | exact Nat.le_refl _
          | simp [accepted, quiet, receiving]
  · intro op
    cases op <;> simp [accepted, quiet, receiving]
  · intro command
    exact Nat.zero_le _

-- When the end of a connection is reported, nothing else is done with it.
theorem accepted_onDisconnect (h : Staged conns free s) {n : ℕ} {rest : List Instr}
    (hthread : s.threads[n]? = some (.OnDisconnect c :: rest)) : (accepted c).total s = 0 := by
  have hle := accepted_le (s.run n rest ⟨s.shared, [], [], []⟩) c
  have hquiet := total_run (w := quiet c) hthread ⟨s.shared, [], [], []⟩
  have hreceiving := total_run (w := receiving c) hthread ⟨s.shared, [], [], []⟩
  have haccepted := total_run (w := accepted c) hthread ⟨s.shared, [], [], []⟩
  have hnone : ∀ w : Weight, w.added ⟨s.shared, [], [], []⟩ = 0 := fun _ ↦ rfl
  have hone : (quiet c).instr (.OnDisconnect c) = 1 := if_pos rfl
  have hzero : (receiving c).instr (.OnDisconnect c) = 0 := rfl
  have hzero' : (accepted c).instr (.OnDisconnect c) = 0 := rfl
  have hreceive := h.receive c
  rw [hnone] at hquiet hreceiving haccepted
  omega

/-! ## 2. Runs -/

structure Reported (es : List Event) (s : State) : Prop where
  staged : ∃ conns free, Staged conns free s
  silent : Each Silent es
  released : ∀ c, Released c es → (accepted c).total s = 0

theorem ownCall_accepted {i : Instr} (hi : OwnCall i) : (accepted c).instr i = 0 := by
  cases i with
  | PushCommand command => cases command <;> simp_all [OwnCall, accepted, EasyCommand.connId]
  | _ => simp_all [OwnCall, accepted]

namespace Reported

-- The worker that is about to do either has been going on since an accept.
theorem silent_step (h : Reported es s) (hst : Step OwnCall s event t) : Silent es event := by
  intro c hc
  have hzero := h.released c hc
  constructor
  · rintro release ok rfl
    cases hst with
    | run hthread =>
        have hle := le_total (w := accepted c) hthread
        have hone : (accepted c).instr (.WSARecv c release) = 1 := if_pos rfl
        omega
  · rintro data ok rfl
    cases hst with
    | run hthread =>
        have hle := le_total (w := accepted c) hthread
        have hone : (accepted c).instr (.OnData c data) = 1 := if_pos rfl
        omega

-- Only an accept that completes leads to receives.
theorem accepted_step (hstaged : Staged conns free s) (hst : Step OwnCall s event t)
    (hnot : ¬ ∃ data, event = .Complete (.accept c) true data) :
    (accepted c).total t ≤ (accepted c).total s := by
  cases hst with
  | @call i hi => rw [total_start, List.map_singleton, List.sum_singleton, ownCall_accepted hi]; rfl
  | @run i n rest ok hthread =>
      have htotal := total_run (w := accepted c) hthread (exec ok s.shared i)
      have hexec := exec_accepted ok s.shared i c
      omega
  | @complete op bResult data hop =>
      have haccept : ∀ d, op = .accept d → bResult = true →
          s.shared.acceptor.connection_ ≠ some c := by
        rintro d rfl rfl hd
        have hle := op_le_total (w := posting d) hop
        have hone : (posting d).op (.accept d) = 1 := if_pos rfl
        cases hd.symm.trans (hstaged.posted d (by omega))
        exact hnot ⟨data, rfl⟩
      have htotal := total_complete (w := accepted c) hop (completed bResult data s.shared op)
      have hle := completed_accepted s.shared c bResult data op haccept
      omega
  | @execute e rest server hidle hlist hex =>
      have htotal := total_execute (w := accepted c) hidle hlist
        (s.shared.executed e.1 server) (e.2.flatMap ofAction)
      rw [ofAction_sum e.2 (fun _ _ ↦ rfl) (fun _ ↦ rfl) fun _ ↦ rfl] at htotal
      exact Nat.le_of_eq (Nat.add_right_cancel htotal)

theorem step (h : Reported es s) (hC : Orderly s event) (hst : Step OwnCall s event t) :
    Reported (es ++ [event]) t := by
  rcases h.staged with ⟨conns, free, hstaged⟩
  refine ⟨hstaged.step hC hst, each_snoc.mpr ⟨h.silent, h.silent_step hst⟩, fun c hc ↦ ?_⟩
  have hzero : (accepted c).total s = 0 ∧ ¬ ∃ data, event = .Complete (.accept c) true data := by
    rcases since_snoc.mp hc with ⟨ok, rfl⟩ | ⟨hold, hnot⟩
    · cases hst with
      | run hthread => exact ⟨accepted_onDisconnect hstaged hthread, by simp⟩
    · exact ⟨h.released c hold, hnot⟩
  exact Nat.eq_zero_of_le_zero ((accepted_step hstaged hst hzero.2).trans_eq hzero.1)

end Reported

theorem count_recv_le (s : State) (c : ConnID) :
    s.posted.count (.recv c) ≤ (receiving c).total s := by
  have hcount : s.posted.count (.recv c) ≤ (s.posted.map (receiving c).op).sum := by
    induction s.posted with
    | nil => exact Nat.zero_le _
    | cons op ops ih =>
        rw [List.count_cons, List.map_cons, List.sum_cons]
        split
        · rename_i he
          rw [beq_iff_eq.mp he, show (receiving c).op (.recv c) = 1 from if_pos rfl]
          omega
        · omega
  unfold Weight.total
  omega

/-- **Connections after their end**: in a run in which no `AcceptEx` fails at once, two threads are
not in `Start` behind its loop, and no connection ends before its accepting worker has taken its
reference: no receive is posted and no data delivered between `OnDisconnect` and the next accept,
no receive is on its way on a connection in the list, and one at most is posted on a connection. -/
theorem released_silent (iMaxSession : ℕ) (memory : SessionPtr → EasySession)
    (array : ℕ → SessionPtr) (es : List Event) (s : State)
    (h : Path (Guarded Orderly (Step OwnCall)) (init iMaxSession memory array) es s) :
    Each Silent es ∧
      (∃ free, LinkedStack.Holds free s.shared.acceptor.free_connection_ ∧
        ∀ c ∈ free, (receiving c).total s = 0) ∧
      ∀ c, s.posted.count (.recv c) ≤ 1 := by
  have hreported : Reported es s := by
    apply h.always (I := Reported)
    · exact ⟨⟨[], [], Staged.init iMaxSession memory array⟩, each_nil, fun c hc ↦
        absurd hc since_nil⟩
    · exact fun ls s l t hI hst ↦ hI.step hst.1 hst.2
  rcases hreported.staged with ⟨conns, free, hstaged⟩
  refine ⟨hreported.silent, ⟨free, hstaged.holds, fun c hc ↦ ?_⟩, fun c ↦ ?_⟩
  · exact (hstaged.vacant_free hc).1.receiving
  · have hle := count_recv_le s c
    have hreceive := hstaged.receive c
    omega

/-- The first connection ends, and is in the list again. -/
theorem released_silent_again :
    ∃ es s, Path (Guarded Orderly (Step OwnCall)) (init 1 (fun _ ↦ zeroSession) fun _ ↦ 0) es s ∧
      LinkedStack.Holds [0] s.shared.acceptor.free_connection_ ∧
      Event.Run (.OnDisconnect 0) true ∈ es ∧ Each Silent es ∧
      (∃ free, LinkedStack.Holds free s.shared.acceptor.free_connection_ ∧
        ∀ c ∈ free, (receiving c).total s = 0) ∧
      ∀ c, s.posted.count (.recv c) ≤ 1 := by
  have hharmless : ∀ t event, Harmless event = true → Orderly t event := fun _ _ ↦ .of_harmless
  have haccepted := guarded_complete orderly_started (.accept 0) true ⟨[], by decide⟩
    (List.mem_singleton_self _) (.of_harmless rfl)
  have hreceiving := harmless_turns haccepted hharmless (List.replicate 11 (2, true)) rfl
  have hconnect := guarded_execute hreceiving (.OnConnect 0, []) (.of_harmless rfl) rfl rfl
    ⟨_, ⟨zeroSession, rfl⟩, rfl, rfl⟩
  -- the client goes
  have hreceived := guarded_complete hconnect (.recv 0) true ⟨[], by decide⟩ (by decide)
    (.of_harmless rfl)
  have hending := harmless_turns hreceived hharmless (List.replicate 3 (3, true)) rfl
  have hended := guarded_complete hending (.disconnect 0) true ⟨[], by decide⟩ (by decide)
    (.of_harmless rfl)
  have hdisconnected := hended.snoc (l := .Run (.Disconnected 0) true)
    ⟨.of_disconnected rfl, .run (n := 4) rfl⟩
  have hcallback := hdisconnected.snoc (l := .Run (.OnDisconnect 0) true)
    ⟨⟨by simp, by simp, by simp⟩, .run (n := 4) rfl⟩
  have hpushed := harmless_turns hcallback hharmless [(4, true)] rfl
  have hexecuted := guarded_execute hpushed (.OnDisconnect 0, [.Close 0])
    ⟨by simp, by simp, by simp⟩ rfl rfl ⟨_, rfl, rfl, rfl⟩
  have hclosed := hexecuted.snoc (l := .Run (.Close 0) true)
    ⟨⟨by simp, by simp, by simp⟩, .run (n := 0) rfl⟩
  have hfree := harmless_turns hclosed hharmless [(0, true)] rfl
  refine ⟨_, _, hfree, ⟨rfl, rfl⟩, ?_, released_silent 1 _ _ _ _ hfree⟩
  simp

/-- The command thread disconnects the connection before the worker has taken its reference, and the
worker posts the receive after `OnDisconnect`. -/
theorem received_after_release :
    ¬ ∀ es s, Path (Step OwnCall) (init 1 (fun _ ↦ zeroSession) fun _ ↦ 0) es s →
      Each Silent es := by
  intro hall
  have hdone := path_complete orderly_started.of_guarded (.accept 0) true ⟨[], by decide⟩
    (List.mem_singleton_self _)
  have hrun := path_turns hdone (List.replicate 8 (2, true))
  have hconnect := hrun.snoc (.execute (e := (.OnConnect 0, [])) rfl rfl
    ⟨_, ⟨zeroSession, rfl⟩, rfl, rfl⟩)
  have hcommand := path_turns (path_call hconnect (.PushCommand (.Disconnect 0)) rfl) [(3, true)]
  have hdisconnect := hcommand.snoc (.execute (e := (.Disconnect 0, [.AsyncDisconnect 0])) rfl rfl
    ⟨_, rfl, rfl, rfl⟩)
  have hended := path_complete (path_turns hdisconnect [(0, true), (0, true)]) (.disconnect 0) true
    ⟨[], by decide⟩ (by decide)
  have hreport := path_turns (path_turns hended [(4, true)]) [(4, true)]
  have hincrement := path_turns (path_turns hreport [(2, true)]) [(2, true)]
  have hrecv : Path (Step OwnCall) _ (_ ++ [.Run (.OnDisconnect 0) true] ++
      [.Run (.PopInputContext 0) true] ++ [.Run (.AsyncRecv 0 false) true] ++
      [.Run (.WSARecv 0 false) true]) _ := path_turns hincrement [(2, true)]
  have hsilent := (each_snoc.mp (hall _ _ hrecv)).2 0
  have hreleased : ∀ es, Released 0 (es ++ [.Run (.OnDisconnect 0) true]) :=
    fun _ ↦ since_snoc.mpr (.inl ⟨true, rfl⟩)
  refine (hsilent (since_snoc.mpr (.inr ⟨?_, by simp⟩))).1 false true rfl
  exact since_snoc.mpr (.inr ⟨hreleased _, by simp⟩)

end Iocp

end Fantuan
