import Fantuan.Network.Lifecycle

/-!
# The list of free connections (Windows)

Whether every connection is in one place: in the list, with an accept, with a worker that handles
its accept or its end, connected, or being disconnected.  An `AcceptEx` that fails at once pushes
its connection twice, and an accept that completes without success pushes it never.
-/

open Lib

namespace Fantuan

namespace Iocp

/-! ## 1. The places -/

/-- `c` is being handled: `Accept` has it, a worker handles its accept or its end, or the command
thread has its end before it. -/
def handled (c : ConnID) : Weight where
  instr := (quiet c).instr
  op _ := 0
  command := (quiet c).command

/-- `c` is free but for the instructions that still take it from the list or bring it there. -/
def idle (c : ConnID) : Weight where
  instr
    | .PushFree d => about c d 1
    | .SetConnection d => about c d 1
    | .AcceptIncrement d => about c d 1
    | .AcceptEx d => about c d 1
    | .UpdateAcceptContext d => about c d 1
    | .SetConnected d => about c d 1
    | _ => 0
  op
    | .accept d => about c d 1
    | _ => 0
  command _ := 0

/-- Every connection that has been created is in one place, and those in the list are free. -/
def InOnePlace (s : State) : Prop :=
  ∃ free, LinkedStack.Holds free s.shared.acceptor.free_connection_ ∧
    (∀ c < s.shared.created,
      s.posted.count (.accept c) + (handled c).total s + (s.shared.connection c).connected_.toNat +
        (closing c).total s + free.count c = 1) ∧
    ∀ c ∈ free, c < s.shared.created ∧ free.count c = 1 ∧
      (s.shared.connection c).iorefs_ = 0 ∧ (s.shared.connection c).connected_ = false

/-- What must not happen. -/
structure Kept (s : State) (event : Event) : Prop extends Orderly s event where
  /-- An accept completes without success. -/
  accepted : ∀ c data, event ≠ .Complete (.accept c) false data
  /-- `setsockopt` fails. -/
  updated : ∀ c, event ≠ .Run (.UpdateAcceptContext c) false
  /-- `DisconnectEx` fails at once. -/
  disconnected : ∀ c, event ≠ .Run (.DisconnectEx c) false
  /-- A connection ends while the server is shutting down. -/
  running : ∀ c ok, event = .Run (.OnDisconnect c) ok → s.shared.server.m_bReadyForShutdown = false
  /-- The end of a connection that never got a session is executed. -/
  known : ∀ c actions, event = .Execute (.OnDisconnect c, actions) →
    s.shared.server.client_ c ≠ none
  /-- A connection is closed while a send is under way. -/
  closed : ∀ c ok, event = .Run (.Close c) ok → (s.shared.connection c).iorefs_ = 0

section Exec

variable (ok : Bool) (s : Shared) (i : Instr) (c : ConnID)

-- A connection that is handled stays somewhere.
theorem exec_place (hpush : ∀ d, i ≠ .PushFree d) (hupdate : i = .UpdateAcceptContext c → ok = true)
    (hend : i = .DisconnectEx c → ok = true)
    (hrunning : i = .OnDisconnect c → s.server.m_bReadyForShutdown = false)
    (hclose : i = .Close c → (s.connection c).iorefs_ = 0 ∧ (s.connection c).connected_ = false)
    (hset : i = .SetConnected c → (s.connection c).connected_ = false) :
    (quiet c).instr i + (closing c).instr i + (s.connection c).connected_.toNat ≤
      (quiet c).added (exec ok s i) + (closing c).added (exec ok s i) +
        ((exec ok s i).shared.connection c).connected_.toNat := by
  fun_cases exec ok s i <;>
    first
      | exact absurd rfl (hpush _)
      | exact Nat.le_refl _
      | simp_all [Weight.added, quiet, closing, about] <;> grind [toNat_eq]

theorem exec_idle (haccept : i ≠ .Accept) (hclose : i ≠ .Close c) (hfail : ¬ FailsAtOnce ok i) :
    (idle c).added (exec ok s i) ≤ (idle c).instr i := by
  fun_cases exec ok s i <;>
    first
      | exact absurd rfl haccept
      | exact Nat.zero_le _
      | exact Nat.le_refl _
      | simp_all [Weight.added, idle, about, FailsAtOnce]

-- Only sends and receives take references.
theorem exec_references_le (hrecv : ∀ release, i ≠ .AsyncRecv c release)
    (hsend : ∀ k, i ≠ .AsyncSend c k) :
    (references c).added (exec ok s i) ≤ (references c).instr i := by
  fun_cases exec ok s i <;>
    first
      | exact Nat.zero_le _
      | exact Nat.le_refl _
      | exact absurd rfl (hrecv _)
      | exact absurd rfl (hsend _)
      | simp_all [Weight.added, references, about] <;> grind

end Exec

section Compare

variable (s : State) (c : ConnID)

theorem quiet_eq : (quiet c).total s = s.posted.count (.accept c) + (handled c).total s := by
  have hcount : (s.posted.map (quiet c).op).sum = s.posted.count (.accept c) := by
    induction s.posted with
    | nil => rfl
    | cons op ops ih =>
        rw [List.map_cons, List.sum_cons, ih, List.count_cons]
        cases op <;> simp [quiet, about]
        omega
  have hnone : (s.posted.map (handled c).op).sum = 0 := by
    rw [List.sum_eq_zero_iff]
    simp [handled]
  unfold Weight.total
  rw [hcount, hnone]
  simp only [handled]
  omega

theorem idle_le_quiet : (idle c).total s ≤ (quiet c).total s := by
  apply total_le
  · intro i
    cases i <;>
      first
        | exact Nat.zero_le _
        | exact Nat.le_refl _
  · intro op
    cases op <;> simp [idle, quiet]
  · exact fun _ ↦ Nat.zero_le _

theorem idle_le_unattached : (idle c).total s ≤ (unattached c).total s := by
  apply total_le
  · intro i
    cases i <;>
      first
        | exact Nat.zero_le _
        | exact Nat.le_refl _
  · intro op
    cases op <;> simp [idle, unattached]
  · exact fun _ ↦ Nat.zero_le _

end Compare

/-! ## 2. Steps -/

/-- `SendData` is executed by the command thread only, for connections with sessions. -/
def Commanded (conns : List ConnID) (threads : List (List Instr)) : Prop :=
  ∃ command others, threads = command :: others ∧ ∀ c,
    load (sends c).instr others = 0 ∧ (0 < (command.map (sends c).instr).sum → c ∈ conns)

/-- No connection is nowhere, and one that is free has no references. -/
structure Placed (conns free : List ConnID) (s : State) : Prop where
  staged : Staged conns free s
  place : ∀ c < s.shared.created, 1 ≤ (quiet c).total s + (closing c).total s + free.count c +
    (s.shared.connection c).connected_.toNat
  unused : ∀ c, 0 < (idle c).total s + free.count c → (references c).total s = 0
  commanded : Commanded conns s.threads

section Commands

variable {conns : List ConnID} {threads : List (List Instr)} {n : ℕ} {rest : List Instr}
  {i : Instr}

-- A thread executes an instruction that sends for no more connections.
theorem Commanded.set (h : Commanded conns threads) (hthread : threads[n]? = some (i :: rest))
    (next : List Instr) (hsends : ∀ c, (next.map (sends c).instr).sum ≤ (sends c).instr i) :
    Commanded conns (threads.set n (next ++ rest)) := by
  rcases h with ⟨command, others, rfl, hothers⟩
  cases n with
  | zero =>
      cases hthread
      refine ⟨next ++ rest, others, rfl, fun c ↦ ⟨(hothers c).1, fun hpos ↦ (hothers c).2 ?_⟩⟩
      have hle := hsends c
      rw [List.map_append, List.sum_append] at hpos
      rw [List.map_cons, List.sum_cons]
      omega
  | succ m =>
      refine ⟨command, others.set m (next ++ rest), rfl, fun c ↦ ⟨?_, (hothers c).2⟩⟩
      have hstep := load_step (w := (sends c).instr) (show others[m]? = _ from hthread) next
      have hle := hsends c
      have hzero := (hothers c).1
      omega

theorem Commanded.start (h : Commanded conns threads) {code : List Instr}
    (hcode : ∀ c, (code.map (sends c).instr).sum = 0) : Commanded conns (threads ++ [code]) := by
  rcases h with ⟨command, others, rfl, hothers⟩
  refine ⟨command, others ++ [code], rfl, fun c ↦ ⟨?_, (hothers c).2⟩⟩
  rw [load_start, (hothers c).1, hcode]

-- The thread that is about to send is the command thread.
theorem Commanded.mem (h : Commanded conns threads) (hthread : threads[n]? = some (i :: rest))
    {c : ConnID} (hi : 0 < (sends c).instr i) : c ∈ conns := by
  rcases h with ⟨command, others, rfl, hothers⟩
  cases n with
  | zero =>
      cases hthread
      apply (hothers c).2
      rw [List.map_cons, List.sum_cons]
      omega
  | succ m =>
      have hle := le_load (w := (sends c).instr) (show others[m]? = _ from hthread)
      have hzero := (hothers c).1
      omega

end Commands

namespace Placed

variable {conns free : List ConnID} {s t : State} {c : ConnID} {n : ℕ} {rest : List Instr}
  {ok : Bool} {i : Instr}

-- A connection that is free takes no reference.
theorem unused_run (h : Placed conns free s) (hthread : s.threads[n]? = some (i :: rest))
    (hunused : 0 < (idle c).total s + free.count c) :
    (references c).total (s.run n rest (exec ok s.shared i)) = 0 := by
  have hzero := h.unused c hunused
  have htotal := total_run (w := references c) hthread (exec ok s.shared i)
  have hquiet := idle_le_quiet s c
  have hunattached := idle_le_unattached s c
  have hreceive := h.staged.receive c
  have hsession := h.staged.session c
  have hrecv : ∀ release, i ≠ .AsyncRecv c release := by
    rintro release rfl
    have hle := le_total (w := receiving c) hthread
    have hone : (receiving c).instr (.AsyncRecv c release) = 1 := if_pos rfl
    omega
  have hsend : ∀ k, i ≠ .AsyncSend c k := by
    rintro k rfl
    have hone : (sends c).instr (.AsyncSend c k) = 1 := if_pos rfl
    have hpos := List.count_pos_iff.mpr (h.commanded.mem hthread (c := c) (by omega))
    omega
  have hexec := exec_references_le ok s.shared i c hrecv hsend
  omega

theorem commanded_run (h : Placed conns free s) (hthread : s.threads[n]? = some (i :: rest)) :
    Commanded conns (s.run n rest (exec ok s.shared i)).threads := by
  apply h.commanded.set hthread
  intro c
  have hexec := exec_sends ok s.shared i c
  unfold Weight.added at hexec
  omega

theorem accept (h : Placed conns free s) (hthread : s.threads[n]? = some (.Accept :: rest)) :
    ∃ free', Placed conns free' (s.run n rest (exec ok s.shared .Accept)) := by
  have hcommanded : Commanded conns (s.run n rest (exec ok s.shared .Accept)).threads :=
    h.commanded_run hthread
  rcases exec_accept ok h.staged.holds with ⟨c, free', stack, created, k, hholds, htakes, he⟩ | he
  · rcases h.staged.taken htakes with ⟨hvacant, hcount, hnot, hle, hlt⟩
    have hold : ∀ d < created, d ≠ c → d < s.shared.created := by
      intro d hd hne
      cases htakes with
      | popped => exact hd
      | created hc =>
          rw [← hc] at hd ⊢
          omega
    have hunused : (references c).total s = 0 := by
      cases htakes with
      | popped => exact h.unused c (by simp)
      | created hc =>
          exact onlyAbout_references.total_eq_zero (h.staged.fresh c (Nat.le_of_eq hc.symm)).1
    rw [he] at hcommanded ⊢
    have hstaged := h.staged.enters hthread hvacant hholds hcount hnot hle hlt k
    generalize ht : s.run n rest _ = t at hstaged hcommanded ⊢
    have htotal : ∀ w : Weight,
        w.total t + w.instr .Accept = w.total s + w.instr (.SetConnection c) := by
      intro w
      rw [← ht]
      exact total_next hthread _ _
    have hshared : t.shared.created = created ∧ t.shared.connection = s.shared.connection := by
      rw [← ht]
      exact ⟨rfl, rfl⟩
    have hquiet : ∀ d, (quiet d).total t = (quiet d).total s + about d c 1 :=
      fun d ↦ htotal (quiet d)
    have hclosing : ∀ d, (closing d).total t = (closing d).total s := fun d ↦ htotal (closing d)
    have hidle : ∀ d, (idle d).total t = (idle d).total s + about d c 1 := fun d ↦ htotal (idle d)
    refine ⟨free', hstaged, fun d hd ↦ ?_, fun d hd ↦ ?_, hcommanded⟩
    · rw [hshared.1] at hd
      rw [hquiet, hclosing, hshared.2]
      by_cases hdc : d = c
      · rw [hdc, about, if_pos rfl]
        omega
      · rw [hcount d hdc, about, if_neg (Ne.symm hdc)]
        exact h.place d (hold d hd hdc)
    · rw [show (references d).total t = _ from htotal (references d)]
      by_cases hdc : d = c
      · rw [hdc]
        exact hunused
      · rw [hidle, hcount d hdc, about, if_neg (Ne.symm hdc)] at hd
        exact h.unused d hd
  · rw [he] at hcommanded ⊢
    have htotal := fun w : Weight ↦ total_next (w := w) hthread s.shared .SetNotRunning
    refine ⟨free, h.staged.notAccepted hthread, fun d hd ↦ ?_, fun d hd ↦ ?_, hcommanded⟩
    · rw [show (quiet d).total _ = _ from htotal (quiet d),
        show (closing d).total _ = _ from htotal (closing d)]
      exact h.place d hd
    · rw [show (idle d).total _ = _ from htotal (idle d)] at hd
      rw [show (references d).total _ = _ from htotal (references d)]
      exact h.unused d hd

theorem pushFree (h : Placed conns free s)
    (hthread : s.threads[n]? = some (.PushFree c :: rest)) :
    Placed conns (c :: free) (s.run n rest (exec ok s.shared (.PushFree c))) := by
  have hcommanded : Commanded conns (s.run n rest (exec ok s.shared (.PushFree c))).threads :=
    h.commanded_run hthread
  have hstaged : Staged conns (c :: free) (s.run n rest (exec ok s.shared (.PushFree c))) :=
    h.staged.pushFree hthread
  generalize ht : s.run n rest (exec ok s.shared (.PushFree c)) = t at hstaged hcommanded ⊢
  have htotal : ∀ w : Weight, w.total t + w.instr (.PushFree c) = w.total s := by
    intro w
    rw [← ht, total_run hthread]
    simp [Weight.added, exec]
  have hshared : t.shared.created = s.shared.created ∧
      t.shared.connection = s.shared.connection := by
    rw [← ht]
    exact ⟨rfl, rfl⟩
  have hcount : ∀ d, (c :: free).count d = free.count d + about d c 1 := by
    intro d
    rw [List.count_cons, about]
    grind
  refine ⟨hstaged, fun d hd ↦ ?_, fun d hd ↦ ?_, hcommanded⟩
  · rw [hshared.1] at hd
    have hplace := h.place d hd
    have hquiet : (quiet d).total t + about d c 1 = (quiet d).total s := htotal (quiet d)
    rw [hcount, hshared.2, show (closing d).total t = _ from htotal (closing d)]
    omega
  · have hidle : (idle d).total t + about d c 1 = (idle d).total s := htotal (idle d)
    rw [hcount] at hd
    rw [show (references d).total t = _ from htotal (references d)]
    exact h.unused d (by omega)

-- The list stays as it is.
theorem keep (h : Placed conns free s) (hthread : s.threads[n]? = some (i :: rest))
    (hstaged : Staged conns free (s.run n rest (exec ok s.shared i))) (hC : Kept s (.Run i ok))
    (haccept : i ≠ .Accept) (hpush : ∀ d, i ≠ .PushFree d) :
    Placed conns free (s.run n rest (exec ok s.shared i)) := by
  have hfail : ¬ FailsAtOnce ok i := by
    rintro ⟨rfl, c, rfl⟩
    exact hC.accept c rfl
  have htotal : ∀ w : Weight, w.total (s.run n rest (exec ok s.shared i)) + w.instr i =
      w.total s + w.added (exec ok s.shared i) := fun w ↦ total_run hthread _
  -- whoever handles a connection knows that it is not connected
  have hflag : ∀ c, 0 < (quiet c).instr i → (s.shared.connection c).connected_ = false := by
    intro c hpos
    have hle := le_total (w := quiet c) hthread
    have hstage := h.staged.stage c
    rw [← Bool.toNat_eq_zero]
    omega
  refine ⟨hstaged, fun c hc ↦ ?_, fun c hc ↦ ?_, h.commanded_run hthread⟩
  · have hc' : c < (exec ok s.shared i).shared.created := hc
    rw [(exec_free ok s.shared i haccept hpush).2] at hc'
    have hupdate : i = .UpdateAcceptContext c → ok = true := by
      rintro rfl
      by_contra hno
      exact hC.updated c (by rw [Bool.eq_false_of_not_eq_true hno])
    have hend : i = .DisconnectEx c → ok = true := by
      rintro rfl
      by_contra hno
      exact hC.disconnected c (by rw [Bool.eq_false_of_not_eq_true hno])
    have hrunning : i = .OnDisconnect c → s.shared.server.m_bReadyForShutdown = false := by
      rintro rfl
      exact hC.running c ok rfl
    have hclose : i = .Close c →
        (s.shared.connection c).iorefs_ = 0 ∧ (s.shared.connection c).connected_ = false := by
      rintro rfl
      exact ⟨hC.closed c ok rfl, hflag c (by simp [quiet, about])⟩
    have hset : i = .SetConnected c → (s.shared.connection c).connected_ = false := by
      rintro rfl
      exact hflag c (by simp [quiet, about])
    have hexec := exec_place ok s.shared i c hpush hupdate hend hrunning hclose hset
    have hplace := h.place c hc'
    have hquiet := htotal (quiet c)
    have hclosing := htotal (closing c)
    show 1 ≤ _ + _ + _ + ((exec ok s.shared i).shared.connection c).connected_.toNat
    omega
  · by_cases hunused : 0 < (idle c).total s + free.count c
    · exact h.unused_run hthread hunused
    · have hidle := htotal (idle c)
      have hclose : i = .Close c := by
        by_contra hne
        have hexec := exec_idle ok s.shared i c haccept hne hfail
        omega
      have hrefs := h.staged.refs c
      have hzero := hC.closed c ok (by rw [hclose])
      have hexec := exec_references_le ok s.shared i c (by simp [hclose]) (by simp [hclose])
      have hreferences := htotal (references c)
      omega

theorem run (h : Placed conns free s) (hthread : s.threads[n]? = some (i :: rest))
    (hC : Kept s (.Run i ok)) :
    ∃ free', Placed conns free' (s.run n rest (exec ok s.shared i)) := by
  by_cases haccept : i = .Accept
  · rw [haccept] at hthread ⊢
    exact h.accept hthread
  by_cases hpush : ∃ c, i = .PushFree c
  · rcases hpush with ⟨c, rfl⟩
    exact ⟨_, h.pushFree hthread⟩
  have hpush' : ∀ c, i ≠ .PushFree c := fun c hi ↦ hpush ⟨c, hi⟩
  by_cases hset : ∃ c, i = .SetConnection c
  · rcases hset with ⟨c, rfl⟩
    exact ⟨_, h.keep hthread (h.staged.setConnection hthread) hC haccept hpush'⟩
  have hstaged := h.staged.other hthread hC.toOrderly haccept hpush' fun c hi ↦ hset ⟨c, hi⟩
  exact ⟨_, h.keep hthread hstaged hC haccept hpush'⟩

theorem call (h : Placed conns free s) (hi : OwnCall i) : Placed conns free (s.start [i]) := by
  have hnone : ∀ c, ∀ w ∈ [quiet c, closing c, idle c, references c, sends c], w.instr i = 0 := by
    intro c w hw
    simp only [List.mem_cons, List.not_mem_nil, or_false] at hw
    cases i with
    | PushCommand command =>
        rcases hw with rfl | rfl | rfl | rfl | rfl <;> cases command <;>
          simp_all [OwnCall, EasyCommand.connId, quiet, closing, idle, references, sends]
    | _ =>
        rcases hw with rfl | rfl | rfl | rfl | rfl <;>
          simp_all [OwnCall, quiet, closing, idle, references, sends]
  have hsame : ∀ c, ∀ w ∈ [quiet c, closing c, idle c, references c, sends c],
      w.total (s.start [i]) = w.total s := by
    intro c w hw
    rw [total_start, List.map_singleton, List.sum_singleton, hnone c w hw, Nat.add_zero]
  refine ⟨h.staged.call hi, fun c hc ↦ ?_, fun c hc ↦ ?_, h.commanded.start fun c ↦ ?_⟩
  · rw [hsame c (quiet c) (by simp), hsame c (closing c) (by simp)]
    exact h.place c hc
  · rw [hsame c (idle c) (by simp)] at hc
    rw [hsame c (references c) (by simp)]
    exact h.unused c hc
  · rw [List.map_singleton, List.sum_singleton, hnone c (sends c) (by simp)]

-- A completion takes the place of its operation.
theorem completed_place (bResult : Bool) (data : EasyCommandOnData) (s : Shared) (op : Operation)
    (haccept : ∀ d, op = .accept d → bResult = true ∧ s.acceptor.connection_ = some d)
    (c : ConnID) :
    ∀ w ∈ [quiet c, closing c, idle c],
      ((completed bResult data s op).map w.instr).sum = w.op op := by
  intro w hw
  simp only [List.mem_cons, List.not_mem_nil, or_false] at hw
  cases op with
  | accept d =>
      rcases haccept d rfl with ⟨rfl, hd⟩
      rcases hw with rfl | rfl | rfl <;> simp [completed, hd, quiet, closing, idle]
  | recv d =>
      simp only [completed]
      split <;> rcases hw with rfl | rfl | rfl <;> simp [quiet, closing, idle]
  | send d k => rcases hw with rfl | rfl | rfl <;> simp [completed, quiet, closing, idle]
  | disconnect d => rcases hw with rfl | rfl | rfl <;> simp [completed, quiet, closing, idle]

theorem complete (h : Placed conns free s) {bResult : Bool} {data : EasyCommandOnData}
    {op : Operation} (hop : op ∈ s.posted) (hC : Kept s (.Complete op bResult data)) :
    Placed conns free
      { s.start (completed bResult data s.shared op) with posted := s.posted.erase op } := by
  have haccept : ∀ d, op = .accept d →
      bResult = true ∧ s.shared.acceptor.connection_ = some d := by
    rintro d rfl
    constructor
    · by_contra hfail
      exact hC.accepted d data (by rw [Bool.eq_false_of_not_eq_true hfail])
    · have hle := op_le_total (w := posting d) hop
      have hone : (posting d).op (.accept d) = 1 := if_pos rfl
      exact h.staged.posted d (by omega)
  have hsame : ∀ c, ∀ w ∈ [quiet c, closing c, idle c],
      w.total { s.start (completed bResult data s.shared op) with posted := s.posted.erase op } =
        w.total s := by
    intro c w hw
    have htotal := total_complete (w := w) hop (completed bResult data s.shared op)
    rw [completed_place bResult data s.shared op haccept c w hw] at htotal
    exact Nat.add_right_cancel htotal
  refine ⟨h.staged.complete bResult data hop, fun c hc ↦ ?_, fun c hc ↦ ?_,
    h.commanded.start fun c ↦ ?_⟩
  · rw [hsame c (quiet c) (by simp), hsame c (closing c) (by simp)]
    exact h.place c hc
  · rw [hsame c (idle c) (by simp)] at hc
    have htotal := total_complete (w := references c) hop (completed bResult data s.shared op)
    rw [completed_references] at htotal
    rw [Nat.add_right_cancel htotal]
    exact h.unused c hc
  · fun_cases completed bResult data s.shared op <;> simp [sends]

-- The end of a connection with a session closes the connection.
theorem acts_quiet {s : EasyBaseServer} {command : EasyCommand} {actions : List Action}
    (h : Acts conns s command actions)
    (hknown : ∀ c, command = .OnDisconnect c → s.client_ c ≠ none) (c : ConnID) :
    (quiet c).command command ≤ ((actions.flatMap ofAction).map (quiet c).instr).sum := by
  cases h with
  | close hc => simp [ofAction, quiet]
  | send hc => exact Nat.zero_le _
  | other hnone hactions =>
      cases command with
      | OnDisconnect d => exact absurd (hnone d rfl) (hknown d rfl)
      | _ => exact Nat.zero_le _

theorem acts_commanded {s : EasyBaseServer} {command : EasyCommand} {actions : List Action}
    (h : Acts conns s command actions) (shutdown : Bool) (c : ConnID)
    (hpos : 0 < ((actions.flatMap ofAction).map (sends c).instr).sum) :
    c ∈ attachedAfter shutdown conns command := by
  cases h with
  | close hc => simp [ofAction, sends] at hpos
  | @send i r d buf hc =>
      have he : d = c := by
        by_contra hne
        simp [ofAction, sends, about, hne] at hpos
      rw [← he]
      exact hc
  | other hnone hactions =>
      rw [Staged.ofAction_other (fun _ ↦ rfl) hactions] at hpos
      exact absurd hpos (Nat.lt_irrefl 0)

theorem execute (h : Placed conns free s) {e : Executed} {commands : List EasyCommand}
    {server : EasyBaseServer} (hidle : s.threads[0]? = some [])
    (hlist : s.m_CommandList = e.1 :: commands)
    (hex : Executes .WIN32 s.shared.server e server) (hC : Kept s (.Execute e)) :
    Placed (attachedAfter s.shared.server.m_bReadyForShutdown conns e.1) free
      { s with
        shared := s.shared.executed e.1 server
        threads := s.threads.set 0 (e.2.flatMap ofAction)
        m_CommandList := commands } := by
  have hknown : ∀ c, e.1 = .OnDisconnect c → s.shared.server.client_ c ≠ none :=
    fun c he ↦ hC.known c e.2 (by rw [← he])
  have hacts := hex.acts h.staged.attached h.staged.array fun c he ↦
    h.staged.ended (hlist.trans (by rw [he]))
  have htotal := fun w : Weight ↦ total_execute (w := w) hidle hlist
    (s.shared.executed e.1 server) (e.2.flatMap ofAction)
  refine ⟨h.staged.execute hidle hlist hex, fun c hc ↦ ?_, fun c hc ↦ ?_, ?_⟩
  · have hplace := h.place c (by simpa using hc)
    have hquiet := htotal (quiet c)
    have hclosing := htotal (closing c)
    have hle := acts_quiet hacts hknown c
    have hzero : (closing c).command e.1 = 0 := rfl
    show 1 ≤ _ + _ + _ + ((s.shared.executed e.1 server).connection c).connected_.toNat
    rw [Shared.executed_connected]
    omega
  · have hsum := htotal (idle c)
    rw [ofAction_sum e.2 (fun _ _ ↦ rfl) (fun _ ↦ rfl) fun _ ↦ rfl] at hsum
    have hreferences := htotal (references c)
    rw [ofAction_references] at hreferences
    have hunused := h.unused c (by rwa [Nat.add_right_cancel hsum] at hc)
    exact (Nat.add_right_cancel hreferences).trans hunused
  · rcases h.commanded with ⟨command, others, hthreads, hothers⟩
    refine ⟨e.2.flatMap ofAction, others, ?_, fun c ↦ ⟨(hothers c).1, ?_⟩⟩
    · show s.threads.set 0 _ = _
      rw [hthreads, List.set_cons_zero]
    · exact acts_commanded hacts s.shared.server.m_bReadyForShutdown c

theorem init (iMaxSession : ℕ) (memory : SessionPtr → EasySession) (array : ℕ → SessionPtr) :
    Placed [] [] (init iMaxSession memory array) := by
  refine ⟨.init iMaxSession memory array, fun c hc ↦ absurd hc (Nat.not_lt_zero c), fun _ _ ↦ rfl,
    [], [], rfl, fun c ↦ ⟨rfl, fun hpos ↦ absurd hpos (Nat.lt_irrefl 0)⟩⟩

theorem step (h : Placed conns free s) {event : Event} (hC : Kept s event)
    (hst : Step OwnCall s event t) : ∃ conns' free', Placed conns' free' t := by
  cases hst with
  | call hi => exact ⟨_, _, h.call hi⟩
  | run hthread => exact ⟨_, h.run hthread hC⟩
  | complete hop => exact ⟨_, _, h.complete hop hC⟩
  | execute hidle hlist hex => exact ⟨_, _, h.execute hidle hlist hex hC⟩

theorem inOnePlace (h : Placed conns free s) : InOnePlace s := by
  refine ⟨free, h.staged.holds, fun c hc ↦ ?_, fun c hc ↦ ?_⟩
  · have hplace := h.place c hc
    have hstage := h.staged.stage c
    have hquiet := quiet_eq s c
    omega
  · rcases h.staged.vacant_free hc with ⟨hvacant, hone⟩
    have hrefs := h.staged.refs c
    have hzero := h.unused c (by omega)
    have hlt : c < s.shared.created := by
      by_contra hle
      exact (h.staged.fresh c (Nat.le_of_not_lt hle)).2.2.1 hc
    exact ⟨hlt, hone, by omega, hvacant.connected⟩

end Placed

/-! ## 3. Runs -/

/-- **The places of the connections**: in a run in which nothing happens that `Kept` excludes, every
connection is in one place in every state, and those in the list are free. -/
theorem connections_in_one_place (iMaxSession : ℕ) (memory : SessionPtr → EasySession)
    (array : ℕ → SessionPtr) (es : List Event) (s : State)
    (h : Path (Guarded Kept (Step OwnCall)) (init iMaxSession memory array) es s) :
    InOnePlace s := by
  have hplaced : ∃ conns free, Placed conns free s := by
    apply h.always (I := fun _ s ↦ ∃ conns free, Placed conns free s)
    · exact ⟨[], [], .init iMaxSession memory array⟩
    · rintro ls s l t ⟨conns, free, hplaced⟩ hst
      exact hplaced.step hst.1 hst.2
  rcases hplaced with ⟨conns, free, hplaced⟩
  exact hplaced.inOnePlace

section Guards

variable {s : State} {event : Event} {c : ConnID} {ok : Bool}

theorem Kept.of_harmless (h : Harmless event = true) : Kept s event := by
  refine ⟨.of_harmless h, ?_, ?_, ?_, ?_, ?_, ?_⟩
  · rintro c data rfl
    simp [Harmless] at h
  · rintro c rfl
    simp [Harmless] at h
  · rintro c rfl
    simp [Harmless] at h
  · rintro c ok rfl
    simp [Harmless] at h
  · rintro c actions rfl
    simp [Harmless] at h
  · rintro c ok rfl
    simp [Harmless] at h

-- The events that are excluded in some states only.
theorem Kept.of_disconnected (h : (unreferenced c).total s = 0) :
    Kept s (.Run (.Disconnected c) ok) :=
  ⟨.of_disconnected h, by simp, by simp, by simp, by simp, by simp, by simp⟩

theorem Kept.of_onDisconnect (h : s.shared.server.m_bReadyForShutdown = false) :
    Kept s (.Run (.OnDisconnect c) ok) :=
  ⟨⟨by simp, by simp, by simp⟩, by simp, by simp, by simp, fun _ _ _ ↦ h, by simp, by simp⟩

theorem Kept.of_execute {actions : List Action} (h : s.shared.server.client_ c ≠ none) :
    Kept s (.Execute (.OnDisconnect c, actions)) := by
  refine ⟨⟨by simp, by simp, by simp⟩, by simp, by simp, by simp, by simp, ?_, by simp⟩
  rintro d actions he
  cases he
  exact h

theorem Kept.of_close (h : (s.shared.connection c).iorefs_ = 0) : Kept s (.Run (.Close c) ok) := by
  refine ⟨⟨by simp, by simp, by simp⟩, by simp, by simp, by simp, by simp, by simp, ?_⟩
  rintro d ok he
  cases he
  exact h

end Guards

theorem kept_started :
    Path (Guarded Kept (Step OwnCall)) (init 1 (fun _ ↦ zeroSession) fun _ ↦ 0) startEvents
      started := by
  refine guarded_started trivial ?_ fun t event hevent hne ↦
    .of_harmless (harmless_startEvents event hevent hne)
  exact ⟨⟨by simp, fun _ _ _ ↦ rfl, by simp⟩, by simp, by simp, by simp, by simp, by simp, by simp⟩

/-- The first connection is accepted, ends, and is in the list again. -/
theorem connections_in_one_place_again :
    ∃ es s, Path (Guarded Kept (Step OwnCall)) (init 1 (fun _ ↦ zeroSession) fun _ ↦ 0) es s ∧
      LinkedStack.Holds [0] s.shared.acceptor.free_connection_ ∧ InOnePlace s := by
  have hkept : ∀ t event, Harmless event = true → Kept t event := fun _ _ ↦ .of_harmless
  have haccepted := guarded_complete kept_started (.accept 0) true ⟨[], by decide⟩ (by decide)
    (.of_harmless rfl)
  have hreceiving := harmless_turns haccepted hkept (List.replicate 11 (2, true)) rfl
  have hconnect := guarded_execute hreceiving (.OnConnect 0, []) (.of_harmless rfl) rfl rfl
    ⟨_, ⟨zeroSession, rfl⟩, rfl, rfl⟩
  -- the client goes
  have hreceived := guarded_complete hconnect (.recv 0) true ⟨[], by decide⟩ (by decide)
    (.of_harmless rfl)
  have hending := harmless_turns hreceived hkept (List.replicate 3 (3, true)) rfl
  have hended := guarded_complete hending (.disconnect 0) true ⟨[], by decide⟩ (by decide)
    (.of_harmless rfl)
  have hdisconnected := hended.snoc (l := .Run (.Disconnected 0) true)
    ⟨.of_disconnected rfl, .run (n := 4) rfl⟩
  have hcallback := hdisconnected.snoc (l := .Run (.OnDisconnect 0) true)
    ⟨.of_onDisconnect rfl, .run (n := 4) rfl⟩
  have hpushed := harmless_turns hcallback hkept [(4, true)] rfl
  have hexecuted := guarded_execute hpushed (.OnDisconnect 0, [.Close 0])
    (.of_execute (Option.some_ne_none 0)) rfl rfl ⟨_, rfl, rfl, rfl⟩
  have hclosed := hexecuted.snoc (l := .Run (.Close 0) true) ⟨.of_close rfl, .run (n := 0) rfl⟩
  have hfree := harmless_turns hclosed hkept [(0, true)] rfl
  exact ⟨_, _, hfree, ⟨rfl, rfl⟩, connections_in_one_place 1 _ _ _ _ hfree⟩

/-- The connection of an `AcceptEx` that fails at once is pushed twice, so that the list does not
end any more; the one of an accept that completes without success is nowhere. -/
theorem connection_twice_or_lost :
    (¬ ∀ es s, Path (Step OwnCall) (init 1 (fun _ ↦ zeroSession) fun _ ↦ 0) es s →
      ∃ free, LinkedStack.Holds free s.shared.acceptor.free_connection_) ∧
    ¬ ∀ es s, Path (Step OwnCall) (init 1 (fun _ ↦ zeroSession) fun _ ↦ 0) es s →
      InOnePlace s := by
  constructor
  · intro hall
    have hstart : Path (Step OwnCall) (init 1 (fun _ ↦ zeroSession) fun _ ↦ 0) _ _ :=
      path_call .nil .Start trivial
    have hfail := path_turns hstart (List.replicate 5 (1, true) ++ [(1, false)])
    have htwice := path_turns hfail (List.replicate 3 (1, true))
    exact LinkedStack.not_holds_push_twice (s := .empty) (a := 0) (hall _ _ htwice)
  · intro hall
    have hfail := path_complete kept_started.of_guarded (.accept 0) false ⟨[], by decide⟩
      (List.mem_singleton_self _)
    rcases hall _ _ hfail with ⟨free, hholds, hplace, -⟩
    cases hholds.unique (LinkedStack.holds_empty : LinkedStack.Holds [] _)
    have hnowhere : 0 = 1 := hplace 0 (by decide)
    exact absurd hnowhere (by decide)

end Iocp

end Fantuan
