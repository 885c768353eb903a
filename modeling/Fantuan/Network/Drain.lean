import Fantuan.Network.Lifecycle
import Mathlib.Data.Set.Card

/-!
# ~EasyAcceptor (Windows)

The destructor waits until there are as many entries in `free_connection_` as `total_connection_`
says, and then closes what it pops.  But `Close` pushes without counting, and all that it does with
a connection of an acceptor is to push it.
-/

open Lib StateTransition

namespace Fantuan

namespace Iocp

/-! ## 1. The destructor -/

/-- Where the destructor is. -/
inductive Stage
  | Stop
  | WaitRefs
  | WaitAll
  | Release
  | Done
deriving DecidableEq

/-- `depth` is what `QueryDepthSList` says of `free_connection_`; `deleted` are the connections that
`Delete` has been called for. -/
structure Drain where
  stage : Stage
  shared : Shared
  depth : ℕ
  deleted : List ConnID

/-- `Depth` in the header of a list, a `USHORT`, after a push and after a pop. -/
def pushed (depth : ℕ) : ℕ := uint16 (depth + 1)

def popped (depth : ℕ) : ℕ := uint16 (depth + (2 ^ 16 - 1))

namespace Drain

/-- `EasyConnection::Close`; `acceptor_`: the connection has one. -/
def Close (acceptor_ : Bool) (c : ConnID) (x : Drain) : Drain :=
  if (x.shared.connection c).iorefs_ ≠ 0 ∨ (x.shared.connection c).connected_ then x
  else if acceptor_ then
    { x with
      shared :=
        { x.shared with
          acceptor.free_connection_ := x.shared.acceptor.free_connection_.push c }
      depth := pushed x.depth }
  else { x with deleted := x.deleted ++ [c] }

/-- `~EasyAcceptor`, one turn of a loop or one call after the other.  `Create` has been called with
the acceptor for all its connections. -/
def step (x : Drain) : Option Drain :=
  match x.stage with
  | .Stop =>
      some { x with
        stage := .WaitRefs, shared := { x.shared with acceptor.running_ := false } }
  | .WaitRefs =>
      if x.shared.acceptor.iorefs_ ≠ 0 then some x else some { x with stage := .WaitAll }
  | .WaitAll =>
      if x.depth ≠ x.shared.acceptor.total_connection_ then some x
      else some { x with stage := .Release }
  | .Release =>
      if x.depth = 0 then some { x with stage := .Done }
      else
        match x.shared.acceptor.free_connection_.pop with
        | some (c, free_connection_) =>
            some (Close true c
              { x with
                shared := { x.shared with acceptor.free_connection_ := free_connection_ }
                depth := popped x.depth })
        | none => none
  | .Done => none

/-- The destructor is called. -/
def start (s : Shared) (depth : ℕ) : Drain := ⟨.Stop, s, depth, []⟩

end Drain

/-- `~EasyAcceptor` comes to its end, with every connection deleted once. -/
def Drains (s : Shared) (depth : ℕ) : Prop :=
  ∃ x ∈ eval Drain.step (.start s depth), x.stage = .Done ∧ x.deleted.Perm (List.range s.created)

/-- `total_connection_` is the number of connections in the list. -/
def CountsFree (s : Shared) : Prop :=
  {c | s.acceptor.free_connection_.Entry c}.ncard = s.acceptor.total_connection_

/-! ## 2. The loops -/

section Loops

variable {x y : Drain} {c : ConnID} {s t : Shared} {depth : ℕ}

theorem close_deleted : (Drain.Close true c x).deleted = x.deleted := by
  unfold Drain.Close
  split <;> rfl

theorem step_deleted (h : x.step = some y) : y.deleted = x.deleted := by
  unfold Drain.step at h
  split at h
  · cases h
    rfl
  · split at h <;> cases h <;> rfl
  · split at h <;> cases h <;> rfl
  · split at h
    · cases h
      rfl
    · split at h
      · cases h
        exact close_deleted
      · cases h
  · cases h

-- Nothing is ever deleted.
theorem created_of_drains (h : Drains s depth) : s.created = 0 := by
  obtain ⟨x, hx, -, hperm⟩ := h
  have hnone : x.deleted = [] := by
    apply Reaches.invariant (I := fun x ↦ x.deleted = []) (mem_eval.mp hx).1 rfl
    exact fun y z hy hstep ↦ (step_deleted hstep).trans hy
  rw [hnone] at hperm
  have hlen := hperm.length_eq
  rw [List.length_nil, List.length_range] at hlen
  exact hlen.symm

-- Without connections the destructor goes through.
theorem drains_of_none (hcreated : s.created = 0) (hrefs : s.acceptor.iorefs_ = 0)
    (htotal : s.acceptor.total_connection_ = 0) : Drains s 0 := by
  obtain ⟨t, ht⟩ : ∃ t : Shared, t = { s with acceptor.running_ := false } := ⟨_, rfl⟩
  have hstop : Drain.step (.start s 0) = some ⟨.WaitRefs, t, 0, []⟩ := by
    rw [ht]
    rfl
  have hwait : Drain.step ⟨.WaitRefs, t, 0, []⟩ = some ⟨.WaitAll, t, 0, []⟩ := by
    rw [ht]
    exact if_neg (not_not_intro hrefs)
  have hall : Drain.step ⟨.WaitAll, t, 0, []⟩ = some ⟨.Release, t, 0, []⟩ := by
    rw [ht]
    exact if_neg (not_not_intro htotal.symm)
  have hrelease : Drain.step ⟨.Release, t, 0, []⟩ = some ⟨.Done, t, 0, []⟩ := rfl
  have hreaches : Reaches Drain.step (.start s 0) ⟨.Done, t, 0, []⟩ :=
    reaches_of_step hstop (reaches_of_step hwait (reaches_of_step hall
      (reaches_of_step hrelease .refl)))
  refine ⟨_, mem_eval.mpr ⟨hreaches, rfl⟩, rfl, ?_⟩
  rw [hcreated]
  exact List.Perm.refl _

-- The wait loop is not left.
theorem wait_never_ends (hne : depth ≠ s.acceptor.total_connection_) :
    ¬ (eval Drain.step (.start s depth)).Dom := by
  apply not_dom_of_invariant (I := fun x ↦ x.depth ≠ x.shared.acceptor.total_connection_ ∧
    (x.stage = .Stop ∨ x.stage = .WaitRefs ∨ x.stage = .WaitAll)) ⟨hne, .inl rfl⟩
  intro x hx
  obtain ⟨hx, hstage | hstage | hstage⟩ := hx
  · simp only [Drain.step, hstage]
    exact ⟨_, rfl, hx, .inr (.inl rfl)⟩
  · simp only [Drain.step, hstage]
    split
    · exact ⟨_, rfl, hx, .inr (.inl hstage)⟩
    · exact ⟨_, rfl, hx, .inr (.inr rfl)⟩
  · simp only [Drain.step, hstage]
    exact ⟨x, if_pos hx, hx, .inr (.inr hstage)⟩

/-- **The release loop does not get on**: a connection that can be closed is back in the list. -/
theorem release_same {stack : LinkedStack ConnID} (hdepth : 0 < depth) (hlt : depth < 2 ^ 16)
    (hpop : s.acceptor.free_connection_.pop = some (c, stack))
    (hrefs : (s.connection c).iorefs_ = 0) (hconnected : (s.connection c).connected_ = false)
    (deleted : List ConnID) :
    Drain.step ⟨.Release, s, depth, deleted⟩ = some ⟨.Release, s, depth, deleted⟩ := by
  have hne : depth ≠ 0 := by omega
  have hclosed : ¬ ((s.connection c).iorefs_ ≠ 0 ∨ (s.connection c).connected_ = true) := by
    rw [hrefs, hconnected]
    simp
  have hback : pushed (popped depth) = depth := by
    unfold pushed popped uint16
    omega
  simp only [Drain.step, if_neg hne, hpop, Drain.Close, if_neg hclosed, if_true, hback,
    LinkedStack.pop_push hpop]

theorem release_never_ends {stack : LinkedStack ConnID} (hdepth : 0 < depth)
    (hlt : depth < 2 ^ 16) (hpop : s.acceptor.free_connection_.pop = some (c, stack))
    (hrefs : (s.connection c).iorefs_ = 0) (hconnected : (s.connection c).connected_ = false)
    (deleted : List ConnID) : ¬ (eval Drain.step ⟨.Release, s, depth, deleted⟩).Dom := by
  apply not_dom_of_invariant (I := fun x ↦ x = ⟨.Release, s, depth, deleted⟩) rfl
  intro x hx
  rw [hx]
  exact ⟨_, release_same hdepth hlt hpop hrefs hconnected deleted, rfl⟩

end Loops

/-! ## 3. The history of the counters -/

/-- What an event does to `Depth`. -/
def depthAfter (s : State) (depth : ℕ) : Event → ℕ
  | .Run (.PushFree _) _ => pushed depth
  | .Run .Accept _ =>
      match s.shared.acceptor.free_connection_.pop with
      | some _ => popped depth
      | none => depth
  | _ => depth

/-- The steps, with `Depth` of the list of free connections. -/
def StepDepth (calls : Instr → Prop) (x : State × ℕ) (event : Event) (y : State × ℕ) : Prop :=
  Step calls x.1 event y.1 ∧ y.2 = depthAfter x.1 x.2 event

/-- A connection is pushed. -/
def IsPush : Event → Bool
  | .Run (.PushFree _) _ => true
  | _ => false

/-- `total_connection_++`. -/
def IsCount : Event → Bool
  | .Run .CountFree _ => true
  | _ => false

section Counters

variable {calls : Instr → Prop} {s t : State} {depth depth' : ℕ} {event : Event}

-- Every run has its depths.
theorem path_depth {s₀ : State} {es : List Event} (h : Path (Step calls) s₀ es s) :
    ∃ depth, Path (StepDepth calls) (s₀, 0) es (s, depth) := by
  have hsame : ∀ (s : State) (event : Event) (t : State) (x : State × ℕ), Step calls s event t →
      x.1 = s → ∃ y, StepDepth calls x event y ∧ y.1 = t := by
    intro s event t x hst hs
    exact ⟨(t, depthAfter x.1 x.2 event), ⟨hs ▸ hst, rfl⟩, rfl⟩
  obtain ⟨x, hx, rfl⟩ : ∃ x, Path (StepDepth calls) (s₀, 0) es x ∧ x.1 = s :=
    h.simulated (fun (s : State) (x : State × ℕ) ↦ x.1 = s) rfl hsame
  exact ⟨x.2, hx⟩

theorem exec_total (ok : Bool) (s : Shared) (i : Instr) (haccept : i ≠ .Accept)
    (hcount : i ≠ .CountFree) :
    (exec ok s i).shared.acceptor.total_connection_ = s.acceptor.total_connection_ := by
  fun_cases exec ok s i <;> simp_all

/-- `Depth` and `total_connection_`, modulo the range of the smaller one. -/
structure Counters (es : List Event) (depth total_connection_ : ℕ) : Prop where
  depth_lt : depth < 2 ^ 16
  total_lt : total_connection_ < 2 ^ 32
  balance : (depth + es.countP IsCount) % 2 ^ 16 = (total_connection_ + es.countP IsPush) % 2 ^ 16

namespace Counters

variable {es : List Event} {total_connection_ total' : ℕ}

-- One event more, which is no push and no addition.
theorem same (h : Counters es depth total_connection_) (hpush : IsPush event = false)
    (hcount : IsCount event = false) (hdepth : depth' < 2 ^ 16) (htotal : total' < 2 ^ 32)
    (hdiff : (depth' + total_connection_) % 2 ^ 16 = (depth + total') % 2 ^ 16) :
    Counters (es ++ [event]) depth' total' := by
  have hbalance := h.balance
  refine ⟨hdepth, htotal, ?_⟩
  rw [List.countP_append, List.countP_append, List.countP_singleton, List.countP_singleton, hpush,
    hcount]
  simp only [Bool.false_eq_true, if_false]
  omega

theorem run {i : Instr} {ok : Bool} (h : Counters es depth s.shared.acceptor.total_connection_) :
    Counters (es ++ [.Run i ok]) (depthAfter s depth (.Run i ok))
      (exec ok s.shared i).shared.acceptor.total_connection_ := by
  have hdepth := h.depth_lt
  have htotal := h.total_lt
  have hbalance := h.balance
  have hkeeps : i ≠ .Accept → i ≠ .CountFree → _ := exec_total ok s.shared i
  cases i with
  | Accept =>
      cases hpop : s.shared.acceptor.free_connection_.pop with
      | none =>
          have hnew : (exec ok s.shared .Accept).shared.acceptor.total_connection_ =
              s.shared.acceptor.total_connection_ := by
            simp only [exec, hpop]
            split <;> rfl
          rw [hnew, depthAfter, hpop]
          exact h.same rfl rfl hdepth htotal rfl
      | some p =>
          have hnew : (exec ok s.shared .Accept).shared.acceptor.total_connection_ =
              pred s.shared.acceptor.total_connection_ := by
            simp only [exec, hpop]
          rw [hnew, depthAfter, hpop]
          apply h.same rfl rfl
          · exact Nat.mod_lt _ (by decide)
          · unfold pred
            split <;> omega
          · simp only [popped, uint16, pred]
            split <;> omega
  | CountFree =>
      refine ⟨hdepth, Nat.mod_lt _ (by decide), ?_⟩
      rw [List.countP_append, List.countP_append]
      show (depth + (es.countP IsCount + 1)) % _ =
        (uint32 (s.shared.acceptor.total_connection_ + 1) + (es.countP IsPush + 0)) % _
      unfold uint32
      omega
  | PushFree c =>
      refine ⟨Nat.mod_lt _ (by decide), htotal, ?_⟩
      rw [List.countP_append, List.countP_append]
      show (uint16 (depth + 1) + (es.countP IsCount + 0)) % _ =
        (s.shared.acceptor.total_connection_ + (es.countP IsPush + 1)) % _
      unfold uint16
      omega
  | _ =>
      rw [hkeeps (by simp) (by simp)]
      exact h.same rfl rfl hdepth htotal rfl

theorem step (h : Counters es depth s.shared.acceptor.total_connection_)
    (hstep : StepDepth calls (s, depth) event (t, depth')) :
    Counters (es ++ [event]) depth' t.shared.acceptor.total_connection_ := by
  obtain ⟨hst, hdepth⟩ := hstep
  rw [show depth' = depthAfter s depth event from hdepth]
  cases hst with
  | call => exact h.same rfl rfl h.depth_lt h.total_lt rfl
  | run hthread => exact h.run
  | complete hop => exact h.same rfl rfl h.depth_lt h.total_lt rfl
  | execute hidle hlist hex =>
      show Counters _ depth (s.shared.executed _ _).acceptor.total_connection_
      rw [Shared.executed_acceptor]
      exact h.same rfl rfl h.depth_lt h.total_lt rfl

theorem of_path {iMaxSession : ℕ} {memory : SessionPtr → EasySession} {array : ℕ → SessionPtr}
    (h : Path (StepDepth calls) (init iMaxSession memory array, 0) es (s, depth)) :
    Counters es depth s.shared.acceptor.total_connection_ :=
  h.always (I := fun es x ↦ Counters es x.2 x.1.shared.acceptor.total_connection_)
    ⟨Nat.two_pow_pos 16, Nat.two_pow_pos 32, rfl⟩ fun _ _ _ _ hcounters hst ↦ hcounters.step hst

end Counters

/-- **The wait loop** lets the destructor pass if and only if `total_connection_` is a `USHORT` and
there were as many additions to it as there were pushes to the list. -/
theorem wait_passes_iff {iMaxSession : ℕ} {memory : SessionPtr → EasySession}
    {array : ℕ → SessionPtr} {es : List Event}
    (h : Path (StepDepth calls) (init iMaxSession memory array, 0) es (s, depth)) :
    depth = s.shared.acceptor.total_connection_ ↔
      s.shared.acceptor.total_connection_ < 2 ^ 16 ∧
        es.countP IsPush % 2 ^ 16 = es.countP IsCount % 2 ^ 16 := by
  obtain ⟨hdepth, -, hbalance⟩ := Counters.of_path h
  omega

end Counters

/-! ## 4. Before the first connection -/

/-- `total_connection_++`, still to be executed. -/
def counting : Weight where
  instr
    | .CountFree => 1
    | _ => 0
  op _ := 0
  command _ := 0

/-- No connection has been created yet, and nothing is about one. -/
structure Unborn (s : State) : Prop where
  created : s.shared.created = 0
  holds : LinkedStack.Holds [] s.shared.acceptor.free_connection_
  total : s.shared.acceptor.total_connection_ = 0
  mentions : ∀ c, (mentions c).total s = 0
  counting : counting.total s = 0
  connected : ∀ c, (s.shared.connection c).connected_ = false
  attached : Attached [] s.shared.server
  array : s.shared.server.ArrayOk

theorem exec_counting (ok : Bool) (s : Shared) (i : Instr) (hex : ∀ c, i ≠ .AcceptEx c) :
    counting.added (exec ok s i) = 0 := by
  fun_cases exec ok s i <;> simp_all [Weight.added, counting]

theorem created_le (ok : Bool) (s : Shared) (i : Instr) :
    s.created ≤ (exec ok s i).shared.created := by
  fun_cases exec ok s i <;> simp

namespace Unborn

variable {s t : State} {n : ℕ} {rest : List Instr} {i : Instr} {ok : Bool}

theorem init (iMaxSession : ℕ) (memory : SessionPtr → EasySession) (array : ℕ → SessionPtr) :
    Unborn (init iMaxSession memory array) :=
  ⟨rfl, LinkedStack.holds_empty, rfl, fun _ ↦ rfl, rfl, fun _ ↦ rfl,
    attached_initialized iMaxSession memory array, arrayOk_initialized iMaxSession memory array⟩

theorem call (h : Unborn s) (hi : OwnCall i) : Unborn (s.start [i]) := by
  have hnone : i.connId = none := by
    cases i <;> simp_all [OwnCall, Instr.connId]
  have hcount : Iocp.counting.instr i = 0 := by
    cases i <;> simp_all [OwnCall, Iocp.counting]
  refine ⟨h.created, h.holds, h.total, fun c ↦ ?_, ?_, h.connected, h.attached, h.array⟩
  · have hzero : (Iocp.mentions c).instr i = 0 := by
      simp [Iocp.mentions, hnone]
    rw [total_start, h.mentions, List.map_singleton, List.sum_singleton, hzero]
  · rw [total_start, h.counting, List.map_singleton, List.sum_singleton, hcount]

theorem pop_eq_none (h : Unborn s) : s.shared.acceptor.free_connection_.pop = none := by
  rw [LinkedStack.pop, show s.shared.acceptor.free_connection_.head = none from h.holds]
  rfl

-- No instruction is about a connection.
theorem connId_eq_none (h : Unborn s) (hthread : s.threads[n]? = some (i :: rest)) :
    i.connId = none := by
  cases hid : i.connId with
  | none => rfl
  | some c =>
      have hle := le_total (w := Iocp.mentions c) hthread
      have hone : (Iocp.mentions c).instr i = 1 := if_pos hid
      have hzero := h.mentions c
      omega

theorem run (h : Unborn s) (hthread : s.threads[n]? = some (i :: rest)) :
    Unborn (s.run n rest (exec ok s.shared i)) ∨
      0 < (s.run n rest (exec ok s.shared i)).shared.created := by
  have hid := h.connId_eq_none hthread
  have hne : ∀ c, i.connId ≠ some c := fun c he ↦ nomatch hid.symm.trans he
  have hcount : i ≠ .CountFree := by
    rintro rfl
    have hle := le_total (w := Iocp.counting) hthread
    have hzero := h.counting
    have hone : Iocp.counting.instr .CountFree = 1 := rfl
    omega
  have htotal : ∀ w : Weight, w.total (s.run n rest (exec ok s.shared i)) + w.instr i =
      w.total s + w.added (exec ok s.shared i) := fun w ↦ total_run hthread _
  by_cases haccept : i = .Accept
  · subst haccept
    have hpop := h.pop_eq_none
    cases ok with
    | true =>
        right
        show 0 < (exec true s.shared .Accept).shared.created
        simp [exec, hpop]
    | false =>
        have he : exec false s.shared .Accept =
            { shared := s.shared, next := [.SetNotRunning] } := by
          simp [exec, hpop]
        rw [he] at htotal ⊢
        refine .inl ⟨h.created, h.holds, h.total, fun c ↦ ?_, ?_, h.connected, h.attached, h.array⟩
        · exact (htotal (Iocp.mentions c)).trans (by rw [h.mentions]; rfl)
        · exact (htotal Iocp.counting).trans (by rw [h.counting]; rfl)
  · have hpush : ∀ c, i ≠ .PushFree c := fun c he ↦ hne c (he ▸ rfl)
    have hset : ∀ c, i ≠ .SetConnection c := fun c he ↦ hne c (he ▸ rfl)
    have hex : ∀ c, i ≠ .AcceptEx c := fun c he ↦ hne c (he ▸ rfl)
    have hfree := exec_free ok s.shared i haccept hpush
    have hserver := exec_client ok s.shared i hset
    have hmentions := fun c ↦ exec_mentions ok s.shared i c haccept (hne c) (h.connected c)
    refine .inl ⟨?_, ?_, ?_, fun c ↦ ?_, ?_, fun c ↦ (hmentions c).2, ?_, ?_⟩
    · exact hfree.2.trans h.created
    · show LinkedStack.Holds [] (exec ok s.shared i).shared.acceptor.free_connection_
      rw [hfree.1]
      exact h.holds
    · exact (exec_total ok s.shared i haccept hcount).trans h.total
    · have hsum := htotal (Iocp.mentions c)
      have hzero := h.mentions c
      have hadded := (hmentions c).1
      omega
    · have hsum := htotal Iocp.counting
      have hzero := h.counting
      have hadded := exec_counting ok s.shared i hex
      omega
    · show Attached [] (exec ok s.shared i).shared.server
      rw [hserver]
      exact h.attached
    · show (exec ok s.shared i).shared.server.ArrayOk
      rw [hserver]
      exact h.array

-- No operation is under way.
theorem not_posted (h : Unborn s) {op : Operation} (hop : op ∈ s.posted) : False := by
  have hle := op_le_total (w := Iocp.mentions op.connId) hop
  have hone : (Iocp.mentions op.connId).op op = 1 := if_pos rfl
  have hzero := h.mentions op.connId
  omega

theorem execute (h : Unborn s) {e : Executed} {commands : List EasyCommand}
    {server : EasyBaseServer} (hidle : s.threads[0]? = some [])
    (hlist : s.m_CommandList = e.1 :: commands)
    (hex : Executes .WIN32 s.shared.server e server) :
    Unborn { s with
      shared := s.shared.executed e.1 server
      threads := s.threads.set 0 (e.2.flatMap ofAction)
      m_CommandList := commands } := by
  have hid : ∀ c, e.1.connId ≠ some c := by
    intro c he
    have hle := Staged.command_le_total (w := Iocp.mentions c) hlist
    have hone : (Iocp.mentions c).command e.1 = 1 := if_pos he
    have hzero := h.mentions c
    omega
  have hnew : ∀ c, e.1 = .OnConnect c → c ∉ [] := fun c _ ↦ List.not_mem_nil
  have hended : ∀ c, e.1 = .OnDisconnect c → s.shared.server.client_ c = none ∨ c ∈ [] :=
    fun c he ↦ absurd (by rw [he]; rfl) (hid c)
  have heffect := hex.sessionEffect
  have hacts := hex.acts h.attached h.array hended
  have htotal := fun w : Weight ↦ total_execute (w := w) hidle hlist
    (s.shared.executed e.1 server) (e.2.flatMap ofAction)
  have hconns : attachedAfter s.shared.server.m_bReadyForShutdown [] e.1 = [] := by
    cases hcommand : e.1 with
    | OnConnect c => exact absurd (by rw [hcommand]; rfl) (hid c)
    | _ => rfl
  refine ⟨?_, ?_, ?_, fun c ↦ ?_, ?_, fun c ↦ ?_, ?_, ?_⟩
  · show (s.shared.executed e.1 server).created = 0
    rw [Shared.executed_created, h.created]
  · show LinkedStack.Holds [] (s.shared.executed e.1 server).acceptor.free_connection_
    rw [Shared.executed_acceptor]
    exact h.holds
  · show (s.shared.executed e.1 server).acceptor.total_connection_ = 0
    rw [Shared.executed_acceptor, h.total]
  · have hsum := htotal (Iocp.mentions c)
    have hle := Staged.acts_mentions hacts (List.not_mem_nil (a := c))
    have hzero := h.mentions c
    omega
  · have hsum := htotal Iocp.counting
    rw [ofAction_sum e.2 (fun _ _ ↦ rfl) (fun _ ↦ rfl) fun _ ↦ rfl] at hsum
    have hzero := h.counting
    omega
  · show ((s.shared.executed e.1 server).connection c).connected_ = false
    rw [Shared.executed_connected, h.connected]
  · show Attached [] (s.shared.executed e.1 server).server
    rw [Shared.executed_server, ← hconns]
    exact h.attached.command heffect hnew hended
  · show (s.shared.executed e.1 server).server.ArrayOk
    rw [Shared.executed_server]
    exact heffect.arrayOk h.attached h.array

theorem step (h : Unborn s) {event : Event} (hst : Step OwnCall s event t) :
    Unborn t ∨ 0 < t.shared.created := by
  cases hst with
  | call hi => exact .inl (h.call hi)
  | run hthread => exact h.run hthread
  | complete hop => exact (h.not_posted hop).elim
  | execute hidle hlist hex => exact .inl (h.execute hidle hlist hex)

-- The list has not been touched.
theorem depthAfter_eq (h : Unborn s) {event : Event} (hst : Step OwnCall s event t) :
    depthAfter s 0 event = 0 := by
  cases hst with
  | @run i n rest ok hthread =>
      have hid := h.connId_eq_none hthread
      cases i with
      | PushFree c => cases hid
      | Accept => rw [depthAfter, h.pop_eq_none]
      | _ => rfl
  | _ => rfl

end Unborn

theorem created_mono {calls : Instr → Prop} {s t : State} {event : Event}
    (hst : Step calls s event t) : s.shared.created ≤ t.shared.created := by
  cases hst with
  | call => exact Nat.le_refl _
  | run hthread => exact created_le _ _ _
  | complete hop => exact Nat.le_refl _
  | execute hidle hlist hex =>
      show _ ≤ (s.shared.executed _ _).created
      rw [Shared.executed_created]

-- As long as no connection has been created, the list and its counters are as they were.
theorem unborn_of_path {iMaxSession : ℕ} {memory : SessionPtr → EasySession}
    {array : ℕ → SessionPtr} {es : List Event} {s : State} {depth : ℕ}
    (h : Path (StepDepth OwnCall) (init iMaxSession memory array, 0) es (s, depth)) :
    Unborn s ∧ depth = 0 ∨ 0 < s.shared.created := by
  apply h.always (I := fun _ x ↦ Unborn x.1 ∧ x.2 = 0 ∨ 0 < x.1.shared.created)
  · exact .inl ⟨.init iMaxSession memory array, rfl⟩
  · intro _ x event y hx hst
    cases hx with
    | inl hunborn =>
        cases hunborn.1.step hst.1 with
        | inl hnext =>
            refine .inl ⟨hnext, ?_⟩
            rw [hst.2, hunborn.2, hunborn.1.depthAfter_eq hst.1]
        | inr hborn => exact .inr hborn
    | inr hborn => exact .inr (Nat.lt_of_lt_of_le hborn (created_mono hst.1))

/-! ## 5. Runs -/

/-- **The destructor drains the list**, and `total_connection_` is the number of connections in it,
in a state without accepts under way, if and only if no connection has ever been created. -/
theorem drains_iff (iMaxSession : ℕ) (memory : SessionPtr → EasySession)
    (array : ℕ → SessionPtr) (es : List Event) (s : State) (depth : ℕ)
    (h : Path (StepDepth OwnCall) (init iMaxSession memory array, 0) es (s, depth))
    (hrefs : s.shared.acceptor.iorefs_ = 0) :
    Drains s.shared depth ∧ CountsFree s.shared ↔ s.shared.created = 0 := by
  constructor
  · exact fun hdrains ↦ created_of_drains hdrains.1
  · intro hcreated
    obtain ⟨hunborn, rfl⟩ | hborn := unborn_of_path h
    · refine ⟨drains_of_none hcreated hrefs hunborn.total, ?_⟩
      have hempty : {c | s.shared.acceptor.free_connection_.Entry c} = ∅ :=
        Set.eq_empty_of_forall_notMem fun c hc ↦ List.not_mem_nil (hunborn.holds.entry_iff.mp hc)
      rw [CountsFree, hempty, Set.ncard_empty, hunborn.total]
    · omega

/-- The first connection cannot be created, and the destructor goes through. -/
theorem drains_not_created :
    ∃ es s depth,
      Path (StepDepth OwnCall) (init 1 (fun _ ↦ zeroSession) fun _ ↦ 0, 0) es (s, depth) ∧
        s.shared.acceptor.running_ = false ∧ Drains s.shared depth ∧ CountsFree s.shared := by
  have hstart : Path (Step OwnCall) (init 1 (fun _ ↦ zeroSession) fun _ ↦ 0) _ _ :=
    path_call .nil .Start trivial
  have hfail := path_turns hstart [(1, true), (1, true), (1, false), (1, true)]
  obtain ⟨depth, hdepth⟩ := path_depth hfail
  exact ⟨_, _, depth, hdepth, rfl, (drains_iff 1 _ _ _ _ depth hdepth rfl).mpr rfl⟩

/-- The first `AcceptEx` fails at once.  Its connection is pushed twice and counted once, and the
destructor waits forever. -/
theorem not_drains :
    ∃ es s depth,
      Path (StepDepth OwnCall) (init 1 (fun _ ↦ zeroSession) fun _ ↦ 0, 0) es (s, depth) ∧
        s.shared.acceptor.running_ = false ∧ s.shared.acceptor.iorefs_ = 0 ∧
        (∀ c < s.shared.created, s.shared.acceptor.free_connection_.Entry c) ∧
        depth = 2 ∧ s.shared.acceptor.total_connection_ = 1 ∧
        ¬ (eval Drain.step (.start s.shared depth)).Dom ∧ ¬ Drains s.shared depth := by
  have hstart : Path (Step OwnCall) (init 1 (fun _ ↦ zeroSession) fun _ ↦ 0) _ _ :=
    path_call .nil .Start trivial
  have hfail := path_turns hstart (List.replicate 5 (1, true) ++ [(1, false)])
  have hstopped := path_turns hfail (List.replicate 6 (1, true))
  obtain ⟨depth, hdepth⟩ := path_depth hstopped
  have hcounters := Counters.of_path hdepth
  have htwo : depth = 2 := by
    have hlt := hcounters.depth_lt
    have hbalance : (depth + 1) % 2 ^ 16 = (1 + 2) % 2 ^ 16 := hcounters.balance
    omega
  refine ⟨_, _, depth, hdepth, rfl, rfl, fun c hc ↦ ?_, htwo, rfl, ?_, fun hdrains ↦ ?_⟩
  · have hzero : c = 0 := Nat.lt_one_iff.mp hc
    rw [hzero]
    exact .first rfl
  · exact wait_never_ends (by rw [htwo]; decide)
  · exact absurd (created_of_drains hdrains) (by decide)

end Iocp

end Fantuan
