import Fantuan.Network.Reports

/-!
# The order of what is received (Windows)

Any worker may take the completion of a receive, and another one the next.  The data of a connection
come to the command thread in order because the next receive is posted after the callback.
-/

open Lib

namespace Fantuan

namespace Iocp

/-! ## 1. The data of a connection -/

/-- The data that the receives of `c` have completed with. -/
def received (c : ConnID) (es : List Event) : List EasyCommandOnData :=
  es.filterMap fun
    | .Complete (.recv d) _ data => if d = c ∧ data.m_pData ≠ [] then some data else none
    | _ => none

/-- The data of `c` in commands. -/
def handed (c : ConnID) (commands : List EasyCommand) : List EasyCommandOnData :=
  commands.filterMap fun
    | .OnData d data => if d = c then some data else none
    | _ => none

/-- There is memory for each `COMMAND_ONDATA` of `c`, and no `COMMAND_SHUTDOWN` is executed. -/
def Lossless (c : ConnID) (es : List Event) : Prop :=
  (∀ data, .Run (.OnData c data) false ∉ es) ∧ ∀ actions, .Execute (.Shutdown, actions) ∉ es

/-- A worker has data of `c` with `p`, and has not pushed them. -/
def conveying (c : ConnID) (p : EasyCommandOnData → Bool) : Weight where
  instr
    | .OnData d data => about c d (p data).toNat
    | .PushCommand command =>
        match command with
        | .OnData d data => about c d (p data).toNat
        | _ => 0
    | _ => 0
  op _ := 0
  command _ := 0

/-- A receive is under way for `c`. -/
def awaiting (c : ConnID) : Weight where
  instr _ := 0
  op
    | .recv d => about c d 1
    | _ => 0
  command _ := 0

theorem handed_append (c : ConnID) (commands commands' : List EasyCommand) :
    handed c (commands ++ commands') = handed c commands ++ handed c commands' :=
  List.filterMap_append

theorem received_snoc (c : ConnID) (es : List Event) (event : Event) :
    received c (es ++ [event]) = received c es ++ received c [event] := List.filterMap_append

theorem Lossless.left {c : ConnID} {es : List Event} {event : Event}
    (h : Lossless c (es ++ [event])) : Lossless c es :=
  ⟨fun data hmem ↦ h.1 data (List.mem_append_left _ hmem),
    fun actions hmem ↦ h.2 actions (List.mem_append_left _ hmem)⟩

-- There is one receive of a connection at a time.
theorem conveying_add_awaiting_le (s : State) (c : ConnID) (p : EasyCommandOnData → Bool) :
    (conveying c p).total s + (awaiting c).total s ≤ (receiving c).total s := by
  have hp : ∀ data, (p data).toNat ≤ 1 := fun data ↦ Bool.toNat_le (p data)
  apply add_le_total
  · intro i
    cases i with
    | PushCommand command =>
        cases command <;> simp [conveying, awaiting, receiving, about]
        grind
    | OnData d data =>
        simp [conveying, awaiting, receiving, about]
        grind
    | _ => exact Nat.zero_le _
  · intro op
    cases op <;> simp [conveying, awaiting, receiving]
  · intro command
    exact Nat.zero_le _

section Exec

variable (ok : Bool) (s : Shared) (i : Instr) (c : ConnID) (p : EasyCommandOnData → Bool)

theorem exec_conveying (hdata : ∀ data, i ≠ .OnData c data)
    (hpush : ∀ data, i ≠ .PushCommand (.OnData c data)) :
    (conveying c p).instr i = 0 ∧ (conveying c p).added (exec ok s i) = 0 := by
  fun_cases exec ok s i <;>
    first
      | exact ⟨rfl, rfl⟩
      | simp_all [Weight.added, conveying, about]

-- `OnData` goes on with the data, or drops them.
theorem exec_onData (data : EasyCommandOnData) :
    exec ok s (.OnData c data) =
      if s.server.m_bReadyForShutdown || !ok then
        { shared := s, next := [.AsyncRecv c true] }
      else { shared := s, next := [.PushCommand (.OnData c data)] } := rfl

end Exec

/-! ## 2. Between the receive and the command -/

/-- `pending` are the data of `c` that a worker has. -/
structure Conveyed (c : ConnID) (es : List Event) (pending : List EasyCommandOnData) (s : State) :
    Prop where
  count : ∀ p, (conveying c p).total s = pending.countP p
  order : (handed c (pushes es) ++ pending).Sublist (received c es)
  kept : Lossless c es →
    handed c (pushes es) ++ pending = received c es ∧ s.shared.server.m_bReadyForShutdown = false

namespace Conveyed

variable {c : ConnID} {conns free : List ConnID} {es : List Event} {s t : State} {event : Event}
  {pending : List EasyCommandOnData} {n : ℕ} {i : Instr} {rest : List Instr} {ok : Bool}

theorem length (h : Conveyed c es pending s) :
    (conveying c fun _ ↦ true).total s = pending.length := by
  rw [h.count, List.countP_true]

theorem small (h : Conveyed c es pending s) (hstaged : Staged conns free s) :
    pending.length ≤ 1 := by
  have hle := conveying_add_awaiting_le s c fun _ ↦ true
  have hreceive := hstaged.receive c
  rw [h.length] at hle
  omega

-- A worker that has data has these.
theorem pending_eq (h : Conveyed c es pending s) (hstaged : Staged conns free s)
    {data : EasyCommandOnData} (hpos : 0 < (conveying c (· == data)).total s) :
    pending = [data] := by
  have hsmall := h.small hstaged
  rw [h.count, List.countP_pos_iff] at hpos
  obtain ⟨data', hmem, heq⟩ := hpos
  rw [eq_of_beq heq] at hmem
  match pending, hmem, hsmall with
  | [_], hmem, _ => rw [List.mem_singleton.mp hmem]

-- A step that does nothing with the data of `c`.
theorem keep (h : Conveyed c es pending s)
    (htotal : ∀ p, (conveying c p).total t = (conveying c p).total s)
    (hpushed : handed c event.pushed = []) (hreceived : received c [event] = [])
    (hshutdown : t.shared.server.m_bReadyForShutdown = true →
      s.shared.server.m_bReadyForShutdown = true ∨
        ∃ actions, event = .Execute (.Shutdown, actions)) :
    Conveyed c (es ++ [event]) pending t := by
  have hhanded : handed c (pushes (es ++ [event])) = handed c (pushes es) := by
    rw [pushes_snoc, handed_append, hpushed, List.append_nil]
  have hsame : received c (es ++ [event]) = received c es := by
    rw [received_snoc, hreceived, List.append_nil]
  constructor
  · intro p
    rw [htotal, h.count]
  · rw [hhanded, hsame]
    exact h.order
  · rw [hhanded, hsame]
    intro hlossless
    have hold := h.kept hlossless.left
    refine ⟨hold.1, ?_⟩
    by_contra hshut
    rw [Bool.not_eq_false] at hshut
    rcases hshutdown hshut with hs | ⟨actions, rfl⟩
    · exact Bool.false_ne_true (hold.2.symm.trans hs)
    · exact hlossless.2 actions (List.mem_append_right _ List.mem_cons_self)

theorem onData (h : Conveyed c es pending s) (hstaged : Staged conns free s)
    {data : EasyCommandOnData} (hthread : s.threads[n]? = some (.OnData c data :: rest)) :
    ∃ pending', Conveyed c (es ++ [.Run (.OnData c data) ok]) pending'
      (s.run n rest (exec ok s.shared (.OnData c data))) := by
  have hone : (conveying c (· == data)).instr (.OnData c data) = 1 := by
    simp [conveying, about]
  have hle := le_total (w := conveying c (· == data)) hthread
  have hpending := h.pending_eq hstaged (by omega : 0 < (conveying c (· == data)).total s)
  rw [exec_onData]
  split
  · -- the data are dropped
    rename_i hdrop
    have hpushes : pushes (es ++ [.Run (.OnData c data) ok]) = pushes es := by
      rw [pushes_snoc]
      exact List.append_nil _
    have hreceived : received c (es ++ [.Run (.OnData c data) ok]) = received c es := by
      rw [received_snoc]
      exact List.append_nil _
    refine ⟨[], ?_, ?_, ?_⟩
    · intro p
      have hsum := total_next (w := conveying c p) hthread s.shared (.AsyncRecv c true)
      have hinstr : (conveying c p).instr (.OnData c data) = (p data).toNat := if_pos rfl
      have hnext : (conveying c p).instr (.AsyncRecv c true) = 0 := rfl
      have hcount := h.count p
      rw [hpending, List.countP_singleton] at hcount
      rw [hinstr, hnext, hcount, toNat_eq] at hsum
      exact Nat.add_right_cancel (hsum.trans (Nat.add_comm _ _))
    · rw [hpushes, hreceived]
      exact ((List.nil_sublist pending).append_left _).trans h.order
    · intro hlossless
      have hrunning := (h.kept hlossless.left).2
      rw [hrunning, Bool.false_or, Bool.not_eq_true'] at hdrop
      rw [hdrop] at hlossless
      exact absurd (List.mem_append_right _ List.mem_cons_self) (hlossless.1 data)
  · refine ⟨pending, h.keep ?_ rfl rfl fun hshut ↦ .inl hshut⟩
    intro p
    exact Nat.add_right_cancel (total_next (w := conveying c p) hthread s.shared
      (.PushCommand (.OnData c data)))

theorem pushed (h : Conveyed c es pending s) (hstaged : Staged conns free s)
    {data : EasyCommandOnData}
    (hthread : s.threads[n]? = some (.PushCommand (.OnData c data) :: rest)) :
    Conveyed c (es ++ [.Run (.PushCommand (.OnData c data)) ok]) []
      (s.run n rest (exec ok s.shared (.PushCommand (.OnData c data)))) := by
  have hone : (conveying c (· == data)).instr (.PushCommand (.OnData c data)) = 1 := by
    simp [conveying, about]
  have hle := le_total (w := conveying c (· == data)) hthread
  have hpending := h.pending_eq hstaged (by omega : 0 < (conveying c (· == data)).total s)
  have hhanded : handed c (pushes (es ++ [.Run (.PushCommand (.OnData c data)) ok])) ++ [] =
      handed c (pushes es) ++ pending := by
    rw [pushes_snoc, handed_append, List.append_nil, hpending]
    simp [Event.pushed, handed]
  have hreceived : received c (es ++ [.Run (.PushCommand (.OnData c data)) ok]) =
      received c es := by
    rw [received_snoc]
    exact List.append_nil _
  constructor
  · intro p
    have hsum := total_run (w := conveying c p) hthread
      (exec ok s.shared (.PushCommand (.OnData c data)))
    have hinstr : (conveying c p).instr (.PushCommand (.OnData c data)) = (p data).toNat :=
      if_pos rfl
    have hnext : (conveying c p).added (exec ok s.shared (.PushCommand (.OnData c data))) = 0 := rfl
    have hcount := h.count p
    rw [hpending, List.countP_singleton] at hcount
    rw [hinstr, hnext, hcount, toNat_eq] at hsum
    exact Nat.add_right_cancel (hsum.trans (Nat.add_comm _ _))
  · rw [hhanded, hreceived]
    exact h.order
  · rw [hhanded, hreceived]
    exact fun hlossless ↦ h.kept hlossless.left

theorem run (h : Conveyed c es pending s) (hstaged : Staged conns free s)
    (hthread : s.threads[n]? = some (i :: rest)) :
    ∃ pending', Conveyed c (es ++ [.Run i ok]) pending' (s.run n rest (exec ok s.shared i)) := by
  by_cases hdata : ∃ data, i = .OnData c data
  · obtain ⟨data, rfl⟩ := hdata
    exact h.onData hstaged hthread
  by_cases hpush : ∃ data, i = .PushCommand (.OnData c data)
  · obtain ⟨data, rfl⟩ := hpush
    exact ⟨[], h.pushed hstaged hthread⟩
  refine ⟨pending, h.keep ?_ ?_ rfl fun hshut ↦ .inl ?_⟩
  · intro p
    have hexec := exec_conveying ok s.shared i c p (fun data he ↦ hdata ⟨data, he⟩)
      fun data he ↦ hpush ⟨data, he⟩
    have hsum := total_run (w := conveying c p) hthread (exec ok s.shared i)
    omega
  · cases i with
    | PushCommand command =>
        cases command with
        | OnData d data =>
            have hne : d ≠ c := by
              rintro rfl
              exact hpush ⟨data, rfl⟩
            exact List.filterMap_cons_none (if_neg hne)
        | _ => rfl
    | _ => rfl
  · have hserver : (exec ok s.shared i).shared.server.m_bReadyForShutdown = true := hshut
    rwa [exec_server] at hserver

theorem call (h : Conveyed c es pending s) (hi : OwnCall i) :
    Conveyed c (es ++ [.Call i]) pending (s.start [i]) := by
  refine h.keep ?_ rfl rfl fun hshut ↦ .inl hshut
  intro p
  have hzero : (conveying c p).instr i = 0 := by
    cases i with
    | PushCommand command =>
        have hnone : command.connId = none := hi
        cases command <;> first | rfl | exact absurd hnone (Option.some_ne_none _)
    | Start => rfl
    | Stop => rfl
    | _ => exact False.elim hi
  rw [total_start, List.map_singleton, List.sum_singleton, hzero, Nat.add_zero]

-- The data of `c` that are received are the only ones on their way.
theorem complete (h : Conveyed c es pending s) (hstaged : Staged conns free s) (bResult : Bool)
    (data : EasyCommandOnData) {op : Operation} (hop : op ∈ s.posted) :
    ∃ pending', Conveyed c (es ++ [.Complete op bResult data]) pending'
      { s.start (completed bResult data s.shared op) with posted := s.posted.erase op } := by
  have htotal := fun p ↦ total_complete (w := conveying c p) hop
    (completed bResult data s.shared op)
  have hpushed : pushes (es ++ [.Complete op bResult data]) = pushes es := by
    rw [pushes_snoc]
    exact List.append_nil _
  by_cases hrecv : op = .recv c ∧ data.m_pData ≠ []
  · obtain ⟨rfl, hdata⟩ := hrecv
    have hnone : pending = [] := by
      have hle := conveying_add_awaiting_le s c fun _ ↦ true
      have hawait := op_le_total (w := awaiting c) hop
      have hone : (awaiting c).op (.recv c) = 1 := if_pos rfl
      have hreceive := hstaged.receive c
      rw [h.length] at hle
      exact List.eq_nil_of_length_eq_zero (by omega)
    have hreceived : received c (es ++ [.Complete (.recv c) bResult data]) =
        received c es ++ [data] := by
      rw [received_snoc]
      exact congrArg (_ ++ ·) (List.filterMap_cons_some (if_pos ⟨rfl, hdata⟩))
    have horder := h.order
    rw [hnone, List.append_nil] at horder
    refine ⟨[data], ?_, ?_, ?_⟩
    · intro p
      have hcode : completed bResult data s.shared (.recv c) = [.OnData c data] := if_neg hdata
      have hinstr : (conveying c p).instr (.OnData c data) = (p data).toNat := if_pos rfl
      have hzero : (conveying c p).op (.recv c) = 0 := rfl
      have hcount := h.count p
      have hsum := htotal p
      rw [hnone, List.countP_nil] at hcount
      rw [hcode, List.map_singleton, List.sum_singleton, hinstr, hzero, hcount] at hsum
      rw [List.countP_singleton, ← toNat_eq, ← Nat.zero_add (p data).toNat, ← hsum, ← hcode]
      rfl
    · rw [hpushed, hreceived]
      exact horder.append (List.Sublist.refl [data])
    · intro hlossless
      have hold := h.kept hlossless.left
      rw [hnone, List.append_nil] at hold
      rw [hpushed, hreceived, hold.1]
      exact ⟨rfl, hold.2⟩
  · refine ⟨pending, h.keep ?_ rfl ?_ fun hshut ↦ .inl hshut⟩
    · intro p
      have hzero : ((completed bResult data s.shared op).map (conveying c p).instr).sum = 0 := by
        fun_cases completed bResult data s.shared op
        case case4 d hne =>
          have hd : d ≠ c := fun hd ↦ hrecv ⟨congrArg _ hd, hne⟩
          simp [conveying, about, hd]
        all_goals rfl
      have hsum := htotal p
      have hop : (conveying c p).op op = 0 := rfl
      omega
    · cases op with
      | recv d =>
          apply List.filterMap_cons_none
          apply if_neg
          rintro ⟨rfl, hne⟩
          exact hrecv ⟨rfl, hne⟩
      | _ => rfl

theorem execute {e : Executed} {commands : List EasyCommand} {server : EasyBaseServer}
    (h : Conveyed c es pending s) (hidle : s.threads[0]? = some [])
    (hlist : s.m_CommandList = e.1 :: commands)
    (hex : Executes .WIN32 s.shared.server e server) :
    Conveyed c (es ++ [.Execute e]) pending
      { s with
        shared := s.shared.executed e.1 server
        threads := s.threads.set 0 (e.2.flatMap ofAction)
        m_CommandList := commands } := by
  refine h.keep ?_ rfl rfl ?_
  · intro p
    have hsum := total_execute (w := conveying c p) hidle hlist
      (s.shared.executed e.1 server) (e.2.flatMap ofAction)
    rw [ofAction_sum e.2 (fun _ _ ↦ rfl) (fun _ ↦ rfl) fun _ ↦ rfl] at hsum
    exact hsum
  · intro hshut
    rw [Shared.executed_server, hex.sessionEffect.shutdown_iff] at hshut
    refine hshut.imp_right fun he ↦ ⟨e.2, ?_⟩
    rw [← he]

theorem step (h : Conveyed c es pending s) (hstaged : Staged conns free s)
    (hst : Step OwnCall s event t) : ∃ pending', Conveyed c (es ++ [event]) pending' t := by
  cases hst with
  | call hi => exact ⟨pending, h.call hi⟩
  | run hthread => exact h.run hstaged hthread
  | @complete op bResult data hop => exact h.complete hstaged bResult data hop
  | execute hidle hlist hex => exact ⟨pending, h.execute hidle hlist hex⟩

theorem init (iMaxSession : ℕ) (memory : SessionPtr → EasySession) (array : ℕ → SessionPtr)
    (c : ConnID) : Conveyed c [] [] (init iMaxSession memory array) :=
  ⟨fun _ ↦ rfl, List.Sublist.refl [],
    fun _ ↦ ⟨rfl, (EasyBaseServer.idle_initialized iMaxSession memory array).running⟩⟩

end Conveyed

/-- **Data come in order**: what the commands of a connection carry, executed and waiting, is what
its receives completed with, in the same order and none of it twice.  Where no data are dropped, and
no worker has any, it is all of it. -/
theorem data_in_order (iMaxSession : ℕ) (memory : SessionPtr → EasySession)
    (array : ℕ → SessionPtr) (es : List Event) (s : State)
    (h : Path (Guarded Orderly (Step OwnCall)) (init iMaxSession memory array) es s)
    (c : ConnID) :
    (handed c (executions es) ++ handed c s.m_CommandList).Sublist (received c es) ∧
      (Lossless c es → (conveying c fun _ ↦ true).total s = 0 →
        handed c (executions es) ++ handed c s.m_CommandList = received c es) := by
  have hall : (∃ conns free, Staged conns free s) ∧ ∃ pending, Conveyed c es pending s := by
    apply h.always (I := fun es s ↦
      (∃ conns free, Staged conns free s) ∧ ∃ pending, Conveyed c es pending s)
    · exact ⟨⟨[], [], Staged.init iMaxSession memory array⟩,
        [], Conveyed.init iMaxSession memory array c⟩
    · rintro es s event t ⟨⟨conns, free, hstaged⟩, pending, hconveyed⟩ ⟨hC, hst⟩
      exact ⟨hstaged.step hC hst, hconveyed.step hstaged hst⟩
  obtain ⟨-, pending, hconveyed⟩ := hall
  rw [← handed_append, ← pushes_eq h.of_guarded rfl]
  constructor
  · exact (List.sublist_append_left _ pending).trans hconveyed.order
  · intro hlossless hnone
    rw [hconveyed.length] at hnone
    rw [← (hconveyed.kept hlossless).1, List.eq_nil_of_length_eq_zero hnone, List.append_nil]

/-- Events with which nothing is dropped. -/
def Keeps : Event → Bool
  | .Run (.OnData _ _) ok => ok
  | .Execute (.Shutdown, _) => false
  | _ => true

theorem Lossless.of_all {c : ConnID} {es : List Event} (h : es.all Keeps = true) :
    Lossless c es := by
  rw [List.all_eq_true] at h
  constructor
  · exact fun data hmem ↦ Bool.false_ne_true (h _ hmem)
  · exact fun actions hmem ↦ Bool.false_ne_true (h _ hmem)

/-- Two workers receive from the first connection, and the second has pushed its byte. -/
theorem data_in_order_eight :
    ∃ es s, Path (Guarded Orderly (Step OwnCall)) (init 1 (fun _ ↦ zeroSession) fun _ ↦ 0) es s ∧
      (received 0 es).map EasyCommandOnData.m_pData = [[7], [8]] ∧
      handed 0 (executions es) ++ handed 0 s.m_CommandList = received 0 es := by
  have haccepted := guarded_complete orderly_started (.accept 0) true ⟨[], by decide⟩
    (List.mem_singleton_self _) (.of_harmless rfl)
  have hreceiving := harmless_turns haccepted (fun _ _ ↦ .of_harmless)
    (List.replicate 11 (2, true)) rfl
  have hseven := guarded_complete hreceiving (.recv 0) true ⟨[7], by decide⟩ (by decide)
    (.of_harmless rfl)
  have hposted := harmless_turns hseven (fun _ _ ↦ .of_harmless) (List.replicate 4 (3, true)) rfl
  have height := guarded_complete hposted (.recv 0) true ⟨[8], by decide⟩ (by decide)
    (.of_harmless rfl)
  have hhanded := harmless_turns height (fun _ _ ↦ .of_harmless) [(4, true), (4, true)] rfl
  exact ⟨_, _, hhanded, rfl, (data_in_order 1 _ _ _ _ hhanded 0).2 (.of_all rfl) rfl⟩

end Iocp

end Fantuan
