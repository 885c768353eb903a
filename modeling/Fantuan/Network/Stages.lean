import Fantuan.Midware.Attached
import Fantuan.Network.References
import Fantuan.Network.Stop

/-!
# The stages of a connection (Windows)

A connection goes from `free_connection_` through `Accept` to a worker, is connected, then
disconnected, and comes back to the list with `Close`.  Here is what counts for which stage, and
what the instructions do to the stages.
-/

open Lib

namespace Fantuan

namespace Iocp

/-! ## 1. The stages -/

/-- `c` is not connected: `Accept` has it, a worker handles its accept or its end, or the command
thread has its end before it. -/
def quiet (c : ConnID) : Weight where
  instr
    | .PushFree d => about c d 1
    | .SetConnection d => about c d 1
    | .AcceptIncrement d => about c d 1
    | .AcceptEx d => about c d 1
    | .UpdateAcceptContext d => about c d 1
    | .SetConnected d => about c d 1
    | .OnDisconnect d => about c d 1
    | .PushCommand command =>
        match command with
        | .OnDisconnect d => about c d 1
        | _ => 0
    | .Close d => about c d 1
    | _ => 0
  op
    | .accept d => about c d 1
    | _ => 0
  command
    | .OnDisconnect d => about c d 1
    | _ => 0

/-- `c` is being disconnected. -/
def closing (c : ConnID) : Weight where
  instr
    | .DisconnectEx d => about c d 1
    | .Disconnected d => about c d 1
    | _ => 0
  op
    | .disconnect d => about c d 1
    | _ => 0
  command _ := 0

/-- The accepting worker has not taken its reference to `c` yet. -/
def unreferenced (c : ConnID) : Weight where
  instr
    | .OnConnection d => about c d 1
    | .PushCommand command =>
        match command with
        | .OnConnect d => about c d 1
        | _ => 0
    | .PopInputContext d => about c d 1
    | .AsyncRecv d release => about c d (1 - release.toNat)
    | _ => 0
  op _ := 0
  command _ := 0

/-- A receive is under way for `c`, or on its way to be, or handled. -/
def receiving (c : ConnID) : Weight where
  instr
    | .OnConnection d => about c d 1
    | .PushCommand command =>
        match command with
        | .OnConnect d => about c d 1
        | .OnData d _ => about c d 1
        | _ => 0
    | .PopInputContext d => about c d 1
    | .AsyncRecv d _ => about c d 1
    | .WSARecv d _ => about c d 1
    | .OnData d _ => about c d 1
    | _ => 0
  op
    | .recv d => about c d 1
    | _ => 0
  command _ := 0

/-- `c` has no session: it is at an accept or to be closed, or its `COMMAND_ONCONNECT` is still to
be executed. -/
def unattached (c : ConnID) : Weight where
  instr
    | .PushFree d => about c d 1
    | .SetConnection d => about c d 1
    | .AcceptIncrement d => about c d 1
    | .AcceptEx d => about c d 1
    | .UpdateAcceptContext d => about c d 1
    | .SetConnected d => about c d 1
    | .OnConnection d => about c d 1
    | .PushCommand command =>
        match command with
        | .OnConnect d => about c d 1
        | _ => 0
    | .Close d => about c d 1
    | _ => 0
  op
    | .accept d => about c d 1
    | _ => 0
  command
    | .OnConnect d => about c d 1
    | _ => 0

/-- `client_` of `c` has been set to `NULL`, and the end of `c` is still to be executed. -/
def addressable (c : ConnID) : Weight where
  instr
    | .AcceptIncrement d => about c d 1
    | .AcceptEx d => about c d 1
    | .UpdateAcceptContext d => about c d 1
    | .SetConnected d => about c d 1
    | .DisconnectEx d => about c d 1
    | .Disconnected d => about c d 1
    | .OnDisconnect d => about c d 1
    | .PushCommand command =>
        match command with
        | .OnDisconnect d => about c d 1
        | _ => 0
    | _ => 0
  op
    | .accept d => about c d 1
    | .disconnect d => about c d 1
    | _ => 0
  command
    | .OnDisconnect d => about c d 1
    | _ => 0

/-- `SendData` is executed for `c`, and no reference has been taken. -/
def sends (c : ConnID) : Weight where
  instr
    | .SendData d _ => about c d 1
    | .AsyncSendBuffer d _ _ => about c d 1
    | .AsyncSend d _ => about c d 1
    | _ => 0
  op _ := 0
  command _ := 0

/-- Threads in `Accept` before the increment of `iorefs_`. -/
def entering : Weight where
  instr
    | .Accept => 1
    | .SetConnection _ => 1
    | .AcceptIncrement _ => 1
    | _ => 0
  op _ := 0
  command _ := 0

/-- The calls of `Accept`, until they complete. -/
def chain : Weight where
  instr
    | .Accept => 1
    | .SetConnection _ => 1
    | .AcceptIncrement _ => 1
    | .AcceptEx _ => 1
    | _ => 0
  op
    | .accept _ => 1
    | _ => 0
  command _ := 0

/-- An accept is posted for `c`, or soon will be. -/
def posting (c : ConnID) : Weight where
  instr
    | .AcceptIncrement d => about c d 1
    | .AcceptEx d => about c d 1
    | _ => 0
  op
    | .accept d => about c d 1
    | _ => 0
  command _ := 0

/-- The connection that an instruction is about.  `AsyncDisconnect` does nothing with one that is
not connected. -/
def Instr.connId : Instr → Option ConnID
  | SetConnection c | AcceptIncrement c | AcceptEx c | PushFree c => some c
  | UpdateAcceptContext c | SetConnected c | PopInputContext c | Disconnected c => some c
  | OnConnection c | OnDisconnect c | OnData c _ => some c
  | PushCommand command => command.connId
  | DisconnectEx c | AsyncRecv c _ | WSARecv c _ | Decrement c | Close c => some c
  | SendData c _ | AsyncSendBuffer c _ _ | AsyncSend c _ | WSASend c _ => some c
  | _ => none

def Operation.connId : Operation → ConnID
  | accept c => c
  | recv c => c
  | send c _ => c
  | disconnect c => c

/-- What is about `c`. -/
def mentions (c : ConnID) : Weight where
  instr i := if i.connId = some c then 1 else 0
  op op := about c op.connId 1
  command command := if command.connId = some c then 1 else 0

/-! ## 2. What instructions do to the stages -/

section Exec

variable (ok : Bool) (s : Shared) (i : Instr) (c : ConnID)

-- Most instructions leave a weight as it is, by the definitions; only the others are simplified.

/-- An `AcceptEx` that fails at once. -/
def FailsAtOnce (ok : Bool) (i : Instr) : Prop := ok = false ∧ ∃ c, i = .AcceptEx c

theorem exec_quiet (haccept : i ≠ .Accept) (hpush : ∀ d, i ≠ .PushFree d)
    (hfail : ¬ FailsAtOnce ok i) :
    (quiet c).added (exec ok s i) + (closing c).added (exec ok s i) +
        ((exec ok s i).shared.connection c).connected_.toNat ≤
      (quiet c).instr i + (closing c).instr i + (s.connection c).connected_.toNat := by
  fun_cases exec ok s i <;>
    first
      | exact absurd rfl haccept
      | exact absurd rfl (hpush _)
      | exact Nat.le_refl _
      | simp_all [Weight.added, quiet, closing, about, FailsAtOnce] <;> grind [toNat_eq]

-- The end of a connection begins when it has no references.
theorem exec_receiving (haccept : i ≠ .Accept) (hpush : ∀ d, i ≠ .PushFree d)
    (hfail : ¬ FailsAtOnce ok i) (hrefs : i = .Disconnected c → (s.connection c).iorefs_ ≠ 0) :
    (quiet c).added (exec ok s i) + (receiving c).added (exec ok s i) ≤
      (quiet c).instr i + (receiving c).instr i := by
  fun_cases exec ok s i <;>
    first
      | exact absurd rfl haccept
      | exact absurd rfl (hpush _)
      | exact Nat.zero_le _
      | exact Nat.le_refl _
      | simp_all [Weight.added, quiet, receiving, about, FailsAtOnce]
  -- the end of another connection
  grind

theorem exec_unattached (haccept : i ≠ .Accept) (hpush : ∀ d, i ≠ .PushFree d)
    (hfail : ¬ FailsAtOnce ok i) :
    (unattached c).added (exec ok s i) ≤ (unattached c).instr i := by
  fun_cases exec ok s i <;>
    first
      | exact absurd rfl haccept
      | exact absurd rfl (hpush _)
      | exact Nat.zero_le _
      | exact Nat.le_refl _
      | simp_all [Weight.added, unattached, about, FailsAtOnce]

theorem exec_addressable (hset : i ≠ .SetConnection c) :
    (addressable c).added (exec ok s i) +
        ((exec ok s i).shared.connection c).connected_.toNat ≤
      (addressable c).instr i + (s.connection c).connected_.toNat := by
  fun_cases exec ok s i <;>
    first
      | exact Nat.le_refl _
      | simp_all [Weight.added, addressable, about] <;> grind [toNat_eq]

theorem exec_sends : (sends c).added (exec ok s i) ≤ (sends c).instr i := by
  fun_cases exec ok s i <;>
    first
      | exact Nat.zero_le _
      | exact Nat.le_refl _

theorem exec_chain (hwait : i ≠ .StartWait) : chain.added (exec ok s i) ≤ chain.instr i := by
  fun_cases exec ok s i <;> simp_all [Weight.added, chain]

theorem exec_posting (hset : ∀ d, i ≠ .SetConnection d) :
    (exec ok s i).shared.acceptor.connection_ = s.acceptor.connection_ ∧
      (posting c).added (exec ok s i) ≤ (posting c).instr i := by
  fun_cases exec ok s i <;> simp_all [Weight.added, posting]

theorem exec_client (hset : ∀ d, i ≠ .SetConnection d) :
    (exec ok s i).shared.server = s.server := by
  fun_cases exec ok s i <;> simp_all

theorem exec_free (haccept : i ≠ .Accept) (hpush : ∀ d, i ≠ .PushFree d) :
    (exec ok s i).shared.acceptor.free_connection_ = s.acceptor.free_connection_ ∧
      (exec ok s i).shared.created = s.created := by
  fun_cases exec ok s i <;> simp_all

theorem exec_mentions (haccept : i ≠ .Accept) (hi : i.connId ≠ some c)
    (hconnected : (s.connection c).connected_ = false) :
    (mentions c).added (exec ok s i) = 0 ∧
      ((exec ok s i).shared.connection c).connected_ = false := by
  have hzero : (mentions c).instr i = 0 := if_neg hi
  fun_cases exec ok s i <;>
    first
      | exact absurd rfl haccept
      | exact ⟨rfl, hconnected⟩
      | exact ⟨hzero, hconnected⟩
      | dsimp only [Weight.added, mentions, Instr.connId, Operation.connId, EasyCommand.connId,
          List.map, List.sum_cons] at hi ⊢
  all_goals simp_all [about]
  -- the end of another connection
  grind

end Exec

/-! ## 3. How the stages compare -/

section Compare

variable {s : State} {c : ConnID}

theorem receiving_le (s : State) (c : ConnID) :
    (receiving c).total s ≤ (unreferenced c).total s + (references c).total s := by
  apply total_le_add
  · intro i
    cases i <;>
      first
        | exact Nat.zero_le _
        | simp [receiving, unreferenced, references, about] <;> grind
  · intro op
    cases op <;> simp [receiving, references]
  · intro command
    exact Nat.zero_le _

theorem addressable_le (s : State) (c : ConnID) :
    (addressable c).total s ≤ (quiet c).total s + (closing c).total s := by
  apply total_le_add
  · intro i
    cases i <;>
      first
        | exact Nat.zero_le _
        | exact Nat.le_refl _
        | simp [addressable, quiet, closing]
  · intro op
    cases op <;> simp [addressable, quiet, closing]
  · intro command
    cases command <;> simp [addressable, quiet]

theorem chain_le (s : State) : chain.total s ≤ entering.total s + accepts.total s := by
  apply total_le_add
  · intro i
    cases i <;> simp [chain, entering, accepts]
  · intro op
    cases op <;> simp [chain, accepts]
  · intro command
    exact Nat.zero_le _

-- Accepts for different connections are different.
theorem posting_add_le {d : ConnID} (h : c ≠ d) (s : State) :
    (posting c).total s + (posting d).total s ≤ chain.total s := by
  apply add_le_total
  · intro i
    cases i <;>
      first
        | exact Nat.zero_le _
        | simp [posting, chain, about]
          grind
  · intro op
    cases op <;> simp [posting, chain, about]
    grind
  · intro command
    exact Nat.zero_le _

/-- Only what is about `c` counts. -/
structure Weight.OnlyAbout (w : Weight) (c : ConnID) : Prop where
  instr : ∀ i, i.connId ≠ some c → w.instr i = 0
  op : ∀ op, op.connId ≠ c → w.op op = 0
  command : ∀ command, command.connId ≠ some c → w.command command = 0

theorem Weight.OnlyAbout.total_eq_zero {w : Weight} (hw : w.OnlyAbout c)
    (h : (mentions c).total s = 0) : w.total s = 0 := by
  apply Iocp.total_eq_zero _ _ _ h
  · intro i hi
    apply hw.instr
    intro he
    simp [mentions, he] at hi
  · intro op hop
    apply hw.op
    intro he
    simp [mentions, about, he] at hop
  · intro command hcommand
    apply hw.command
    intro he
    simp [mentions, he] at hcommand

theorem about_of_ne {d : ConnID} {n : ℕ} (h : some d ≠ some c) : about c d n = 0 :=
  if_neg fun he ↦ h (congrArg some he)

theorem onlyAbout {w : Weight} (hw : w ∈ [quiet c, closing c, receiving c, unattached c,
    addressable c, references c]) : w.OnlyAbout c := by
  simp only [List.mem_cons, List.not_mem_nil, or_false] at hw
  refine ⟨fun i hi ↦ ?_, fun op hop ↦ ?_, fun command hcommand ↦ ?_⟩
  · cases i with
    | PushCommand command =>
        rcases hw with rfl | rfl | rfl | rfl | rfl | rfl <;> cases command <;>
          first | exact about_of_ne hi | rfl
    | _ =>
        rcases hw with rfl | rfl | rfl | rfl | rfl | rfl <;>
          first | exact about_of_ne hi | rfl
  · rcases hw with rfl | rfl | rfl | rfl | rfl | rfl <;> cases op <;>
      first | exact if_neg hop | rfl
  · rcases hw with rfl | rfl | rfl | rfl | rfl | rfl <;> cases command <;>
      first | exact about_of_ne hcommand | rfl

theorem onlyAbout_quiet : (quiet c).OnlyAbout c := onlyAbout (by simp)

theorem onlyAbout_closing : (closing c).OnlyAbout c := onlyAbout (by simp)

theorem onlyAbout_receiving : (receiving c).OnlyAbout c := onlyAbout (by simp)

theorem onlyAbout_unattached : (unattached c).OnlyAbout c := onlyAbout (by simp)

theorem onlyAbout_addressable : (addressable c).OnlyAbout c := onlyAbout (by simp)

theorem onlyAbout_references : (references c).OnlyAbout c := onlyAbout (by simp)

end Compare

end Iocp

end Fantuan
