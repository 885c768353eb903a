import Fantuan.Midware.Initialize
import Fantuan.Lib.LinkedStack
import Fantuan.Lib.Runs
import Fantuan.Lib.Threads

/-!
# easy_acceptor.cpp, easy_connection.cpp, easy_contextpool.cpp, easy_worker.cpp (Windows)

Worker threads take completions from the completion port, the command thread executes commands, and
other threads call functions; all of them share the acceptor, the connections, the context pool and
the server.  Every access to what is shared is an instruction of its own (two assignments in a row
in `Accept` are one), and the instructions of the threads come in any order.  A call of the system
says at once whether the operation is under way; if it is, it completes at some time, in any order.

The connections are those of one acceptor; nothing calls `EasyConnection::Connect`.  The contexts
for input are left out, but that there may be none.  Counters do not reach the limits of `LONG`.
-/

open Lib

namespace Fantuan

namespace Iocp

/-- A pointer to an `EasyContext` of the output pool. -/
abbrev ContextPtr := ℕ

/-! ## 1. What is shared -/

structure EasyConnection where
  iorefs_ : ℤ
  connected_ : Bool
  iorefmax_ : ℤ

structure EasyAcceptor where
  /-- `context_.connection_`. -/
  connection_ : Option ConnID
  iorefs_ : ℤ
  running_ : Bool
  total_connection_ : ℕ
  free_connection_ : LinkedStack ConnID

/-- Its contexts have the numbers below `output_context_count_`. -/
structure EasyContextPool where
  output_buffer_size_ : ℕ
  output_context_count_ : ℕ
  output_context_pool_ : LinkedStack ContextPtr

/-- The connections that have been created have the numbers below `created`, and the others are as
`Create` will leave them.  The `client_` of the connections is in `server`. -/
structure Shared where
  acceptor : EasyAcceptor
  connection : ConnID → EasyConnection
  created : ℕ
  pool : EasyContextPool
  server : EasyBaseServer

/-- `total_connection_++` and `total_connection_--`, of a `uint32`. -/
def succ (n : ℕ) : ℕ := uint32 (n + 1)

def pred (n : ℕ) : ℕ := if n = 0 then 2 ^ 32 - 1 else n - 1

/-- A connection after `Create`. -/
def EasyConnection.created : EasyConnection := ⟨0, false, 65536⟩

namespace Shared

variable (s : Shared) (c : ConnID)

def addRefs (d : ℤ) : Shared :=
  { s with
    connection := Function.update s.connection c
      { s.connection c with iorefs_ := (s.connection c).iorefs_ + d } }

def setConnected (connected_ : Bool) : Shared :=
  { s with connection := Function.update s.connection c { s.connection c with connected_ } }

/-- `EasySession::OnConnection` sets `iorefmax_`. -/
def executed (command : EasyCommand) (server : EasyBaseServer) : Shared :=
  match command with
  | .OnConnect m_ConnId =>
      if s.server.m_bReadyForShutdown then { s with server }
      else { s with
        server
        connection := Function.update s.connection m_ConnId
          { s.connection m_ConnId with iorefmax_ := 256 } }
  | _ => { s with server }

variable {s c} {d : ConnID} {k : ℤ} {connected_ : Bool}

@[simp] theorem addRefs_acceptor : (s.addRefs c k).acceptor = s.acceptor := rfl

@[simp] theorem addRefs_created : (s.addRefs c k).created = s.created := rfl

@[simp] theorem addRefs_pool : (s.addRefs c k).pool = s.pool := rfl

@[simp] theorem addRefs_server : (s.addRefs c k).server = s.server := rfl

@[simp] theorem setConnected_acceptor : (s.setConnected c connected_).acceptor = s.acceptor := rfl

@[simp] theorem setConnected_created : (s.setConnected c connected_).created = s.created := rfl

@[simp] theorem setConnected_pool : (s.setConnected c connected_).pool = s.pool := rfl

@[simp] theorem setConnected_server : (s.setConnected c connected_).server = s.server := rfl

@[simp] theorem addRefs_iorefs :
    ((s.addRefs d k).connection c).iorefs_ =
      (s.connection c).iorefs_ + if d = c then k else 0 := by
  by_cases h : d = c
  · simp [addRefs, h]
  · simp [addRefs, h, Function.update_of_ne (Ne.symm h)]

@[simp] theorem addRefs_connected :
    ((s.addRefs d k).connection c).connected_ = (s.connection c).connected_ := by
  by_cases h : d = c
  · simp [addRefs, h]
  · simp [addRefs, Function.update_of_ne (Ne.symm h)]

@[simp] theorem setConnected_iorefs :
    ((s.setConnected d connected_).connection c).iorefs_ = (s.connection c).iorefs_ := by
  by_cases h : d = c
  · simp [setConnected, h]
  · simp [setConnected, Function.update_of_ne (Ne.symm h)]

@[simp] theorem setConnected_connected :
    ((s.setConnected d connected_).connection c).connected_ =
      if d = c then connected_ else (s.connection c).connected_ := by
  by_cases h : d = c
  · simp [setConnected, h]
  · simp [setConnected, h, Function.update_of_ne (Ne.symm h)]

variable {command : EasyCommand} {server : EasyBaseServer}

@[simp] theorem executed_acceptor : (s.executed command server).acceptor = s.acceptor := by
  fun_cases executed s command server <;> rfl

@[simp] theorem executed_created : (s.executed command server).created = s.created := by
  fun_cases executed s command server <;> rfl

@[simp] theorem executed_pool : (s.executed command server).pool = s.pool := by
  fun_cases executed s command server <;> rfl

@[simp] theorem executed_server : (s.executed command server).server = server := by
  fun_cases executed s command server <;> rfl

@[simp] theorem executed_iorefs :
    ((s.executed command server).connection c).iorefs_ = (s.connection c).iorefs_ := by
  fun_cases executed s command server <;> grind

@[simp] theorem executed_connected :
    ((s.executed command server).connection c).connected_ = (s.connection c).connected_ := by
  fun_cases executed s command server <;> grind

end Shared

/-! ## 2. The instructions -/

/-- Operations that the system was asked for. -/
inductive Operation
  | accept (c : ConnID)
  | recv (c : ConnID)
  | send (c : ConnID) (pContext : ContextPtr)
  | disconnect (c : ConnID)
deriving DecidableEq

/-- What a thread executes at once.  `release`: `AsyncRecv` is called for `OPERATION_RECV`, which
decrements `iorefs_` afterwards. -/
inductive Instr
  -- `EasyAcceptor::Start` and its loop, `Stop`
  | Start
  | StartWait
  | Stop
  -- `EasyAcceptor::Accept`
  | Accept
  | SetConnection (c : ConnID)
  | AcceptIncrement (c : ConnID)
  | AcceptEx (c : ConnID)
  | PushFree (c : ConnID)
  | CountFree
  | AcceptDecrement
  | SetNotRunning
  -- `OPERATION_ACCEPT`
  | UpdateAcceptContext (c : ConnID)
  | SetConnected (c : ConnID)
  | PopInputContext (c : ConnID)
  -- `OPERATION_DISCONNECT`
  | Disconnected (c : ConnID)
  -- the callbacks of `EasyBaseServer`
  | OnConnection (c : ConnID)
  | OnDisconnect (c : ConnID)
  | OnData (c : ConnID) (data : EasyCommandOnData)
  | PushCommand (command : EasyCommand)
  -- `EasyConnection`
  | AsyncDisconnect (c : ConnID)
  | DisconnectEx (c : ConnID)
  | AsyncRecv (c : ConnID) (release : Bool)
  | WSARecv (c : ConnID) (release : Bool)
  | AsyncSendBuffer (c : ConnID) (len : ℕ) (pContext : ContextPtr)
  | AsyncSend (c : ConnID) (pContext : ContextPtr)
  | WSASend (c : ConnID) (pContext : ContextPtr)
  | Decrement (c : ConnID)
  | Close (c : ConnID)
  -- `EasySession::SendData`, and the contexts
  | SendData (c : ConnID) (iLen : ℕ)
  | PushOutputContext (pContext : ContextPtr)
deriving DecidableEq

/-- What an instruction does: to what is shared, what its thread executes next, the operations and
the commands that it adds. -/
structure Effect where
  shared : Shared
  next : List Instr := []
  posted : List Operation := []
  pushed : List EasyCommand := []

/-- `ok`: what the instruction asks the system for is under way, or is done, or there is memory for
it. -/
def exec (ok : Bool) (s : Shared) : Instr → Effect
  | .Start =>
      if s.acceptor.running_ then { shared := s }
      else { shared := { s with acceptor.running_ := true }, next := [.StartWait] }
  | .StartWait =>
      if s.acceptor.iorefs_ = 0 then { shared := s, next := [.Accept] }
      else { shared := s, next := [.StartWait] }
  | .Stop => { shared := { s with acceptor.running_ := false } }
  | .Accept =>
      match s.acceptor.free_connection_.pop with
      | some (c, free_connection_) =>
          { shared :=
              { s with
                acceptor.free_connection_ := free_connection_
                acceptor.total_connection_ := pred s.acceptor.total_connection_ }
            next := [.SetConnection c] }
      | none =>
          if ok then
            { shared := { s with created := s.created + 1 }, next := [.SetConnection s.created] }
          else { shared := s, next := [.SetNotRunning] }
  | .SetConnection c =>
      { shared :=
          { s with
            acceptor.connection_ := some c
            server.client_ := Function.update s.server.client_ c none }
        next := [.AcceptIncrement c] }
  | .AcceptIncrement c =>
      { shared := { s with acceptor.iorefs_ := s.acceptor.iorefs_ + 1 }, next := [.AcceptEx c] }
  | .AcceptEx c =>
      if ok then { shared := s, posted := [.accept c] }
      else
        { shared := s
          next := [.Close c, .PushFree c, .CountFree, .AcceptDecrement, .SetNotRunning] }
  | .PushFree c =>
      { shared := { s with acceptor.free_connection_ := s.acceptor.free_connection_.push c } }
  | .CountFree =>
      { shared := { s with acceptor.total_connection_ := succ s.acceptor.total_connection_ } }
  | .AcceptDecrement =>
      { shared := { s with acceptor.iorefs_ := s.acceptor.iorefs_ - 1 } }
  | .SetNotRunning => { shared := { s with acceptor.running_ := false } }
  | .UpdateAcceptContext c =>
      if ok then { shared := s, next := [.SetConnected c] } else { shared := s }
  | .SetConnected c => { shared := s.setConnected c true, next := [.OnConnection c] }
  | .PopInputContext c =>
      if ok then { shared := s, next := [.AsyncRecv c false] }
      else { shared := s, next := [.AsyncDisconnect c] }
  | .Disconnected c =>
      if (s.connection c).iorefs_ = 0 then { shared := s, next := [.OnDisconnect c] }
      else { shared := s, posted := [.disconnect c] }
  | .OnConnection c =>
      if s.server.m_bReadyForShutdown then { shared := s, next := [.AsyncDisconnect c] }
      else { shared := s, next := [.PushCommand (.OnConnect c)] }
  | .OnDisconnect c =>
      if s.server.m_bReadyForShutdown then { shared := s }
      else { shared := s, next := [.PushCommand (.OnDisconnect c)] }
  | .OnData c data =>
      if s.server.m_bReadyForShutdown || !ok then { shared := s, next := [.AsyncRecv c true] }
      else { shared := s, next := [.PushCommand (.OnData c data)] }
  -- after the callbacks, the worker goes on
  | .PushCommand (.OnConnect c) =>
      { shared := s, next := [.PopInputContext c], pushed := [.OnConnect c] }
  | .PushCommand (.OnData c data) =>
      { shared := s, next := [.AsyncRecv c true], pushed := [.OnData c data] }
  | .PushCommand command => { shared := s, pushed := [command] }
  | .AsyncDisconnect c =>
      if (s.connection c).connected_ then
        { shared := s.setConnected c false, next := [.DisconnectEx c] }
      else { shared := s }
  | .DisconnectEx c =>
      if ok then { shared := s, posted := [.disconnect c] } else { shared := s }
  | .AsyncRecv c release => { shared := s.addRefs c 1, next := [.WSARecv c release] }
  | .WSARecv c false =>
      if ok then { shared := s, posted := [.recv c] }
      else { shared := s, next := [.AsyncDisconnect c, .Decrement c] }
  | .WSARecv c true =>
      if ok then { shared := s, next := [.Decrement c], posted := [.recv c] }
      else { shared := s, next := [.AsyncDisconnect c, .Decrement c, .Decrement c] }
  -- the contexts of the output pool have `OPERATION_SEND`
  | .AsyncSendBuffer c len pContext =>
      if s.pool.output_buffer_size_ < len then { shared := s }
      else { shared := s, next := [.AsyncSend c pContext] }
  | .AsyncSend c pContext =>
      if (s.connection c).iorefmax_ < (s.connection c).iorefs_ then
        { shared := s, next := [.PushOutputContext pContext, .AsyncDisconnect c] }
      else { shared := s.addRefs c 1, next := [.WSASend c pContext] }
  | .WSASend c pContext =>
      if ok then { shared := s, posted := [.send c pContext] }
      else { shared := s, next := [.PushOutputContext pContext, .AsyncDisconnect c, .Decrement c] }
  | .Decrement c => { shared := s.addRefs c (-1) }
  | .Close c =>
      if (s.connection c).iorefs_ ≠ 0 ∨ (s.connection c).connected_ then { shared := s }
      else { shared := s, next := [.PushFree c] }
  | .SendData c iLen =>
      match s.pool.output_context_pool_.pop with
      | some (pContext, output_context_pool_) =>
          { shared := { s with pool.output_context_pool_ := output_context_pool_ }
            next := [.AsyncSendBuffer c (iLen + PACKET_HEAD) pContext] }
      | none =>
          if ok then
            { shared :=
                { s with pool.output_context_count_ := s.pool.output_context_count_ + 1 }
              next := [.AsyncSendBuffer c (iLen + PACKET_HEAD) s.pool.output_context_count_] }
          else { shared := s }
  | .PushOutputContext pContext =>
      { shared :=
          { s with pool.output_context_pool_ := s.pool.output_context_pool_.push pContext } }

-- Instructions change nothing of the server but the `client_` of connections.
theorem exec_server (ok : Bool) (s : Shared) (i : Instr) :
    (exec ok s i).shared.server =
      { s.server with client_ := (exec ok s i).shared.server.client_ } := by
  fun_cases exec ok s i <;> rfl

/-- What a worker executes for a completion; `data` are the bytes of a receive. -/
def completed (bResult : Bool) (data : EasyCommandOnData) (s : Shared) : Operation → List Instr
  | .accept _ =>
      match bResult, s.acceptor.connection_ with
      | true, some c => [.Accept, .UpdateAcceptContext c, .AcceptDecrement]
      | _, _ => []
  | .recv c => if data.m_pData = [] then [.AsyncDisconnect c, .Decrement c] else [.OnData c data]
  | .send c pContext => [.PushOutputContext pContext, .Decrement c]
  | .disconnect c => [.Disconnected c]

/-- What the command thread executes for what a command does. -/
def ofAction : Action → List Instr
  | .AsyncSend connId buf => [.SendData connId (buf.length - PACKET_HEAD)]
  | .AsyncDisconnect connId => [.AsyncDisconnect connId]
  | .Close connId => [.Close connId]
  | _ => []

/-! ## 3. The system -/

structure State where
  shared : Shared
  /-- What the threads have still to execute: the command thread first, then all others. -/
  threads : List (List Instr)
  posted : List Operation
  m_CommandList : List EasyCommand

inductive Event
  /-- A thread begins to execute a function. -/
  | Call (i : Instr)
  | Run (i : Instr) (ok : Bool)
  /-- A worker takes a completion. -/
  | Complete (op : Operation) (bResult : Bool) (data : EasyCommandOnData)
  /-- The command thread executes a command. -/
  | Execute (e : Executed)

namespace State

variable (s : State)

/-- The `n`-th thread has executed an instruction, and the instructions `rest` follow. -/
def run (n : ℕ) (rest : List Instr) (e : Effect) : State where
  shared := e.shared
  threads := s.threads.set n (e.next ++ rest)
  posted := s.posted ++ e.posted
  m_CommandList := s.m_CommandList ++ e.pushed

def start (code : List Instr) : State := { s with threads := s.threads ++ [code] }

/-- The threads with these numbers execute instructions in turn, with these answers of the system,
as long as there are instructions. -/
def turns (s : State) : List (ℕ × Bool) → List Event × State
  | [] => ([], s)
  | (n, ok) :: later =>
      match s.threads[n]? with
      | some (i :: rest) =>
          let r := (s.run n rest (exec ok s.shared i)).turns later
          (.Run i ok :: r.1, r.2)
      | _ => ([], s)

end State

/-- `calls` are the functions that other threads call. -/
inductive Step (calls : Instr → Prop) (s : State) : Event → State → Prop
  | call {i : Instr} (hi : calls i) : Step calls s (.Call i) (s.start [i])
  | run {i : Instr} {n : ℕ} {rest : List Instr} {ok : Bool}
      (h : s.threads[n]? = some (i :: rest)) :
      Step calls s (.Run i ok) (s.run n rest (exec ok s.shared i))
  | complete {op : Operation} {bResult : Bool} {data : EasyCommandOnData} (h : op ∈ s.posted) :
      Step calls s (.Complete op bResult data)
        { s.start (completed bResult data s.shared op) with posted := s.posted.erase op }
  | execute {e : Executed} {rest : List EasyCommand} {server : EasyBaseServer}
      (hidle : s.threads[0]? = some []) (hlist : s.m_CommandList = e.1 :: rest)
      (hex : Executes .WIN32 s.shared.server e server) :
      Step calls s (.Execute e)
        { s with
          shared := s.shared.executed e.1 server
          threads := s.threads.set 0 (e.2.flatMap ofAction)
          m_CommandList := rest }

/-- The functions that any thread may call at any time. -/
def PublicCall : Instr → Prop
  | .Start | .Stop => True
  | .AsyncSend _ _ | .AsyncSendBuffer _ _ _ | .SendData _ _ => True
  | .AsyncRecv _ release => release = false
  | .AsyncDisconnect _ => True
  | .PushCommand command => command.connId = none
  | _ => False

/-- After `Initialize`, before `Start`. -/
def init (iMaxSession : ℕ) (memory : SessionPtr → EasySession) (array : ℕ → SessionPtr) :
    State where
  shared :=
    { acceptor := ⟨none, 0, false, 0, .empty⟩
      connection := fun _ ↦ .created
      created := 0
      pool := ⟨MAX_OUTPUT_BUFFER, 0, .empty⟩
      server := .initialized iMaxSession memory array }
  threads := [[]]
  posted := []
  m_CommandList := []

section Paths

variable {calls : Instr → Prop} {C : State → Event → Prop} {s₀ s : State} {es : List Event}

theorem path_call (h : Path (Step calls) s₀ es s) (i : Instr) (hi : calls i) :
    Path (Step calls) s₀ (es ++ [.Call i]) (s.start [i]) := h.snoc (.call hi)

theorem path_complete (h : Path (Step calls) s₀ es s) (op : Operation) (bResult : Bool)
    (data : EasyCommandOnData) (hop : op ∈ s.posted) :
    Path (Step calls) s₀ (es ++ [.Complete op bResult data])
      { s.start (completed bResult data s.shared op) with posted := s.posted.erase op } :=
  h.snoc (.complete hop)

theorem guarded_call (h : Path (Guarded C (Step calls)) s₀ es s) (i : Instr) (hi : calls i)
    (hC : C s (.Call i)) : Path (Guarded C (Step calls)) s₀ (es ++ [.Call i]) (s.start [i]) :=
  h.snoc ⟨hC, .call hi⟩

theorem guarded_complete (h : Path (Guarded C (Step calls)) s₀ es s) (op : Operation)
    (bResult : Bool) (data : EasyCommandOnData) (hop : op ∈ s.posted)
    (hC : C s (.Complete op bResult data)) :
    Path (Guarded C (Step calls)) s₀ (es ++ [.Complete op bResult data])
      { s.start (completed bResult data s.shared op) with posted := s.posted.erase op } :=
  h.snoc ⟨hC, .complete hop⟩

theorem guarded_execute (h : Path (Guarded C (Step calls)) s₀ es s) (e : Executed)
    (hC : C s (.Execute e)) {rest : List EasyCommand} {server : EasyBaseServer}
    (hidle : s.threads[0]? = some []) (hlist : s.m_CommandList = e.1 :: rest)
    (hex : Executes .WIN32 s.shared.server e server) :
    Path (Guarded C (Step calls)) s₀ (es ++ [.Execute e])
      { s with
        shared := s.shared.executed e.1 server
        threads := s.threads.set 0 (e.2.flatMap ofAction)
        m_CommandList := rest } :=
  h.snoc ⟨hC, .execute hidle hlist hex⟩

-- The threads execute instructions in turn.
theorem guarded_turns (h : Path (Guarded C (Step calls)) s₀ es s) (turns : List (ℕ × Bool))
    (hC : ∀ t, ∀ event ∈ (s.turns turns).1, C t event) :
    Path (Guarded C (Step calls)) s₀ (es ++ (s.turns turns).1) (s.turns turns).2 := by
  induction turns generalizing s es with
  | nil =>
      rw [State.turns, List.append_nil]
      exact h
  | cons turn turns ih =>
      rcases turn with ⟨n, ok⟩
      rw [State.turns] at hC ⊢
      split at hC
      · rename_i i rest hn
        have hfirst := h.snoc ⟨hC s _ List.mem_cons_self, .run hn⟩
        have hrest := ih hfirst fun t event hevent ↦ hC t event (List.mem_cons_of_mem _ hevent)
        rwa [List.append_assoc] at hrest
      · rw [List.append_nil]
        exact h

theorem path_turns (h : Path (Step calls) s₀ es s) (turns : List (ℕ × Bool)) :
    Path (Step calls) s₀ (es ++ (s.turns turns).1) (s.turns turns).2 := by
  induction turns generalizing s es with
  | nil =>
      rw [State.turns, List.append_nil]
      exact h
  | cons turn turns ih =>
      rcases turn with ⟨n, ok⟩
      rw [State.turns]
      split
      · rename_i i rest hn
        have hfirst : Path (Step calls) s₀ (es ++ [.Run i ok]) _ := h.snoc (.run hn)
        have hrest := ih hfirst
        rwa [List.append_assoc] at hrest
      · rw [List.append_nil]
        exact h

/-- The acceptor is started, and the first accept is posted. -/
def started : State :=
  (((init 1 (fun _ ↦ zeroSession) fun _ ↦ 0).start [.Start]).turns (List.replicate 6 (1, true))).2

def startEvents : List Event :=
  [.Call .Start, .Run .Start true, .Run .StartWait true, .Run .Accept true,
    .Run (.SetConnection 0) true, .Run (.AcceptIncrement 0) true, .Run (.AcceptEx 0) true]

-- The guard must let the loop of `Start` pass only where it comes to.
theorem guarded_started (hcalls : calls .Start)
    (hwait : C (((init 1 (fun _ ↦ zeroSession) fun _ ↦ 0).start [.Start]).turns [(1, true)]).2
      (.Run .StartWait true))
    (hC : ∀ t, ∀ event ∈ startEvents, event ≠ .Run .StartWait true → C t event) :
    Path (Guarded C (Step calls)) (init 1 (fun _ ↦ zeroSession) fun _ ↦ 0) startEvents started := by
  have hcall := guarded_call (.nil : Path (Guarded C (Step calls))
    (init 1 (fun _ ↦ zeroSession) fun _ ↦ 0) [] _) .Start hcalls
    (hC _ _ List.mem_cons_self (by simp))
  have hstart := guarded_turns hcall [(1, true)] fun t event hevent ↦ by
    rw [List.mem_singleton.mp hevent]
    exact hC t _ (by simp [startEvents]) (by simp)
  have hpassed := hstart.snoc (l := .Run .StartWait true) ⟨hwait, .run (n := 1) rfl⟩
  refine guarded_turns hpassed (List.replicate 4 (1, true)) fun t event hevent ↦ hC t event ?_ ?_
  · exact List.mem_cons_of_mem _ (List.mem_cons_of_mem _ (List.mem_cons_of_mem _ hevent))
  · rintro rfl
    have hmem : Event.Run .StartWait true ∈ [Event.Run .Accept true, .Run (.SetConnection 0) true,
      .Run (.AcceptIncrement 0) true, .Run (.AcceptEx 0) true] := hevent
    simp at hmem

theorem path_started (hcalls : calls .Start) (hC : ∀ t, ∀ event ∈ startEvents, C t event) :
    Path (Guarded C (Step calls)) (init 1 (fun _ ↦ zeroSession) fun _ ↦ 0) startEvents started :=
  guarded_started hcalls (hC _ _ (by simp [startEvents])) fun t event hevent _ ↦ hC t event hevent

end Paths

/-! ## 4. Counting what is on its way -/

/-- What instructions, operations and commands count for. -/
structure Weight where
  instr : Instr → ℕ
  op : Operation → ℕ
  command : EasyCommand → ℕ

namespace Weight

variable (w : Weight)

/-- What all the threads, operations and commands count for. -/
def total (s : State) : ℕ :=
  load w.instr s.threads + (s.posted.map w.op).sum + (s.m_CommandList.map w.command).sum

/-- What an effect adds. -/
def added (e : Effect) : ℕ :=
  (e.next.map w.instr).sum + (e.posted.map w.op).sum + (e.pushed.map w.command).sum

end Weight

section Total

variable {w : Weight} {s : State}

theorem total_run {i : Instr} {n : ℕ} {rest : List Instr} (h : s.threads[n]? = some (i :: rest))
    (e : Effect) : w.total (s.run n rest e) + w.instr i = w.total s + w.added e := by
  have hload : load w.instr (s.threads.set n (e.next ++ rest)) + w.instr i =
      load w.instr s.threads + (e.next.map w.instr).sum := load_step h e.next
  simp only [Weight.total, Weight.added, State.run, List.map_append, List.sum_append]
  omega

-- A thread has executed an instruction, and one other follows.
theorem total_next {i : Instr} {n : ℕ} {rest : List Instr} (h : s.threads[n]? = some (i :: rest))
    (shared : Shared) (j : Instr) :
    w.total (s.run n rest { shared, next := [j] }) + w.instr i = w.total s + w.instr j := by
  rw [total_run h, Weight.added, List.map_singleton, List.sum_singleton]
  rfl

theorem total_start (code : List Instr) :
    w.total (s.start code) = w.total s + (code.map w.instr).sum := by
  simp only [Weight.total, State.start, load_start]
  omega

theorem total_complete {op : Operation} (h : op ∈ s.posted) (code : List Instr) :
    w.total { s.start code with posted := s.posted.erase op } + w.op op =
      w.total s + (code.map w.instr).sum := by
  have herase : w.op op + ((s.posted.erase op).map w.op).sum = (s.posted.map w.op).sum :=
    List.sum_map_erase w.op h
  simp only [Weight.total, State.start, load_start]
  omega

-- A completion counts for as much as its operation.
theorem completed_sum (bResult : Bool) (data : EasyCommandOnData) (s : Shared) (op : Operation)
    (haccept : ∀ c, w.op (.accept c) = 0)
    (haccepted : ∀ c, w.instr .Accept + w.instr (.UpdateAcceptContext c) +
      w.instr .AcceptDecrement = 0)
    (hend : ∀ c, w.instr (.AsyncDisconnect c) + w.instr (.Decrement c) = w.op (.recv c))
    (hrecv : ∀ c data, w.instr (.OnData c data) = w.op (.recv c))
    (hsend : ∀ c k, w.instr (.PushOutputContext k) + w.instr (.Decrement c) = w.op (.send c k))
    (hdisconnect : ∀ c, w.instr (.Disconnected c) = w.op (.disconnect c)) :
    ((completed bResult data s op).map w.instr).sum = w.op op := by
  fun_cases completed bResult data s op
  case case1 d c _ =>
    have hd := haccept d
    have hc := haccepted c
    simp only [List.map_cons, List.map_nil, List.sum_cons, List.sum_nil]
    omega
  case case2 d _ => exact (haccept d).symm
  case case3 c _ => simp [hend]
  case case4 c _ => simp [hrecv]
  case case5 c k => simp [hsend]
  case case6 c => simp [hdisconnect]

-- What does not count.
theorem ofAction_sum (actions : List Action) (hsend : ∀ c iLen, w.instr (.SendData c iLen) = 0)
    (hdisconnect : ∀ c, w.instr (.AsyncDisconnect c) = 0) (hclose : ∀ c, w.instr (.Close c) = 0) :
    ((actions.flatMap ofAction).map w.instr).sum = 0 := by
  induction actions with
  | nil => rfl
  | cons action actions ih =>
      rw [List.flatMap_cons, List.map_append, List.sum_append, ih]
      cases action <;> simp [ofAction, hsend, hdisconnect, hclose]

theorem total_execute {command : EasyCommand} {rest : List EasyCommand}
    (hidle : s.threads[0]? = some []) (hlist : s.m_CommandList = command :: rest)
    (shared : Shared) (code : List Instr) :
    w.total ⟨shared, s.threads.set 0 code, s.posted, rest⟩ + w.command command =
      w.total s + (code.map w.instr).sum := by
  have hload : load w.instr (s.threads.set 0 code) =
      load w.instr s.threads + (code.map w.instr).sum := load_idle hidle
  simp only [Weight.total, hlist, List.map_cons, List.sum_cons]
  omega

theorem le_total {i : Instr} {n : ℕ} {rest : List Instr} (h : s.threads[n]? = some (i :: rest)) :
    w.instr i ≤ w.total s := by
  have hload : w.instr i ≤ load w.instr s.threads := le_load h
  unfold Weight.total
  omega

theorem op_le_total {op : Operation} (h : op ∈ s.posted) : w.op op ≤ w.total s := by
  have herase : w.op op + ((s.posted.erase op).map w.op).sum = (s.posted.map w.op).sum :=
    List.sum_map_erase w.op h
  unfold Weight.total
  omega

theorem total_le {v : Weight} (hi : ∀ i, w.instr i ≤ v.instr i) (ho : ∀ op, w.op op ≤ v.op op)
    (hc : ∀ command, w.command command ≤ v.command command) (s : State) :
    w.total s ≤ v.total s :=
  Nat.add_le_add (Nat.add_le_add (load_le_load hi) (List.sum_le_sum fun op _ ↦ ho op))
    (List.sum_le_sum fun command _ ↦ hc command)

/-- Two weights together. -/
def Weight.add (u v : Weight) : Weight where
  instr i := u.instr i + v.instr i
  op op := u.op op + v.op op
  command command := u.command command + v.command command

theorem total_add (u v : Weight) (s : State) : (u.add v).total s = u.total s + v.total s := by
  simp only [Weight.total, Weight.add, load_add, List.sum_map_add]
  omega

-- What counts for no more than two other things together.
theorem total_le_add {u v : Weight} (hi : ∀ i, w.instr i ≤ u.instr i + v.instr i)
    (ho : ∀ op, w.op op ≤ u.op op + v.op op)
    (hc : ∀ command, w.command command ≤ u.command command + v.command command) (s : State) :
    w.total s ≤ u.total s + v.total s := by
  rw [← total_add]
  exact total_le hi ho hc s

-- What counts, together with something else, for no more than a third thing.
theorem add_le_total {u v : Weight} (hi : ∀ i, u.instr i + v.instr i ≤ w.instr i)
    (ho : ∀ op, u.op op + v.op op ≤ w.op op)
    (hc : ∀ command, u.command command + v.command command ≤ w.command command) (s : State) :
    u.total s + v.total s ≤ w.total s := by
  rw [← total_add]
  exact total_le hi ho hc s

theorem total_eq_zero {v : Weight} (hi : ∀ i, v.instr i = 0 → w.instr i = 0)
    (ho : ∀ op, v.op op = 0 → w.op op = 0)
    (hc : ∀ command, v.command command = 0 → w.command command = 0) (h : v.total s = 0) :
    w.total s = 0 := by
  unfold Weight.total at h ⊢
  have hload : load w.instr s.threads = 0 := sum_map_eq_zero hi (Nat.eq_zero_of_add_eq_zero_right
    (Nat.eq_zero_of_add_eq_zero_right h))
  have hposted : (s.posted.map w.op).sum = 0 := sum_map_eq_zero ho (by omega)
  have hlist : (s.m_CommandList.map w.command).sum = 0 := sum_map_eq_zero hc (by omega)
  omega

end Total

/-- `n`, if it is about `c`. -/
def about (c d : ConnID) (n : ℕ) : ℕ := if d = c then n else 0

theorem toNat_eq (b : Bool) : b.toNat = if b then 1 else 0 := by
  cases b <;> rfl

end Iocp

end Fantuan
