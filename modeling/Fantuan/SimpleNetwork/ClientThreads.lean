import Fantuan.Midware.Chat
import Fantuan.Midware.Client
import Fantuan.SimpleNetwork.SimpleThread

/-!
# easy_baseclient.cpp, simple_worker.cpp — the threads of a client

Threads of the application log in, send and log out; `Login` creates the thread that receives; the
command thread executes what the callbacks push.  `m_bReadyForShutdown` is set without a lock, and
read by each callback and before each command.  `Login` is called once.
-/

open Lib

namespace Fantuan

/-! ## 1. The threads -/

/-- Where `SimpleThread` is, once `Login` has created it. -/
inductive ReceiverPc
  | absent
  | select
  | OnData (iLen : ℕ) (pBuf : List UInt8)
  | PushCommand (command : EasyCommand)
  | Close
  | OnDisconnect
  | returned

/-- What threads of the application execute at once. -/
inductive CallerInstr
  -- `SimpleConnection::Connect`
  | Connect
  | OnConnection
  -- the end of `Login`
  | SimpleWorker
  -- `Logout`
  | ReadyForShutdown
  | Close
  | OnDisconnect
  | PushCommand (command : EasyCommand)
deriving DecidableEq

structure ClientThreads where
  m_bReadyForShutdown : Bool
  m_CommandList : List EasyCommand
  /-- The command thread holds `m_CommandMutex` and executes the list. -/
  draining : Bool
  /-- It has found `m_bReadyForShutdown` clear for the first command of the list. -/
  checked : Bool
  /-- `m_RecvBuf` and `m_iRecvBufLen`. -/
  recvBuf : RecvBuffer
  /-- What `_HandlePacket` was called with. -/
  handled : List EasyPacket
  /-- That of `recv_context_`. -/
  buffer_ : Storage UInt8 MAX_INPUT_BUFFER
  worker : ReceiverPc
  callers : List (List CallerInstr)

inductive ClientEvent
  | call (code : List CallerInstr)
  | caller (i : CallerInstr) (ok : Bool)
  | select (e : Selected)
  | worker
  | lock
  | check
  | exec (command : EasyCommand)
  | skip (command : EasyCommand)
  | unlock

namespace EasyBaseClient

def Login : List CallerInstr := [.Connect, .SimpleWorker]

def Logout : List CallerInstr := [.ReadyForShutdown, .Close]

/-- `SendData`, where `send` fails or accepts nothing. -/
def SendDataFails : List CallerInstr := [.Close]

end EasyBaseClient

namespace ClientThreads

variable (s : ClientThreads)

/-- What a callback goes on with. -/
def callback {α : Type} (pushing returning : α) : α :=
  if s.m_bReadyForShutdown then returning else pushing

/-- What an instruction of the application is followed by, and its effect.  `ok`: `connect`
succeeds. -/
def call (connId : ConnID) (ok : Bool) : CallerInstr → ClientThreads × List CallerInstr
  | .Connect => (s, [if ok then .OnConnection else .Close])
  | .OnConnection => (s, s.callback [.PushCommand (.OnConnect connId)] [])
  | .SimpleWorker => ({ s with worker := .select }, [])
  | .ReadyForShutdown => ({ s with m_bReadyForShutdown := true }, [])
  -- `closesocket`
  | .Close => (s, [.OnDisconnect])
  | .OnDisconnect => (s, s.callback [.PushCommand (.OnDisconnect connId)] [])
  | .PushCommand command => ({ s with m_CommandList := s.m_CommandList ++ [command] }, [])

/-- What the thread that receives goes on with after `select`; what `RecvData` returns is not
used. -/
def selected : Selected → ClientThreads
  | .error => { s with worker := .Close }
  | .timeout => s
  | .readFDs .zero => s
  | .readFDs r =>
      { s with
        buffer_ := r.into s.buffer_
        worker := .OnData (r.recvNum % 2 ^ 32).toNat (r.into s.buffer_).data }
  | .exceptFDs => { s with worker := .Close }

/-- What the thread that receives executes outside of `select`; `none` where `CopyData` reads
behind the buffer, and where there is nothing. -/
def work (connId : ConnID) : Option ClientThreads :=
  match s.worker with
  | .OnData iLen pBuf =>
      if s.m_bReadyForShutdown then some { s with worker := .select }
      else do
        let data ← EasyCommandOnData.CopyData iLen pBuf
        some { s with worker := .PushCommand (.OnData connId data) }
  | .PushCommand (.OnData m_ConnId data) =>
      some
        { s with
          m_CommandList := s.m_CommandList ++ [.OnData m_ConnId data], worker := .select }
  | .PushCommand command =>
      some { s with m_CommandList := s.m_CommandList ++ [command], worker := .returned }
  -- `closesocket`
  | .Close => some { s with worker := .OnDisconnect }
  | .OnDisconnect =>
      some { s with worker := s.callback (.PushCommand (.OnDisconnect connId)) .returned }
  | _ => none

/-- `PushCommand` waits for `m_CommandMutex`.  `_OnCommand` does nothing but for data, and with
those only if it finds `m_bReadyForShutdown` clear.  A copy that goes outside its buffer may leave
anything behind. -/
inductive Step (connId : ConnID) (s : ClientThreads) : ClientEvent → ClientThreads → Prop
  | call {code : List CallerInstr}
      (hcode : code ∈ [EasyBaseClient.Login, EasyBaseClient.Logout, EasyBaseClient.SendDataFails]) :
      Step connId s (.call code) { s with callers := s.callers ++ [code] }
  | caller {i : CallerInstr} {n : ℕ} {rest : List CallerInstr} {ok : Bool}
      (hthread : s.callers[n]? = some (i :: rest))
      (hmutex : ∀ command, i = .PushCommand command → s.draining = false)
      (honce : i = .SimpleWorker → s.worker = .absent) :
      Step connId s (.caller i ok)
        { (s.call connId ok i).1 with
          callers := s.callers.set n ((s.call connId ok i).2 ++ rest) }
  | select {e : Selected} (hw : s.worker = .select) : Step connId s (.select e) (s.selected e)
  | worker {t : ClientThreads} (hwork : s.work connId = some t)
      (hmutex : ∀ command, s.worker = .PushCommand command → s.draining = false) :
      Step connId s .worker t
  | overread {iLen : ℕ} {pBuf : List UInt8} {t : ClientThreads} (hw : s.worker = .OnData iLen pBuf)
      (hflag : s.m_bReadyForShutdown = false)
      (hcopy : EasyCommandOnData.CopyData iLen pBuf = none) :
      Step connId s .worker t
  | lock (hfree : s.draining = false) : Step connId s .lock { s with draining := true }
  | check {c : ConnID} {data : EasyCommandOnData} {later : List EasyCommand}
      (hlock : s.draining = true) (hlist : s.m_CommandList = .OnData c data :: later)
      (hchecked : s.checked = false) (hflag : s.m_bReadyForShutdown = false) :
      Step connId s .check { s with checked := true }
  | exec {c : ConnID} {data : EasyCommandOnData} {later : List EasyCommand} {t : OnData.State}
      (hchecked : s.checked = true) (hlist : s.m_CommandList = .OnData c data :: later)
      (ht : t ∈ EasyBaseClient._OnCommandOnData s.recvBuf data.m_pData) (hpc : t.pc = .returned) :
      Step connId s (.exec (.OnData c data))
        { s with
          m_CommandList := later
          checked := false
          recvBuf := t.buf
          handled := s.handled ++ t.handled }
  | overrun {c : ConnID} {data : EasyCommandOnData} {later : List EasyCommand} {u : OnData.State}
      {t : ClientThreads} (hchecked : s.checked = true)
      (hlist : s.m_CommandList = .OnData c data :: later)
      (hu : u ∈ EasyBaseClient._OnCommandOnData s.recvBuf data.m_pData) (hpc : u.pc ≠ .returned) :
      Step connId s (.exec (.OnData c data)) t
  | skip {command : EasyCommand} {later : List EasyCommand} (hlock : s.draining = true)
      (hlist : s.m_CommandList = command :: later) (hchecked : s.checked = false)
      (hskip : s.m_bReadyForShutdown = true ∨ ∀ c data, command ≠ .OnData c data) :
      Step connId s (.skip command) { s with m_CommandList := later }
  | unlock (hlock : s.draining = true) (hlist : s.m_CommandList = []) :
      Step connId s .unlock { s with draining := false }

/-- The step copies nothing from or to memory outside of the buffers: `CopyData` stays inside
`buffer_`, which it leaves where `recv` gave `SOCKET_ERROR`, and `_OnCommandOnData` inside
`m_RecvBuf`. -/
structure CopiesInside (s : ClientThreads) (e : ClientEvent) : Prop where
  read : e = .worker → ∀ iLen pBuf, s.worker = .OnData iLen pBuf →
    s.m_bReadyForShutdown = false → EasyCommandOnData.CopyData iLen pBuf ≠ none
  written : ∀ c data, e = .exec (.OnData c data) →
    ∀ u ∈ EasyBaseClient._OnCommandOnData s.recvBuf data.m_pData, u.pc = .returned

/-- The steps of a client whose copies stay inside the buffers. -/
def DefinedStep (connId : ConnID) : ClientThreads → ClientEvent → ClientThreads → Prop :=
  Guarded CopiesInside (Step connId)

/-- After the constructor: `m_iRecvBufLen` is 0. -/
def start (m_RecvBuf : Storage UInt8 MAX_INPUT_BUFFER) (buffer_ : Storage UInt8 MAX_INPUT_BUFFER) :
    ClientThreads where
  m_bReadyForShutdown := false
  m_CommandList := []
  draining := false
  checked := false
  recvBuf := ⟨0, m_RecvBuf⟩
  handled := []
  buffer_
  worker := .absent
  callers := []

end ClientThreads

/-! ## 2. Where the bytes are -/

/-- The bytes that `recv` returned. -/
def receivedBytes (es : List ClientEvent) : List UInt8 :=
  es.flatMap fun
    | .select (.readFDs (.bytes data _ _)) => data
    | _ => []

/-- The data of the commands that were executed. -/
def executedData (es : List ClientEvent) : List (List UInt8) :=
  es.filterMap fun
    | .exec (.OnData _ data) => some data.m_pData
    | _ => none

def dataBytes (commands : List EasyCommand) : List UInt8 :=
  commands.flatMap fun
    | .OnData _ data => data.m_pData
    | _ => []

/-- What the thread that receives will push. -/
def ReceiverPc.bytes : ReceiverPc → List UInt8
  | OnData iLen pBuf =>
      match EasyCommandOnData.CopyData iLen pBuf with
      | some data => data.m_pData
      | none => []
  | PushCommand command => dataBytes [command]
  | _ => []

/-- The bytes between `recv` and `_OnCommandOnData`. -/
def ClientThreads.waiting (s : ClientThreads) : List UInt8 :=
  dataBytes s.m_CommandList ++ s.worker.bytes

section Bytes

variable {es : List ClientEvent} {e : ClientEvent} {s t : ClientThreads} {connId : ConnID}

theorem dataBytes_append (xs ys : List EasyCommand) :
    dataBytes (xs ++ ys) = dataBytes xs ++ dataBytes ys := List.flatMap_append

theorem receivedBytes_snoc :
    receivedBytes (es ++ [e]) = receivedBytes es ++ receivedBytes [e] := List.flatMap_append

theorem executedData_snoc :
    executedData (es ++ [e]) = executedData es ++ executedData [e] := List.filterMap_append

theorem recvNum_bytes (data : List UInt8) (le : data.length ≤ MAX_INPUT_BUFFER) :
    ((data.length : ℤ) % 2 ^ 32).toNat = data.length := by
  have hmax : MAX_INPUT_BUFFER = 1024 := rfl
  omega

-- What `select` reports brings in the bytes that are received.
theorem waiting_selected (hw : s.worker = .select) (e : Selected) :
    (s.selected e).waiting = s.waiting ++ receivedBytes [.select e] := by
  have hbefore : s.waiting = dataBytes s.m_CommandList := by
    rw [ClientThreads.waiting, hw]
    exact List.append_nil _
  rw [hbefore]
  cases e with
  | error => rfl
  | timeout =>
      show s.waiting = _
      rw [hbefore]
      exact (List.append_nil _).symm
  | exceptFDs => rfl
  | readFDs r =>
      cases r with
      | zero =>
          show s.waiting = _
          rw [hbefore]
          exact (List.append_nil _).symm
      | SOCKET_ERROR =>
          have hcopy : EasyCommandOnData.CopyData (2 ^ 32 - 1) s.buffer_.data = none := by
            apply if_neg
            rw [Storage.length_data]
            decide
          show dataBytes _ ++ ReceiverPc.bytes (.OnData (2 ^ 32 - 1) s.buffer_.data) = _
          rw [ReceiverPc.bytes, hcopy]
          rfl
      | bytes data pos le =>
          obtain ⟨command, hcopy, hdata⟩ := SimpleThread.copyData_into data pos le s.buffer_
          show dataBytes s.m_CommandList ++
            ReceiverPc.bytes (.OnData ((data.length : ℤ) % 2 ^ 32).toNat _) = _
          rw [recvNum_bytes data le, ReceiverPc.bytes, hcopy]
          show _ ++ command.m_pData = _ ++ (data ++ [])
          rw [hdata, List.append_nil]

-- The thread that receives keeps the bytes on their way, unless the client has logged out.
theorem waiting_work (h : s.work connId = some t) :
    t.m_bReadyForShutdown = s.m_bReadyForShutdown ∧ t.callers = s.callers ∧
      t.recvBuf = s.recvBuf ∧ t.handled = s.handled ∧ t.checked = s.checked ∧
      s.m_CommandList <+: t.m_CommandList ∧
      (s.m_bReadyForShutdown = false → t.waiting = s.waiting) := by
  have hsame : s.m_CommandList <+: s.m_CommandList := List.prefix_refl _
  unfold ClientThreads.work at h
  split at h
  · rename_i iLen pBuf hw
    split at h
    · rename_i hflag
      cases h
      refine ⟨rfl, rfl, rfl, rfl, rfl, hsame, fun hrun ↦ ?_⟩
      rw [hrun] at hflag
      cases hflag
    · rw [Option.bind_eq_bind, Option.bind_eq_some_iff] at h
      obtain ⟨data, hcopy, he⟩ := h
      cases he
      refine ⟨rfl, rfl, rfl, rfl, rfl, hsame, fun _ ↦ ?_⟩
      unfold ClientThreads.waiting
      rw [hw, ReceiverPc.bytes, ReceiverPc.bytes, hcopy]
      exact congrArg _ (List.append_nil _)
  · rename_i c data hw
    cases h
    refine ⟨rfl, rfl, rfl, rfl, rfl, List.prefix_append _ _, fun _ ↦ ?_⟩
    unfold ClientThreads.waiting
    rw [dataBytes_append, hw]
    exact List.append_nil _
  · rename_i command hother hw
    cases h
    refine ⟨rfl, rfl, rfl, rfl, rfl, List.prefix_append _ _, fun _ ↦ ?_⟩
    unfold ClientThreads.waiting
    rw [dataBytes_append, hw]
    exact List.append_nil _
  · rename_i hw
    cases h
    refine ⟨rfl, rfl, rfl, rfl, rfl, hsame, fun _ ↦ ?_⟩
    unfold ClientThreads.waiting
    rw [hw]
    rfl
  · rename_i hw
    cases h
    refine ⟨rfl, rfl, rfl, rfl, rfl, hsame, fun hrun ↦ ?_⟩
    unfold ClientThreads.waiting ClientThreads.callback
    rw [hw, hrun]
    rfl
  · cases h

end Bytes

/-! ## 3. Every step -/

/-- What a thread of the application pushes holds no data. -/
def Dataless (code : List CallerInstr) : Prop :=
  ∀ command, .PushCommand command ∈ code → dataBytes [command] = []

/-- The command that has been checked holds the next bytes that were received. -/
def CheckedNext (es : List ClientEvent) (s : ClientThreads) : Prop :=
  ∃ c data later, s.m_CommandList = .OnData c data :: later ∧
    (executedData es).flatten ++ data.m_pData <+: receivedBytes es

theorem CheckedNext.mono {es : List ClientEvent} {s t : ClientThreads} (h : CheckedNext es s)
    (hlist : s.m_CommandList <+: t.m_CommandList) : CheckedNext es t := by
  obtain ⟨c, data, later, he, hpre⟩ := h
  obtain ⟨more, hmore⟩ := hlist
  rw [he, List.cons_append] at hmore
  exact ⟨c, data, later ++ more, hmore.symm, hpre⟩

/-- `b` is `m_RecvBuf` at the start. -/
structure Received (b : RecvBuffer) (es : List ClientEvent) (s : ClientThreads) : Prop where
  callers : ∀ code ∈ s.callers, Dataless code
  prefix_ : (executedData es).flatten <+: receivedBytes es
  flow : s.m_bReadyForShutdown = false →
    receivedBytes es = (executedData es).flatten ++ s.waiting
  path : Path EasyBaseClient.Receives (b, []) (executedData es) (s.recvBuf, s.handled)
  short : ∀ chunk ∈ executedData es, chunk.length < 2 ^ 16
  checked : s.checked = true → CheckedNext es s
  shutdown : (∃ ok, .caller .ReadyForShutdown ok ∈ es) → s.m_bReadyForShutdown = true

namespace Received

variable {b : RecvBuffer} {es : List ClientEvent} {e : ClientEvent} {s t : ClientThreads}
  {connId : ConnID}

-- A step that executes no data.
theorem keep (h : Received b es s) (hcallers : ∀ code ∈ t.callers, Dataless code)
    (hexec : executedData [e] = []) (hbuf : t.recvBuf = s.recvBuf)
    (hhandled : t.handled = s.handled)
    (hflag : t.m_bReadyForShutdown = false → s.m_bReadyForShutdown = false)
    (hwaiting : t.m_bReadyForShutdown = false → t.waiting = s.waiting ++ receivedBytes [e])
    (hchecked : t.checked = true → CheckedNext es t)
    (hlogout : ∀ ok, e = .caller .ReadyForShutdown ok → t.m_bReadyForShutdown = true) :
    Received b (es ++ [e]) t := by
  have hdata : executedData (es ++ [e]) = executedData es := by
    rw [executedData_snoc, hexec, List.append_nil]
  constructor
  · exact hcallers
  · rw [hdata, receivedBytes_snoc]
    exact h.prefix_.trans (List.prefix_append _ _)
  · intro hrun
    rw [hdata, receivedBytes_snoc, h.flow (hflag hrun), hwaiting hrun, List.append_assoc]
  · rw [hdata, hbuf, hhandled]
    exact h.path
  · rw [hdata]
    exact h.short
  · intro hc
    obtain ⟨c, data, later, hlist, hpre⟩ := hchecked hc
    refine ⟨c, data, later, hlist, ?_⟩
    rw [hdata, receivedBytes_snoc]
    exact hpre.trans (List.prefix_append _ _)
  · rintro ⟨ok, hmem⟩
    rcases List.mem_append.mp hmem with hold | hnew
    · by_contra hrun
      rw [Bool.not_eq_true] at hrun
      exact Bool.false_ne_true ((hflag hrun).symm.trans (h.shutdown ⟨ok, hold⟩))
    · exact hlogout ok (List.mem_singleton.mp hnew).symm

-- The threads of the application have no data.
theorem caller (h : Received b es s) {i : CallerInstr} {n : ℕ} {rest : List CallerInstr} {ok : Bool}
    (hthread : s.callers[n]? = some (i :: rest))
    (honce : i = .SimpleWorker → s.worker = .absent) :
    Received b (es ++ [.caller i ok])
      { (s.call connId ok i).1 with
        callers := s.callers.set n ((s.call connId ok i).2 ++ rest) } := by
  have hcode : Dataless (i :: rest) := h.callers _ (List.mem_of_getElem? hthread)
  have hnext : Dataless (s.call connId ok i).2 := by
    intro command hmem
    cases i with
    | Connect => cases ok <;> simp [ClientThreads.call] at hmem
    | OnConnection =>
        cases hflag : s.m_bReadyForShutdown <;>
          simp [ClientThreads.call, ClientThreads.callback, hflag] at hmem
        rw [hmem]
        rfl
    | OnDisconnect =>
        cases hflag : s.m_bReadyForShutdown <;>
          simp [ClientThreads.call, ClientThreads.callback, hflag] at hmem
        rw [hmem]
        rfl
    | SimpleWorker => cases hmem
    | ReadyForShutdown => cases hmem
    | Close => simp [ClientThreads.call] at hmem
    | PushCommand command => cases hmem
  apply h.keep
  · intro code hmem
    rcases List.mem_or_eq_of_mem_set hmem with hold | rfl
    · exact h.callers code (by cases i <;> exact hold)
    · intro command hpush
      rcases List.mem_append.mp hpush with hnew | hlater
      · exact hnext command hnew
      · exact hcode command (List.mem_cons_of_mem _ hlater)
  · rfl
  · cases i <;> rfl
  · cases i <;> rfl
  · cases i <;> first | exact fun hrun ↦ hrun | exact fun hrun ↦ by cases hrun
  · intro _
    rw [show receivedBytes [.caller i ok] = [] from rfl, List.append_nil]
    cases i with
    | SimpleWorker =>
        unfold ClientThreads.waiting
        rw [honce rfl]
        rfl
    | PushCommand command =>
        show dataBytes (s.m_CommandList ++ [command]) ++ s.worker.bytes = _
        rw [dataBytes_append, hcode command List.mem_cons_self, List.append_nil]
        rfl
    | _ => rfl
  · intro hc
    have hold : CheckedNext es s := h.checked (by cases i <;> exact hc)
    cases i with
    | PushCommand command => exact hold.mono (List.prefix_append _ _)
    | _ => exact hold
  · rintro ok' he
    cases he
    rfl

-- The first command is checked while nobody has logged out.
theorem check (h : Received b es s) {c : ConnID} {data : EasyCommandOnData}
    {later : List EasyCommand} (hlist : s.m_CommandList = .OnData c data :: later)
    (hflag : s.m_bReadyForShutdown = false) :
    Received b (es ++ [.check]) { s with checked := true } := by
  apply h.keep (t := { s with checked := true }) h.callers rfl rfl rfl
  · exact fun hrun ↦ hrun
  · exact fun _ ↦ (List.append_nil _).symm
  · intro _
    refine ⟨c, data, later, hlist, ?_⟩
    have hfirst : dataBytes (.OnData c data :: later) = data.m_pData ++ dataBytes later := rfl
    rw [h.flow hflag, ClientThreads.waiting, hlist, hfirst, List.append_assoc]
    apply (List.prefix_append_right_inj _).mpr
    exact List.prefix_append data.m_pData _
  · exact fun ok he ↦ by cases he

-- The bytes that are executed are those of the command that was checked.
theorem exec (h : Received b es s) {c : ConnID} {data : EasyCommandOnData}
    {later : List EasyCommand} {u : OnData.State} (hchecked : s.checked = true)
    (hlist : s.m_CommandList = .OnData c data :: later)
    (hu : u ∈ EasyBaseClient._OnCommandOnData s.recvBuf data.m_pData) (hpc : u.pc = .returned) :
    Received b (es ++ [.exec (.OnData c data)])
      { s with
        m_CommandList := later
        checked := false
        recvBuf := u.buf
        handled := s.handled ++ u.handled } := by
  have hdata : executedData (es ++ [.exec (.OnData c data)]) =
      executedData es ++ [data.m_pData] := executedData_snoc
  have hreceived : receivedBytes (es ++ [.exec (.OnData c data)]) = receivedBytes es := by
    rw [receivedBytes_snoc]
    exact List.append_nil _
  constructor
  · exact h.callers
  · obtain ⟨c', data', later', he, hpre⟩ := h.checked hchecked
    rw [hlist] at he
    cases he
    rw [hdata, hreceived, List.flatten_concat]
    exact hpre
  · intro hrun
    have hwaiting : s.waiting = data.m_pData ++ (dataBytes later ++ s.worker.bytes) := by
      unfold ClientThreads.waiting
      rw [hlist, ← List.append_assoc]
      rfl
    rw [hreceived, h.flow hrun, hwaiting, ← List.append_assoc, ← List.flatten_concat, ← hdata]
    rfl
  · rw [hdata]
    exact h.path.snoc ⟨u, hu, hpc, rfl⟩
  · rw [hdata, List.forall_mem_append, List.forall_mem_singleton]
    exact ⟨h.short, data.m_iLen_lt⟩
  · exact fun hc ↦ by cases hc
  · rintro ⟨ok, hmem⟩
    rcases List.mem_append.mp hmem with hold | hnew
    · exact h.shutdown ⟨ok, hold⟩
    · cases List.mem_singleton.mp hnew

-- A step that moves no bytes.
theorem quiet (h : Received b es s) (hcallers : ∀ code ∈ t.callers, Dataless code)
    (hexec : executedData [e] = []) (hreceived : receivedBytes [e] = [])
    (hbuf : t.recvBuf = s.recvBuf) (hhandled : t.handled = s.handled)
    (hflag : t.m_bReadyForShutdown = s.m_bReadyForShutdown)
    (hwaiting : s.m_bReadyForShutdown = false → t.waiting = s.waiting)
    (hchecked : t.checked = true → CheckedNext es t)
    (hlogout : ∀ ok, e ≠ .caller .ReadyForShutdown ok) : Received b (es ++ [e]) t := by
  apply h.keep hcallers hexec hbuf hhandled
  · intro hrun
    rwa [hflag] at hrun
  · intro hrun
    rw [hflag] at hrun
    rw [hreceived, List.append_nil, hwaiting hrun]
  · exact hchecked
  · exact fun ok he ↦ absurd he (hlogout ok)

theorem step (h : Received b es s) (hdefined : s.CopiesInside e) (hst : s.Step connId e t) :
    Received b (es ++ [e]) t := by
  cases hst with
  | @call code hcode =>
      refine h.quiet (t := { s with callers := s.callers ++ [code] }) ?_ rfl rfl rfl rfl rfl
        (fun _ ↦ rfl) h.checked (by simp)
      show ∀ code' ∈ s.callers ++ [code], Dataless code'
      rw [List.forall_mem_append, List.forall_mem_singleton]
      refine ⟨h.callers, fun command hmem ↦ ?_⟩
      simp only [List.mem_cons, List.not_mem_nil, or_false] at hcode
      rcases hcode with rfl | rfl | rfl
      · simp [EasyBaseClient.Login] at hmem
      · simp [EasyBaseClient.Logout] at hmem
      · simp [EasyBaseClient.SendDataFails] at hmem
  | caller hthread _ honce => exact h.caller hthread honce
  | @select e hw =>
      have hcallers : (s.selected e).callers = s.callers := by
        fun_cases ClientThreads.selected s e <;> rfl
      apply h.keep (t := s.selected e)
      · rw [hcallers]
        exact h.callers
      · rfl
      · fun_cases ClientThreads.selected s e <;> rfl
      · fun_cases ClientThreads.selected s e <;> rfl
      · fun_cases ClientThreads.selected s e <;> exact fun hrun ↦ hrun
      · exact fun _ ↦ waiting_selected hw e
      · fun_cases ClientThreads.selected s e <;> exact h.checked
      · exact fun ok he ↦ by cases he
  | worker hwork =>
      obtain ⟨hflag, hcallers, hbuf, hhandled, hchecked, hlist, hwaiting⟩ := waiting_work hwork
      refine h.quiet ?_ rfl rfl hbuf hhandled hflag hwaiting ?_ (by simp)
      · rw [hcallers]
        exact h.callers
      · intro hc
        rw [hchecked] at hc
        exact (h.checked hc).mono hlist
  | overread hw hflag hcopy => exact absurd hcopy (hdefined.read rfl _ _ hw hflag)
  | lock => exact h.quiet h.callers rfl rfl rfl rfl rfl (fun _ ↦ rfl) h.checked (by simp)
  | check _ hlist _ hflag => exact h.check hlist hflag
  | exec hchecked hlist hu hpc => exact h.exec hchecked hlist hu hpc
  | overrun _ _ hu hpc => exact absurd (hdefined.written _ _ rfl _ hu) hpc
  | @skip command later _ hlist hchecked hskip =>
      refine h.quiet (t := { s with m_CommandList := later }) h.callers rfl rfl rfl rfl rfl ?_
        (fun hc ↦ absurd (hchecked.symm.trans hc) Bool.false_ne_true) (by simp)
      intro hrun
      have hother : dataBytes [command] = [] := by
        rcases hskip with hflag | hother
        · exact absurd (hflag.symm.trans hrun) (by decide)
        · cases command with
          | OnData c data => exact absurd rfl (hother c data)
          | _ => rfl
      unfold ClientThreads.waiting
      rw [hlist, show command :: later = [command] ++ later from rfl, dataBytes_append, hother]
      rfl
  | unlock => exact h.quiet h.callers rfl rfl rfl rfl rfl (fun _ ↦ rfl) h.checked (by simp)

-- Off a stream of packets, those are handled that have wholly arrived.
theorem handled (h : Received b es s) (hb : b.m_iRecvBufLen = 0) {rs : List SendRequest}
    (hrs : ∀ r ∈ rs, r.iLen ≤ MAX_INPUT_BUFFER - PACKET_HEAD)
    (hsent : receivedBytes es <+: stream rs) :
    s.handled = (arrived (executedData es).flatten.length rs).map SendRequest.packet := by
  obtain ⟨rest, hrest⟩ := h.prefix_
  rw [← hrest] at hsent
  obtain ⟨hwrap, hpackets⟩ := packets_of_stream hrs hsent
  have hpath := (EasyBaseClient.path_iff hb h.short).mp h.path
  exact ((calls_spec_of_empty hb hpath h.short).2.2.2 hwrap).trans hpackets

theorem start (m_RecvBuf buffer_ : Storage UInt8 MAX_INPUT_BUFFER) :
    Received ⟨0, m_RecvBuf⟩ [] (.start m_RecvBuf buffer_) where
  callers _ hcode := absurd hcode List.not_mem_nil
  prefix_ := List.prefix_refl []
  flow _ := rfl
  path := .nil
  short _ hchunk := absurd hchunk List.not_mem_nil
  checked hc := by cases hc
  shutdown := by
    rintro ⟨ok, hmem⟩
    exact absurd hmem List.not_mem_nil

theorem of_path {m_RecvBuf buffer_ : Storage UInt8 MAX_INPUT_BUFFER}
    (h : Path (ClientThreads.DefinedStep connId) (.start m_RecvBuf buffer_) es s) :
    Received ⟨0, m_RecvBuf⟩ es s := by
  apply h.always (I := Received ⟨0, m_RecvBuf⟩)
  · exact .start m_RecvBuf buffer_
  · exact fun es s e t hreceived hst ↦ hreceived.step hst.1 hst.2

end Received

/-! ## 4. Runs -/

/-- The events are about the execution of one command. -/
def executions (es : List ClientEvent) : ℕ :=
  es.countP fun
    | .exec _ => true
    | _ => false

/-- Once `Logout` has set `m_bReadyForShutdown`, no command is checked, and at most the one that was
checked before is executed. -/
def NotAfterLogout (es : List ClientEvent) (checked : Bool) : Prop :=
  ∀ before after, es = before ++ after → (∃ ok, .caller .ReadyForShutdown ok ∈ before) →
    .check ∉ after ∧ executions after + checked.toNat ≤ 1

section Logout

variable {b : RecvBuffer} {es : List ClientEvent} {e : ClientEvent} {s t : ClientThreads}
  {connId : ConnID}

-- A command is executed after it has been checked, and is checked before `Logout`.
theorem checked_step (hdefined : s.CopiesInside e) (hst : s.Step connId e t)
    (hflag : s.m_bReadyForShutdown = true) :
    e ≠ .check ∧ executions [e] + t.checked.toNat = s.checked.toNat := by
  cases hst with
  | call hcode => exact ⟨by simp, Nat.zero_add _⟩
  | @caller i n rest ok hthread hmutex honce =>
      refine ⟨by simp, ?_⟩
      cases i <;> exact Nat.zero_add _
  | @select e hw =>
      refine ⟨by simp, ?_⟩
      fun_cases ClientThreads.selected s e <;> exact Nat.zero_add _
  | worker hwork =>
      obtain ⟨-, -, -, -, hchecked, -⟩ := waiting_work hwork
      rw [hchecked]
      exact ⟨by simp, Nat.zero_add _⟩
  | overread hw hrun hcopy => exact absurd hcopy (hdefined.read rfl _ _ hw hrun)
  | lock => exact ⟨by simp, Nat.zero_add _⟩
  | check _ _ _ hrun => exact absurd (hrun.symm.trans hflag) Bool.false_ne_true
  | exec hchecked =>
      rw [hchecked]
      exact ⟨by simp, rfl⟩
  | overrun _ _ hu hpc => exact absurd (hdefined.written _ _ rfl _ hu) hpc
  | skip => exact ⟨by simp, Nat.zero_add _⟩
  | unlock => exact ⟨by simp, Nat.zero_add _⟩

theorem NotAfterLogout.step (h : NotAfterLogout es s.checked) (hreceived : Received b es s)
    (hdefined : s.CopiesInside e) (hst : s.Step connId e t) :
    NotAfterLogout (es ++ [e]) t.checked := by
  intro before after he hlogout
  rcases List.eq_nil_or_concat after with rfl | ⟨after', last, rfl⟩
  · -- nothing has happened since
    rw [show executions [] = 0 from rfl, Nat.zero_add]
    exact ⟨List.not_mem_nil, Bool.toNat_le t.checked⟩
  · rw [List.concat_eq_append, ← List.append_assoc] at he
    obtain ⟨hes, hlast⟩ := List.append_inj' he rfl
    cases hlast
    obtain ⟨hnone, hone⟩ := h before after' hes hlogout
    obtain ⟨ok, hmem⟩ := hlogout
    have hflag := hreceived.shutdown ⟨ok, hes ▸ List.mem_append_left _ hmem⟩
    obtain ⟨hcheck, hcount⟩ := checked_step hdefined hst hflag
    have hsum : executions (after' ++ [e]) = executions after' + executions [e] :=
      List.countP_append
    rw [List.concat_eq_append, hsum, Nat.add_assoc, hcount]
    refine ⟨fun hin ↦ ?_, hone⟩
    rcases List.mem_append.mp hin with hold | hnew
    · exact hnone hold
    · exact hcheck (List.mem_singleton.mp hnew).symm

theorem notAfterLogout_of_path {m_RecvBuf buffer_ : Storage UInt8 MAX_INPUT_BUFFER}
    (h : Path (ClientThreads.DefinedStep connId) (.start m_RecvBuf buffer_) es s) :
    NotAfterLogout es s.checked := by
  have hboth := h.always (I := fun es s ↦ Received ⟨0, m_RecvBuf⟩ es s ∧
    NotAfterLogout es s.checked) ?_ fun es s e t hI hst ↦
      ⟨hI.1.step hst.1 hst.2, hI.2.step hI.1 hst.1 hst.2⟩
  · exact hboth.2
  · refine ⟨.start m_RecvBuf buffer_, fun before after he ⟨ok, hmem⟩ ↦ ?_⟩
    rw [(List.append_eq_nil_iff.mp he.symm).1] at hmem
    exact absurd hmem List.not_mem_nil

end Logout

/-- **What the client receives.**  In every interleaving of the threads of a client whose copies
stay inside the buffers, the bytes that its command thread has put together are the first of those
that `recv` returned, and all but those still on their way as long as nobody logs out.  If they are
the first bytes of a stream of packets, the packets that have wholly arrived among them were
handled, in order, and no others.  Once `Logout` has set the flag, at most one more command is
executed. -/
theorem client_receives (connId : ConnID) (m_RecvBuf buffer_ : Storage UInt8 MAX_INPUT_BUFFER)
    (es : List ClientEvent) (t : ClientThreads)
    (h : Path (ClientThreads.DefinedStep connId) (.start m_RecvBuf buffer_) es t) :
    (executedData es).flatten <+: receivedBytes es ∧
      (t.m_bReadyForShutdown = false →
        receivedBytes es = (executedData es).flatten ++ t.waiting) ∧
      (∀ rs : List SendRequest, (∀ r ∈ rs, r.iLen ≤ MAX_INPUT_BUFFER - PACKET_HEAD) →
        receivedBytes es <+: stream rs →
        t.handled = (arrived (executedData es).flatten.length rs).map SendRequest.packet) ∧
      ∀ before after, es = before ++ after → (∃ ok, .caller .ReadyForShutdown ok ∈ before) →
        .check ∉ after ∧ executions after ≤ 1 := by
  have hreceived := Received.of_path h
  refine ⟨hreceived.prefix_, hreceived.flow, fun rs ↦ hreceived.handled rfl, ?_⟩
  intro before after he hlogout
  obtain ⟨hnone, hone⟩ := notAfterLogout_of_path h before after he hlogout
  exact ⟨hnone, Nat.le_trans (Nat.le_add_right _ _) hone⟩

section Login

variable (connId : ConnID) (m_RecvBuf buffer_ : Storage UInt8 MAX_INPUT_BUFFER)

def loginEvents : List ClientEvent :=
  [.call EasyBaseClient.Login, .caller .Connect true, .caller .OnConnection true,
    .caller (.PushCommand (.OnConnect connId)) true, .caller .SimpleWorker true]

-- Only the copies can go wrong.
theorem copiesInside_other {s : ClientThreads} {e : ClientEvent} (hworker : e ≠ .worker)
    (hexec : ∀ command, e ≠ .exec command) : s.CopiesInside e :=
  ⟨fun he ↦ absurd he hworker, fun _ _ he ↦ absurd he (hexec _)⟩

/-- `Login` succeeds. -/
theorem login_run :
    Path (ClientThreads.DefinedStep connId) (.start m_RecvBuf buffer_) (loginEvents connId)
      ⟨false, [.OnConnect connId], false, false, ⟨0, m_RecvBuf⟩, [], buffer_, .select, [[]]⟩ := by
  have hinside : ∀ {s : ClientThreads} {i : CallerInstr} {ok : Bool},
      s.CopiesInside (.caller i ok) := copiesInside_other (by simp) (by simp)
  have hcall := (Path.nil (R := ClientThreads.DefinedStep connId)
    (s := .start m_RecvBuf buffer_)).snoc (l := .call EasyBaseClient.Login)
      ⟨copiesInside_other (by simp) (by simp), .call List.mem_cons_self⟩
  have hconnect := hcall.snoc (l := .caller .Connect true)
    ⟨hinside, .caller (n := 0) rfl (by simp) (by simp)⟩
  have hcallback := hconnect.snoc (l := .caller .OnConnection true)
    ⟨hinside, .caller (n := 0) rfl (by simp) (by simp)⟩
  have hpush := hcallback.snoc (l := .caller (.PushCommand (.OnConnect connId)) true)
    ⟨hinside, .caller (n := 0) rfl (fun _ _ ↦ rfl) (by simp)⟩
  exact hpush.snoc ⟨hinside, .caller (n := 0) rfl (by simp) fun _ ↦ rfl⟩

-- The thread that receives takes bytes and pushes them.
theorem received_run {s : ClientThreads} (hw : s.worker = .select)
    (hflag : s.m_bReadyForShutdown = false) (hfree : s.draining = false) (data : List UInt8)
    (pos : 1 ≤ data.length) (le : data.length ≤ MAX_INPUT_BUFFER) :
    ∃ command buffer_, command.m_pData = data ∧
      Path (ClientThreads.DefinedStep connId) s
        [.select (.readFDs (.bytes data pos le)), .worker, .worker]
        { s with
          m_CommandList := s.m_CommandList ++ [.OnData connId command]
          buffer_
          worker := .select } := by
  obtain ⟨command, hcopy, hdata⟩ := SimpleThread.copyData_into data pos le s.buffer_
  have hselect := (Path.nil (R := ClientThreads.DefinedStep connId)).snoc
    ⟨copiesInside_other (by simp) (by simp),
      .select (e := .readFDs (.bytes data pos le)) hw⟩
  have hwork : (s.selected (.readFDs (.bytes data pos le))).work connId =
      some
        { s.selected (.readFDs (.bytes data pos le)) with
          worker := .PushCommand (.OnData connId command) } := by
    show (if s.m_bReadyForShutdown then _ else
      (EasyCommandOnData.CopyData ((data.length : ℤ) % 2 ^ 32).toNat _).bind _) = _
    rw [hflag, recvNum_bytes data le, hcopy]
    rfl
  have hinside : (s.selected (.readFDs (.bytes data pos le))).CopiesInside .worker := by
    refine ⟨fun _ iLen pBuf he _ ↦ ?_, fun c data' he ↦ by cases he⟩
    cases he
    show EasyCommandOnData.CopyData ((data.length : ℤ) % 2 ^ 32).toNat _ ≠ none
    rw [recvNum_bytes data le, hcopy]
    simp
  have hcopied := hselect.snoc ⟨hinside, .worker hwork fun _ he ↦ by cases he⟩
  refine ⟨command, _, hdata, hcopied.snoc ⟨?_, .worker rfl fun _ _ ↦ hfree⟩⟩
  exact ⟨fun _ _ _ he ↦ (by cases he), fun _ _ he ↦ by cases he⟩

-- A packet that comes in one piece is executed after the command of `Login`.
theorem packet_run (r : SendRequest) (hfits : PACKET_HEAD + r.iLen ≤ MAX_INPUT_BUFFER) :
    ∃ es t, Path (ClientThreads.DefinedStep connId) (.start m_RecvBuf buffer_) es t ∧
      receivedBytes es = r.frame ∧ (executedData es).flatten = r.frame ∧
      t.m_bReadyForShutdown = false := by
  have hlen : r.frame.length = PACKET_HEAD + r.iLen := r.length_frame
  have hhead : PACKET_HEAD = 4 := rfl
  obtain ⟨data, buffer, hdata, hreceived⟩ := received_run connId
    (s := ⟨false, [.OnConnect connId], false, false, ⟨0, m_RecvBuf⟩, [], buffer_, .select, [[]]⟩)
    rfl rfl rfl r.frame (by omega) (by omega)
  obtain ⟨u, hu, hpc, -⟩ := EasyBaseClient.exists_handled (b := ⟨0, m_RecvBuf⟩) rfl hfits
  have hclient : u ∈ EasyBaseClient._OnCommandOnData ⟨0, m_RecvBuf⟩ data.m_pData := by
    show u ∈ StateTransition.eval _ _
    rw [EasyBaseClient.eval_step_eq (EasyBaseClient.short_start (Nat.zero_le _) data.m_iLen_lt),
      hdata]
    exact hu
  have hlocked := ((login_run connId m_RecvBuf buffer_).append hreceived).snoc (l := .lock)
    ⟨copiesInside_other (by simp) (by simp), .lock rfl⟩
  have hconnect := hlocked.snoc (l := .skip (.OnConnect connId))
    ⟨copiesInside_other (by simp) (by simp), .skip rfl rfl rfl (.inr (by simp))⟩
  have hchecked := hconnect.snoc (l := .check)
    ⟨copiesInside_other (by simp) (by simp), .check rfl rfl rfl rfl⟩
  have hexecuted := hchecked.snoc (l := .exec (.OnData connId data)) ⟨?_, .exec rfl rfl hclient hpc⟩
  swap
  · refine ⟨fun he ↦ (by cases he), fun c data' he u' hu' ↦ ?_⟩
    cases he
    exact (Part.mem_unique hu' hclient) ▸ hpc
  exact ⟨_, _, hexecuted, List.append_nil _, (List.append_nil _).trans hdata, rfl⟩

/-- The client logs in, and gets a packet of one byte. -/
theorem client_receives_nine :
    ∃ es t, Path (ClientThreads.DefinedStep 3) (.start (.replicate _ 0) (.replicate _ 0)) es t ∧
      receivedBytes es = [5, 0, 1, 0, 9] ∧ t.handled = [⟨5, 1, [9]⟩] := by
  let r : SendRequest := ⟨5, [9], by decide, by decide⟩
  obtain ⟨es, t, hpath, hbytes, hdone, -⟩ :=
    packet_run 3 (.replicate _ 0) (.replicate _ 0) r (by decide)
  have hstream : stream [r] = r.frame := List.append_nil r.frame
  have hpackets := (client_receives 3 _ _ _ _ hpath).2.2.1 [r]
    (List.forall_mem_singleton.mpr (by decide)) (by rw [hbytes, hstream])
  rw [hdone, ← hstream, arrived_all] at hpackets
  exact ⟨es, t, hpath, hbytes.trans (by decide), hpackets⟩

end Login

end Fantuan
