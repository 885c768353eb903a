import Mathlib.Data.List.AList
import Fantuan.Midware.Calls

/-!
# easy_baseserver.cpp — the session pool and the commands

The state of an `EasyBaseServer` as its command thread sees it, with the memory that its pointers
point to: the `EasySession` objects and the member `client_` of the connections.  A handler gives
back what it returns, the new state, and what it did to connections and packets on the way.  It has
no result where the source does something undefined or goes on forever.
-/

open Lib

namespace Fantuan

inductive Platform
  | WIN32
  | LINUX
deriving DecidableEq, Repr

/-- A pointer to an `EasySession`, never `NULL`. -/
abbrev SessionPtr := ℕ

/-! ## 1. easy_pool.h -/

/-- `EasyPool<T>`, for pointers `α` to `T`. -/
structure EasyPool (α : Type) where
  m_ObjectList : List α
deriving DecidableEq, Repr

namespace EasyPool

variable {α : Type}

/-- `pNew` is the pointer that `new T()` would give. -/
def Allocate (pool : EasyPool α) (pNew : α) : α × EasyPool α :=
  match pool.m_ObjectList with
  | [] => (pNew, pool)
  | pObject :: rest => (pObject, ⟨rest⟩)

def Free (pool : EasyPool α) (pObject : α) : EasyPool α :=
  ⟨pool.m_ObjectList ++ [pObject]⟩

end EasyPool

/-! ## 2. Commands, and what they do to connections -/

/-- The data of an `EasyCommandOnData`, whose `m_iLen` is a `uint16`. -/
@[ext] structure EasyCommandOnData where
  m_pData : List UInt8
  m_iLen_lt : m_pData.length < 2 ^ 16

instance : DecidableEq EasyCommandOnData :=
  fun _ _ ↦ decidable_of_iff _ EasyCommandOnData.ext_iff.symm

inductive EasyCommand
  | OnConnect (m_ConnId : ConnID)
  | OnDisconnect (m_ConnId : ConnID)
  | OnData (m_ConnId : ConnID) (data : EasyCommandOnData)
  | SendData (m_iSessionId : ℕ) (request : SendRequest)
  | Shutdown
  | Disconnect (m_iSessionId : ℕ)
deriving DecidableEq

def EasyCommand.connId : EasyCommand → Option ConnID
  | OnConnect m_ConnId => some m_ConnId
  | OnDisconnect m_ConnId => some m_ConnId
  | OnData m_ConnId _ => some m_ConnId
  | _ => none

/-- Calls of the command thread: of `EasyDispatcher::OnPacketReceived` for the session of a
connection, and of the methods of a connection. -/
inductive Action
  | OnPacketReceived (connId : ConnID) (packet : EasyPacket)
  | SendMessage (connId : ConnID) (buffer : List UInt8)
  | AsyncSend (connId : ConnID) (buf : List UInt8)
  | AsyncDisconnect (connId : ConnID)
  | Close (connId : ConnID)
deriving DecidableEq

def Action.connId : Action → ConnID
  | OnPacketReceived connId _ => connId
  | SendMessage connId _ => connId
  | AsyncSend connId _ => connId
  | AsyncDisconnect connId => connId
  | Close connId => connId

/-- The call does something: `AsyncSend(len, buf)` logs an error and returns if `len` is more than
`output_buffer_size_`. -/
def Action.Acts : Action → Prop
  | AsyncSend _ buf => buf.length ≤ MAX_OUTPUT_BUFFER
  | _ => True

/-! ## 3. Sessions -/

/-- The constructor, in memory that holds anything. -/
def EasySession.construct (memory : EasySession) : EasySession :=
  { memory with m_iSessionID := 0 }.Reset

/-- `SendData`: what it returns and does.  `popped`: `PopOutputBuffer` gave a buffer. -/
def EasySession.SendData (platform : Platform) (popped : Bool) (session : EasySession)
    (request : SendRequest) : Option (ℤ × List Action) :=
  match platform, session.m_pConnection with
  | .WIN32, connection =>
      if popped then
        -- `m_pConnection` is used without a check, and so is the length, which `AsyncSend` checks:
        -- the call does nothing for a packet that is too long (`Action.Acts`)
        connection.map fun connId ↦ (0, [.AsyncSend connId request.frame])
      else some (-1, [])
  | .LINUX, connection =>
      -- the packet is written into `m_SendBuf`
      if PACKET_HEAD + request.iLen ≤ MAX_OUTPUT_BUFFER then
        connection.map fun connId ↦ (0, [.SendMessage connId request.frame])
      else none

/-! ## 4. The server -/

structure EasyBaseServer where
  m_iMaxSession : ℕ
  m_bReadyForShutdown : Bool
  m_SessionPool : EasyPool SessionPtr
  m_SessionMap : AList fun _ : ℕ ↦ SessionPtr
  m_SessionArray : ℕ → SessionPtr
  /-- The session objects. -/
  object : SessionPtr → EasySession
  /-- Objects have been created at the pointers below. -/
  created : ℕ
  /-- `none` for NULL, and on Linux also where nothing has set it yet. -/
  client_ : ConnID → Option SessionPtr

/-- What a handler gives back. -/
structure Done where
  ret : Bool
  server : EasyBaseServer
  actions : List Action

namespace EasyBaseServer

variable (s : EasyBaseServer)

/-- `m_SessionPool.Allocate()`. -/
def Allocate (memory : EasySession) : SessionPtr × EasyBaseServer :=
  let (pSession, m_SessionPool) := s.m_SessionPool.Allocate s.created
  if s.m_SessionPool.m_ObjectList = [] then
    (pSession, { s with
      m_SessionPool, created := s.created + 1,
      object := Function.update s.object s.created memory.construct })
  else (pSession, { s with m_SessionPool })

/-- `std::unordered_map::insert` leaves an entry that is there already. -/
def insert (iSessionID : ℕ) (pSession : SessionPtr) : EasyBaseServer :=
  { s with
    m_SessionMap :=
      if iSessionID ∈ s.m_SessionMap then s.m_SessionMap
      else s.m_SessionMap.insert iSessionID pSession }

/-- `EasySession::OnConnection`. -/
def OnConnection (pSession : SessionPtr) (connId : ConnID) : EasyBaseServer :=
  { s with
    object := Function.update s.object pSession
      { s.object pSession with m_pConnection := some connId }
    client_ := Function.update s.client_ connId (some pSession) }

/-- `EasySession::OnDisconnect`. -/
def OnDisconnect (pSession : SessionPtr) : EasyBaseServer × List Action :=
  ({ s with object := Function.update s.object pSession (s.object pSession).Reset },
    ((s.object pSession).m_pConnection.map Action.Close).toList)

/-- `EasySession::Disconnect`. -/
def Disconnect (platform : Platform) (pSession : SessionPtr) : EasyBaseServer × List Action :=
  match (s.object pSession).m_pConnection with
  | some connId =>
      match platform with
      | .WIN32 => (s, [.AsyncDisconnect connId])
      | .LINUX => (s, [])
  | none => s.OnDisconnect pSession

def _OnCommandOnConnect (memory : EasySession) (m_ConnId : ConnID) : Done :=
  let (pSession, s) := s.Allocate memory
  let s := s.insert (s.object pSession).m_iSessionID pSession
  ⟨true, s.OnConnection pSession m_ConnId, []⟩

def _OnCommandOnDisconnect (m_ConnId : ConnID) : Done :=
  match s.client_ m_ConnId with
  | some pSession =>
      let m_SessionMap := s.m_SessionMap.erase (s.object pSession).m_iSessionID
      let (s, actions) := { s with m_SessionMap }.OnDisconnect pSession
      ⟨true, { s with m_SessionPool := s.m_SessionPool.Free pSession }, actions⟩
  | none => ⟨false, s, []⟩

def _OnCommandOnData (m_ConnId : ConnID) (data : EasyCommandOnData) : Part Done :=
  match s.client_ m_ConnId with
  | some pSession =>
      (EasySession.OnData (s.object pSession).toRecvBuffer data.m_pData).bind fun t ↦
        if t.pc = .returned then
          .some ⟨true,
            { s with
              object := Function.update s.object pSession
                { s.object pSession with toRecvBuffer := t.buf } },
            t.handled.map (.OnPacketReceived m_ConnId)⟩
        else .none
  | none => .some ⟨false, s, []⟩

def _OnCommandDisconnect (platform : Platform) (m_iSessionId : ℕ) : Option Done :=
  -- the index is not checked: beyond the array it reads what is there
  if m_iSessionId < s.m_iMaxSession then
    let (s, actions) := s.Disconnect platform (s.m_SessionArray m_iSessionId)
    some ⟨true, s, actions⟩
  else none

def _OnCommandSendData (platform : Platform) (popped : Bool) (m_iSessionId : ℕ)
    (request : SendRequest) : Option Done :=
  if m_iSessionId < s.m_iMaxSession then
    ((s.object (s.m_SessionArray m_iSessionId)).SendData platform popped request).map
      fun (iRet, actions) ↦ ⟨iRet == 0, s, actions⟩
  else none

def _OnCommandShutdown (platform : Platform) : Done :=
  let (s, actions) := s.m_SessionMap.entries.foldl
    (fun (s, actions) entry ↦
      let (s, more) := s.Disconnect platform entry.2
      (s, actions ++ more))
    ({ s with m_bReadyForShutdown := true }, [])
  ⟨true, s, actions⟩

/-- `_OnCommand` can give back `d`: what `new` finds in memory, and whether there is an output
buffer, are left open. -/
def _OnCommand (platform : Platform) (command : EasyCommand) (d : Done) : Prop :=
  match command with
  | .OnConnect m_ConnId =>
      if s.m_bReadyForShutdown then d = ⟨true, s, []⟩
      else ∃ memory, d = s._OnCommandOnConnect memory m_ConnId
  | .OnDisconnect m_ConnId => d = s._OnCommandOnDisconnect m_ConnId
  | .Disconnect m_iSessionId => s._OnCommandDisconnect platform m_iSessionId = some d
  | .OnData m_ConnId data =>
      if s.m_bReadyForShutdown then d = ⟨true, s, []⟩
      else d ∈ s._OnCommandOnData m_ConnId data
  | .SendData m_iSessionId request =>
      if s.m_bReadyForShutdown then d = ⟨true, s, []⟩
      else ∃ popped, s._OnCommandSendData platform popped m_iSessionId request = some d
  | .Shutdown => d = s._OnCommandShutdown platform

/-- `EasyBaseServer(iMaxSession)`, before `_InitializeSessionPool`. -/
def construct (iMaxSession : ℕ) (memory : SessionPtr → EasySession)
    (array : ℕ → SessionPtr) : EasyBaseServer where
  m_iMaxSession := iMaxSession
  m_bReadyForShutdown := false
  m_SessionPool := ⟨[]⟩
  m_SessionMap := ∅
  m_SessionArray := array
  object := memory
  created := 0
  client_ := fun _ ↦ none

/-- One turn of the loop of `_InitializeSessionPool`. -/
def initializeSession (i : ℕ) : EasyBaseServer :=
  let (pSession, s) := s.Allocate (s.object s.created)
  { s with
    m_SessionArray := Function.update s.m_SessionArray i pSession
    object := Function.update s.object pSession { s.object pSession with m_iSessionID := i }
    m_SessionPool := s.m_SessionPool.Free pSession }

def _InitializeSessionPool : EasyBaseServer :=
  (List.range s.m_iMaxSession).foldl initializeSession s

end EasyBaseServer

/-- A command that was executed, with what it did. -/
abbrev Executed := EasyCommand × List Action

/-- The command thread executes a command. -/
def Executes (platform : Platform) (s : EasyBaseServer) (e : Executed)
    (t : EasyBaseServer) : Prop :=
  ∃ d, s._OnCommand platform e.1 d ∧ d.actions = e.2 ∧ d.server = t

end Fantuan
