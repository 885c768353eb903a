import Fantuan.Midware.Attached
import Fantuan.Midware.Chat
import Fantuan.Midware.Client

/-!
# chat_session.cpp — what the chat server answers

A `ChatSession` answers a ping itself, and passes a message on to every session of `m_SessionMap`.
Both happen on the command thread, while the session is in `OnData`; the map and the connections of
the sessions stay as they are meanwhile.  The server is the one for Linux.
-/

open Lib

namespace Fantuan

/-! ## 1. `OnPingReq` and `OnChatReq` -/

namespace EasyBaseServer

variable (s : EasyBaseServer)

/-- `SendPacket`, called by a sender for a session, or not called. -/
def SendPacket (pClient : SessionPtr) (request : Option SendRequest) : Option (List Action) := do
  match request with
  | none => some []
  | some r =>
      let (_, actions) ← (s.object pClient).SendData .LINUX false r
      some actions

def OnPingReq (pSession : SessionPtr) (iVersion : ℕ) : Option (List Action) := do
  let request ← ChatTest.PingAck iVersion
  s.SendPacket pSession request

/-- One turn of the loop over `m_SessionMap`. -/
def chatAck (iLen : ℕ) (message : List UInt8) (pSession : SessionPtr) : Option (List Action) := do
  let request ← ChatTest.ChatAck iLen message
  s.SendPacket pSession request

def OnChatReq (iLen : ℕ) (message : List UInt8) : Option (List Action) := do
  let sent ← s.m_SessionMap.entries.mapM fun mit ↦ s.chatAck iLen message mit.2
  some sent.flatten

def OnRequest (pSession : SessionPtr) : Option ChatRequest → Option (List Action)
  | none => some []
  | some (.OnPingReq iVersion) => s.OnPingReq pSession iVersion
  | some (.OnChatReq iLen message) => s.OnChatReq iLen message.data

/-- What is done for one of the actions of the command thread. -/
def handle : Action → Option (List Action)
  | .OnPacketReceived connId packet => do
      let pSession ← s.client_ connId
      let called ← EasyDispatcher.OnPacketReceived ChatTest.func packet
      s.OnRequest pSession called
  | action => some [action]

def handleAll (actions : List Action) : Option (List Action) := do
  let calls ← actions.mapM s.handle
  some calls.flatten

end EasyBaseServer

/-- A command that the chat server has executed, and the calls of the methods of connections. -/
abbrev ChatExecuted := Executed × List Action

def ChatExecutes (s : EasyBaseServer) (l : ChatExecuted) (t : EasyBaseServer) : Prop :=
  Executes .LINUX s l.1 t ∧ s.handleAll l.1.2 = some l.2

/-- The network layer reports a connection and its end once, and no data after the end.  Nothing in
the chat server pushes `COMMAND_SENDDATA`. -/
def Announced (before : List ChatExecuted) (l : ChatExecuted) : Prop :=
  match l.1.1 with
  | .OnConnect m_ConnId => ∀ l' ∈ before, l'.1.1 ≠ .OnConnect m_ConnId
  | .OnDisconnect m_ConnId => ∀ l' ∈ before, l'.1.1 ≠ .OnDisconnect m_ConnId
  | .OnData m_ConnId _ => ∀ l' ∈ before, l'.1.1 ≠ .OnDisconnect m_ConnId
  | .SendData _ _ => False
  | _ => True

/-! ## 2. Messages on the wire -/

section Frames

variable {iLen iVersion : ℕ} {message : List UInt8} {r : SendRequest} {packet : EasyPacket}

def messageFrame (iLen : ℕ) (message : List UInt8) : List UInt8 :=
  uint16Bytes 1 ++ uint16Bytes (4 + uint16 iLen) ++ messageData iLen message

def versionFrame (iVersion : ℕ) : List UInt8 := (versionRequest 0 PingReq_lt iVersion).frame

theorem Carries.frame_eq (h : Carries r iLen message) (hmessage : uint16 iLen ≤ message.length) :
    r.frame = messageFrame iLen message := by
  rw [SendRequest.frame, h.type, h.iLen_eq hmessage, h.data, messageFrame]

theorem callback_eq_some {β : Type} {n len : ℕ} {report : ℕ → Storage UInt8 n → Option (ℕ × β)}
    {stream t : InputStream} {b : β} (h : callback n report stream = some (t, some (len, b))) :
    ∃ len' message, readMessage n stream = some (t, some (len', message)) ∧
      report len' message = some (len, b) := by
  cases hread : readMessage n stream with
  | none =>
      rw [callback, hread] at h
      cases h
  | some r =>
      obtain ⟨s, _ | ⟨len', message⟩⟩ := r
      · rw [callback, hread] at h
        cases h
      · rw [callback_of_message hread, Option.bind_eq_some_iff] at h
        obtain ⟨reported, hreported, he⟩ := h
        cases he
        exact ⟨len', message, rfl, hreported⟩

-- The length that a session is called with is that of the characters before the `'\0'`.
theorem length_of_OnChatReq {m : Storage UInt8 MAX_INPUT_BUFFER}
    (h : EasyDispatcher.OnPacketReceived ChatTest.func packet = some (some (.OnChatReq iLen m))) :
    iLen < MAX_INPUT_BUFFER := by
  obtain ⟨iTypeId, len, buf⟩ := packet
  match iTypeId with
  | 0 =>
      have hping : ChatTest.func[0]?.join = some (.as PingReq_Callback .OnPingReq) := rfl
      rw [EasyDispatcher.OnPacketReceived_as hping, Option.map_eq_some_iff] at h
      obtain ⟨r, -, he⟩ := h
      rw [Option.map_eq_some_iff] at he
      obtain ⟨_, -, hne⟩ := he
      cases hne
  | 1 =>
      have hchat : ChatTest.func[1]?.join =
          some (.as ChatReq_Callback fun called ↦ .OnChatReq called.1 called.2) := rfl
      rw [EasyDispatcher.OnPacketReceived_as hchat, Option.map_eq_some_iff] at h
      obtain ⟨⟨t, called⟩, hcall, he⟩ := h
      rw [Option.map_eq_some_iff] at he
      obtain ⟨⟨len, b⟩, rfl, hreq⟩ := he
      cases hreq
      obtain ⟨len', message, -, hreport⟩ := callback_eq_some hcall
      rw [Option.bind_eq_bind, Option.bind_eq_some_iff] at hreport
      obtain ⟨stored, hwrite, hsame⟩ := hreport
      cases hsame
      exact (Storage.write_eq_some.mp hwrite).1
  | _ + 2 => cases h

end Frames

/-! ## 3. One request -/

/-- The connection of the session of an entry. -/
def EasyBaseServer.entryConn (s : EasyBaseServer) (mit : Sigma fun _ : ℕ ↦ SessionPtr) :
    Option ConnID :=
  (s.object mit.2).m_pConnection

/-- The connections of the sessions in `m_SessionMap`. -/
def EasyBaseServer.recipients (s : EasyBaseServer) : List ConnID :=
  s.m_SessionMap.entries.filterMap s.entryConn

/-- The message that `a` sends on the connection `c`. -/
def messageFor (c : ConnID) (a : Action) : Option (List UInt8) :=
  match a with
  | .SendMessage connId buffer => if connId = c then some buffer else none
  | _ => none

/-- What the connection `c` is sent for one of the actions of the command thread, if its session is
in `m_SessionMap`. -/
def answersTo (c : ConnID) (a : Action) : List (List UInt8) :=
  match a with
  | .OnPacketReceived connId packet =>
      match EasyDispatcher.OnPacketReceived ChatTest.func packet with
      | some (some (.OnPingReq iVersion)) => if connId = c then [versionFrame iVersion] else []
      | some (some (.OnChatReq iLen message)) => [messageFrame iLen message.data]
      | _ => []
  | _ => []

/-- What it is sent if its session is not there: its own pings are answered all the same. -/
def pingAcks (c : ConnID) (a : Action) : List (List UInt8) :=
  match a with
  | .OnPacketReceived connId packet =>
      match EasyDispatcher.OnPacketReceived ChatTest.func packet with
      | some (some (.OnPingReq iVersion)) => if connId = c then [versionFrame iVersion] else []
      | _ => []
  | _ => []

/-- What the server sends on the connection `c` for one of the actions of the command thread. -/
def EasyBaseServer.repliesTo (s : EasyBaseServer) (c : ConnID) (a : Action) : List (List UInt8) :=
  if c ∈ s.recipients then answersTo c a else pingAcks c a

section Request

variable {conns : List ConnID} {s : EasyBaseServer} {p : SessionPtr} {c : ConnID} {iLen : ℕ}
  {message : List UInt8} {r : SendRequest}

theorem SendPacket_eq (hback : (s.object p).m_pConnection = some c)
    (hfit : PACKET_HEAD + r.iLen ≤ MAX_OUTPUT_BUFFER) :
    s.SendPacket p (some r) = some [.SendMessage c r.frame] := by
  simp only [EasyBaseServer.SendPacket, EasySession.SendData, hback, if_pos hfit, Option.map_some,
    Option.bind_eq_bind, Option.bind_some]

theorem OnPingReq_eq (hback : (s.object p).m_pConnection = some c) (iVersion : ℕ) :
    s.OnPingReq p iVersion = some [.SendMessage c (versionFrame iVersion)] := by
  have hlen : (versionRequest 0 PingReq_lt iVersion).iLen = 4 := length_leBytes
  have hfit : PACKET_HEAD + (versionRequest 0 PingReq_lt iVersion).iLen ≤ MAX_OUTPUT_BUFFER := by
    rw [hlen]
    decide
  rw [EasyBaseServer.OnPingReq, ChatTest.PingAck, sendVersion_eq, Option.bind_eq_bind,
    Option.bind_some, SendPacket_eq hback hfit, versionFrame]

theorem chatAck_eq (hback : (s.object p).m_pConnection = some c) (hlen : iLen < MAX_INPUT_BUFFER)
    (hmessage : iLen ≤ message.length) :
    s.chatAck iLen message p = some [.SendMessage c (messageFrame iLen message)] := by
  have hin : MAX_INPUT_BUFFER = 1024 := rfl
  have hout : MAX_OUTPUT_BUFFER = 65500 := rfl
  have hhead : PACKET_HEAD = 4 := rfl
  have hshort : uint16 iLen = iLen := uint16_of_lt (by omega)
  have hread : uint16 iLen ≤ message.length := by omega
  obtain ⟨r, hsend, hr⟩ := ChatReq_of_le hread (by omega)
  have hack : ChatTest.ChatAck iLen message = some (some r) := hsend
  have hframe := hr.iLen_eq (by omega)
  rw [EasyBaseServer.chatAck, hack, Option.bind_eq_bind, Option.bind_some,
    SendPacket_eq hback (by omega), hr.frame_eq (by omega)]

-- Every session in the map has a connection, so that none is sent to in vain.
theorem OnChatReq_eq (h : Attached conns s) (hlen : iLen < MAX_INPUT_BUFFER)
    (hmessage : iLen ≤ message.length) :
    s.OnChatReq iLen message =
      some (s.recipients.map fun c ↦ .SendMessage c (messageFrame iLen message)) := by
  have hloop : ∀ entries : List (Sigma fun _ : ℕ ↦ SessionPtr),
      (∀ mit ∈ entries, ∃ c, s.entryConn mit = some c) →
      ∃ sent, (entries.mapM fun mit ↦ s.chatAck iLen message mit.2) = some sent ∧
        sent.flatten = (entries.filterMap s.entryConn).map
          fun c ↦ .SendMessage c (messageFrame iLen message) := by
    intro entries hentries
    induction entries with
    | nil => exact ⟨[], rfl, rfl⟩
    | cons mit entries ih =>
        obtain ⟨c, hc⟩ := hentries mit List.mem_cons_self
        obtain ⟨sent, hsent, hflat⟩ := ih fun mit' h' ↦ hentries mit' (List.mem_cons_of_mem _ h')
        refine ⟨[.SendMessage c (messageFrame iLen message)] :: sent, ?_, ?_⟩
        · rw [List.mapM_cons, chatAck_eq hc hlen hmessage, hsent]
          rfl
        · rw [List.filterMap_cons_some hc, List.map_cons, List.flatten_cons, hflat]
          rfl
  obtain ⟨sent, hsent, hflat⟩ := hloop s.m_SessionMap.entries fun mit hmit ↦ by
    obtain ⟨-, c, hc, hclient⟩ := h.mapped mit.1 mit.2 (AList.mem_lookup_iff.mpr hmit)
    obtain ⟨p, hp, hback, -⟩ := h.bound c hc
    cases hclient.symm.trans hp
    exact ⟨c, hback⟩
  rw [EasyBaseServer.OnChatReq, hsent, Option.bind_eq_bind, Option.bind_some, hflat,
    EasyBaseServer.recipients]

theorem Attached.entry (h : Attached conns s) {mit : Sigma fun _ : ℕ ↦ SessionPtr}
    (hmit : mit ∈ s.m_SessionMap.entries) (hc : s.entryConn mit = some c) :
    s.client_ c = some mit.2 ∧ mit.1 = (s.object mit.2).m_iSessionID := by
  obtain ⟨hid, c', hc', hclient⟩ := h.mapped mit.1 mit.2 (AList.mem_lookup_iff.mpr hmit)
  obtain ⟨p, hp, hback, -⟩ := h.bound c' hc'
  cases hclient.symm.trans hp
  cases hc.symm.trans hback
  exact ⟨hclient, hid⟩

-- No connection has two sessions, and no session two ids.
theorem nodup_recipients (h : Attached conns s) : s.recipients.Nodup := by
  have hentries : s.m_SessionMap.entries.Nodup := s.m_SessionMap.nodupKeys.nodup
  apply List.pairwise_filterMap.mpr
  apply hentries.imp_of_mem
  rintro ⟨id, p⟩ ⟨id', p'⟩ hmit hmit' hne c hc c' hc' rfl
  obtain ⟨hclient, hid⟩ := h.entry hmit hc
  obtain ⟨hclient', hid'⟩ := h.entry hmit' hc'
  cases hclient.symm.trans hclient'
  cases hid.trans hid'.symm
  exact hne rfl

theorem filterMap_messageFor (l : List ConnID) (frame : List UInt8) :
    (l.map fun c' ↦ Action.SendMessage c' frame).filterMap (messageFor c) =
      List.replicate (l.count c) frame := by
  induction l with
  | nil => rfl
  | cons c' l ih =>
      by_cases hcc : c' = c
      · have hsome : messageFor c (.SendMessage c' frame) = some frame := if_pos hcc
        rw [List.map_cons, List.filterMap_cons_some hsome, ih, hcc, List.count_cons_self,
          List.replicate_succ]
      · have hnone : messageFor c (.SendMessage c' frame) = none := if_neg hcc
        rw [List.map_cons, List.filterMap_cons_none hnone, ih, List.count_cons_of_ne hcc]

/-- What the command thread may do for a command that is not `COMMAND_SENDDATA`. -/
def Harmless (conns : List ConnID) (a : Action) : Prop :=
  (∃ c, a = .Close c) ∨ ∃ c packet, a = .OnPacketReceived c packet ∧ c ∈ conns

-- One action: a connection whose session is in the map gets what it is to get, once, and one whose
-- session is not there only the answers to its own pings.
theorem handle_spec (h : Attached conns s) {a : Action} (ha : Harmless conns a)
    {calls : List Action} (hcalls : s.handle a = some calls) (c : ConnID) :
    calls.filterMap (messageFor c) = s.repliesTo c a := by
  rcases ha with ⟨c', rfl⟩ | ⟨c', packet, rfl, hc'⟩
  · cases hcalls
    exact (ite_self []).symm
  · obtain ⟨p, hp, hback, -⟩ := h.bound c' hc'
    rw [EasyBaseServer.handle, hp, Option.bind_eq_bind, Option.bind_some,
      Option.bind_eq_bind, Option.bind_eq_some_iff] at hcalls
    obtain ⟨called, hcalled, hrequest⟩ := hcalls
    rw [EasyBaseServer.repliesTo, answersTo, pingAcks, hcalled]
    match called with
    | none =>
        cases hrequest
        exact (ite_self []).symm
    | some (.OnPingReq iVersion) =>
        rw [EasyBaseServer.OnRequest, OnPingReq_eq hback, Option.some.injEq] at hrequest
        subst hrequest
        rw [ite_self]
        by_cases hcc : c' = c
        · simp only [if_pos hcc]
          have hsome : messageFor c (.SendMessage c' (versionFrame iVersion)) =
              some (versionFrame iVersion) := if_pos hcc
          rw [List.filterMap_cons_some hsome, List.filterMap_nil]
        · simp only [if_neg hcc]
          have hnone : messageFor c (.SendMessage c' (versionFrame iVersion)) = none := if_neg hcc
          rw [List.filterMap_cons_none hnone, List.filterMap_nil]
    | some (.OnChatReq iLen message) =>
        have hlen := length_of_OnChatReq hcalled
        have hin : MAX_INPUT_BUFFER = 1024 := rfl
        rw [EasyBaseServer.OnRequest, OnChatReq_eq h hlen (by rw [message.length_data]; omega),
          Option.some.injEq] at hrequest
        subst hrequest
        rw [filterMap_messageFor]
        by_cases hc : c ∈ s.recipients
        · rw [if_pos hc, List.count_eq_one_of_mem (nodup_recipients h) hc]
          rfl
        · rw [if_neg hc, List.count_eq_zero_of_not_mem hc]
          rfl

-- A request for which the function is found and does nothing wrong is answered.
theorem isSome_handle (h : Attached conns s) (hc : c ∈ conns) (packet : EasyPacket) :
    (s.handle (.OnPacketReceived c packet)).isSome ↔
      (EasyDispatcher.OnPacketReceived ChatTest.func packet).isSome := by
  obtain ⟨p, hp, hback, -⟩ := h.bound c hc
  rw [EasyBaseServer.handle, hp, Option.bind_eq_bind, Option.bind_some]
  cases hcalled : EasyDispatcher.OnPacketReceived ChatTest.func packet with
  | none => exact Iff.rfl
  | some called =>
      rw [Option.bind_eq_bind, Option.bind_some]
      refine iff_of_true ?_ rfl
      match called with
      | none => rfl
      | some (.OnPingReq iVersion) =>
          rw [EasyBaseServer.OnRequest, OnPingReq_eq hback]
          rfl
      | some (.OnChatReq iLen message) =>
          have hlen := length_of_OnChatReq hcalled
          rw [EasyBaseServer.OnRequest, OnChatReq_eq h hlen (by
            rw [message.length_data]
            exact Nat.le_of_lt hlen)]
          rfl

end Request

/-! ## 4. One command -/

section Command

variable {conns : List ConnID} {s t : EasyBaseServer} {e : Executed} {c : ConnID}

theorem disconnect_linux (s : EasyBaseServer) (p : SessionPtr) :
    (s.Disconnect .LINUX p).2 = [] := by
  cases hback : (s.object p).m_pConnection with
  | some c => simp only [EasyBaseServer.Disconnect, hback]
  | none =>
      simp only [EasyBaseServer.Disconnect, hback, EasyBaseServer.OnDisconnect, Option.map_none,
        Option.toList_none]

theorem shutdown_linux (s : EasyBaseServer) : (s._OnCommandShutdown .LINUX).actions = [] := by
  have hloop : ∀ (entries : List (Sigma fun _ : ℕ ↦ SessionPtr))
      (u : EasyBaseServer × List Action), u.2 = [] →
      (entries.foldl (fun u entry ↦ ((u.1.Disconnect .LINUX entry.2).1,
        u.2 ++ (u.1.Disconnect .LINUX entry.2).2)) u).2 = [] := by
    intro entries
    induction entries with
    | nil => exact fun u hu ↦ hu
    | cons entry entries ih =>
        intro u hu
        rw [List.foldl_cons]
        apply ih
        show u.2 ++ (u.1.Disconnect .LINUX entry.2).2 = []
        rw [hu, disconnect_linux]
        rfl
  exact hloop s.m_SessionMap.entries ({ s with m_bReadyForShutdown := true }, []) rfl

/-- What is done for a command that is not `COMMAND_SENDDATA`: a connection is closed, or the data
of one brings a packet. -/
inductive Does (s : EasyBaseServer) (command : EasyCommand) : Action → Prop
  | close (c : ConnID) : Does s command (.Close c)
  | packet {c : ConnID} {data : EasyCommandOnData} {p : SessionPtr} {u : OnData.State}
      {packet : EasyPacket} (hdata : command = .OnData c data) (hp : s.client_ c = some p)
      (hu : u ∈ EasySession.OnData (s.object p).toRecvBuffer data.m_pData)
      (hpacket : packet ∈ u.handled) : Does s command (.OnPacketReceived c packet)

theorem Executes.does (h : Executes .LINUX s e t) (hsend : ∀ i r, e.1 ≠ .SendData i r) :
    ∀ a ∈ e.2, Does s e.1 a := by
  obtain ⟨command, actions⟩ := e
  obtain ⟨d, hd, rfl, -⟩ := h
  have hnil : ∀ a ∈ ([] : List Action), Does s command a := fun a ha ↦ absurd ha List.not_mem_nil
  cases command with
  | OnConnect c =>
      simp only [EasyBaseServer._OnCommand] at hd
      split at hd
      · rw [hd]
        exact hnil
      · obtain ⟨memory, rfl⟩ := hd
        obtain ⟨p, pool, created, o, ha⟩ := s.exists_allocates memory
        rw [EasyBaseServer.onConnect_eq ha]
        exact hnil
  | OnDisconnect c =>
      have hd' : d = s._OnCommandOnDisconnect c := hd
      rw [hd']
      cases hp : s.client_ c with
      | none =>
          simp only [EasyBaseServer._OnCommandOnDisconnect, hp]
          exact hnil
      | some p =>
          rw [EasyBaseServer.onDisconnect_eq hp]
          cases (s.object p).m_pConnection with
          | none => exact hnil
          | some c' =>
              intro a ha
              cases List.mem_singleton.mp ha
              exact .close c'
  | OnData c data =>
      simp only [EasyBaseServer._OnCommand] at hd
      split at hd
      · rw [hd]
        exact hnil
      · cases hp : s.client_ c with
        | none =>
            simp only [EasyBaseServer._OnCommandOnData, hp, Part.mem_some_iff] at hd
            rw [hd]
            exact hnil
        | some p =>
            obtain ⟨u, hu, -, rfl⟩ := (EasyBaseServer.mem_onData hp).mp hd
            intro a ha
            obtain ⟨packet, hpacket, rfl⟩ := List.mem_map.mp ha
            exact .packet rfl hp hu hpacket
  | SendData i r => exact absurd rfl (hsend i r)
  | Shutdown =>
      have hd' : d = s._OnCommandShutdown .LINUX := hd
      rw [hd', shutdown_linux]
      exact hnil
  | Disconnect i =>
      have hd' : s._OnCommandDisconnect .LINUX i = some d := hd
      simp only [EasyBaseServer._OnCommandDisconnect] at hd'
      split at hd'
      · cases hd'
        rw [disconnect_linux]
        exact hnil
      · cases hd'

theorem Executes.harmless (h : Executes .LINUX s e t) (hsend : ∀ i r, e.1 ≠ .SendData i r)
    (hdata : ∀ c data, e.1 = .OnData c data → s.client_ c = none ∨ c ∈ conns) :
    ∀ a ∈ e.2, Harmless conns a := by
  intro a ha
  cases h.does hsend a ha with
  | close c => exact .inl ⟨c, rfl⟩
  | @packet c data p u packet hcommand hp _ _ =>
      have hsome : s.client_ c ≠ none := by
        rw [hp]
        exact Option.some_ne_none p
      exact .inr ⟨c, packet, rfl, (hdata c data hcommand).resolve_left hsome⟩

/-- What the connection is sent by some calls. -/
def sentTo (c : ConnID) (calls : List Action) : List (List UInt8) :=
  calls.filterMap (messageFor c)

theorem handleAll_cons {a : Action} {actions calls : List Action} :
    s.handleAll (a :: actions) = some calls ↔ ∃ first rest, s.handle a = some first ∧
      s.handleAll actions = some rest ∧ calls = first ++ rest := by
  simp only [EasyBaseServer.handleAll, List.mapM_cons, Option.bind_eq_bind,
    Option.bind_eq_some_iff, Option.pure_def, Option.some.injEq]
  constructor
  · rintro ⟨all, ⟨first, hfirst, rest, hrest, rfl⟩, rfl⟩
    exact ⟨first, rest.flatten, hfirst, ⟨rest, hrest, rfl⟩, rfl⟩
  · rintro ⟨first, _, hfirst, ⟨rest, hrest, rfl⟩, rfl⟩
    exact ⟨first :: rest, ⟨first, hfirst, rest, hrest, rfl⟩, rfl⟩

-- One command: what it sends to a connection is what its packets call for.
theorem sentTo_handleAll (h : Attached conns s) {actions calls : List Action}
    (hactions : ∀ a ∈ actions, Harmless conns a) (hcalls : s.handleAll actions = some calls)
    (c : ConnID) : sentTo c calls = actions.flatMap (s.repliesTo c) := by
  induction actions generalizing calls with
  | nil =>
      cases hcalls
      rfl
  | cons a actions ih =>
      obtain ⟨first, rest, hfirst, hrest, rfl⟩ := handleAll_cons.mp hcalls
      rw [List.forall_mem_cons] at hactions
      have hrest' : sentTo c rest = _ := ih hactions.2 hrest
      rw [sentTo] at hrest' ⊢
      rw [List.filterMap_append, handle_spec h hactions.1 hfirst c, hrest', List.flatMap_cons]

/-- The function for the packet is found, and writes inside its buffers. -/
def Answerable (a : Action) : Prop :=
  ∀ c packet, a = .OnPacketReceived c packet →
    (EasyDispatcher.OnPacketReceived ChatTest.func packet).isSome

theorem isSome_handleAll (h : Attached conns s) {actions : List Action}
    (hactions : ∀ a ∈ actions, Harmless conns a) :
    (∃ calls, s.handleAll actions = some calls) ↔ ∀ a ∈ actions, Answerable a := by
  induction actions with
  | nil => exact iff_of_true ⟨[], rfl⟩ fun a ha ↦ absurd ha List.not_mem_nil
  | cons a actions ih =>
      rw [List.forall_mem_cons] at hactions ⊢
      have hfirst : (∃ first, s.handle a = some first) ↔ Answerable a := by
        rcases hactions.1 with ⟨c, rfl⟩ | ⟨c, packet, rfl, hc⟩
        · exact iff_of_true ⟨_, rfl⟩ nofun
        · rw [← Option.isSome_iff_exists, isSome_handle h hc]
          constructor
          · intro hsome c' packet' he
            cases he
            exact hsome
          · exact fun hans ↦ hans c packet rfl
      rw [← ih hactions.2, ← hfirst]
      constructor
      · rintro ⟨calls, hcalls⟩
        obtain ⟨first, rest, hf, hr, -⟩ := handleAll_cons.mp hcalls
        exact ⟨⟨first, hf⟩, rest, hr⟩
      · rintro ⟨⟨first, hf⟩, rest, hr⟩
        exact ⟨first ++ rest, handleAll_cons.mpr ⟨first, rest, hf, hr, rfl⟩⟩

end Command

/-! ## 5. Runs -/

/-- The connections with a session are those whose end has not been executed. -/
def Kept (ls : List ChatExecuted) (s : EasyBaseServer) : Prop :=
  ∃ conns, Attached conns s ∧ ∀ c, s.client_ c ≠ none →
    (∃ l ∈ ls, l.1.1 = .OnConnect c) ∧ (c ∈ conns ∨ ∃ l ∈ ls, l.1.1 = .OnDisconnect c)

section Run

variable {ls before during : List ChatExecuted} {s t : EasyBaseServer} {l : ChatExecuted}
  {conns : List ConnID}

theorem kept_initialized (iMaxSession : ℕ) (memory : SessionPtr → EasySession)
    (array : ℕ → SessionPtr) : Kept [] (.initialized iMaxSession memory array) :=
  ⟨[], attached_initialized iMaxSession memory array,
    fun c hc ↦ absurd (client_initialized iMaxSession memory array c) hc⟩

/-- What the announced commands need of the connections with a session. -/
structure Fresh (conns : List ConnID) (s : EasyBaseServer) (command : EasyCommand) : Prop where
  connect : ∀ c, command = .OnConnect c → c ∉ conns
  disconnect : ∀ c, command = .OnDisconnect c → s.client_ c = none ∨ c ∈ conns
  data : ∀ c data, command = .OnData c data → s.client_ c = none ∨ c ∈ conns
  send : ∀ i r, command ≠ .SendData i r

theorem Announced.fresh (h : Announced ls l) (hs : Attached conns s)
    (hclient : ∀ c, s.client_ c ≠ none →
      (∃ l ∈ ls, l.1.1 = .OnConnect c) ∧ (c ∈ conns ∨ ∃ l ∈ ls, l.1.1 = .OnDisconnect c)) :
    Fresh conns s l.1.1 := by
  have hold : ∀ c, (∀ l' ∈ ls, l'.1.1 ≠ .OnDisconnect c) → s.client_ c = none ∨ c ∈ conns := by
    intro c hc
    by_cases hnone : s.client_ c = none
    · exact .inl hnone
    · refine .inr ((hclient c hnone).2.resolve_right ?_)
      rintro ⟨l', hl', he⟩
      exact hc l' hl' he
  obtain ⟨⟨command, actions⟩, calls⟩ := l
  refine ⟨?_, ?_, ?_, ?_⟩
  · rintro c rfl hc
    obtain ⟨p, hp, -⟩ := hs.bound c hc
    obtain ⟨l', hl', he⟩ := (hclient c (by rw [hp]; exact Option.some_ne_none _)).1
    exact h l' hl' he
  · rintro c rfl
    exact hold c h
  · rintro c data rfl
    exact hold c h
  · rintro i r rfl
    exact h

theorem Kept.step (h : Kept ls s) (hl : Announced ls l) (hst : ChatExecutes s l t) :
    Kept (ls ++ [l]) t := by
  obtain ⟨conns, hs, hclient⟩ := h
  have hfresh := hl.fresh hs hclient
  have heffect := hst.1.sessionEffect
  refine ⟨_, hs.command heffect hfresh.connect hfresh.disconnect, fun c hc ↦ ?_⟩
  rw [mem_attachedAfter hs.nodup]
  have hmem : ∀ command, (∃ l' ∈ ls ++ [l], l'.1.1 = command) ↔
      (∃ l' ∈ ls, l'.1.1 = command) ∨ l.1.1 = command := by
    simp [or_and_right, exists_or]
  rw [hmem, hmem]
  rcases heffect.client_iff.mp hc with hold | ⟨hconnect, hflag⟩
  · obtain ⟨hseen, hkept⟩ := hclient c hold
    by_cases hend : l.1.1 = .OnDisconnect c
    · exact ⟨.inl hseen, .inr (.inr hend)⟩
    · exact ⟨.inl hseen, hkept.imp (fun hc ↦ .inl ⟨hc, hend⟩) .inl⟩
  · exact ⟨.inr hconnect, .inl (.inr ⟨hconnect, hflag⟩)⟩

theorem kept_of_path (hs : Kept before s) (h : Path ChatExecutes s during t)
    (hann : Each Announced (before ++ during)) : Kept (before ++ during) t := by
  induction h with
  | nil =>
      rw [List.append_nil]
      exact hs
  | snoc _ hst ih =>
      rw [← List.append_assoc] at hann ⊢
      rw [each_snoc] at hann
      exact (ih hann.1).step hann.2 hst

-- What the connections are sent, command by command: `replies` is what it comes to at every step.
theorem sentTo_of_path {c : ConnID} {replies : Action → List (List UInt8)} (hs : Kept before s)
    (h : Path ChatExecutes s during t) (hann : Each Announced (before ++ during))
    (hc : AllSteps ChatExecutes s (fun u _ ↦ u.repliesTo c = replies) during) :
    sentTo c (during.flatMap Prod.snd) =
      (during.flatMap fun l ↦ l.1.2).flatMap replies := by
  induction h with
  | nil => rfl
  | @snoc ls u t l hpath hst ih =>
      rw [← List.append_assoc, each_snoc] at hann
      have hkept := kept_of_path hs hpath hann.1
      obtain ⟨conns, hu, hclient⟩ := hkept
      have hfresh := hann.2.fresh hu hclient
      have hsame : u.repliesTo c = replies := hc ls l u (List.prefix_refl _) hpath
      have hone := sentTo_handleAll hu (hst.1.harmless hfresh.send hfresh.data) hst.2 c
      have hrest := ih hann.1 fun before' l' u' hpre hu' ↦
        hc before' l' u' (hpre.trans (List.prefix_append ls [l])) hu'
      rw [sentTo] at hone hrest ⊢
      rw [List.flatMap_append, List.flatMap_append, List.flatMap_append, List.filterMap_append,
        hrest, List.flatMap_singleton, List.flatMap_singleton, hone, hsame]

theorem repliesTo_of_mem {c : ConnID}
    (hc : AllSteps ChatExecutes s (fun u _ ↦ c ∈ u.recipients) during) :
    AllSteps ChatExecutes s (fun u _ ↦ u.repliesTo c = answersTo c) during :=
  fun before l t hpre ht ↦ funext fun _ ↦ if_pos (hc before l t hpre ht)

theorem repliesTo_of_notMem {c : ConnID}
    (hc : AllSteps ChatExecutes s (fun u _ ↦ c ∉ u.recipients) during) :
    AllSteps ChatExecutes s (fun u _ ↦ u.repliesTo c = pingAcks c) during :=
  fun before l t hpre ht ↦ funext fun _ ↦ if_neg (hc before l t hpre ht)

end Run

/-! ## 6. Two connections -/

section Two

theorem mem_recipients {s : EasyBaseServer} {c : ConnID} {id : ℕ} {p : SessionPtr}
    (hp : s.m_SessionMap.lookup id = some p) (hc : (s.object p).m_pConnection = some c) :
    c ∈ s.recipients :=
  List.mem_filterMap.mpr ⟨⟨id, p⟩, AList.mem_lookup_iff.mp hp, hc⟩

/-- The connections 7 and 8, on a server for two sessions. -/
def twoConnected : EasyBaseServer :=
  ((EasyBaseServer.aliased 2 (fun _ ↦ zeroSession) (fun _ ↦ 0) 1).taken 0 [] 1
    { zeroSession.construct with m_iSessionID := 1 } 7).taken 1 [] 2 zeroSession.construct 8

def twoConnects : List ChatExecuted := [((.OnConnect 7, []), []), ((.OnConnect 8, []), [])]

theorem twoConnected_path :
    Path ChatExecutes (.initialized 2 (fun _ ↦ zeroSession) fun _ ↦ 0) twoConnects
      twoConnected := by
  rw [EasyBaseServer.initialized_succ]
  generalize hs : EasyBaseServer.aliased (1 + 1) (fun _ ↦ zeroSession) (fun _ ↦ 0) 1 = s
  have hobject : s.object 0 = { zeroSession.construct with m_iSessionID := 1 } := by
    rw [← hs]
    simp only [EasyBaseServer.aliased, Function.update_self]
  have ha : Allocates s zeroSession 0 [] s.created (s.object 0) := .pooled (by rw [← hs]; rfl)
  have hfirst : NetworkStep [] s (.OnConnect 7, []) _ := .connect List.not_mem_nil ha
  have ha' : Allocates (s.taken 0 [] s.created (s.object 0) 7) zeroSession (s.created) []
      (s.created + 1) zeroSession.construct := .new rfl
  have hsecond : NetworkStep [7] (s.taken 0 [] s.created (s.object 0) 7) (.OnConnect 8, []) _ :=
    .connect (by decide) ha'
  have hcreated : s.created = 1 := by
    rw [← hs]
    rfl
  have hrunning : s.m_bReadyForShutdown = false := by
    rw [← hs]
    rfl
  have hpath := (Path.nil.snoc (R := ChatExecutes) (l := ((.OnConnect 7, []), []))
    ⟨hfirst.executes .LINUX hrunning, rfl⟩).snoc (l := ((.OnConnect 8, []), []))
    ⟨hsecond.executes .LINUX hrunning, rfl⟩
  rw [hobject, hcreated] at hpath
  rw [twoConnected, hs]
  exact hpath

theorem twoConnected_recipients :
    7 ∈ twoConnected.recipients ∧ 8 ∈ twoConnected.recipients := by
  constructor
  · have hp : twoConnected.m_SessionMap.lookup 1 = some 0 := rfl
    exact mem_recipients hp rfl
  · have hp : twoConnected.m_SessionMap.lookup 0 = some 1 := rfl
    exact mem_recipients hp rfl

/-- The message `hi`. -/
def hi : SendRequest := ⟨1, messageData 2 [104, 105], ChatReq_lt, by decide⟩

def sayHi : EasyCommandOnData := ⟨hi.frame, by decide⟩

theorem hi_dispatch : ∃ message : Storage UInt8 MAX_INPUT_BUFFER,
    EasyDispatcher.OnPacketReceived ChatTest.func hi.packet =
      some (some (.OnChatReq 2 message)) ∧ messageFrame 2 message.data = hi.frame := by
  have hcarries : Carries hi 2 [104, 105] := ⟨rfl, rfl⟩
  obtain ⟨message, hmessage, hcall⟩ :=
    (hcarries.dispatch (by decide) (by decide) (by decide)).1 (by decide)
  refine ⟨message, hcall, ?_⟩
  rw [hmessage]
  rfl

theorem announced_talk (calls : List Action) :
    Each Announced
      (twoConnects ++ [((.OnData 7 sayHi, [.OnPacketReceived 7 hi.packet]), calls)]) := by
  show Each Announced (([] ++ [_]) ++ [_] ++ [_])
  simp only [each_snoc, each_nil, true_and]
  simp [Announced]

-- A packet that arrives at a session with nothing buffered.
theorem packet_talk {before : List ChatExecuted} {s : EasyBaseServer} {c : ConnID} {p : SessionPtr}
    {r : SendRequest} {data : EasyCommandOnData} (hkept : Kept before s)
    (hopen : ∀ l ∈ before, l.1.1 ≠ .OnDisconnect c) (hs : s.m_bReadyForShutdown = false)
    (hp : s.client_ c = some p) (hback : (s.object p).m_pConnection = some c)
    (hempty : (s.object p).toRecvBuffer.m_iRecvBufLen = 0)
    (hfits : PACKET_HEAD + r.iLen ≤ MAX_INPUT_BUFFER) (hdata : data.m_pData = r.frame)
    (hcalled : (EasyDispatcher.OnPacketReceived ChatTest.func r.packet).isSome) :
    ∃ t calls, ChatExecutes s ((.OnData c data, [.OnPacketReceived c r.packet]), calls) t := by
  obtain ⟨u, hu, hpc, hhandled⟩ := EasyBaseClient.exists_handled hempty hfits
  rw [← hdata] at hu
  obtain ⟨t, ht, -⟩ := data_run .LINUX hs hp hback data hu hpc
  rw [hhandled] at ht
  obtain ⟨conns, hattached, hclient⟩ := hkept
  have hc : c ∈ conns := by
    refine (hclient c (by rw [hp]; exact Option.some_ne_none p)).2.resolve_right ?_
    rintro ⟨l, hl, he⟩
    exact hopen l hl he
  have hanswerable : ∀ a ∈ [Action.OnPacketReceived c r.packet], Answerable a := by
    rw [List.forall_mem_singleton]
    rintro c' packet he
    cases he
    exact hcalled
  obtain ⟨calls, hcalls⟩ := (isSome_handleAll hattached (List.forall_mem_singleton.mpr
    (.inr ⟨c, r.packet, rfl, hc⟩))).mpr hanswerable
  exact ⟨t, calls, ht, hcalls⟩

-- The connection 7 says hi.
theorem twoConnected_talk :
    ∃ t calls, ChatExecutes twoConnected
      ((.OnData 7 sayHi, [.OnPacketReceived 7 hi.packet]), calls) t := by
  have hkept := kept_of_path (kept_initialized 2 _ _) twoConnected_path (announced_talk []).left
  have hclient : twoConnected.client_ 7 = some 0 := rfl
  obtain ⟨message, hcall, -⟩ := hi_dispatch
  exact packet_talk hkept (by decide) rfl hclient rfl rfl (by decide) rfl (by rw [hcall]; rfl)

/-- The connection 9 comes to them: its session has the id of the one of 8, and is not put in the
map. -/
def threeConnected : EasyBaseServer := twoConnected.taken 2 [] 3 zeroSession.construct 9

def threeConnects : List ChatExecuted := twoConnects ++ [((.OnConnect 9, []), [])]

theorem threeConnected_path :
    Path ChatExecutes (.initialized 2 (fun _ ↦ zeroSession) fun _ ↦ 0) threeConnects
      threeConnected := by
  have ha : Allocates twoConnected zeroSession twoConnected.created [] (twoConnected.created + 1)
      zeroSession.construct := .new rfl
  have hthird : NetworkStep [7, 8] twoConnected (.OnConnect 9, []) _ := .connect (by decide) ha
  exact twoConnected_path.snoc ⟨hthird.executes .LINUX rfl, rfl⟩

theorem notMem_threeConnected : 9 ∉ threeConnected.recipients := by
  have hrecipients : threeConnected.recipients = [8, 7] := rfl
  rw [hrecipients]
  decide

/-- A ping of version 1. -/
def pingOne : SendRequest := versionRequest 0 PingReq_lt 1

def sayPing : EasyCommandOnData := ⟨pingOne.frame, by decide⟩

theorem announced_ping (calls : List Action) :
    Each Announced
      (threeConnects ++ [((.OnData 9 sayPing, [.OnPacketReceived 9 pingOne.packet]), calls)]) := by
  show Each Announced ((([] ++ [_]) ++ [_] ++ [_]) ++ [_])
  simp only [each_snoc, each_nil, true_and]
  simp [Announced]

-- The connection 9 sends a ping.
theorem threeConnected_ping :
    ∃ t calls, ChatExecutes threeConnected
      ((.OnData 9 sayPing, [.OnPacketReceived 9 pingOne.packet]), calls) t := by
  have hkept := kept_of_path (kept_initialized 2 _ _) threeConnected_path (announced_ping []).left
  have hclient : threeConnected.client_ 9 = some 2 := rfl
  have hcalled : EasyDispatcher.OnPacketReceived ChatTest.func pingOne.packet =
      some (some (.OnPingReq 1)) := ClientCall.dispatch_version (by decide)
  exact packet_talk hkept (by decide) rfl hclient rfl rfl (by decide) rfl (by rw [hcalled]; rfl)

end Two

/-! ## 7. What the connections are sent -/

/-- The frame of a message, as opposed to that of a version. -/
def IsMessage (frame : List UInt8) : Prop := uint16At frame 0 = 1

instance (frame : List UInt8) : Decidable (IsMessage frame) := inferInstanceAs (Decidable (_ = _))

/-- What is passed on to everybody for one of the actions of the command thread. -/
def messagesOf (a : Action) : List (List UInt8) :=
  match a with
  | .OnPacketReceived _ packet =>
      match EasyDispatcher.OnPacketReceived ChatTest.func packet with
      | some (some (.OnChatReq iLen message)) => [messageFrame iLen message.data]
      | _ => []
  | _ => []

theorem isMessage_messageFrame (iLen : ℕ) (message : List UInt8) :
    IsMessage (messageFrame iLen message) := by
  rw [IsMessage, messageFrame, List.append_assoc]
  exact uint16At_uint16Bytes (by decide) _

theorem not_isMessage_versionFrame (iVersion : ℕ) : ¬ IsMessage (versionFrame iVersion) := by
  have htype : uint16At (versionFrame iVersion) 0 = 0 := by
    rw [versionFrame, SendRequest.frame, List.append_assoc]
    exact uint16At_uint16Bytes PingReq_lt _
  rw [IsMessage, htype]
  decide

theorem filter_answersTo (c : ConnID) (a : Action) :
    (answersTo c a).filter (IsMessage ·) = messagesOf a := by
  cases a with
  | OnPacketReceived connId packet =>
      cases hcalled : EasyDispatcher.OnPacketReceived ChatTest.func packet with
      | none => simp only [answersTo, messagesOf, hcalled, List.filter_nil]
      | some called =>
          match called with
          | none => simp only [answersTo, messagesOf, hcalled, List.filter_nil]
          | some (.OnPingReq iVersion) =>
              have hnot := not_isMessage_versionFrame iVersion
              simp only [answersTo, messagesOf, hcalled]
              by_cases hcc : connId = c
              · rw [if_pos hcc, List.filter_cons_of_neg (by simpa using hnot), List.filter_nil]
              · rw [if_neg hcc, List.filter_nil]
          | some (.OnChatReq iLen message) =>
              have hmessage := isMessage_messageFrame iLen message.data
              simp only [answersTo, messagesOf, hcalled]
              rw [List.filter_cons_of_pos (by simpa using hmessage), List.filter_nil]
  | SendMessage => rfl
  | AsyncSend => rfl
  | AsyncDisconnect => rfl
  | Close => rfl

section Theorems

variable (iMaxSession : ℕ) (memory : SessionPtr → EasySession) (array : ℕ → SessionPtr)
  (before during : List ChatExecuted) (s t : EasyBaseServer)

/-- **Answers.**  From `Initialize` on, while the session of a connection is in `m_SessionMap`, the
connection is sent just its own pings back and the messages of all connections, each once, in the
order in which the packets are handled; while its session is not in it, just its own pings. -/
theorem answers_in_order
    (hbefore : Path ChatExecutes (.initialized iMaxSession memory array) before s)
    (hduring : Path ChatExecutes s during t) (hann : Each Announced (before ++ during))
    (c : ConnID) :
    (AllSteps ChatExecutes s (fun u _ ↦ c ∈ u.recipients) during →
      sentTo c (during.flatMap Prod.snd) =
        (during.flatMap fun l ↦ l.1.2).flatMap (answersTo c)) ∧
    (AllSteps ChatExecutes s (fun u _ ↦ c ∉ u.recipients) during →
      sentTo c (during.flatMap Prod.snd) =
        (during.flatMap fun l ↦ l.1.2).flatMap (pingAcks c)) := by
  have hkept : Kept before s := kept_of_path (kept_initialized iMaxSession memory array) hbefore
    hann.left
  constructor
  · intro hc
    exact sentTo_of_path hkept hduring hann (repliesTo_of_mem hc)
  · intro hc
    exact sentTo_of_path hkept hduring hann (repliesTo_of_notMem hc)

theorem allSteps_singleton {R : EasyBaseServer → ChatExecuted → EasyBaseServer → Prop}
    {P : EasyBaseServer → ChatExecuted → Prop} {s : EasyBaseServer} {l : ChatExecuted} (h : P s l) :
    AllSteps R s P [l] := by
  show AllSteps R s P ([] ++ [l])
  refine AllSteps.snoc allSteps_nil fun t ht ↦ ?_
  rw [← path_nil.mp ht]
  exact h

/-- The message of the connection 7 reaches the connection 8; the connection 9, whose session is not
in the map, gets its ping back. -/
theorem answers_in_order_hi :
    (∃ calls, sentTo 8 ([((EasyCommand.OnData 7 sayHi, [Action.OnPacketReceived 7 hi.packet]),
        calls)].flatMap Prod.snd) =
      [Action.OnPacketReceived 7 hi.packet].flatMap (answersTo 8)) ∧
    ∃ calls, sentTo 9 ([((EasyCommand.OnData 9 sayPing,
        [Action.OnPacketReceived 9 pingOne.packet]), calls)].flatMap Prod.snd) =
      [Action.OnPacketReceived 9 pingOne.packet].flatMap (pingAcks 9) := by
  constructor
  · obtain ⟨t, calls, htalk⟩ := twoConnected_talk
    exact ⟨calls, (answers_in_order 2 (fun _ ↦ zeroSession) (fun _ ↦ 0) twoConnects
      [((.OnData 7 sayHi, [.OnPacketReceived 7 hi.packet]), calls)] twoConnected t
      twoConnected_path (Path.nil.snoc htalk) (announced_talk calls) 8).1
      (allSteps_singleton twoConnected_recipients.2)⟩
  · obtain ⟨t, calls, hping⟩ := threeConnected_ping
    exact ⟨calls, (answers_in_order 2 (fun _ ↦ zeroSession) (fun _ ↦ 0) threeConnects
      [((.OnData 9 sayPing, [.OnPacketReceived 9 pingOne.packet]), calls)] threeConnected t
      threeConnected_path (Path.nil.snoc hping) (announced_ping calls) 9).2
      (allSteps_singleton notMem_threeConnected)⟩

/-- **Everybody sees the same conversation.**  All connections whose sessions are in `m_SessionMap`
all along are sent the same messages in the same order, which is the order in which the server
handles them, whoever they come from. -/
theorem broadcast_agreement
    (hbefore : Path ChatExecutes (.initialized iMaxSession memory array) before s)
    (hduring : Path ChatExecutes s during t) (hann : Each Announced (before ++ during)) (c : ConnID)
    (hc : AllSteps ChatExecutes s (fun u _ ↦ c ∈ u.recipients) during) :
    (sentTo c (during.flatMap Prod.snd)).filter (IsMessage ·) =
      (during.flatMap fun l ↦ l.1.2).flatMap messagesOf := by
  have hkept : Kept before s :=
    kept_of_path (kept_initialized iMaxSession memory array) hbefore hann.left
  rw [sentTo_of_path hkept hduring hann (repliesTo_of_mem hc), List.filter_flatMap]
  congr 1
  funext a
  exact filter_answersTo c a

/-- The two connections are sent the same. -/
theorem broadcast_agreement_hi :
    ∃ calls, ∀ c ∈ [7, 8],
      (sentTo c ([((EasyCommand.OnData 7 sayHi, [Action.OnPacketReceived 7 hi.packet]),
          calls)].flatMap Prod.snd)).filter (IsMessage ·) =
        [Action.OnPacketReceived 7 hi.packet].flatMap messagesOf := by
  obtain ⟨t, calls, htalk⟩ := twoConnected_talk
  refine ⟨calls, fun c hc ↦ ?_⟩
  have hmem : c ∈ twoConnected.recipients := by
    rcases List.mem_cons.mp hc with rfl | hc
    · exact twoConnected_recipients.1
    · cases List.mem_singleton.mp hc
      exact twoConnected_recipients.2
  exact broadcast_agreement 2 (fun _ ↦ zeroSession) (fun _ ↦ 0) twoConnects
    [((.OnData 7 sayHi, [.OnPacketReceived 7 hi.packet]), calls)] twoConnected t
    twoConnected_path (Path.nil.snoc htalk) (announced_talk calls) c (allSteps_singleton hmem)

/-- **The chat server adds one way to go wrong.**  Wherever it comes to, it executes a command if
the base server does and every packet is one for which the table has a function that writes inside
its buffers; every session that it sends to has a connection then. -/
theorem chat_executes_iff
    (hbefore : Path ChatExecutes (.initialized iMaxSession memory array) before s) (e : Executed)
    (hann : Each Announced (before ++ [(e, [])])) :
    (∃ calls, ChatExecutes s (e, calls) t) ↔
      Executes .LINUX s e t ∧ ∀ a ∈ e.2, Answerable a := by
  have hlast := each_snoc.mp hann
  obtain ⟨conns, hs, hclient⟩ :=
    kept_of_path (kept_initialized iMaxSession memory array) hbefore hlast.1
  have hfresh := hlast.2.fresh hs hclient
  constructor
  · rintro ⟨calls, hex, hcalls⟩
    exact ⟨hex, (isSome_handleAll hs (hex.harmless hfresh.send hfresh.data)).mp ⟨calls, hcalls⟩⟩
  · rintro ⟨hex, hans⟩
    obtain ⟨calls, hcalls⟩ :=
      (isSome_handleAll hs (hex.harmless hfresh.send hfresh.data)).mpr hans
    exact ⟨calls, hex, hcalls⟩

/-- The packet of the connection 7. -/
theorem chat_executes_hi :
    ∃ t, (∃ calls, ChatExecutes twoConnected
        ((.OnData 7 sayHi, [.OnPacketReceived 7 hi.packet]), calls) t) ∧
      ∀ a ∈ [Action.OnPacketReceived 7 hi.packet], Answerable a := by
  obtain ⟨t, calls, htalk⟩ := twoConnected_talk
  have hiff := chat_executes_iff 2 (fun _ ↦ zeroSession) (fun _ ↦ 0) twoConnects twoConnected t
    twoConnected_path (.OnData 7 sayHi, [.OnPacketReceived 7 hi.packet]) (announced_talk [])
  exact ⟨t, ⟨calls, htalk⟩, (hiff.mp ⟨calls, htalk⟩).2⟩

end Theorems

end Fantuan
