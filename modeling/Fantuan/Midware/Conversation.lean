import Fantuan.Lib.Codec
import Fantuan.Midware.Broadcast
import Fantuan.SimpleNetwork.ClientThreads

/-!
# What the user of a chat client gets to see

The chat server answers what it is asked, the network carries the bytes of a connection in order,
and the threads of the client take them in.
-/

open Lib StateTransition

namespace Fantuan

/-! ## 1. What was read -/

section Read

variable {s t : InputStream} {sizeof : ℕ}

theorem Serialize_some {value : List UInt8} (h : s.Serialize sizeof = some (t, some value)) :
    t = { s with m_iDataIndex := uint16 (s.m_iDataIndex + sizeof) } ∧
      s.m_iDataIndex + sizeof ≤ s.m_DataBuffer.length ∧
      value = (s.m_DataBuffer.drop s.m_iDataIndex).take sizeof := by
  unfold InputStream.Serialize InputStream.get at h
  split at h
  · split at h
    · rename_i hle
      cases h
      exact ⟨rfl, hle, rfl⟩
    · cases h
  · cases h

theorem SerializeArray_some {iCount : ℕ} {array : List UInt8}
    (h : s.SerializeArray sizeof iCount = some (t, some array)) :
    s.m_iDataIndex + uint16 (iCount * sizeof) ≤ s.m_DataBuffer.length := by
  unfold InputStream.SerializeArray InputStream.get at h
  split at h
  · split at h
    · rename_i hle
      exact hle
    · cases h
  · cases h

-- The bytes of a message come behind the four of its length.
theorem readMessage_le {n iLength len : ℕ} {pBuf : List UInt8} {message : Storage UInt8 n}
    (h : readMessage n (.new iLength pBuf) = some (t, some (len, message))) :
    4 + uint16 len ≤ pBuf.length := by
  unfold readMessage at h
  rw [Option.bind_eq_bind, Option.bind_eq_some_iff] at h
  obtain ⟨⟨stream, value⟩, hread, h⟩ := h
  cases value with
  | none => cases h
  | some value =>
      obtain ⟨rfl, -, -⟩ := Serialize_some hread
      dsimp only at h
      rw [Option.bind_eq_some_iff] at h
      obtain ⟨⟨stream', array⟩, harray, h⟩ := h
      cases array with
      | none => cases h
      | some array =>
          dsimp only at h
          rw [Option.bind_eq_bind, Option.bind_eq_some_iff] at h
          obtain ⟨stored, -, he⟩ := h
          cases he
          have hle := SerializeArray_some harray
          rwa [uint16_mul_one] at hle

-- A message of a packet that was put together in `m_RecvBuf` fits the client's.
theorem message_le {packet : EasyPacket} {iLen : ℕ} {m : Storage UInt8 MAX_INPUT_BUFFER}
    (hsmall : packet.m_Buf.length ≤ MAX_INPUT_BUFFER - PACKET_HEAD)
    (h : EasyDispatcher.OnPacketReceived ChatTest.func packet = some (some (.OnChatReq iLen m))) :
    iLen ≤ MAX_MESSAGE := by
  have hlen := length_of_OnChatReq h
  obtain ⟨iTypeId, len, buf⟩ := packet
  match iTypeId with
  | 0 =>
      have hping : ChatTest.func[0]?.join = some (.as PingReq_Callback .OnPingReq) := rfl
      rw [EasyDispatcher.OnPacketReceived_as hping, Option.map_eq_some_iff] at h
      obtain ⟨r, -, he⟩ := h
      rw [Option.map_eq_some_iff] at he
      obtain ⟨_, -, hne⟩ := he
      cases hne
  | 1 =>
      have hchat : ChatTest.func[1]?.join =
          some (.as ChatReq_Callback fun called ↦ .OnChatReq called.1 called.2) := rfl
      rw [EasyDispatcher.OnPacketReceived_as hchat, Option.map_eq_some_iff] at h
      obtain ⟨⟨t, called⟩, hcall, he⟩ := h
      rw [Option.map_eq_some_iff] at he
      obtain ⟨⟨len', b⟩, rfl, hreq⟩ := he
      cases hreq
      obtain ⟨len', message, hread, hreport⟩ := callback_eq_some hcall
      rw [Option.bind_eq_bind, Option.bind_eq_some_iff] at hreport
      obtain ⟨stored, -, hsame⟩ := hreport
      cases hsame
      have hle : 4 + uint16 len' ≤ buf.length := readMessage_le hread
      have hshort : uint16 len' = len' := uint16_of_lt (Nat.lt_trans hlen (by decide))
      have hbuf : buf.length ≤ MAX_INPUT_BUFFER - PACKET_HEAD := hsmall
      rw [hshort] at hle
      rw [MAX_MESSAGE]
      omega
  | _ + 2 => cases h

end Read

/-! ## 2. Packets out of `m_RecvBuf` -/

/-- The data of the packet has room in `m_RecvBuf` behind a header. -/
def EasyPacket.Small (packet : EasyPacket) : Prop :=
  packet.m_Buf.length ≤ MAX_INPUT_BUFFER - PACKET_HEAD

section Small

variable {ls : List ChatExecuted} {s t : EasyBaseServer} {c : ConnID} {packet : EasyPacket}

theorem small_ofBytes (m_RecvBuf : Storage UInt8 MAX_INPUT_BUFFER) :
    (EasyPacket.ofBytes m_RecvBuf.data).Small := by
  unfold EasyPacket.Small EasyPacket.ofBytes
  calc ((m_RecvBuf.data.drop PACKET_HEAD).take _).length
      ≤ (m_RecvBuf.data.drop PACKET_HEAD).length := List.length_take_le' _ _
    _ = MAX_INPUT_BUFFER - PACKET_HEAD := by rw [List.length_drop, m_RecvBuf.length_data]

-- A turn of the inner loop handles what lies at the front of `m_RecvBuf`.
theorem small_step {u v : OnData.State} (h : ∀ packet ∈ u.handled, packet.Small)
    (hst : OnData.step EasySession._HandlePacket u = some v) :
    ∀ packet ∈ v.handled, packet.Small := by
  have hsnoc : ∀ packet ∈ u.handled ++ [.ofBytes u.buf.m_RecvBuf.data], packet.Small := by
    rw [List.forall_mem_append, List.forall_mem_singleton]
    exact ⟨h, small_ofBytes u.buf.m_RecvBuf⟩
  unfold OnData.step at hst
  split at hst
  · split at hst <;> cases hst <;> exact h
  · split at hst
    · dsimp only at hst
      split at hst
      · cases hst
        exact hsnoc
      · split at hst <;> cases hst <;> exact hsnoc
    · cases hst
      exact h
  · cases hst
  · cases hst

theorem small_onData {b : RecvBuffer} {pData : List UInt8} {u : OnData.State}
    (h : u ∈ EasySession.OnData b pData) : ∀ packet ∈ u.handled, packet.Small := by
  apply Reaches.invariant (mem_eval.mp h).1 (I := fun u ↦ ∀ packet ∈ u.handled, packet.Small)
  · exact fun packet hpacket ↦ absurd hpacket List.not_mem_nil
  · exact fun u v hu hst ↦ small_step hu hst

theorem small_of_path {before during : List ChatExecuted} (h : Path ChatExecutes s during t)
    (hann : Each Announced (before ++ during)) :
    ∀ c packet, .OnPacketReceived c packet ∈ (during.flatMap fun l ↦ l.1.2) → packet.Small := by
  induction h with
  | nil => exact fun c packet hmem ↦ absurd hmem List.not_mem_nil
  | @snoc ls u t l _ hst ih =>
      rw [← List.append_assoc, each_snoc] at hann
      intro c packet hmem
      rw [List.flatMap_append, List.flatMap_singleton, List.mem_append] at hmem
      have hsend : ∀ i r, l.1.1 ≠ .SendData i r := by
        intro i r he
        have hlast := hann.2
        rw [Announced, he] at hlast
        exact hlast
      rcases hmem with hold | hnew
      · exact ih hann.1 c packet hold
      · cases hst.1.does hsend _ hnew with
        | packet _ _ hu hpacket => exact small_onData hu packet hpacket

end Small

/-! ## 3. Requests and replies -/

/-- The requests that the connection `c` gets an answer to, if its session is in `m_SessionMap`. -/
def requestsFor (c : ConnID) (a : Action) : List ChatRequest :=
  match a with
  | .OnPacketReceived connId packet =>
      match EasyDispatcher.OnPacketReceived ChatTest.func packet with
      | some (some (.OnPingReq iVersion)) => if connId = c then [.OnPingReq iVersion] else []
      | some (some (.OnChatReq iLen message)) => [.OnChatReq iLen message]
      | _ => []
  | _ => []

section Replies

variable (MultiByteToWideChar : List UInt8 → ℕ → List UInt16)

/-- The client is called with the version, or logs the message. -/
def Answers : ChatRequest → ChatReply → Prop
  | .OnPingReq iVersion, .PingAck iVersion' => iVersion' = iVersion
  | .OnChatReq iLen message, .ChatAck len szMessage =>
      ∃ stored : Storage UInt8 1024, stored.data = padded 1024 iLen message.data ∧
        ChatAck MultiByteToWideChar iLen stored = some (len, szMessage)
  | _, _ => False

/-- The packet gives the client the answer to the request. -/
def Told (request : ChatRequest) (packet : EasyPacket) : Prop :=
  ∃ reply, EasyDispatcher.OnPacketReceived (ClientRecv.func MultiByteToWideChar) packet =
    some (some reply) ∧ Answers MultiByteToWideChar request reply

variable {iVersion iLen : ℕ} {message : List UInt8} {r : SendRequest} {packet : EasyPacket}

theorem readVersion_lt {stream t : InputStream}
    (h : readVersion stream = some (t, some iVersion)) : iVersion < 2 ^ 32 := by
  rw [readVersion, Option.bind_eq_bind, Option.bind_eq_some_iff] at h
  obtain ⟨⟨t', bytes⟩, hread, he⟩ := h
  rw [Option.some.injEq, Prod.mk.injEq, Option.map_eq_some_iff] at he
  obtain ⟨-, value, rfl, rfl⟩ := he
  have hvalue := (Serialize_some hread).2.2
  have hlen : value.length ≤ 4 := by
    rw [hvalue, List.length_take]
    exact Nat.min_le_left _ _
  calc leValue value < 256 ^ value.length := leValue_lt value
    _ ≤ 256 ^ 4 := Nat.pow_le_pow_right (by decide) hlen

theorem version_lt (h : EasyDispatcher.OnPacketReceived ChatTest.func packet =
    some (some (.OnPingReq iVersion))) : iVersion < 2 ^ 32 := by
  obtain ⟨iTypeId, len, buf⟩ := packet
  match iTypeId with
  | 0 =>
      have hping : ChatTest.func[0]?.join = some (.as PingReq_Callback .OnPingReq) := rfl
      rw [EasyDispatcher.OnPacketReceived_as hping, Option.map_eq_some_iff] at h
      obtain ⟨⟨t, called⟩, hcall, he⟩ := h
      rw [Option.map_eq_some_iff] at he
      obtain ⟨v, hv, hreq⟩ := he
      cases hreq
      exact readVersion_lt (hcall.trans (by rw [← hv]))
  | 1 =>
      have hchat : ChatTest.func[1]?.join =
          some (.as ChatReq_Callback fun called ↦ .OnChatReq called.1 called.2) := rfl
      rw [EasyDispatcher.OnPacketReceived_as hchat, Option.map_eq_some_iff] at h
      obtain ⟨r, -, he⟩ := h
      rw [Option.map_eq_some_iff] at he
      obtain ⟨_, -, hne⟩ := he
      cases hne
  | _ + 2 => cases h

theorem told_version (h : iVersion < 2 ^ 32) :
    Told MultiByteToWideChar (.OnPingReq iVersion)
      (versionRequest 0 PingReq_lt iVersion).packet := by
  obtain ⟨stream, hread⟩ := readVersion_leBytes h
  have hfunc : (ClientRecv.func MultiByteToWideChar)[(versionRequest 0 PingReq_lt
      iVersion).packet.m_iTypeId]?.join =
    some (EasyDispatcher.Func.as ClientRecv.PingAck_Callback .PingAck) := rfl
  refine ⟨.PingAck iVersion, ?_, rfl⟩
  rw [EasyDispatcher.OnPacketReceived_as hfunc]
  show Option.map _ (readVersion (.new (leBytes 4 iVersion).length (leBytes 4 iVersion))) = _
  rw [length_leBytes, hread]
  rfl

theorem told_message (hwide : ∀ message cchWideChar,
      (MultiByteToWideChar message cchWideChar).length ≤ cchWideChar)
    {message : Storage UInt8 MAX_INPUT_BUFFER} (hlen : iLen < MAX_INPUT_BUFFER)
    (hr : Carries r iLen message.data) :
    Told MultiByteToWideChar (.OnChatReq iLen message) r.packet := by
  have hin : MAX_INPUT_BUFFER = 1024 := rfl
  have hshort : uint16 iLen = iLen := uint16_of_lt (by omega)
  have hmessage : uint16 iLen ≤ message.data.length := by
    rw [message.length_data]
    omega
  obtain ⟨stream, stored, hstored, hcall⟩ :=
    hr.callback (by omega) hmessage (n := 1024) (by omega) (by decide)
  have hroom : 0 + (MultiByteToWideChar (stored.data.take 128) 128).length ≤ 128 := by
    rw [Nat.zero_add]
    exact hwide _ _
  obtain ⟨szMessage, hszMessage⟩ := (Storage.replicate 128 (0 : UInt16)).write_of_le hroom
  have hack : ChatAck MultiByteToWideChar iLen stored = some (iLen, szMessage) := by
    unfold ChatAck
    rw [hszMessage]
    rfl
  have hfunc : (ClientRecv.func MultiByteToWideChar)[r.packet.m_iTypeId]?.join =
      some (EasyDispatcher.Func.as (ChatAck_Callback MultiByteToWideChar)
        fun called ↦ .ChatAck called.1 called.2) := by
    show (ClientRecv.func MultiByteToWideChar)[r.iTypeId]?.join = _
    rw [hr.type]
    rfl
  refine ⟨.ChatAck iLen szMessage, ?_, stored, hstored, hack⟩
  rw [EasyDispatcher.OnPacketReceived_as hfunc, ChatAck_Callback, hcall, hack]
  rfl

/-- What is sent for requests, and fits `m_RecvBuf` of the client. -/
structure AnsweredBy (requests : List ChatRequest) (frames : List (List UInt8))
    (rs : List SendRequest) : Prop where
  frames : rs.map SendRequest.frame = frames
  small : ∀ r ∈ rs, r.iLen ≤ MAX_INPUT_BUFFER - PACKET_HEAD
  told : List.Forall₂ (fun request r ↦ Told MultiByteToWideChar request r.packet) requests rs

theorem answeredBy_nil : AnsweredBy MultiByteToWideChar [] [] [] :=
  ⟨rfl, fun _ hr ↦ absurd hr List.not_mem_nil, .nil⟩

theorem answeredBy_singleton {request : ChatRequest}
    (hfits : r.iLen ≤ MAX_INPUT_BUFFER - PACKET_HEAD)
    (htold : Told MultiByteToWideChar request r.packet) :
    AnsweredBy MultiByteToWideChar [request] [r.frame] [r] :=
  ⟨rfl, List.forall_mem_singleton.mpr hfits, .cons htold .nil⟩

variable {MultiByteToWideChar} in
theorem AnsweredBy.append {requests requests' : List ChatRequest}
    {frames frames' : List (List UInt8)} {rs rs' : List SendRequest}
    (h : AnsweredBy MultiByteToWideChar requests frames rs)
    (h' : AnsweredBy MultiByteToWideChar requests' frames' rs') :
    AnsweredBy MultiByteToWideChar (requests ++ requests') (frames ++ frames') (rs ++ rs') where
  frames := by rw [List.map_append, h.frames, h'.frames]
  small := List.forall_mem_append.mpr ⟨h.small, h'.small⟩
  told := List.rel_append h.told h'.told

theorem answeredBy_version (h : iVersion < 2 ^ 32) :
    AnsweredBy MultiByteToWideChar [.OnPingReq iVersion] [versionFrame iVersion]
      [versionRequest 0 PingReq_lt iVersion] := by
  have hlen : (versionRequest 0 PingReq_lt iVersion).iLen = 4 := length_leBytes
  have hfits : (versionRequest 0 PingReq_lt iVersion).iLen ≤ MAX_INPUT_BUFFER - PACKET_HEAD := by
    rw [hlen]
    decide
  exact answeredBy_singleton _ hfits (told_version _ h)

theorem answeredBy_message (hwide : ∀ message cchWideChar,
      (MultiByteToWideChar message cchWideChar).length ≤ cchWideChar)
    {message : Storage UInt8 MAX_INPUT_BUFFER} (hlen : iLen < MAX_INPUT_BUFFER)
    (hle : iLen ≤ MAX_MESSAGE) :
    ∃ rs, AnsweredBy MultiByteToWideChar [.OnChatReq iLen message]
      [messageFrame iLen message.data] rs := by
  have hin : MAX_INPUT_BUFFER = 1024 := rfl
  have hout : MAX_OUTPUT_BUFFER = 65500 := rfl
  have hmax : MAX_MESSAGE = MAX_INPUT_BUFFER - PACKET_HEAD - 4 := rfl
  have hhead : PACKET_HEAD = 4 := rfl
  have hshort : uint16 iLen = iLen := uint16_of_lt (by omega)
  have hmessage : uint16 iLen ≤ message.data.length := by
    rw [message.length_data]
    omega
  obtain ⟨r, -, hr⟩ := ChatReq_of_le hmessage (by omega)
  have hfits : r.iLen ≤ MAX_INPUT_BUFFER - PACKET_HEAD := by
    rw [hr.iLen_eq hmessage]
    omega
  have hone := answeredBy_singleton _ hfits (told_message _ hwide hlen hr)
  rw [hr.frame_eq hmessage] at hone
  exact ⟨[r], hone⟩

-- What a connection is sent for an action tells its client the answers.
theorem exists_answers (hwide : ∀ message cchWideChar,
      (MultiByteToWideChar message cchWideChar).length ≤ cchWideChar) (c : ConnID) {a : Action}
    (hsmall : ∀ c packet, a = .OnPacketReceived c packet → packet.Small) :
    ∃ rs, AnsweredBy MultiByteToWideChar (requestsFor c a) (answersTo c a) rs := by
  cases a with
  | OnPacketReceived connId packet =>
      cases hcalled : EasyDispatcher.OnPacketReceived ChatTest.func packet with
      | none =>
          simp only [requestsFor, answersTo, hcalled]
          exact ⟨[], answeredBy_nil _⟩
      | some called =>
          cases called with
          | none =>
              simp only [requestsFor, answersTo, hcalled]
              exact ⟨[], answeredBy_nil _⟩
          | some request =>
              cases request with
              | OnPingReq iVersion =>
                  simp only [requestsFor, answersTo, hcalled]
                  by_cases hc : connId = c
                  · rw [if_pos hc, if_pos hc]
                    exact ⟨_, answeredBy_version _ (version_lt hcalled)⟩
                  · rw [if_neg hc, if_neg hc]
                    exact ⟨[], answeredBy_nil _⟩
              | OnChatReq iLen message =>
                  simp only [requestsFor, answersTo, hcalled]
                  exact answeredBy_message _ hwide (length_of_OnChatReq hcalled)
                    (message_le (hsmall connId packet rfl) hcalled)
  | SendMessage => exact ⟨[], answeredBy_nil _⟩
  | AsyncSend => exact ⟨[], answeredBy_nil _⟩
  | AsyncDisconnect => exact ⟨[], answeredBy_nil _⟩
  | Close => exact ⟨[], answeredBy_nil _⟩

theorem exists_all_answers (hwide : ∀ message cchWideChar,
      (MultiByteToWideChar message cchWideChar).length ≤ cchWideChar) (c : ConnID)
    {actions : List Action}
    (hsmall : ∀ c packet, .OnPacketReceived c packet ∈ actions → packet.Small) :
    ∃ rs, AnsweredBy MultiByteToWideChar (actions.flatMap (requestsFor c))
      (actions.flatMap (answersTo c)) rs := by
  induction actions with
  | nil => exact ⟨[], answeredBy_nil _⟩
  | cons a actions ih =>
      obtain ⟨first, hfirst⟩ := exists_answers _ hwide c (a := a) fun c packet he ↦
        hsmall c packet (by rw [he]; exact List.mem_cons_self)
      obtain ⟨rest, hrest⟩ := ih fun c packet hmem ↦ hsmall c packet (List.mem_cons_of_mem a hmem)
      exact ⟨first ++ rest, hfirst.append hrest⟩

end Replies

/-! ## 4. The client of a connection -/

/-- What the connection `c` is to be answered. -/
def asked (c : ConnID) (during : List ChatExecuted) : List ChatRequest :=
  (during.flatMap fun l ↦ l.1.2).flatMap (requestsFor c)

section Theorems

variable (MultiByteToWideChar : List UInt8 → ℕ → List UInt16)

/-- **The conversation.**  A connection has its session in `m_SessionMap` while the server executes
`during`, and its client receives the first bytes of what it is sent meanwhile, in whatever pieces.
In every interleaving of the threads of the client whose copies stay inside the buffers, the packets
that it has handled give it the answers to the first requests of that time, its own pings and the
messages of all, each once and in the order in which the server came to them; and to all of them,
once all bytes are put together. -/
theorem conversation (hwide : ∀ message cchWideChar,
      (MultiByteToWideChar message cchWideChar).length ≤ cchWideChar)
    (iMaxSession : ℕ) (memory : SessionPtr → EasySession) (array : ℕ → SessionPtr)
    (before during : List ChatExecuted) (s t : EasyBaseServer)
    (hbefore : Path ChatExecutes (.initialized iMaxSession memory array) before s)
    (hduring : Path ChatExecutes s during t) (hann : Each Announced (before ++ during)) (c : ConnID)
    (hc : AllSteps ChatExecutes s (fun u _ ↦ c ∈ u.recipients) during)
    (connId : ConnID) (m_RecvBuf buffer_ : Storage UInt8 MAX_INPUT_BUFFER) (es : List ClientEvent)
    (u : ClientThreads)
    (hclient : Path (ClientThreads.DefinedStep connId) (.start m_RecvBuf buffer_) es u)
    (hwire : receivedBytes es <+: (sentTo c (during.flatMap Prod.snd)).flatten) :
    List.Forall₂ (Told MultiByteToWideChar) ((asked c during).take u.handled.length) u.handled ∧
      ((executedData es).flatten = (sentTo c (during.flatMap Prod.snd)).flatten →
        u.handled.length = (asked c during).length) := by
  have hkept : Kept before s :=
    kept_of_path (kept_initialized iMaxSession memory array) hbefore hann.left
  have hsent := sentTo_of_path hkept hduring hann (repliesTo_of_mem hc)
  obtain ⟨rs, hrs⟩ := exists_all_answers MultiByteToWideChar hwide c (small_of_path hduring hann)
  have hstream : (sentTo c (during.flatMap Prod.snd)).flatten = stream rs := by
    rw [stream, hrs.frames, hsent]
  rw [hstream] at hwire ⊢
  have hhandled := (Received.of_path hclient).handled rfl hrs.small hwire
  have hpre : arrived (executedData es).flatten.length rs <+: rs := Framing.within_prefix _ _ _
  constructor
  · -- the packets that have arrived are the first answers
    rw [hhandled, List.length_map, List.forall₂_map_right_iff]
    rw [List.prefix_iff_eq_take] at hpre
    conv =>
      arg 3
      rw [hpre]
    exact List.forall₂_take _ hrs.told
  · intro hall
    rw [hhandled, List.length_map, hall, arrived_all]
    exact hrs.told.length_eq.symm

/-- The client of the connection 8 gets the message of the connection 7. -/
theorem conversation_hi :
    ∃ es, ∃ u : ClientThreads, Path (ClientThreads.DefinedStep 3)
        (.start (.replicate _ 0) (.replicate _ 0)) es u ∧
      ∃ packet, u.handled = [packet] ∧ ∃ message : Storage UInt8 MAX_INPUT_BUFFER,
        Told asciiToWideChar (.OnChatReq 2 message) packet := by
  obtain ⟨t, calls, htalk⟩ := twoConnected_talk
  obtain ⟨message, hcalled, hframe⟩ := hi_dispatch
  obtain ⟨es, u, hclient, hbytes, hdone, -⟩ :=
    packet_run 3 (.replicate _ 0) (.replicate _ 0) hi (by decide)
  have htwo := announced_talk calls
  have hduring : Path ChatExecutes twoConnected
      [((.OnData 7 sayHi, [.OnPacketReceived 7 hi.packet]), calls)] t := Path.nil.snoc htalk
  have height : AllSteps ChatExecutes twoConnected (fun u _ ↦ 8 ∈ u.recipients)
      [((.OnData 7 sayHi, [.OnPacketReceived 7 hi.packet]), calls)] :=
    allSteps_singleton twoConnected_recipients.2
  have hsent := sentTo_of_path
    (kept_of_path (kept_initialized 2 (fun _ ↦ zeroSession) fun _ ↦ 0) twoConnected_path htwo.left)
    hduring htwo (repliesTo_of_mem height)
  have hanswers : [Action.OnPacketReceived 7 hi.packet].flatMap (answersTo 8) = [hi.frame] := by
    rw [List.flatMap_singleton, answersTo, hcalled, ← hframe]
  have hrequests : asked 8 [((.OnData 7 sayHi, [.OnPacketReceived 7 hi.packet]), calls)] =
      [.OnChatReq 2 message] := by
    show [Action.OnPacketReceived 7 hi.packet].flatMap (requestsFor 8) = _
    rw [List.flatMap_singleton, requestsFor, hcalled]
  have hwire : (sentTo 8 ([((EasyCommand.OnData 7 sayHi,
      [Action.OnPacketReceived 7 hi.packet]), calls)].flatMap Prod.snd)).flatten = hi.frame := by
    rw [hsent]
    show ([Action.OnPacketReceived 7 hi.packet].flatMap (answersTo 8)).flatten = _
    rw [hanswers]
    exact List.append_nil _
  obtain ⟨htold, hall⟩ := conversation asciiToWideChar length_asciiToWideChar 2
    (fun _ ↦ zeroSession) (fun _ ↦ 0) twoConnects _ twoConnected t twoConnected_path hduring htwo 8
    height 3 _ _ es u hclient (by rw [hwire, hbytes])
  rw [hall (hdone.trans hwire.symm), List.take_length, hrequests,
    List.forall₂_cons_left_iff] at htold
  obtain ⟨packet, rest, hpacket, hrest, hu⟩ := htold
  cases List.forall₂_nil_left_iff.mp hrest
  exact ⟨es, u, hclient, packet, hu, message, hpacket⟩

end Theorems

end Fantuan
