import Fantuan.Midware.Dispatcher
import Fantuan.Midware.Reassembly

/-!
# Chat messages on their way from the client to the session and back

`ClientSend::ChatReq` takes a `uint32` length, of which the stream writes all four bytes and then as
many characters as the lowest 16 bits say.  The frame is laid out in an array that is not checked,
and the session terminates the message at the whole length.
-/

open Lib

namespace Fantuan

/-- What it passes to `SimpleConnection::SendData`. -/
def EasyBaseClient.SendData (r : SendRequest) : Option (List UInt8) := do
  let buf ← layOut EasyBaseClient.sendBuf r.iTypeId r.iLen r.pData
  some (buf.data.take (PACKET_HEAD + r.iLen))

/-- A call of `ClientSend::ChatReq` up to the call that the session gets; there is none if one of
the calls on the way returns -1 or `false`. -/
def chatRequest (iLen : ℕ) (message : List UInt8) : Option (Option ChatRequest) := do
  match ← ClientSend.ChatReq iLen message with
  | none => some none
  | some r =>
      let frame ← EasyBaseClient.SendData r
      EasyDispatcher.OnPacketReceived ChatTest.func (.ofBytes frame)

/-! ## 1. The frame of the client -/

section Frame

variable {r r' : SendRequest}

theorem ofBytes_frame (r : SendRequest) : EasyPacket.ofBytes r.frame = r.packet := by
  have h := ofBytes_frame_append r []
  rwa [List.append_nil] at h

theorem SendRequest.eq_of (htype : r.iTypeId = r'.iTypeId) (hdata : r.pData = r'.pData) :
    r = r' := by
  cases r
  cases r'
  cases htype
  cases hdata
  rfl

theorem SendData_of_le (hfit : PACKET_HEAD + r.iLen ≤ MAX_INPUT_BUFFER) :
    EasyBaseClient.SendData r = some r.frame := by
  have hsome : (layOut EasyBaseClient.sendBuf r.iTypeId r.iLen r.pData).isSome :=
    (isSome_layOut (Nat.le_refl _)).mpr hfit
  obtain ⟨buf, hbuf⟩ := Option.isSome_iff_exists.mp hsome
  rw [EasyBaseClient.SendData, hbuf, Option.bind_eq_bind, Option.bind_some, take_of_layOut r hbuf]

theorem SendData_of_lt (hfit : MAX_INPUT_BUFFER < PACKET_HEAD + r.iLen) :
    EasyBaseClient.SendData r = none := by
  have hnone : layOut EasyBaseClient.sendBuf r.iTypeId r.iLen r.pData = none := by
    have hsome : (layOut EasyBaseClient.sendBuf r.iTypeId r.iLen r.pData).isSome ↔ _ :=
      isSome_layOut (Nat.le_refl _)
    rw [← Option.not_isSome_iff_eq_none, hsome]
    exact Nat.not_le.mpr hfit
  rw [EasyBaseClient.SendData, hnone]
  rfl

end Frame

/-! ## 2. The two ends -/

section Ends

variable {iLen : ℕ} {message : List UInt8} {r : SendRequest}

-- What is written where it stands already.
theorem write_same {n off : ℕ} {s : Storage UInt8 n} {a : UInt8} (h : s.data[off]? = some a) :
    s.write off [a] = some s := by
  obtain ⟨hlt, hget⟩ := List.getElem?_eq_some_iff.mp h
  have hroom : off + [a].length ≤ n := by
    rw [List.length_singleton, ← s.length_data]
    exact hlt
  obtain ⟨t, ht⟩ := s.write_of_le hroom
  obtain ⟨-, hdata⟩ := Storage.write_eq_some.mp ht
  rw [List.length_singleton, List.append_assoc, List.singleton_append, ← hget,
    List.getElem_cons_drop, List.take_append_drop] at hdata
  rw [ht, Storage.ext hdata]

/-- The packet of a message. -/
structure Carries (r : SendRequest) (iLen : ℕ) (message : List UInt8) : Prop where
  type : r.iTypeId = 1
  data : r.pData = messageData iLen message

theorem Carries.iLen_eq (h : Carries r iLen message) (hmessage : uint16 iLen ≤ message.length) :
    r.iLen = 4 + uint16 iLen := by
  rw [SendRequest.iLen, h.data, length_messageData hmessage]

theorem ChatReq_of_le (hmessage : uint16 iLen ≤ message.length)
    (hfit : 4 + uint16 iLen ≤ MAX_OUTPUT_BUFFER) :
    ∃ r, ClientSend.ChatReq iLen message = some (some r) ∧ Carries r iLen message := by
  obtain ⟨r, hsend, htype, hdata⟩ :=
    sendMessage_of_le ChatReq_lt hmessage hfit
  exact ⟨r, hsend, htype, hdata⟩

/-- The message, zeros behind it. -/
def padded (n iLen : ℕ) (message : List UInt8) : List UInt8 :=
  message.take (uint16 iLen) ++ List.replicate (n - uint16 iLen) 0

-- Both callbacks report the length as a whole.
theorem Carries.callback (h : Carries r iLen message) (hlen : iLen < 2 ^ 32)
    (hmessage : uint16 iLen ≤ message.length) {n : ℕ} (hfits : uint16 iLen ≤ n)
    (hn : 4 + n < 2 ^ 16) :
    ∃ (stream : InputStream) (stored : Storage UInt8 n), stored.data = padded n iLen message ∧
      ∀ {β : Type} (report : ℕ → Storage UInt8 n → Option (ℕ × β)),
        callback n report (.new r.packet.m_iLen r.packet.m_Buf) =
          (report iLen stored).map fun reported ↦ (stream, some reported) := by
  obtain ⟨stream, stored, hread, hstored⟩ :=
    readMessage_messageData hlen hmessage (Nat.lt_of_le_of_lt (Nat.add_le_add_left hfits 4) hn)
      hfits
  refine ⟨stream, stored, hstored, fun report ↦ ?_⟩
  show Fantuan.callback n report (.new r.iLen r.pData) = _
  rw [h.iLen_eq hmessage, h.data, callback_of_message hread, Option.map_eq_bind]
  rfl

theorem getElem?_padded {n : ℕ} (hmessage : iLen ≤ message.length) (hlt : iLen < n)
    (hlen : iLen < 2 ^ 16) : (padded n iLen message)[iLen]? = some 0 := by
  have htake : (message.take iLen).length = iLen := by
    rw [List.length_take, Nat.min_eq_left hmessage]
  rw [padded, uint16_of_lt hlen, List.getElem?_append_right (by rw [htake]), htake, Nat.sub_self,
    List.getElem?_replicate, if_pos (by omega)]

-- The session is called with the message, if there is room for the `'\0'` behind all of it.
theorem Carries.dispatch (h : Carries r iLen message) (hlen : iLen < 2 ^ 32)
    (hmessage : uint16 iLen ≤ message.length) (hfits : uint16 iLen ≤ MAX_INPUT_BUFFER) :
    (iLen < MAX_INPUT_BUFFER → ∃ stored : Storage UInt8 MAX_INPUT_BUFFER,
      stored.data = padded MAX_INPUT_BUFFER iLen message ∧
        EasyDispatcher.OnPacketReceived ChatTest.func r.packet =
          some (some (.OnChatReq iLen stored))) ∧
    (MAX_INPUT_BUFFER ≤ iLen →
      EasyDispatcher.OnPacketReceived ChatTest.func r.packet = none) := by
  obtain ⟨stream, stored, hstored, hcall⟩ := h.callback hlen hmessage hfits (by decide)
  have hfunc : ChatTest.func[r.packet.m_iTypeId]?.join = some (EasyDispatcher.Func.as
      ChatReq_Callback fun called ↦ .OnChatReq called.1 called.2) := by
    show ChatTest.func[r.iTypeId]?.join = _
    rw [h.type]
    rfl
  rw [EasyDispatcher.OnPacketReceived_as hfunc, ChatReq_Callback, hcall]
  constructor
  · intro hlt
    have hshort : iLen < 2 ^ 16 := Nat.lt_trans hlt (by decide)
    have hzero : stored.data[iLen]? = some 0 := by
      rw [uint16_of_lt hshort] at hmessage
      rw [hstored]
      exact getElem?_padded hmessage hlt hshort
    refine ⟨stored, hstored, ?_⟩
    rw [write_same hzero]
    rfl
  · intro hge
    have hwrite : stored.write iLen [0] = none := stored.write_of_lt (by
      rw [List.length_singleton]
      omega)
    rw [hwrite]
    rfl

end Ends

/-! ## 3. There and back -/

section RoundTrip

variable {iLen : ℕ} {message : List UInt8} {r : SendRequest}

/-- The longest message that the client can lay out. -/
def MAX_MESSAGE : ℕ := MAX_INPUT_BUFFER - PACKET_HEAD - 4

theorem chatRequest_of_sent (hsend : ClientSend.ChatReq iLen message = some (some r)) :
    chatRequest iLen message = (EasyBaseClient.SendData r).bind fun frame ↦
      EasyDispatcher.OnPacketReceived ChatTest.func (.ofBytes frame) := by
  rw [chatRequest, hsend]
  rfl

-- For a message that is too long to be written to the stream nothing is sent.
theorem chatRequest_of_unsent (hlong : MAX_OUTPUT_BUFFER < 4 + uint16 iLen) :
    chatRequest iLen message = some none := by
  have hsend : ClientSend.ChatReq iLen message = some none := sendMessage_of_lt hlong
  rw [chatRequest, hsend]
  rfl

theorem chatRequest_of_le (hlen : iLen < 2 ^ 32) (hmessage : uint16 iLen ≤ message.length)
    (hfit : iLen ≤ MAX_MESSAGE) :
    ∃ (r : SendRequest) (stored : Storage UInt8 MAX_INPUT_BUFFER), Carries r iLen message ∧
      ClientSend.ChatReq iLen message = some (some r) ∧
      stored.data = padded MAX_INPUT_BUFFER iLen message ∧
      chatRequest iLen message = some (some (.OnChatReq iLen stored)) := by
  have hmax : MAX_MESSAGE = 1016 := rfl
  have hin : MAX_INPUT_BUFFER = 1024 := rfl
  have hout : MAX_OUTPUT_BUFFER = 65500 := rfl
  have hhead : PACKET_HEAD = 4 := rfl
  have hshort : uint16 iLen = iLen := uint16_of_lt (by omega)
  obtain ⟨r, hsend, hr⟩ := ChatReq_of_le hmessage (by omega)
  have hdispatch := hr.dispatch hlen hmessage (by omega)
  obtain ⟨stored, hstored, hcall⟩ := hdispatch.1 (by omega)
  refine ⟨r, stored, hr, hsend, hstored, ?_⟩
  have hframe := hr.iLen_eq hmessage
  rw [chatRequest_of_sent hsend, SendData_of_le (by omega), Option.bind_some, ofBytes_frame, hcall]

-- The array of the client overflows, or the `'\0'` is written outside of that of the session.
theorem chatRequest_of_lt (hlen : iLen < 2 ^ 32) (hmessage : uint16 iLen ≤ message.length)
    (hlong : MAX_MESSAGE < iLen) (hfit : 4 + uint16 iLen ≤ MAX_OUTPUT_BUFFER) :
    chatRequest iLen message = none := by
  have hmax : MAX_MESSAGE = 1016 := rfl
  have hin : MAX_INPUT_BUFFER = 1024 := rfl
  have hhead : PACKET_HEAD = 4 := rfl
  obtain ⟨r, hsend, hr⟩ := ChatReq_of_le hmessage hfit
  have hframe := hr.iLen_eq hmessage
  rw [chatRequest_of_sent hsend]
  by_cases hshort : uint16 iLen ≤ MAX_MESSAGE
  · have hdispatch := hr.dispatch hlen hmessage (by omega)
    have hge : MAX_INPUT_BUFFER ≤ iLen := by
      unfold uint16 at hshort
      omega
    rw [SendData_of_le (by omega), Option.bind_some, ofBytes_frame, hdispatch.2 hge]
  · rw [SendData_of_lt (by omega), Option.bind_none]

-- What is sent again of a message depends on the bytes that were sent of it alone.
theorem ChatAck_padded {n : ℕ} (h : Carries r iLen message)
    (hmessage : uint16 iLen ≤ message.length) (hfit : 4 + uint16 iLen ≤ MAX_OUTPUT_BUFFER) :
    ChatTest.ChatAck iLen (padded n iLen message) = some (some r) := by
  have htake : (message.take (uint16 iLen)).length = uint16 iLen := by
    rw [List.length_take, Nat.min_eq_left hmessage]
  have hlong : uint16 iLen ≤ (padded n iLen message).length := by
    rw [padded, List.length_append, htake]
    exact Nat.le_add_right _ _
  obtain ⟨r', hsend, hr'⟩ := ChatReq_of_le hlong hfit
  have hsame : r' = r := by
    apply SendRequest.eq_of (hr'.type.trans h.type.symm)
    rw [hr'.data, h.data, messageData, messageData, padded, List.take_left' htake]
  rw [← hsame]
  exact hsend

/-- **A chat message there and back.**  A call of `ClientSend::ChatReq` goes through safely exactly
if the message is no longer than 1016 bytes or nothing is sent at all.  If it is no longer, the
session is called with it and answers it with the very packet that it got; the client logs the
length, and of the message what `MultiByteToWideChar` makes of its first 128 bytes. -/
theorem chat_round_trip (MultiByteToWideChar : List UInt8 → ℕ → List UInt16)
    (hwide : ∀ message cchWideChar,
      (MultiByteToWideChar message cchWideChar).length ≤ cchWideChar)
    (iLen : ℕ) (message : List UInt8) (hlen : iLen < 2 ^ 32)
    (hmessage : uint16 iLen ≤ message.length) :
    ((chatRequest iLen message).isSome ↔
      iLen ≤ MAX_MESSAGE ∨ MAX_OUTPUT_BUFFER < 4 + uint16 iLen) ∧
    (MAX_OUTPUT_BUFFER < 4 + uint16 iLen → chatRequest iLen message = some none) ∧
    (iLen ≤ MAX_MESSAGE → ∃ r stored szMessage,
      ClientSend.ChatReq iLen message = some (some r) ∧
      chatRequest iLen message = some (some (.OnChatReq iLen stored)) ∧
      stored.data = padded MAX_INPUT_BUFFER iLen message ∧
      ChatTest.ChatAck iLen stored.data = some (some r) ∧
      ChatAck MultiByteToWideChar iLen stored = some (iLen, szMessage) ∧
      EasyDispatcher.OnPacketReceived (ClientRecv.func MultiByteToWideChar) r.packet =
        some (some (.ChatAck iLen szMessage))) := by
  have hmax : MAX_MESSAGE = 1016 := rfl
  have hin : MAX_INPUT_BUFFER = 1024 := rfl
  have hout : MAX_OUTPUT_BUFFER = 65500 := rfl
  refine ⟨⟨fun hsome ↦ ?_, fun hfit ↦ ?_⟩, chatRequest_of_unsent, fun hfit ↦ ?_⟩
  · by_contra hnot
    rw [not_or, Nat.not_le, Nat.not_lt] at hnot
    rw [chatRequest_of_lt hlen hmessage hnot.1 hnot.2] at hsome
    cases hsome
  · rcases hfit with hfit | hlong
    · obtain ⟨r, stored, -, -, -, hrequest⟩ := chatRequest_of_le hlen hmessage hfit
      rw [hrequest]
      rfl
    · rw [chatRequest_of_unsent hlong]
      rfl
  · have hshort : uint16 iLen = iLen := uint16_of_lt (by omega)
    obtain ⟨r, stored, hr, hsend, hstored, hrequest⟩ := chatRequest_of_le hlen hmessage hfit
    -- the client has the same bytes in its array as the session
    obtain ⟨stream, stored', hstored', hcall⟩ :=
      hr.callback hlen hmessage (n := 1024) (by omega) (by decide)
    have hsame : stored' = stored := Storage.ext (hstored'.trans hstored.symm)
    have hroom : 0 + (MultiByteToWideChar (stored.data.take 128) 128).length ≤ 128 := by
      rw [Nat.zero_add]
      exact hwide _ _
    obtain ⟨szMessage, hszMessage⟩ := (Storage.replicate 128 (0 : UInt16)).write_of_le hroom
    have hack : ChatAck MultiByteToWideChar iLen stored = some (iLen, szMessage) := by
      unfold ChatAck
      rw [hszMessage]
      rfl
    have hfunc : (ClientRecv.func MultiByteToWideChar)[r.packet.m_iTypeId]?.join =
        some (EasyDispatcher.Func.as (ChatAck_Callback MultiByteToWideChar)
          fun called ↦ .ChatAck called.1 called.2) := by
      show (ClientRecv.func MultiByteToWideChar)[r.iTypeId]?.join = _
      rw [hr.type]
      rfl
    refine ⟨r, stored, szMessage, hsend, hrequest, hstored, ?_, hack, ?_⟩
    · rw [hstored]
      exact ChatAck_padded hr hmessage (by omega)
    · rw [EasyDispatcher.OnPacketReceived_as hfunc, ChatAck_Callback, hcall, hsame, hack]
      rfl

/-- A message of two characters. -/
theorem chat_round_trip_two :
    ∃ r stored szMessage, ClientSend.ChatReq 2 [104, 105] = some (some r) ∧
      chatRequest 2 [104, 105] = some (some (.OnChatReq 2 stored)) ∧
      stored.data = padded MAX_INPUT_BUFFER 2 [104, 105] ∧
      ChatTest.ChatAck 2 stored.data = some (some r) ∧
      ChatAck asciiToWideChar 2 stored = some (2, szMessage) ∧
      EasyDispatcher.OnPacketReceived (ClientRecv.func asciiToWideChar) r.packet =
        some (some (.ChatAck 2 szMessage)) :=
  (chat_round_trip asciiToWideChar length_asciiToWideChar 2 [104, 105] (by decide)
    (by decide)).2.2 (by decide)

end RoundTrip

/-! ## 4. All the calls of a client -/

/-- The calls that `SendCommand` makes. -/
inductive ClientCall
  | PingReq (iVersion : ℕ)
  | ChatReq (iLen : ℕ) (message : List UInt8)

namespace ClientCall

def send : ClientCall → Option (Option SendRequest)
  | PingReq iVersion => ClientSend.PingReq iVersion
  | ChatReq iLen message => ClientSend.ChatReq iLen message

/-- The message and its length fit the array of the client behind the header. -/
def Fits : ClientCall → Prop
  | PingReq iVersion => iVersion < 2 ^ 32
  | ChatReq iLen message => iLen ≤ MAX_MESSAGE ∧ iLen ≤ message.length

/-- The session gets the arguments that the client gave. -/
def Matches : ClientCall → ChatRequest → Prop
  | PingReq iVersion, .OnPingReq iVersion' => iVersion' = iVersion
  | ChatReq iLen message, .OnChatReq iLen' stored =>
      iLen' = iLen ∧ stored.data = padded MAX_INPUT_BUFFER iLen message
  | _, _ => False

/-- The call puts the frame of `r` on the wire. -/
def Sends (call : ClientCall) (r : SendRequest) : Prop :=
  call.send = some (some r) ∧ EasyBaseClient.SendData r = some r.frame

/-- The session gets the call out of the packet. -/
def Handled (call : ClientCall) (packet : EasyPacket) : Prop :=
  ∃ request, EasyDispatcher.OnPacketReceived ChatTest.func packet = some (some request) ∧
    call.Matches request

variable {call : ClientCall}

theorem dispatch_version {iVersion : ℕ} (h : iVersion < 2 ^ 32) :
    EasyDispatcher.OnPacketReceived ChatTest.func
      (versionRequest 0 PingReq_lt iVersion).packet = some (some (.OnPingReq iVersion)) := by
  obtain ⟨stream, hread⟩ := readVersion_leBytes h
  have hfunc : ChatTest.func[(versionRequest 0 PingReq_lt iVersion).packet.m_iTypeId]?.join =
      some (EasyDispatcher.Func.as PingReq_Callback .OnPingReq) := rfl
  rw [EasyDispatcher.OnPacketReceived_as hfunc]
  show Option.map _ (readVersion (.new (leBytes 4 iVersion).length (leBytes 4 iVersion))) = _
  rw [length_leBytes, hread]
  rfl

-- What a call that fits puts on the wire, and what the session makes of it.
theorem Fits.sends (h : call.Fits) :
    ∃ r, call.Sends r ∧ r.iLen ≤ MAX_INPUT_BUFFER - PACKET_HEAD ∧ call.Handled r.packet := by
  have hroom : PACKET_HEAD + (MAX_INPUT_BUFFER - PACKET_HEAD) = MAX_INPUT_BUFFER := rfl
  cases call with
  | PingReq iVersion =>
      have hlen : (versionRequest 0 PingReq_lt iVersion).iLen = 4 := length_leBytes
      refine ⟨_, ⟨sendVersion_eq, SendData_of_le ?_⟩, ?_, _, dispatch_version h, rfl⟩
      · rw [hlen]
        decide
      · rw [hlen]
        decide
  | ChatReq iLen message =>
      have hmax : MAX_MESSAGE = 1016 := rfl
      have hin : MAX_INPUT_BUFFER = 1024 := rfl
      have hhead : PACKET_HEAD = 4 := rfl
      have hfit : iLen ≤ MAX_MESSAGE ∧ iLen ≤ message.length := h
      have hshort : uint16 iLen = iLen := uint16_of_lt (by omega)
      have hmessage : uint16 iLen ≤ message.length := by omega
      obtain ⟨r, stored, hr, hsend, hstored, hrequest⟩ :=
        chatRequest_of_le (by omega) hmessage hfit.1
      have hlen : r.iLen = 4 + uint16 iLen := hr.iLen_eq (by omega)
      have hframe : EasyBaseClient.SendData r = some r.frame := SendData_of_le (by omega)
      rw [chatRequest_of_sent hsend, hframe, Option.bind_some, ofBytes_frame] at hrequest
      exact ⟨r, ⟨hsend, hframe⟩, by omega, _, hrequest, rfl, hstored⟩

end ClientCall

section Calls

variable {rs : List SendRequest} {chunks cs : List (List UInt8)}

-- Chunks that find room bring in the packets that have wholly arrived.
theorem path_arrived (s : EasySession) (hrs : ∀ r ∈ rs, r.iLen ≤ MAX_INPUT_BUFFER - PACKET_HEAD)
    (hcut : chunks.flatten = stream rs) (hshort : ∀ c ∈ chunks, c.length < 2 ^ 16)
    (hroom : CopiesFitAll chunks) (hcs : cs <+: chunks) :
    ∃ b, Path Receives s.fresh cs
      (b, (arrived cs.flatten.length rs).map SendRequest.packet) := by
  have hwrap : ∀ cs, cs <+: chunks → NoWrap cs.flatten := fun cs hcs ↦ noWrap_received hrs hcut hcs
  have hfit : ∀ cs c u, cs ++ [c] <+: chunks → Path Receives s.fresh cs u →
      CopiesFit u.1.buffered c := by
    intro cs c u hpre hu
    rw [(calls_spec hu (chunks_short hshort hpre).1).2.1]
    exact hroom cs c hpre (hwrap cs ((List.prefix_append cs [c]).trans hpre)).not_stuck
  obtain ⟨⟨b, ps⟩, hpath⟩ :=
    exists_calls (fresh_buffered s).1 hshort hfit hcs (hwrap cs hcs).not_stuck
  have hps := (calls_spec hpath fun c hc ↦ hshort c (hcs.subset hc)).2.2.2 (hwrap cs hcs)
  rw [packets_received hrs hcut hcs] at hps
  cases hps
  exact ⟨b, hpath⟩

theorem arrived_all (rs : List SendRequest) : arrived (stream rs).length rs = rs := by
  apply Framing.within_of_le
  rw [stream, List.length_flatten, List.map_map]
  exact Nat.le_refl _

/-- **Requests in order.**  The calls of a client whose frames fit are all sent.  However their
bytes are cut into chunks that find room, the session gets these calls, with their arguments, in
their order: after any of the chunks those that have wholly arrived, and in the end all. -/
theorem requests_in_order (s : EasySession) (calls : List ClientCall)
    (hfits : ∀ call ∈ calls, call.Fits) :
    ∃ rs, List.Forall₂ ClientCall.Sends calls rs ∧
      ∀ chunks : List (List UInt8), chunks.flatten = stream rs →
        (∀ c ∈ chunks, c.length < 2 ^ 16) → CopiesFitAll chunks →
        ∀ cs, cs <+: chunks → ∃ b ps, Path Receives s.fresh cs (b, ps) ∧
          ps.length = (arrived cs.flatten.length rs).length ∧
          List.Forall₂ ClientCall.Handled (calls.take ps.length) ps ∧
          (cs = chunks → ps.length = calls.length) := by
  have hall : ∃ rs : List SendRequest, List.Forall₂ ClientCall.Sends calls rs ∧
      (∀ r ∈ rs, r.iLen ≤ MAX_INPUT_BUFFER - PACKET_HEAD) ∧
      List.Forall₂ (fun call r ↦ call.Handled r.packet) calls rs := by
    induction calls with
    | nil => exact ⟨[], .nil, fun r hr ↦ absurd hr List.not_mem_nil, .nil⟩
    | cons call calls ih =>
        obtain ⟨rs, hsends, hsmall, hhandled⟩ :=
          ih fun call' hcall' ↦ hfits call' (List.mem_cons_of_mem _ hcall')
        obtain ⟨r, hr, hlen, hpacket⟩ := (hfits call List.mem_cons_self).sends
        exact ⟨r :: rs, .cons hr hsends, List.forall_mem_cons.mpr ⟨hlen, hsmall⟩,
          .cons hpacket hhandled⟩
  obtain ⟨rs, hsends, hsmall, hhandled⟩ := hall
  refine ⟨rs, hsends, fun chunks hcut hshort hroom cs hcs ↦ ?_⟩
  obtain ⟨b, hpath⟩ := path_arrived s hsmall hcut hshort hroom hcs
  have hpre : arrived cs.flatten.length rs <+: rs := Framing.within_prefix _ _ _
  refine ⟨b, _, hpath, List.length_map _, ?_, fun hwhole ↦ ?_⟩
  · -- the packets that have arrived are those of the first calls
    rw [List.length_map, List.forall₂_map_right_iff]
    rw [List.prefix_iff_eq_take] at hpre
    conv =>
      arg 3
      rw [hpre]
    exact List.forall₂_take _ hhandled
  · rw [List.length_map, hwhole, hcut, arrived_all]
    exact hsends.length_eq.symm

/-- A ping and a message, in three chunks. -/
theorem requests_in_order_two :
    ∃ b ps, Path Receives zeroSession.fresh
        [[0, 0, 4, 0, 9, 0], [0, 0, 1, 0, 6], [0, 2, 0, 0, 0, 104, 105]] (b, ps) ∧
      List.Forall₂ ClientCall.Handled [.PingReq 9, .ChatReq 2 [104, 105]] ps := by
  have hfits : ∀ call ∈ [ClientCall.PingReq 9, .ChatReq 2 [104, 105]], call.Fits := by
    rw [List.forall_mem_cons, List.forall_mem_singleton]
    exact ⟨(by decide : 9 < 2 ^ 32), (by decide : 2 ≤ 1016 ∧ 2 ≤ 2)⟩
  obtain ⟨rs, hsends, hall⟩ := requests_in_order zeroSession _ hfits
  rw [List.forall₂_cons_left_iff] at hsends
  obtain ⟨ping, rest, hping, hrest, rfl⟩ := hsends
  rw [List.forall₂_cons_left_iff] at hrest
  obtain ⟨chat, empty, hchat, hempty, rfl⟩ := hrest
  cases List.forall₂_nil_left_iff.mp hempty
  -- the two packets
  have hversion : ping = versionRequest 0 PingReq_lt 9 := by
    have hsend := hping.1
    rw [ClientCall.send, ClientSend.PingReq, sendVersion_eq] at hsend
    exact (Option.some.inj (Option.some.inj hsend)).symm
  have hmessage : chat = ⟨1, messageData 2 [104, 105], ChatReq_lt, by decide⟩ := by
    have hcall : ∃ r, ClientSend.ChatReq 2 [104, 105] = some (some r) ∧ Carries r 2 [104, 105] :=
      ChatReq_of_le (by decide) (by decide)
    obtain ⟨r, hsend, hr⟩ := hcall
    have hsame : r = chat := Option.some.inj (Option.some.inj (hsend.symm.trans hchat.1))
    rw [← hsame]
    exact SendRequest.eq_of hr.type hr.data
  obtain ⟨b, ps, hpath, -, hhandled, hlen⟩ :=
    hall [[0, 0, 4, 0, 9, 0], [0, 0, 1, 0, 6], [0, 2, 0, 0, 0, 104, 105]]
      (by rw [hversion, hmessage]; decide) (by decide) (copiesFitAll_of_short (by decide)) _
      (List.prefix_refl _)
  rw [hlen rfl, List.take_length] at hhandled
  exact ⟨b, ps, hpath, hhandled⟩

end Calls

end Fantuan
