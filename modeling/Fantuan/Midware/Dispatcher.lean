import Fantuan.Midware.ChatMessages
import Fantuan.Midware.SendFrame

/-!
# easy_dispatcher.cpp, chat_rpc.cpp, chat_rpc.h — calls from one end to the other

A sender writes its arguments to a stream, and `SendPacket` passes on what the stream holds.  The
other end takes the function for the type of the packet out of a table, and the function reads the
arguments back.
-/

open Lib

namespace Fantuan

/-! ## 1. The dispatcher -/

namespace EasyDispatcher

/-- The result is what the function calls its handler with, unless it returns `false`. -/
abbrev Func (β : Type) := InputStream → Option (InputStream × Option β)

/-- The same function, its calls told apart from those of others. -/
def Func.as {α β : Type} (func : Func α) (f : α → β) : Func β :=
  fun stream ↦ (func stream).map fun r ↦ (r.1, r.2.map f)

/-- A pointer that is `NULL`, or behind the end of `m_pFuncList`, is called all the same. -/
def OnPacketReceived {β : Type} (m_pFuncList : List (Option (Func β))) (packet : EasyPacket) :
    Option (Option β) := do
  let func ← m_pFuncList[packet.m_iTypeId]?.join
  let (_, called) ← func (.new packet.m_iLen packet.m_Buf)
  some called

variable {α β : Type} {m_pFuncList : List (Option (Func β))} {packet : EasyPacket}

theorem OnPacketReceived_eq {func : Func β}
    (h : m_pFuncList[packet.m_iTypeId]?.join = some func) :
    OnPacketReceived m_pFuncList packet =
      (func (.new packet.m_iLen packet.m_Buf)).map Prod.snd := by
  rw [OnPacketReceived, h, Option.bind_eq_bind, Option.bind_some]
  cases func (.new packet.m_iLen packet.m_Buf) with
  | none => rfl
  | some r => rfl

theorem OnPacketReceived_as {func : Func α} {f : α → β}
    (h : m_pFuncList[packet.m_iTypeId]?.join = some (func.as f)) :
    OnPacketReceived m_pFuncList packet =
      (func (.new packet.m_iLen packet.m_Buf)).map fun r ↦ r.2.map f := by
  rw [OnPacketReceived_eq h, Func.as, Option.map_map]
  rfl

end EasyDispatcher

/-- What `SendPacket` is given of a stream. -/
def OutputStream.request (stream : OutputStream) (iTypeId : ℕ) (h : iTypeId < 2 ^ 16) :
    SendRequest where
  iTypeId := iTypeId
  pData := stream.GetBuffer.take stream.GetDataLength
  iTypeId_lt := h
  length_pData_lt := by
    have hlen := stream.m_DataBuffer.length_data
    rw [OutputStream.GetBuffer, List.length_take, hlen, MAX_OUTPUT_BUFFER]
    omega

/-! ## 2. Senders

They return 0 and have called `SendPacket`, or return -1, which is the second `none`.
-/

section Senders

variable (iTypeId : ℕ) (h : iTypeId < 2 ^ 16)

/-- The body of `PingReq` and of `PingAck`. -/
def sendVersion (iVersion : ℕ) : Option (Option SendRequest) := do
  match ← OutputStream.new.Serialize (leBytes 4 iVersion) with
  | (_, false) => some none
  | (stream, true) => some (some (stream.request iTypeId h))

/-- The body of `ChatReq` and of `ChatAck`, with what can be read at `message`. -/
def sendMessage (iLen : ℕ) (message : List UInt8) : Option (Option SendRequest) := do
  match ← OutputStream.new.Serialize (leBytes 4 iLen) with
  | (_, false) => some none
  | (stream, true) =>
      match ← stream.SerializeArray 1 (uint16 iLen) message with
      | (_, false) => some none
      | (stream, true) => some (some (stream.request iTypeId h))

end Senders

theorem PingReq_lt : 0 < 2 ^ 16 := by decide

theorem ChatReq_lt : 1 < 2 ^ 16 := by decide

def ClientSend.PingReq : ℕ → Option (Option SendRequest) := sendVersion 0 PingReq_lt

def ClientSend.ChatReq : ℕ → List UInt8 → Option (Option SendRequest) :=
  sendMessage 1 ChatReq_lt

def ChatTest.PingAck : ℕ → Option (Option SendRequest) := sendVersion 0 PingReq_lt

def ChatTest.ChatAck : ℕ → List UInt8 → Option (Option SendRequest) :=
  sendMessage 1 ChatReq_lt

/-! ## 3. Tables of functions -/

/-- The body of `PingReq_Callback` and of `PingAck_Callback`. -/
def readVersion (stream : InputStream) : Option (InputStream × Option ℕ) := do
  let (stream, iVersion) ← stream.Serialize 4
  some (stream, iVersion.map leValue)

def PingReq_Callback : EasyDispatcher.Func ℕ := readVersion

def ClientRecv.PingAck_Callback : EasyDispatcher.Func ℕ := readVersion

/-- Calls of a `ChatSession`. -/
inductive ChatRequest
  | OnPingReq (iVersion : ℕ)
  | OnChatReq (iLen : ℕ) (message : Storage UInt8 MAX_INPUT_BUFFER)
deriving DecidableEq

/-- The table of chat_rpc.cpp. -/
def ChatTest.func : List (Option (EasyDispatcher.Func ChatRequest)) :=
  [some (EasyDispatcher.Func.as PingReq_Callback .OnPingReq),
    some (EasyDispatcher.Func.as ChatReq_Callback fun called ↦ .OnChatReq called.1 called.2)]

/-- Calls of `ClientRecv`, the second with what it logs. -/
inductive ChatReply
  | PingAck (iVersion : ℕ)
  | ChatAck (len : ℕ) (szMessage : Storage UInt16 128)
deriving DecidableEq

/-- The table of chat_rpc.h, with the `NULL` at its end. -/
def ClientRecv.func (MultiByteToWideChar : List UInt8 → ℕ → List UInt16) :
    List (Option (EasyDispatcher.Func ChatReply)) :=
  [some (EasyDispatcher.Func.as ClientRecv.PingAck_Callback .PingAck),
    some (EasyDispatcher.Func.as (ChatAck_Callback MultiByteToWideChar)
      fun called ↦ .ChatAck called.1 called.2),
    none]

/-! ## 4. What is sent -/

section Sent

variable {iTypeId iVersion iLen : ℕ} {h : iTypeId < 2 ^ 16} {message : List UInt8}

def versionRequest (iTypeId : ℕ) (h : iTypeId < 2 ^ 16) (iVersion : ℕ) : SendRequest where
  iTypeId := iTypeId
  pData := leBytes 4 iVersion
  iTypeId_lt := h
  length_pData_lt := by
    rw [length_leBytes]
    decide

/-- `iLen` as a whole, and as many bytes of the message as its lowest 16 bits say. -/
def messageData (iLen : ℕ) (message : List UInt8) : List UInt8 :=
  leBytes 4 iLen ++ message.take (uint16 iLen)

theorem length_messageData (hmessage : uint16 iLen ≤ message.length) :
    (messageData iLen message).length = 4 + uint16 iLen := by
  rw [messageData, List.length_append, length_leBytes, List.length_take, Nat.min_eq_left hmessage]

theorem OutputStream.request_eq {stream : OutputStream} {r : SendRequest}
    (hdata : stream.written = r.pData) : stream.request r.iTypeId r.iTypeId_lt = r := by
  cases r
  cases hdata
  rfl

theorem Serialize_new {value : List UInt8} (hvalue : value.length = 4) :
    ∃ stream, OutputStream.new.Serialize value = some (stream, true) ∧
      stream.m_iDataLength = 4 ∧ stream.written = value := by
  have hzero : OutputStream.new.m_iDataLength = 0 := rfl
  have hfit : OutputStream.new.m_iDataLength + value.length ≤ MAX_OUTPUT_BUFFER := by
    rw [hzero, hvalue]
    decide
  obtain ⟨stream, hput, hlen, hwritten⟩ := OutputStream.put_of_le (Nat.le_refl _) hfit
  refine ⟨stream, hput, ?_, ?_⟩
  · rw [hlen, hzero, hvalue]
  · rw [hwritten, List.take_length]
    rfl

theorem sendVersion_eq :
    sendVersion iTypeId h iVersion = some (some (versionRequest iTypeId h iVersion)) := by
  have hlen : (leBytes 4 iVersion).length = 4 := length_leBytes
  obtain ⟨stream, hput, -, hwritten⟩ := Serialize_new hlen
  have hrequest : stream.request iTypeId h = versionRequest iTypeId h iVersion :=
    OutputStream.request_eq (r := versionRequest iTypeId h iVersion) hwritten
  simp only [sendVersion, hput, Option.bind_eq_bind, Option.bind_some, hrequest]

-- Both calls of `Serialize` return `true` for what the stream has room for.
theorem sendMessage_of_le (h : iTypeId < 2 ^ 16) (hmessage : uint16 iLen ≤ message.length)
    (hfit : 4 + uint16 iLen ≤ MAX_OUTPUT_BUFFER) :
    ∃ r, sendMessage iTypeId h iLen message = some (some r) ∧ r.iTypeId = iTypeId ∧
      r.pData = messageData iLen message := by
  have hfour : (leBytes 4 iLen).length = 4 := length_leBytes
  obtain ⟨stream, hput, hlen, hwritten⟩ := Serialize_new hfour
  have hroom : stream.m_iDataLength + uint16 (uint16 iLen * 1) ≤ MAX_OUTPUT_BUFFER := by
    rw [hlen, uint16_mul_one]
    exact hfit
  obtain ⟨stream', hput', hlen', hwritten'⟩ :=
    OutputStream.put_of_le (by rwa [uint16_mul_one]) hroom
  refine ⟨stream'.request iTypeId h, ?_, rfl, ?_⟩
  · simp only [sendMessage, hput, OutputStream.SerializeArray, hput', Option.bind_eq_bind,
      Option.bind_some]
  · show stream'.written = _
    rw [hwritten', hwritten, uint16_mul_one]
    rfl

theorem sendMessage_of_lt (hfit : MAX_OUTPUT_BUFFER < 4 + uint16 iLen) :
    sendMessage iTypeId h iLen message = some none := by
  have hfour : (leBytes 4 iLen).length = 4 := length_leBytes
  obtain ⟨stream, hput, hlen, -⟩ := Serialize_new hfour
  have hfull : MAX_OUTPUT_BUFFER < stream.m_iDataLength + uint16 (uint16 iLen * 1) := by
    rw [hlen, uint16_mul_one]
    exact hfit
  simp only [sendMessage, hput, OutputStream.SerializeArray, OutputStream.put_of_lt hfull,
    Option.bind_eq_bind, Option.bind_some]

end Sent

/-! ## 5. What is read back -/

section ReadBack

variable {n iVersion iLen : ℕ} {message : List UInt8}

theorem readVersion_leBytes (hversion : iVersion < 2 ^ 32) :
    ∃ stream, readVersion (.new 4 (leBytes 4 iVersion)) = some (stream, some iVersion) := by
  have hread :
      InputStream.Serialize (.new (leBytes 4 iVersion).length (leBytes 4 iVersion)) 4 = _ :=
    Serialize_length (by rw [length_leBytes]; decide) (by rw [length_leBytes])
  rw [length_leBytes, List.take_of_length_le (Nat.le_of_eq length_leBytes)] at hread
  refine ⟨⟨4, 4, leBytes 4 iVersion⟩, ?_⟩
  rw [readVersion, hread, Option.bind_eq_bind, Option.bind_some]
  show some (_, some (leValue (leBytes 4 iVersion))) = _
  rw [leValue_leBytes hversion]

theorem lengthField_messageData (hlen : iLen < 2 ^ 32) :
    lengthField (messageData iLen message) = iLen := by
  rw [lengthField, messageData, List.take_left' length_leBytes, leValue_leBytes hlen]

theorem not_refused_messageData (hlen : iLen < 2 ^ 32) (hmessage : uint16 iLen ≤ message.length) :
    ¬ Refused (messageData iLen message) := by
  rw [Refused, lengthField_messageData hlen, length_messageData hmessage]
  exact Nat.lt_irrefl _

-- The message comes to stand in front of the zeros.
theorem readMessage_messageData (hlen : iLen < 2 ^ 32) (hmessage : uint16 iLen ≤ message.length)
    (hdata : 4 + uint16 iLen < 2 ^ 16) (hfits : uint16 iLen ≤ n) :
    ∃ stream stored, readMessage n (.new (4 + uint16 iLen) (messageData iLen message)) =
        some (stream, some (iLen, stored)) ∧
      stored.data = message.take (uint16 iLen) ++ List.replicate (n - uint16 iLen) 0 := by
  have hlength := length_messageData hmessage
  have hshort : (messageData iLen message).length < 2 ^ 16 := by rwa [hlength]
  have hread := readMessage_eq (n := n) hshort (not_refused_messageData hlen hmessage)
  have hdrop : (messageData iLen message).drop 4 = message.take (uint16 iLen) :=
    List.drop_left' length_leBytes
  rw [hlength, lengthField_messageData hlen, hdrop, List.take_take, Nat.min_self] at hread
  cases hcopy : (Storage.replicate n 0).memcpy 0 (message.take (uint16 iLen)) (uint16 iLen) with
  | none =>
      rw [Storage.memcpy_eq_none, List.length_take] at hcopy
      omega
  | some stored =>
      rw [hcopy, Option.bind_some] at hread
      refine ⟨_, stored, hread, ?_⟩
      obtain ⟨-, -, hstored⟩ := Storage.memcpy_eq_some.mp hcopy
      rw [hstored, List.take_zero, List.nil_append, List.take_take, Nat.min_self, Nat.zero_add]
      show _ ++ (List.replicate n 0).drop _ = _
      rw [List.drop_replicate]

end ReadBack

end Fantuan
