import Fantuan.Lib.Storage
import Fantuan.Lib.Words
import Fantuan.Midware.StreamCalls

/-!
# chat_rpc.cpp, chat_rpc.h — `ChatReq_Callback` and `ChatAck_Callback`

Both callbacks read a `uint32` length and an array of so many characters, of which `Serialize`
counts the lowest 16 bits only.  A write outside of a local buffer has no result.
-/

open Lib

namespace Fantuan

/-! ## 1. The callbacks -/

/-- What the callbacks start with, for `char message[n]`.  Without a message one of the two calls of
`Serialize` has returned `false`. -/
def readMessage (n : ℕ) (stream : InputStream) :
    Option (InputStream × Option (ℕ × Storage UInt8 n)) := do
  match ← stream.Serialize 4 with
  | (stream, none) => some (stream, none)
  | (stream, some len) =>
      match ← stream.SerializeArray 1 (uint16 (leValue len)) with
      | (stream, none) => some (stream, none)
      | (stream, some array) =>
          let message ← (Storage.replicate n 0).memcpy 0 array array.length
          some (stream, some (leValue len, message))

/-- Hand a message that was read to `report`; without one the callback returns `false`. -/
def callback {β : Type} (n : ℕ) (report : ℕ → Storage UInt8 n → Option (ℕ × β))
    (stream : InputStream) : Option (InputStream × Option (ℕ × β)) := do
  match ← readMessage n stream with
  | (stream, none) => some (stream, none)
  | (stream, some (len, message)) =>
      let reported ← report len message
      some (stream, some reported)

/-- The result is what `OnChatReq` is called with. -/
def ChatReq_Callback (stream : InputStream) :
    Option (InputStream × Option (ℕ × Storage UInt8 MAX_INPUT_BUFFER)) :=
  callback MAX_INPUT_BUFFER (fun len message ↦ do
    let message ← message.write len [0]
    some (len, message)) stream

section Client

-- Converts characters, and writes at most `cchWideChar` wide ones.
variable (MultiByteToWideChar : List UInt8 → ℕ → List UInt16)

/-- `ClientRecv::ChatAck`; the result is what is logged, `len` and `szMessage`. -/
def ChatAck (len : ℕ) (message : Storage UInt8 1024) : Option (ℕ × Storage UInt16 128) := do
  let szMessage ←
    (Storage.replicate 128 0).write 0 (MultiByteToWideChar (message.data.take 128) 128)
  some (len, szMessage)

def ChatAck_Callback (stream : InputStream) :
    Option (InputStream × Option (ℕ × Storage UInt16 128)) :=
  callback 1024 (ChatAck MultiByteToWideChar) stream

end Client

/-! ## 2. Contents -/

/-- A callback writes inside its buffers, and the length that it reports is the number of bytes that
it has read for the message, which come after the four of the length. -/
def Decodes {β : Type} (callback : InputStream → Option (InputStream × Option (ℕ × β)))
    (content : List UInt8) : Prop :=
  ∃ t r, callback (.new content.length content) = some (t, r) ∧
    ∀ len message, r = some (len, message) → t.m_iDataIndex = 4 + len

def lengthField (content : List UInt8) : ℕ := leValue (content.take 4)

/-- There is no length, or there are fewer bytes after it than its lowest 16 bits say. -/
def Refused (content : List UInt8) : Prop :=
  content.length < 4 + uint16 (lengthField content)

variable {content : List UInt8} {n : ℕ}

instance (content : List UInt8) : Decidable (Refused content) := inferInstanceAs (Decidable (_ < _))

theorem Serialize_length (hlen : content.length < 2 ^ 16) (hfour : 4 ≤ content.length) :
    InputStream.Serialize (.new content.length content) 4 =
      some (⟨content.length, 4, content⟩, some (content.take 4)) := by
  rw [InputStream.new, uint16_of_lt hlen]
  show (Shape.scalar 4).read ⟨content.length, 0, content⟩ = _
  exact Shape.read_of_le hfour hlen (Nat.le_refl _)

theorem uint16_mul_one (k : ℕ) : uint16 (uint16 k * 1) = uint16 k := by
  rw [Nat.mul_one]
  exact Nat.mod_mod k (2 ^ 16)

theorem readMessage_of_refused (hlen : content.length < 2 ^ 16) (h : Refused content) :
    ∃ t, readMessage n (.new content.length content) = some (t, none) := by
  unfold readMessage
  by_cases hfour : 4 ≤ content.length
  · -- the length is read, the message is not
    have harray : InputStream.SerializeArray ⟨content.length, 4, content⟩ 1
        (uint16 (lengthField content)) = some (⟨content.length, 4, content⟩, none) := by
      show (Shape.array 1 (uint16 (lengthField content))).read _ = _
      apply Shape.read_of_lt hfour hlen
      rw [Shape.size, uint16_mul_one]
      exact h
    refine ⟨⟨content.length, 4, content⟩, ?_⟩
    rw [Serialize_length hlen hfour, Option.bind_eq_bind, Option.bind_some]
    dsimp only
    rw [← lengthField, harray]
    rfl
  · have hshort : InputStream.Serialize ⟨content.length, 0, content⟩ 4 =
        some (⟨content.length, 0, content⟩, none) := by
      show (Shape.scalar 4).read _ = _
      apply Shape.read_of_lt (Nat.zero_le _) hlen
      rw [Shape.size]
      omega
    refine ⟨⟨content.length, 0, content⟩, ?_⟩
    rw [InputStream.new, uint16_of_lt hlen, hshort]
    rfl

-- Otherwise the bytes that are read are copied to `message`.
theorem readMessage_eq (hlen : content.length < 2 ^ 16) (h : ¬ Refused content) :
    readMessage n (.new content.length content) =
      ((Storage.replicate n 0).memcpy 0 ((content.drop 4).take (uint16 (lengthField content)))
        (uint16 (lengthField content))).bind fun message ↦
          some (⟨content.length, 4 + uint16 (lengthField content), content⟩,
            some (lengthField content, message)) := by
  have hfits : 4 + uint16 (lengthField content) ≤ content.length := Nat.not_lt.mp h
  have harray : InputStream.SerializeArray ⟨content.length, 4, content⟩ 1
      (uint16 (lengthField content)) =
        some (⟨content.length, 4 + uint16 (lengthField content), content⟩,
          some ((content.drop 4).take (uint16 (lengthField content)))) := by
    have hsize : (Shape.array 1 (uint16 (lengthField content))).size =
        uint16 (lengthField content) := uint16_mul_one _
    have hread := Shape.read_of_le (i := 4) (hsize ▸ hfits) hlen (Nat.le_refl _)
    rw [hsize] at hread
    exact hread
  have hlength : ((content.drop 4).take (uint16 (lengthField content))).length =
      uint16 (lengthField content) := by
    rw [List.length_take, List.length_drop]
    omega
  unfold readMessage
  rw [Serialize_length hlen (by omega), Option.bind_eq_bind, Option.bind_some]
  dsimp only
  rw [← lengthField, harray, Option.bind_some]
  dsimp only
  rw [hlength]
  rfl

-- A message for which there is no room.
theorem readMessage_of_long (hlen : content.length < 2 ^ 16) (h : ¬ Refused content)
    (hlong : n < uint16 (lengthField content)) :
    readMessage n (.new content.length content) = none := by
  rw [readMessage_eq hlen h, Storage.memcpy_eq_none.mpr (.inr (by omega)), Option.bind_none]

theorem readMessage_of_fits (hlen : content.length < 2 ^ 16) (h : ¬ Refused content)
    (hfits : uint16 (lengthField content) ≤ n) :
    ∃ message, readMessage n (.new content.length content) =
      some (⟨content.length, 4 + uint16 (lengthField content), content⟩,
        some (lengthField content, message)) := by
  have hleft : 4 + uint16 (lengthField content) ≤ content.length := Nat.not_lt.mp h
  cases hcopy : (Storage.replicate n 0).memcpy 0
      ((content.drop 4).take (uint16 (lengthField content))) (uint16 (lengthField content)) with
  | none =>
      rw [Storage.memcpy_eq_none, List.length_take, List.length_drop] at hcopy
      omega
  | some message =>
      refine ⟨message, ?_⟩
      rw [readMessage_eq hlen h, hcopy, Option.bind_some]

/-! ## 3. What is reported -/

section Report

variable {β : Type} {report : ℕ → Storage UInt8 n → Option (ℕ × β)}

theorem callback_of_message {s t : InputStream} {len : ℕ} {message : Storage UInt8 n}
    (h : readMessage n s = some (t, some (len, message))) :
    callback n report s = (report len message).bind fun reported ↦ some (t, some reported) := by
  rw [callback, h]
  rfl

theorem not_decodes_of_none (h : callback n report (.new content.length content) = none) :
    ¬ Decodes (callback n report) content := by
  intro hdecodes
  obtain ⟨t, r, hcall, -⟩ := hdecodes
  exact nomatch h.symm.trans hcall

theorem decodes_of_reported {t : InputStream} {len : ℕ} {b : β}
    (h : callback n report (.new content.length content) = some (t, some (len, b))) :
    Decodes (callback n report) content ↔ t.m_iDataIndex = 4 + len := by
  constructor
  · intro hdecodes
    obtain ⟨t', r, hcall, hlength⟩ := hdecodes
    rw [h, Option.some.injEq, Prod.mk.injEq] at hcall
    rw [hcall.1]
    exact hlength len b hcall.2.symm
  · intro hlength
    refine ⟨t, some (len, b), h, fun len' b' hr ↦ ?_⟩
    cases hr
    exact hlength

-- `report` writes inside its buffers for the lengths that are `Inside`, and for no others.
theorem decodes_callback_iff (hlen : content.length < 2 ^ 16) (Inside : ℕ → Prop)
    (hinside : ∀ len message, Inside len → ∃ b, report len message = some (len, b))
    (houtside : ∀ len message, ¬ Inside len → report len message = none) :
    Decodes (callback n report) content ↔
      Refused content ∨ lengthField content < 2 ^ 16 ∧ lengthField content ≤ n ∧
        Inside (lengthField content) := by
  by_cases href : Refused content
  · obtain ⟨t, hread⟩ := readMessage_of_refused (n := n) hlen href
    refine iff_of_true ⟨t, none, ?_, nofun⟩ (.inl href)
    rw [callback, hread]
    rfl
  · rw [or_iff_right href]
    have hmod : uint16 (lengthField content) < 2 ^ 16 := Nat.mod_lt _ (by decide)
    by_cases hfits : uint16 (lengthField content) ≤ n
    · obtain ⟨message, hread⟩ := readMessage_of_fits hlen href hfits
      have hcall : callback n report (.new content.length content) = _ :=
        callback_of_message hread
      by_cases hin : Inside (lengthField content)
      · -- reported is the whole length, read were its lowest 16 bits
        obtain ⟨b, hb⟩ := hinside _ message hin
        rw [hb, Option.bind_some] at hcall
        rw [decodes_of_reported hcall]
        constructor
        · intro hindex
          have hsame : uint16 (lengthField content) = lengthField content :=
            Nat.add_left_cancel hindex
          exact ⟨hsame ▸ hmod, hsame ▸ hfits, hin⟩
        · intro h
          show 4 + uint16 (lengthField content) = 4 + lengthField content
          rw [uint16_of_lt h.1]
      · rw [houtside _ message hin, Option.bind_none] at hcall
        exact iff_of_false (not_decodes_of_none hcall) fun h ↦ hin h.2.2
    · have hcall : callback n report (.new content.length content) = none := by
        rw [callback, readMessage_of_long hlen href (Nat.not_le.mp hfits)]
        rfl
      exact iff_of_false (not_decodes_of_none hcall)
        fun h ↦ hfits (Nat.le_trans (Nat.mod_le _ _) h.2.1)

end Report

theorem ChatReq_decodes_iff (hlen : content.length < 2 ^ 16) :
    Decodes ChatReq_Callback content ↔
      Refused content ∨ lengthField content < MAX_INPUT_BUFFER := by
  -- the `'\0'` is written behind as many characters as the whole length says
  have hiff : Decodes ChatReq_Callback content ↔ _ :=
    decodes_callback_iff hlen (· < MAX_INPUT_BUFFER) ?_ ?_
  · refine hiff.trans (or_congr_right ⟨fun h ↦ h.2.2, fun h ↦ ⟨?_, Nat.le_of_lt h, h⟩⟩)
    exact Nat.lt_trans h (by decide)
  · intro len message hlt
    have hwrite : ∃ b, message.write len [0] = some b := message.write_of_le hlt
    obtain ⟨b, hb⟩ := hwrite
    rw [hb]
    exact ⟨b, rfl⟩
  · intro len message hge
    have hwrite : message.write len [0] = none := message.write_of_lt (by
      rw [List.length_singleton]
      omega)
    rw [hwrite]
    rfl

theorem ChatAck_decodes_iff {MultiByteToWideChar : List UInt8 → ℕ → List UInt16}
    (hwide : ∀ message cchWideChar,
      (MultiByteToWideChar message cchWideChar).length ≤ cchWideChar)
    (hlen : content.length < 2 ^ 16) :
    Decodes (ChatAck_Callback MultiByteToWideChar) content ↔
      Refused content ∨ lengthField content ≤ 1024 := by
  have hiff : Decodes (ChatAck_Callback MultiByteToWideChar) content ↔ _ :=
    decodes_callback_iff hlen (fun _ ↦ True) ?_ fun _ _ hfalse ↦ absurd trivial hfalse
  · refine hiff.trans (or_congr_right ⟨fun h ↦ h.2.1, fun h ↦ ⟨?_, h, trivial⟩⟩)
    exact Nat.lt_of_le_of_lt h (by decide)
  · intro len message _
    have hfits : 0 + (MultiByteToWideChar (message.data.take 128) 128).length ≤ 128 := by
      rw [Nat.zero_add]
      exact hwide _ _
    obtain ⟨b, hb⟩ := (Storage.replicate 128 (0 : UInt16)).write_of_le hfits
    rw [ChatAck, hb]
    exact ⟨b, rfl⟩

/-- **Chat messages decode safely** if and only if the content is refused or the whole length is
below the size of `message`; without the `'\0'` of the server it may be as large. -/
theorem chat_decodes_iff (MultiByteToWideChar : List UInt8 → ℕ → List UInt16)
    (hwide : ∀ message cchWideChar,
      (MultiByteToWideChar message cchWideChar).length ≤ cchWideChar)
    (content : List UInt8) (hlen : content.length < 2 ^ 16) :
    (Decodes ChatReq_Callback content ↔
      Refused content ∨ lengthField content < MAX_INPUT_BUFFER) ∧
    (Decodes (ChatAck_Callback MultiByteToWideChar) content ↔
      Refused content ∨ lengthField content ≤ 1024) :=
  ⟨ChatReq_decodes_iff hlen, ChatAck_decodes_iff hwide hlen⟩

/-- Of characters below 128. -/
def asciiToWideChar (message : List UInt8) (cchWideChar : ℕ) : List UInt16 :=
  if message.length ≤ cchWideChar then message.map UInt8.toUInt16 else []

theorem length_asciiToWideChar (message : List UInt8) (cchWideChar : ℕ) :
    (asciiToWideChar message cchWideChar).length ≤ cchWideChar := by
  unfold asciiToWideChar
  split
  · rwa [List.length_map]
  · exact Nat.zero_le _

/-- A message of two characters. -/
theorem chat_decodes_two :
    Decodes ChatReq_Callback [2, 0, 0, 0, 104, 105] ∧
      Decodes (ChatAck_Callback asciiToWideChar) [2, 0, 0, 0, 104, 105] := by
  obtain ⟨hreq, hack⟩ := chat_decodes_iff asciiToWideChar length_asciiToWideChar
    [2, 0, 0, 0, 104, 105] (by decide)
  exact ⟨hreq.mpr (.inr (by decide)), hack.mpr (.inr (by decide))⟩

/-- Four bytes are the length 65536: `message[65536]` is written, and so many bytes are reported
when none was read. -/
theorem not_chat_decodes :
    ¬ Decodes ChatReq_Callback [0, 0, 1, 0] ∧
      ¬ Decodes (ChatAck_Callback asciiToWideChar) [0, 0, 1, 0] := by
  rw [ChatReq_decodes_iff (by decide), ChatAck_decodes_iff length_asciiToWideChar (by decide)]
  decide

end Fantuan
