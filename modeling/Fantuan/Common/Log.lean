import Mathlib.Data.List.DropRight
import Fantuan.Common.Buffer
import Fantuan.Common.Characters

/-!
# easy_log.cpp — the log

`EasyLog::Push` puts a record into a buffer of bytes, and `_Tick` takes all of it out and prints it.
Both are atomic under `m_Mutex`.  The buffer gives back its last bytes first, so that the records
keep their order only because a tick leaves nothing behind.  What the C library prints of a text
depends on the locale, which is "C" throughout: nothing in the source calls `setlocale`.  A function
has no result where it reads or writes outside a block of memory.
-/

open Lib

namespace Fantuan

/-! ## 1. The code -/

def BUFFER_MAX_SIZE : ℕ := 65535

/-- `wchar_t`, and what the C library makes of it in the locale "C". -/
class WideCharacter (T : Type) extends Encoded T where
  /-- The character can be converted to a `char`. -/
  Printable : T → Prop
  /-- What `printf("%ls", text)` prints, and `wprintf(_T("%s"), text)` on Windows. -/
  print : List T → List T
  print_eq_self_iff (text : List T) : print text = text ↔ ∀ c ∈ text, Printable c
  length_print_le (text : List T) : (print text).length ≤ text.length

-- `printf` converts the whole text first, and prints nothing if that fails.
instance : WideCharacter UInt32 where
  Printable c := c ≤ 127
  print text := if text.all fun c ↦ decide (c ≤ 127) then text else []
  print_eq_self_iff text := by
    have hall : (text.all fun c ↦ decide (c ≤ 127)) = true ↔ ∀ c ∈ text, c ≤ 127 := by
      simp only [List.all_eq_true, decide_eq_true_eq]
    split
    · rename_i h
      exact iff_of_true rfl (hall.mp h)
    · rename_i h
      refine iff_of_false (fun hnil ↦ h (hall.mpr ?_)) fun h' ↦ h (hall.mpr h')
      rw [← hnil]
      exact List.forall_mem_nil _
  length_print_le text := by
    split
    · exact Nat.le_refl _
    · exact Nat.zero_le _

-- `wprintf` prints `?` where there is no `char`.
instance : WideCharacter UInt16 where
  Printable c := c ≤ 255
  print text := text.map fun c ↦ if c ≤ 255 then c else 63
  print_eq_self_iff text := by
    have hid := List.map_inj_left (l := text) (f := fun c ↦ if c ≤ 255 then c else 63) (g := id)
    rw [List.map_id] at hid
    rw [hid]
    apply forall₂_congr
    intro c _
    show (if c ≤ 255 then c else 63) = c ↔ c ≤ 255
    split
    · rename_i h
      exact iff_of_true rfl h
    · rename_i h
      exact iff_of_false (fun hc ↦ h (hc ▸ (by decide : (63 : UInt16) ≤ 255))) h
  length_print_le text := Nat.le_of_eq (List.length_map _)

/-- What `Push` has formatted: without a 0, and no longer than its buffer. -/
abbrev Record (T : Type) [Zero T] := { t : Text T // t.1.length ≤ BUFFER_MAX_SIZE }

/-- The log for `wchar_t` being `T`, and what it has printed. -/
structure EasyLog (T : Type) [Encoded T] where
  m_strBuffer : Storage UInt8 (BUFFER_MAX_SIZE * Scalar.sizeof T)
  m_pEasyBuffer : EasyBuffer BUFFER_MAX_SIZE
  printed : List T

namespace EasyLog

variable {T : Type} [WideCharacter T] [DecidableEq T]

open WideCharacter

def new : EasyLog T := ⟨.replicate _ 0, .new, []⟩

/-- `Push`, once `RealBuffer` holds the record. -/
def Push (log : EasyLog T) (RealBuffer : Record T) : Option (Bool × EasyLog T) :=
  let wcslen := RealBuffer.1.1.length
  let iLength := uint32 (size_t (int32 wcslen) * Scalar.sizeof T)
  (log.m_pEasyBuffer.Push (pack RealBuffer.1.pData) iLength).map
    fun (ret, m_pEasyBuffer) ↦ (ret, { log with m_pEasyBuffer })

/-- The text up to the first 0 is passed to `printf`. -/
def _Output (log : EasyLog T) : Option (EasyLog T) :=
  (readText log.m_strBuffer.data).map fun text ↦
    { log with printed := log.printed ++ print text }

/-- `_Tick`, once `wait` has returned. -/
def _Tick (log : EasyLog T) : Option (EasyLog T) := do
  let iSize := uint16 log.m_pEasyBuffer.Size
  let m_strBuffer := Storage.replicate (BUFFER_MAX_SIZE * Scalar.sizeof T) 0
  let (iLength, m_strBuffer, m_pEasyBuffer) ← log.m_pEasyBuffer.Pop m_strBuffer iSize
  let log := { log with m_strBuffer, m_pEasyBuffer }
  if uint16 iLength ≠ 0 then log._Output else some log

/-- A call of one of the threads, with what it returns. -/
inductive Call (T : Type) [Zero T]
  | Push (RealBuffer : Record T) (ret : Bool)
  | _Tick

def Step (log : EasyLog T) (call : Call T) (log' : EasyLog T) : Prop :=
  match call with
  | .Push RealBuffer ret => log.Push RealBuffer = some (ret, log')
  | ._Tick => log._Tick = some log'

/-- The characters of the records whose `Push` returned true, in the order of the calls. -/
def accepted : List (Call T) → List T
  | [] => []
  | .Push RealBuffer true :: calls => RealBuffer.1.1 ++ accepted calls
  | .Push _ false :: calls => accepted calls
  | ._Tick :: calls => accepted calls

def Call.isTick : Call T → Bool
  | ._Tick => true
  | .Push _ _ => false

/-- The calls up to the last tick. -/
def untilTick (calls : List (Call T)) : List (Call T) := calls.rdropWhile (!·.isTick)

/-! ## 2. One call -/

omit [DecidableEq T] in
theorem accepted_append (calls calls' : List (Call T)) :
    accepted (calls ++ calls') = accepted calls ++ accepted calls' := by
  induction calls with
  | nil => rfl
  | cons call calls ih =>
      cases call with
      | Push r ret =>
          cases ret with
          | true =>
              rw [List.cons_append, accepted, ih, accepted, List.append_assoc]
          | false => exact ih
      | _Tick => exact ih

/-- The buffer holds the characters `l`, and nothing behind them counts. -/
structure Buffers (log : EasyLog T) (l : List T) : Prop where
  no_zero : 0 ∉ l
  tail : log.m_pEasyBuffer.m_pTail = l.length * Scalar.sizeof T
  size : log.m_pEasyBuffer.m_iSize = l.length * Scalar.sizeof T
  room : l.length * Scalar.sizeof T < BUFFER_MAX_SIZE
  bytes : log.m_pEasyBuffer.bytes = pack l

namespace Buffers

variable {log : EasyLog T} {l : List T}

omit [DecidableEq T] in
theorem of_empty {m_strBuffer : Storage UInt8 (BUFFER_MAX_SIZE * Scalar.sizeof T)}
    {m_pEasyBuffer : EasyBuffer BUFFER_MAX_SIZE} {printed : List T}
    (hvalid : m_pEasyBuffer.Valid) (hbytes : m_pEasyBuffer.bytes = []) :
    Buffers ⟨m_strBuffer, m_pEasyBuffer, printed⟩ [] := by
  have hsize : m_pEasyBuffer.m_iSize = 0 := by
    rw [← hvalid.length_bytes, hbytes, List.length_nil]
  have htail : m_pEasyBuffer.m_pTail = 0 := hvalid.m_pTail.trans hsize
  exact ⟨List.not_mem_nil, htail.trans (Nat.zero_mul _).symm, hsize.trans (Nat.zero_mul _).symm,
    by rw [List.length_nil, Nat.zero_mul]; decide, hbytes⟩

omit [DecidableEq T] in
theorem new : Buffers (T := T) .new [] := of_empty EasyBuffer.valid_new List.take_zero

omit [DecidableEq T] in
theorem valid (h : Buffers log l) : log.m_pEasyBuffer.Valid where
  m_pTail := h.tail.trans h.size.symm
  m_iSize_le := by
    rw [h.size]
    exact Nat.le_of_lt h.room

omit [DecidableEq T] in
theorem iLength_eq (r : Record T) :
    uint32 (size_t (int32 r.1.1.length) * Scalar.sizeof T) =
      r.1.1.length * Scalar.sizeof T := by
  have hr : r.1.1.length ≤ 65535 := r.2
  have hz : Scalar.sizeof T ≤ 64 := Character.sizeof_le
  have hprod : r.1.1.length * Scalar.sizeof T ≤ 65535 * 64 := Nat.mul_le_mul hr hz
  rw [int32_of_lt (by omega) (by omega), size_t_of_lt (by omega), uint32_of_lt (by omega)]

omit [DecidableEq T] in
-- A record that has room comes behind the others.
theorem push (h : Buffers log l) (r : Record T)
    (hroom : (l.length + r.1.1.length) * Scalar.sizeof T < BUFFER_MAX_SIZE) :
    ∃ log', log.Push r = some (true, log') ∧ log'.printed = log.printed ∧
      Buffers log' (l ++ r.1.1) := by
  have hsum : log.m_pEasyBuffer.m_iSize + r.1.1.length * Scalar.sizeof T =
      (l.length + r.1.1.length) * Scalar.sizeof T := by
    rw [h.size, Nat.add_mul]
  have hsource : r.1.1.length * Scalar.sizeof T ≤ (pack r.1.pData).length := by
    rw [Text.length_pack_pData, Text.num, Nat.mul_succ, Nat.mul_comm]
    exact Nat.le_add_right _ _
  have htext : (pack r.1.pData).take (r.1.1.length * Scalar.sizeof T) = pack r.1.1 := by
    rw [Text.pack_pData, ← length_pack, List.take_left]
  obtain ⟨c, hpush, hvalid, hbytes⟩ :=
    h.valid.push_of_room (by decide) hsource (by rwa [hsum])
  rw [h.bytes, htext, ← pack_append] at hbytes
  have hsize : c.m_iSize = (l ++ r.1.1).length * Scalar.sizeof T := by
    rw [← hvalid.length_bytes, hbytes, length_pack]
  refine ⟨{ log with m_pEasyBuffer := c }, ?_, rfl, ?_, hvalid.m_pTail.trans hsize, hsize, ?_,
    hbytes⟩
  · rw [EasyLog.Push, iLength_eq, hpush]
    rfl
  · intro hmem
    cases List.mem_append.mp hmem with
    | inl hl => exact h.no_zero hl
    | inr hr => exact r.1.2 hr
  · rw [List.length_append]
    exact hroom

omit [DecidableEq T] in
-- A record that has no room changes nothing.
theorem push_full (h : Buffers log l) (r : Record T)
    (hfull : BUFFER_MAX_SIZE ≤ (l.length + r.1.1.length) * Scalar.sizeof T) :
    log.Push r = some (false, log) := by
  have hmax : BUFFER_MAX_SIZE = 65535 := rfl
  have hr : r.1.1.length ≤ 65535 := r.2
  have hz : Scalar.sizeof T ≤ 64 := Character.sizeof_le
  have hprod : r.1.1.length * Scalar.sizeof T ≤ 65535 * 64 := Nat.mul_le_mul hr hz
  have hl := h.room
  have hsum : l.length * Scalar.sizeof T + r.1.1.length * Scalar.sizeof T =
      (l.length + r.1.1.length) * Scalar.sizeof T := (Nat.add_mul _ _ _).symm
  have hsize : uint32 (log.m_pEasyBuffer.m_iSize + r.1.1.length * Scalar.sizeof T) =
      (l.length + r.1.1.length) * Scalar.sizeof T := by
    rw [h.size, hsum, uint32_of_lt (by omega)]
  rw [EasyLog.Push, iLength_eq, EasyBuffer.push_of_full (by rwa [hsize])]
  rfl

-- A tick passes all there is to `printf` and leaves nothing.
theorem tick (h : Buffers log l) :
    ∃ log', log._Tick = some log' ∧ log'.printed = log.printed ++ print l ∧
      Buffers log' [] := by
  have hmax : BUFFER_MAX_SIZE = 65535 := rfl
  have hroom := h.room
  have hz := Scalar.sizeof_pos (T := T)
  have hchars : l.length ≤ l.length * Scalar.sizeof T := Nat.le_mul_of_pos_right _ hz
  have hbehind : (l.length + 1) * Scalar.sizeof T ≤ BUFFER_MAX_SIZE * Scalar.sizeof T :=
    Nat.mul_le_mul_right _ (by omega)
  rw [Nat.succ_mul] at hbehind
  have hiSize : uint16 log.m_pEasyBuffer.Size = l.length * Scalar.sizeof T := by
    rw [EasyBuffer.Size, h.size, uint16_of_lt (by omega)]
  have hlength : (pack l).length = l.length * Scalar.sizeof T := length_pack
  obtain ⟨m, c, hpop, hvalid, hdata, hrest⟩ := h.valid.pop
    (Storage.replicate (BUFFER_MAX_SIZE * Scalar.sizeof T) 0) (Nat.le_of_add_right_le hbehind)
  rw [EasyBuffer.Size, h.size, Nat.min_self] at hpop hdata
  rw [h.bytes, List.rdrop, hlength, Nat.sub_self, List.take_zero] at hrest
  -- the records and at least one 0 behind them are in `m_strBuffer`
  have hread : readText m.data = some l := by
    rw [h.bytes, List.rtake, hlength, Nat.sub_self, List.drop_zero, Storage.replicate,
      List.drop_replicate] at hdata
    apply readText_eq_some.mpr
    refine ⟨h.no_zero, ?_⟩
    rw [pack_append, pack_zero, hdata, List.prefix_append_right_inj]
    exact ⟨_, (List.replicate_add _ _ _).symm.trans (congrArg (List.replicate · 0)
      (Nat.add_sub_cancel' (by omega)))⟩
  by_cases hl : uint16 (l.length * Scalar.sizeof T) ≠ 0
  · refine ⟨⟨m, c, log.printed ++ print l⟩, ?_, rfl, of_empty hvalid hrest⟩
    simp only [_Tick, hiSize, hpop, Option.bind_eq_bind, Option.bind_some, if_pos hl, _Output,
      hread, Option.map_some]
  · have hnil : l = [] := by
      rw [uint16_of_lt (by omega)] at hl
      exact List.length_eq_zero_iff.mp (by omega)
    refine ⟨⟨m, c, log.printed⟩, ?_, ?_, of_empty hvalid hrest⟩
    · simp only [_Tick, hiSize, hpop, Option.bind_eq_bind, Option.bind_some, if_neg hl]
    · rw [hnil, (print_eq_self_iff []).mpr (List.forall_mem_nil _), List.append_nil]

end Buffers

/-! ## 3. Runs -/

section Runs

variable {calls : List (Call T)} {log : EasyLog T}

omit [DecidableEq T] in
theorem untilTick_Push (r : Record T) (ret : Bool) :
    untilTick (calls ++ [.Push r ret]) = untilTick calls :=
  List.rdropWhile_concat_pos _ _ _ rfl

omit [DecidableEq T] in
theorem untilTick_Tick : untilTick (calls ++ [._Tick]) = calls ++ [._Tick] :=
  List.rdropWhile_concat_neg _ _ _ Bool.false_ne_true

omit [DecidableEq T] in
-- What is printed is never longer than the text, so that no part can make up for another.
theorem append_print_eq_iff {shown text l : List T} (hlen : shown.length ≤ text.length) :
    shown ++ print l = text ++ l ↔ shown = text ∧ ∀ c ∈ l, Printable c := by
  rw [← print_eq_self_iff]
  constructor
  · intro h
    have hsum := congrArg List.length h
    rw [List.length_append, List.length_append] at hsum
    have hle := length_print_le l
    exact List.append_inj h (by omega)
  · rintro ⟨hshown, hprint⟩
    rw [hshown, hprint]

/-- What has been accepted was passed to `printf` at a tick, or is in the buffer. -/
structure Shows (calls : List (Call T)) (log : EasyLog T) : Prop where
  buffered : ∃ l, Buffers log l ∧ accepted (untilTick calls) ++ l = accepted calls
  length_le : log.printed.length ≤ (accepted (untilTick calls)).length
  printed_iff : log.printed = accepted (untilTick calls) ↔
    ∀ c ∈ accepted (untilTick calls), Printable c

theorem Shows.step {log' : EasyLog T} {call : Call T} (h : Shows calls log)
    (hst : Step log call log') : Shows (calls ++ [call]) log' := by
  obtain ⟨⟨l, hl, hsplit⟩, hlength, hprinted⟩ := h
  cases call with
  | Push r ret =>
      by_cases hroom : (l.length + r.1.1.length) * Scalar.sizeof T < BUFFER_MAX_SIZE
      · rcases hl.push r hroom with ⟨log'', hpush, hsame, hlog''⟩
        cases hpush.symm.trans hst
        refine ⟨⟨l ++ r.1.1, hlog'', ?_⟩, ?_, ?_⟩
        · rw [untilTick_Push, accepted_append, ← hsplit, accepted, accepted, List.append_nil,
            List.append_assoc]
        · rwa [untilTick_Push, hsame]
        · rwa [untilTick_Push, hsame]
      · cases (hl.push_full r (Nat.not_lt.mp hroom)).symm.trans hst
        refine ⟨⟨l, hl, ?_⟩, ?_, ?_⟩
        · rw [untilTick_Push, accepted_append, hsplit]
          exact (List.append_nil _).symm
        · rwa [untilTick_Push]
        · rwa [untilTick_Push]
  | _Tick =>
      rcases hl.tick with ⟨log'', htick, hshown, hempty⟩
      cases htick.symm.trans hst
      have hall : accepted (untilTick (calls ++ [._Tick])) = accepted (untilTick calls) ++ l := by
        rw [untilTick_Tick, accepted_append, hsplit]
        exact List.append_nil _
      have hle := length_print_le l
      refine ⟨⟨[], hempty, by rw [untilTick_Tick, List.append_nil]⟩, ?_, ?_⟩
      · rw [hall, hshown, List.length_append, List.length_append]
        omega
      · rw [hall, hshown, append_print_eq_iff hlength, hprinted, List.forall_mem_append]

theorem shows_of_path (h : Path Step .new calls log) : Shows calls log :=
  h.always ⟨⟨[], .new, rfl⟩, Nat.le_refl _, iff_of_true rfl (List.forall_mem_nil _)⟩
    fun _ _ _ _ hs hst ↦ hs.step hst

/-- **When the log loses nothing.**  After any calls, what was printed and then what is in the
buffer are the accepted records in their order if and only if every character that a tick has taken
out can be printed; and every further call stays inside its memory. -/
theorem log_lossless_iff (h : Path Step .new calls log) :
    (pack log.printed ++ log.m_pEasyBuffer.bytes = pack (accepted calls) ↔
        ∀ c ∈ accepted (untilTick calls), Printable c) ∧
      (∀ r, ∃ ret log', Step log (.Push r ret) log') ∧ ∃ log', Step log ._Tick log' := by
  obtain ⟨⟨l, hl, hsplit⟩, -, hprinted⟩ := shows_of_path h
  refine ⟨?_, fun r ↦ ?_, ?_⟩
  · rw [hl.bytes, ← pack_append, ← hsplit, pack_inj, List.append_left_inj, hprinted]
  · by_cases hroom : (l.length + r.1.1.length) * Scalar.sizeof T < BUFFER_MAX_SIZE
    · rcases hl.push r hroom with ⟨log', hpush, -⟩
      exact ⟨true, log', hpush⟩
    · exact ⟨false, log, hl.push_full r (Nat.not_lt.mp hroom)⟩
  · rcases hl.tick with ⟨log', htick, -⟩
    exact ⟨log', htick⟩

end Runs

-- A record that finds room in the empty buffer, and a tick.
theorem path_push_tick (r : Record T) (hroom : r.1.1.length * Scalar.sizeof T < BUFFER_MAX_SIZE) :
    ∃ log : EasyLog T, Path Step .new [.Push r true, ._Tick] log ∧ log.printed = print r.1.1 ∧
      Buffers log [] := by
  have hroom' : (([] : List T).length + r.1.1.length) * Scalar.sizeof T < BUFFER_MAX_SIZE := by
    rwa [List.length_nil, Nat.zero_add]
  rcases Buffers.new.push r hroom' with ⟨log₁, hpush, hsame, h₁⟩
  rcases h₁.tick with ⟨log₂, htick, hshown, h₂⟩
  refine ⟨log₂, (Path.nil.snoc hpush).snoc htick, ?_, h₂⟩
  rw [hshown, hsame]
  rfl

/-- `[2026.11.20 14:00:00][DEBUG]`, which `Push` puts before the message. -/
def stamp : List UInt32 :=
  [91, 50, 48, 50, 54, 46, 49, 49, 46, 50, 48, 32, 49, 52, 58, 48, 48, 58, 48, 48, 93, 91, 68, 69,
    66, 85, 71, 93]

/-- The record of the message `hi`. -/
def hi : Record UInt32 := ⟨⟨stamp ++ [104, 105, 10], by decide⟩, by decide⟩

theorem printable_hi : ∀ c ∈ hi.1.1, Printable c := by
  have hall : hi.1.1.all (fun c ↦ decide (c ≤ 127)) = true := rfl
  have hle : ∀ c ∈ hi.1.1, c ≤ 127 :=
    fun c hc ↦ of_decide_eq_true (List.all_eq_true.mp hall c hc)
  exact hle

/-- A record, a tick, and the record again. -/
theorem log_lossless_three_calls :
    ∃ log : EasyLog UInt32, Path Step .new [.Push hi true, ._Tick, .Push hi true] log ∧
      pack log.printed ++ log.m_pEasyBuffer.bytes =
        pack (accepted [.Push hi true, ._Tick, .Push hi true]) := by
  rcases path_push_tick hi (by decide) with ⟨log, hpath, -, hempty⟩
  rcases hempty.push hi (by decide) with ⟨log', hpush, -⟩
  have hpath' : Path Step .new [.Push hi true, ._Tick, .Push hi true] log' :=
    hpath.snoc (l := Call.Push hi true) hpush
  refine ⟨log', hpath', (log_lossless_iff hpath').1.mpr ?_⟩
  have huntil : untilTick [.Push hi true, ._Tick, .Push hi true] = [.Push hi true, ._Tick] := rfl
  have haccepted : accepted [.Push hi true, ._Tick] = hi.1.1 := rfl
  rw [huntil, haccepted]
  exact printable_hi

/-- The record of the message `é`. -/
def accent : Record UInt32 := ⟨⟨stamp ++ [233, 10], by decide⟩, by decide⟩

/-- The record is accepted, and nothing of it is printed or left. -/
theorem log_loses_accent :
    ∃ log : EasyLog UInt32, Path Step .new [.Push accent true, ._Tick] log ∧
      log.printed = [] ∧
      pack log.printed ++ log.m_pEasyBuffer.bytes ≠
        pack (accepted [.Push accent true, ._Tick]) := by
  rcases path_push_tick accent (by decide) with ⟨log, hpath, hprinted, hempty⟩
  have hmem : 233 ∈ accent.1.1 := by simp [accent]
  have hnil : log.printed = [] := by
    rw [hprinted]
    exact if_neg fun hall ↦ absurd (List.all_eq_true.mp hall 233 hmem) (by decide)
  refine ⟨log, hpath, hnil, ?_⟩
  rw [hnil, hempty.bytes, ← pack_append, ne_eq, pack_inj]
  decide

end EasyLog

end Fantuan
