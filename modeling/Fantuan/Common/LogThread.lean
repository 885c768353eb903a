import Fantuan.Common.Log

/-!
# easy_log.cpp — the thread that prints

Any thread may push a record; the thread of the log calls `_Tick` again and again, which waits until
it is notified.  `Push` notifies under `m_Mutex`, so that nobody is notified by what is pushed
between two ticks.
-/

open Lib

namespace Fantuan

open EasyLog (Call accepted Buffers)
open WideCharacter (Printable print_eq_self_iff)

/-! ## 1. The code -/

/-- Where the thread is: before `_Tick` has `m_Mutex`, or in `wait`, where it may have been
notified. -/
inductive LogPoint
  | outside
  | waiting
  | notified
deriving DecidableEq

/-- `notify_one()`, which has no effect when nobody waits. -/
def LogPoint.notify_one : LogPoint → LogPoint
  | outside => outside
  | waiting => notified
  | notified => notified

namespace LogPoint

theorem notify_one_eq_outside {p : LogPoint} : p.notify_one = outside ↔ p = outside := by
  cases p <;> decide

theorem notify_one_ne_waiting {p : LogPoint} : p.notify_one ≠ waiting := by
  cases p <;> decide

end LogPoint

structure LogThread (T : Type) [WideCharacter T] where
  log : EasyLog T
  thread : LogPoint

inductive LogEvent (T : Type) [Zero T]
  | Push (RealBuffer : Record T) (ret : Bool)
  | waits
  /-- `wait` may return although nobody has notified. -/
  | wakes
  /-- `_Tick`, from where `wait` returns to its end. -/
  | ticks

namespace LogEvent

variable {T : Type} [Zero T]

def call : LogEvent T → Option (Call T)
  | .Push RealBuffer ret => some (.Push RealBuffer ret)
  | .ticks => some ._Tick
  | _ => none

def isTick : LogEvent T → Bool
  | .ticks => true
  | _ => false

def isWait : LogEvent T → Bool
  | .waits => true
  | _ => false

end LogEvent

section Code

variable {T : Type} [WideCharacter T] [DecidableEq T]

/-- `notify_one` comes before the record has found room or not. -/
inductive LogThread.Step (s : LogThread T) : LogEvent T → LogThread T → Prop
  | Push {r : Record T} {ret : Bool} {log : EasyLog T} (h : s.log.Push r = some (ret, log)) :
      Step s (.Push r ret) ⟨log, s.thread.notify_one⟩
  | waits (h : s.thread = .outside) : Step s .waits { s with thread := .waiting }
  | wakes (h : s.thread = .waiting) : Step s .wakes { s with thread := .notified }
  | ticks {log : EasyLog T} (h : s.thread = .notified) (htick : s.log._Tick = some log) :
      Step s .ticks ⟨log, .outside⟩

/-- After `Init`. -/
def LogThread.start (T : Type) [WideCharacter T] : LogThread T := ⟨.new, .outside⟩

end Code

/-! ## 2. What has been pushed -/

section Pushed

variable {T : Type} [WideCharacter T]

/-- The records that were accepted, of whatever thread. -/
def acceptedRecords (es : List (LogEvent T)) : List T := accepted (es.filterMap LogEvent.call)

/-- What has happened since the last tick. -/
def sinceTick (es : List (LogEvent T)) : List (LogEvent T) := es.rtakeWhile (!·.isTick)

/-- What happened between the last tick and the next wait. -/
def betweenTicks (es : List (LogEvent T)) : List (LogEvent T) :=
  (sinceTick es).takeWhile (!·.isWait)

variable {es : List (LogEvent T)} {e : LogEvent T} {r : Record T}

theorem acceptedRecords_append (es es' : List (LogEvent T)) :
    acceptedRecords (es ++ es') = acceptedRecords es ++ acceptedRecords es' := by
  rw [acceptedRecords, List.filterMap_append, EasyLog.accepted_append]
  rfl

-- What accepts no record.
theorem acceptedRecords_snoc (h : acceptedRecords [e] = []) :
    acceptedRecords (es ++ [e]) = acceptedRecords es := by
  rw [acceptedRecords_append, h, List.append_nil]

theorem acceptedRecords_Push : acceptedRecords (es ++ [.Push r true]) =
    acceptedRecords es ++ r.1.1 := by
  have hr : acceptedRecords [.Push r true] = r.1.1 ++ [] := rfl
  rw [acceptedRecords_append, hr, List.append_nil]

theorem sinceTick_snoc (h : e.isTick = false) : sinceTick (es ++ [e]) = sinceTick es ++ [e] :=
  List.rtakeWhile_concat_pos _ _ e (by rw [h]; rfl)

theorem sinceTick_ticks : sinceTick (es ++ [.ticks]) = [] :=
  List.rtakeWhile_concat_neg _ _ _ Bool.false_ne_true

-- The thread begins to wait for the first time since the last tick.
theorem betweenTicks_waits (h : ∀ e ∈ sinceTick es, e.isWait = false) :
    betweenTicks (es ++ [.waits]) = sinceTick es := by
  have hall : ∀ e ∈ sinceTick es, (!e.isWait) = true := fun e he ↦ by rw [h e he]; rfl
  have hstop : [LogEvent.waits (T := T)].takeWhile (!·.isWait) = [] := rfl
  rw [betweenTicks, sinceTick_snoc rfl, List.takeWhile_append_of_pos hall, hstop, List.append_nil]

end Pushed

/-! ## 3. Runs -/

/-- Every character of a record that was accepted can be printed. -/
def AllPrintable {T : Type} [WideCharacter T] (es : List (LogEvent T)) : Prop :=
  ∀ c ∈ acceptedRecords es, Printable c

/-- What is in the buffer was pushed since the last tick, and what was pushed before has been
printed, if it can be; while the thread waits, what is in the buffer was pushed before that. -/
structure Printing {T : Type} [WideCharacter T] (es : List (LogEvent T)) (s : LogThread T) :
    Prop where
  buffers : Buffers s.log (acceptedRecords (sinceTick es))
  printed : AllPrintable es →
    s.log.printed ++ acceptedRecords (sinceTick es) = acceptedRecords es
  outside : s.thread = .outside → ∀ e ∈ sinceTick es, e.isWait = false
  waiting : s.thread = .waiting → sinceTick es = betweenTicks es ++ [.waits]

section Runs

variable {T : Type} [WideCharacter T] {es es' : List (LogEvent T)} {e : LogEvent T}
  {s t : LogThread T}

theorem AllPrintable.left (h : AllPrintable (es ++ es')) : AllPrintable es := by
  intro c hc
  apply h
  rw [acceptedRecords_append]
  exact List.mem_append_left _ hc

theorem AllPrintable.push {r : Record T} {ret : Bool} (h : AllPrintable es)
    (hr : ∀ c ∈ r.1.1, Printable c) : AllPrintable (es ++ [.Push r ret]) := by
  intro c hc
  cases ret with
  | true =>
      rw [acceptedRecords_Push] at hc
      exact (List.mem_append.mp hc).elim (h c) (hr c)
  | false =>
      rw [acceptedRecords_snoc rfl] at hc
      exact h c hc

namespace Printing

theorem start : Printing [] (.start T) where
  buffers := .new
  printed _ := rfl
  outside _ _ h := absurd h List.not_mem_nil
  waiting h := LogPoint.noConfusion h

-- An event that leaves the log alone.
theorem kept (h : Printing es s) (hcall : acceptedRecords [e] = []) (htick : e.isTick = false) :
    Buffers s.log (acceptedRecords (sinceTick (es ++ [e]))) ∧
      (AllPrintable (es ++ [e]) →
        s.log.printed ++ acceptedRecords (sinceTick (es ++ [e])) =
          acceptedRecords (es ++ [e])) := by
  rw [sinceTick_snoc htick, acceptedRecords_snoc hcall, acceptedRecords_snoc hcall]
  exact ⟨h.buffers, fun hall ↦ h.printed hall.left⟩

theorem Push (h : Printing es s) {r : Record T} {ret : Bool} {log : EasyLog T}
    (hpush : s.log.Push r = some (ret, log)) :
    Printing (es ++ [.Push r ret]) ⟨log, s.thread.notify_one⟩ := by
  have hsince : sinceTick (es ++ [.Push r ret]) = sinceTick es ++ [.Push r ret] :=
    sinceTick_snoc rfl
  -- the thread has not begun to wait
  have houtside : s.thread.notify_one = .outside →
      ∀ e ∈ sinceTick (es ++ [.Push r ret]), e.isWait = false := by
    rw [LogPoint.notify_one_eq_outside, hsince]
    intro hout e he
    cases List.mem_append.mp he with
    | inl hbefore => exact h.outside hout e hbefore
    | inr hlast =>
        cases List.mem_singleton.mp hlast
        rfl
  by_cases hroom : ((acceptedRecords (sinceTick es)).length + r.1.1.length) * Scalar.sizeof T <
      BUFFER_MAX_SIZE
  · rcases h.buffers.push r hroom with ⟨log', hpush', hsame, hlog'⟩
    cases hpush'.symm.trans hpush
    refine ⟨?_, fun hall ↦ ?_, houtside,
      fun hwait ↦ absurd hwait LogPoint.notify_one_ne_waiting⟩
    · rw [hsince, acceptedRecords_Push]
      exact hlog'
    · rw [hsince, acceptedRecords_Push, acceptedRecords_Push, hsame, ← List.append_assoc,
        h.printed hall.left]
  · cases (h.buffers.push_full r (Nat.not_lt.mp hroom)).symm.trans hpush
    obtain ⟨hbuffers, hprinted⟩ := h.kept (e := .Push r false) rfl rfl
    exact ⟨hbuffers, hprinted, houtside, fun hwait ↦ absurd hwait LogPoint.notify_one_ne_waiting⟩

-- A push has a result, whether there is room or not.
theorem exists_push (h : Printing es s) (r : Record T) :
    ∃ ret log, s.log.Push r = some (ret, log) := by
  by_cases hroom : ((acceptedRecords (sinceTick es)).length + r.1.1.length) * Scalar.sizeof T <
      BUFFER_MAX_SIZE
  · rcases h.buffers.push r hroom with ⟨log, hpush, -⟩
    exact ⟨true, log, hpush⟩
  · exact ⟨false, s.log, h.buffers.push_full r (Nat.not_lt.mp hroom)⟩

-- A tick now would complete what has been printed.
theorem print_since (h : Printing es s) (hall : AllPrintable es) :
    s.log.printed ++ WideCharacter.print (acceptedRecords (sinceTick es)) =
      acceptedRecords es := by
  have hsince : ∀ c ∈ acceptedRecords (sinceTick es), Printable c := by
    intro c hc
    apply hall
    rw [← h.printed hall]
    exact List.mem_append_right _ hc
  rw [(print_eq_self_iff _).mpr hsince, h.printed hall]

variable [DecidableEq T]

theorem step (h : Printing es s) (hst : s.Step e t) : Printing (es ++ [e]) t := by
  cases hst with
  | Push hpush => exact h.Push hpush
  | waits hout =>
      obtain ⟨hbuffers, hprinted⟩ := h.kept (e := .waits) rfl rfl
      refine ⟨hbuffers, hprinted, fun hout' ↦ LogPoint.noConfusion hout', fun _ ↦ ?_⟩
      rw [betweenTicks_waits (h.outside hout), sinceTick_snoc rfl]
  | wakes hwait =>
      obtain ⟨hbuffers, hprinted⟩ := h.kept (e := .wakes) rfl rfl
      exact ⟨hbuffers, hprinted, fun hout ↦ LogPoint.noConfusion hout,
        fun hwait' ↦ LogPoint.noConfusion hwait'⟩
  | ticks hnote htick =>
      rcases h.buffers.tick with ⟨log, hlog, hprinted, hempty⟩
      cases hlog.symm.trans htick
      refine ⟨?_, fun hall ↦ ?_, fun _ e he ↦ ?_, fun hwait ↦ LogPoint.noConfusion hwait⟩
      · rw [sinceTick_ticks]
        exact hempty
      · rw [sinceTick_ticks, acceptedRecords_snoc rfl, hprinted, h.print_since hall.left]
        exact List.append_nil _
      · rw [sinceTick_ticks] at he
        exact absurd he List.not_mem_nil

theorem of_path (h : Path LogThread.Step (.start T) es s) : Printing es s :=
  h.always start fun _ _ _ _ hs hst ↦ hs.step hst

-- The tick of a notified thread prints all there is.
theorem ticks (h : Printing es s) (hall : AllPrintable es) (hnote : s.thread = .notified) :
    ∃ t, s.Step .ticks t ∧ t.log.printed = acceptedRecords es := by
  rcases h.buffers.tick with ⟨log, hlog, hprinted, -⟩
  exact ⟨⟨log, .outside⟩, .ticks hnote hlog, hprinted.trans (h.print_since hall)⟩

end Printing

/-- **What the log shows.**  Whichever threads push, as long as every character accepted can be
printed: while the thread of the log waits there are missing on the screen exactly the records that
were accepted between its last tick and its waiting, for nothing has notified it of them.  A push
from then on of such a record, whether it finds room or not, makes it print everything. -/
theorem log_shows [DecidableEq T] (h : Path LogThread.Step (.start T) es s)
    (hall : AllPrintable es) :
    (s.thread = .waiting →
      s.log.printed ++ acceptedRecords (betweenTicks es) = acceptedRecords es ∧
        ∀ r : Record T, (∀ c ∈ r.1.1, Printable c) →
          ∃ ret t u, s.Step (.Push r ret) t ∧ t.Step .ticks u ∧
            u.log.printed = acceptedRecords (es ++ [.Push r ret])) ∧
      (s.thread = .notified → ∃ t, s.Step .ticks t ∧ t.log.printed = acceptedRecords es) := by
  have hs : Printing es s := .of_path h
  refine ⟨fun hwait ↦ ⟨?_, fun r hr ↦ ?_⟩, hs.ticks hall⟩
  · have hsince : acceptedRecords (sinceTick es) = acceptedRecords (betweenTicks es) := by
      rw [hs.waiting hwait, acceptedRecords_snoc rfl]
    rw [← hsince]
    exact hs.printed hall
  · obtain ⟨ret, log, hpush⟩ := hs.exists_push r
    have hpushed : Printing (es ++ [.Push r ret]) ⟨log, s.thread.notify_one⟩ := hs.Push hpush
    obtain ⟨u, hu, hprinted⟩ := hpushed.ticks (hall.push hr) (by rw [hwait]; rfl)
    exact ⟨ret, _, u, .Push hpush, hu, hprinted⟩

/-- A record is pushed before the thread waits: nothing is printed until the next push. -/
theorem log_shows_hi :
    ∃ s : LogThread UInt32,
      Path LogThread.Step (.start UInt32) [.Push EasyLog.hi true, .waits] s ∧
      s.log.printed = [] ∧
      ∃ ret t u, s.Step (.Push EasyLog.hi ret) t ∧ t.Step .ticks u ∧
        u.log.printed = acceptedRecords [.Push EasyLog.hi true, .waits, .Push EasyLog.hi ret] := by
  have hroom : (([] : List UInt32).length + EasyLog.hi.1.1.length) * 4 < BUFFER_MAX_SIZE := by
    decide
  have hall : AllPrintable [.Push EasyLog.hi true, .waits] := by
    have haccepted : acceptedRecords [.Push EasyLog.hi true, .waits] = EasyLog.hi.1.1 := rfl
    rw [AllPrintable, haccepted]
    exact EasyLog.printable_hi
  rcases Buffers.new.push EasyLog.hi hroom with ⟨log, hpush, hsame, -⟩
  have hpath : Path LogThread.Step (.start UInt32) [.Push EasyLog.hi true, .waits]
      ⟨log, .waiting⟩ := (Path.nil.snoc (.Push hpush)).snoc (.waits rfl)
  obtain ⟨-, hnext⟩ := (log_shows hpath hall).1 rfl
  exact ⟨_, hpath, hsame, hnext EasyLog.hi EasyLog.printable_hi⟩

end Runs

end Fantuan
