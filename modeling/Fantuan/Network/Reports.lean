import Fantuan.Network.Lifecycle

/-!
# What the workers report to the command thread (Windows)

The callbacks of any number of workers push the commands of a connection, and the connection is used
again after its end.  Here is the order in which its commands come, in every orderly run.
-/

open Lib

namespace Fantuan

namespace Iocp

/-! ## 1. The order of reports -/

/-- The connection was reported, and its end was not. -/
def IsOpen (c : ConnID) : List EasyCommand → Prop :=
  Since (fun command ↦ command = .OnConnect c) fun command ↦ command = .OnDisconnect c

/-- A report of a connection comes where it may. -/
def InOrder (before : List EasyCommand) : EasyCommand → Prop
  | .OnConnect c => ¬ IsOpen c before
  | .OnDisconnect c => IsOpen c before
  | .OnData c _ => IsOpen c before
  | _ => True

/-- What is pushed in an event. -/
def Event.pushed : Event → List EasyCommand
  | .Run (.PushCommand command) _ => [command]
  | _ => []

def pushes (es : List Event) : List EasyCommand := es.flatMap Event.pushed

/-- The commands that the command thread has executed. -/
def executions (es : List Event) : List EasyCommand :=
  es.filterMap fun
    | .Execute e => some e.1
    | _ => none

/-! ## 2. Where a connection may be -/

/-- `c` is to be reported, or its end has been. -/
def unreported (c : ConnID) : Weight where
  instr
    | .PushFree d => about c d 1
    | .SetConnection d => about c d 1
    | .AcceptIncrement d => about c d 1
    | .AcceptEx d => about c d 1
    | .UpdateAcceptContext d => about c d 1
    | .SetConnected d => about c d 1
    | .OnConnection d => about c d 1
    | .PushCommand command =>
        match command with
        | .OnConnect d => about c d 1
        | _ => 0
    | .Close d => about c d 1
    | _ => 0
  op
    | .accept d => about c d 1
    | _ => 0
  command
    | .OnDisconnect d => about c d 1
    | _ => 0

/-- `c` is about to be reported. -/
def reporting (c : ConnID) : Weight where
  instr
    | .OnConnection d => about c d 1
    | .PushCommand command =>
        match command with
        | .OnConnect d => about c d 1
        | _ => 0
    | _ => 0
  op _ := 0
  command _ := 0

/-- Data of `c`, or its end, are pushed. -/
def handing (c : ConnID) : Weight where
  instr
    | .PushCommand command =>
        match command with
        | .OnData d _ => about c d 1
        | .OnDisconnect d => about c d 1
        | _ => 0
    | _ => 0
  op _ := 0
  command _ := 0

/-- A worker is between two reports of `c`. -/
def attending (c : ConnID) : Weight where
  instr
    | .OnDisconnect d => about c d 1
    | .PopInputContext d => about c d 1
    | .AsyncRecv d _ => about c d 1
    | .WSARecv d _ => about c d 1
    | .OnData d _ => about c d 1
    | _ => 0
  op
    | .recv d => about c d 1
    | _ => 0
  command _ := 0

section Compare

variable {s : State} {c : ConnID}

theorem unreported_le (s : State) (c : ConnID) :
    (unreported c).total s ≤ (unattached c).total s + (quiet c).total s := by
  apply total_le_add
  · intro i
    cases i with
    | PushCommand command => cases command <;> simp [unreported, unattached, quiet, about]
    | _ => simp [unreported, unattached, quiet, about]
  · intro op
    cases op <;> simp [unreported, unattached, quiet]
  · intro command
    cases command <;> simp [unreported, unattached, quiet]

theorem reporting_le (s : State) (c : ConnID) :
    (reporting c).total s ≤ (unreferenced c).total s := by
  apply total_le
  · intro i
    cases i with
    | PushCommand command => cases command <;> simp [reporting, unreferenced]
    | _ => simp [reporting, unreferenced]
  · intro op
    exact Nat.zero_le _
  · intro command
    exact Nat.zero_le _

-- A connection is in one of these places while it receives or rests.
theorem attending_add_handing_le (s : State) (c : ConnID) :
    (attending c).total s + (handing c).total s ≤ (quiet c).total s + (receiving c).total s := by
  have hle : ((attending c).add (handing c)).total s ≤
      (quiet c).total s + (receiving c).total s := by
    apply total_le_add
    · intro i
      cases i with
      | PushCommand command =>
          cases command <;> simp [Weight.add, attending, handing, quiet, receiving]
      | _ => simp [Weight.add, attending, handing, quiet, receiving]
    · intro op
      cases op <;> simp [Weight.add, attending, handing, quiet, receiving]
    · intro command
      exact Nat.zero_le _
  rwa [total_add] at hle

end Compare

section Exec

variable (ok : Bool) (s : Shared) (i : Instr) (c : ConnID)

theorem exec_pushed : (exec ok s i).pushed = Event.pushed (.Run i ok) := by
  fun_cases exec ok s i <;> rfl

theorem exec_unreported (haccept : i ≠ .Accept) (hpush : ∀ d, i ≠ .PushFree d)
    (hfail : ¬ FailsAtOnce ok i) (hend : i ≠ .PushCommand (.OnDisconnect c)) :
    (unreported c).added (exec ok s i) ≤ (unreported c).instr i := by
  fun_cases exec ok s i <;>
    first
      | exact absurd rfl haccept
      | exact absurd rfl (hpush _)
      | exact Nat.zero_le _
      | exact Nat.le_refl _
      | simp_all [Weight.added, unreported, about, FailsAtOnce]
  -- a command of no connection
  rename_i command _ _
  cases command <;> simp_all

theorem exec_handing : (handing c).added (exec ok s i) ≤ (handing c).instr i +
    if s.server.m_bReadyForShutdown then 0 else (attending c).instr i := by
  fun_cases exec ok s i <;>
    first
      | exact Nat.zero_le _
      | exact Nat.le_refl _
      | simp_all [Weight.added, handing, attending, about]

-- What a worker goes on with when it has pushed a report of `c`, or when it takes the end of `c`.
theorem exec_attending (hconnect : i ≠ .PushCommand (.OnConnect c))
    (hdata : ∀ data, i ≠ .PushCommand (.OnData c data))
    (hend : i = .Disconnected c → (s.connection c).iorefs_ ≠ 0) :
    (attending c).added (exec ok s i) ≤ (attending c).instr i := by
  fun_cases exec ok s i <;>
    first
      | exact Nat.zero_le _
      | exact Nat.le_refl _
      | simp_all [Weight.added, attending, about]
  all_goals grind

theorem exec_reporting (hconnect : i ≠ .PushCommand (.OnConnect c))
    (hrunning : s.server.m_bReadyForShutdown = false) :
    (reporting c).instr i ≤ (reporting c).added (exec ok s i) := by
  fun_cases exec ok s i <;>
    first
      | exact Nat.zero_le _
      | exact Nat.le_refl _
      | simp_all [Weight.added, reporting, about]

theorem exec_closing :
    (closing c).added (exec ok s i) + ((exec ok s i).shared.connection c).connected_.toNat ≤
      (closing c).instr i + (s.connection c).connected_.toNat +
        (reporting c).added (exec ok s i) := by
  fun_cases exec ok s i <;>
    first
      | exact Nat.le_refl _
      | simp_all [Weight.added, closing, reporting, about] <;> grind [toNat_eq]

end Exec

/-! ## 3. Every step keeps the order -/

theorem isOpen_snoc {c : ConnID} {cs : List EasyCommand} {command : EasyCommand} :
    IsOpen c (cs ++ [command]) ↔
      command = .OnConnect c ∨ IsOpen c cs ∧ command ≠ .OnDisconnect c := since_snoc

/-- What is known about `c` from the commands that were pushed. -/
structure Reporting (c : ConnID) (cs : List EasyCommand) (free : List ConnID) (s : State) :
    Prop where
  opened : IsOpen c cs → (unreported c).total s + free.count c = 0
  handing : 0 < (handing c).total s → IsOpen c cs
  attending : s.shared.server.m_bReadyForShutdown = false → 0 < (attending c).total s →
    IsOpen c cs
  closing : s.shared.server.m_bReadyForShutdown = false → (reporting c).total s = 0 →
    0 < (closing c).total s + (s.shared.connection c).connected_.toNat → IsOpen c cs
  fresh : s.shared.created ≤ c → ¬ IsOpen c cs

namespace Reporting

variable {c : ConnID} {cs : List EasyCommand} {conns free free' : List ConnID} {s t : State}
  {n : ℕ} {i : Instr} {rest : List Instr} {ok : Bool}

/-- All the weights that matter. -/
def weights (c : ConnID) : List Weight :=
  [unreported c, reporting c, Iocp.handing c, Iocp.attending c, Iocp.closing c]

-- A step that pushes no report, and leaves `c` where it is or further back.
theorem keep (h : Reporting c cs free s)
    (hunreported : IsOpen c cs → (unreported c).total t + free'.count c ≤
      (unreported c).total s + free.count c)
    (hhanding : (Iocp.handing c).total t ≤ (Iocp.handing c).total s)
    (hattending : (Iocp.attending c).total t ≤ (Iocp.attending c).total s)
    (hreporting : (reporting c).total s ≤ (reporting c).total t)
    (hclosing : (Iocp.closing c).total t + (t.shared.connection c).connected_.toNat ≤
      (Iocp.closing c).total s + (s.shared.connection c).connected_.toNat)
    (hrunning : t.shared.server.m_bReadyForShutdown = false →
      s.shared.server.m_bReadyForShutdown = false)
    (hcreated : s.shared.created ≤ t.shared.created) : Reporting c cs free' t := by
  constructor
  · intro hopen
    have hle := hunreported hopen
    have hzero := h.opened hopen
    omega
  · exact fun hpos ↦ h.handing (Nat.lt_of_lt_of_le hpos hhanding)
  · exact fun hrun hpos ↦ h.attending (hrunning hrun) (Nat.lt_of_lt_of_le hpos hattending)
  · intro hrun hzero hpos
    exact h.closing (hrunning hrun) (by omega) (Nat.lt_of_lt_of_le hpos hclosing)
  · exact fun hc ↦ h.fresh (hcreated.trans hc)

-- The report of `c`: it is neither at an accept nor at rest.
theorem connect (hstaged : Staged conns free s)
    (hthread : s.threads[n]? = some (.PushCommand (.OnConnect c) :: rest)) :
    Reporting c (cs ++ [.OnConnect c]) free
      (s.run n rest (exec ok s.shared (.PushCommand (.OnConnect c)))) := by
  have hopen : IsOpen c (cs ++ [.OnConnect c]) := isOpen_snoc.mpr (.inl rfl)
  refine ⟨fun _ ↦ ?_, fun _ ↦ hopen, fun _ _ ↦ hopen, fun _ _ _ ↦ hopen, fun hc ↦ ?_⟩
  · have htotal := total_run (w := unreported c) hthread
      (exec ok s.shared (.PushCommand (.OnConnect c)))
    have hone : (unreported c).instr (.PushCommand (.OnConnect c)) = 1 := if_pos rfl
    have hadded : (unreported c).added (exec ok s.shared (.PushCommand (.OnConnect c))) = 0 := rfl
    have hle := unreported_le s c
    have hreceiving := le_total (w := receiving c) hthread
    have hpos : (receiving c).instr (.PushCommand (.OnConnect c)) = 1 := if_pos rfl
    have hreceive := hstaged.receive c
    have hsession := hstaged.session c
    omega
  · have hmentions := le_total (w := mentions c) hthread
    have hpos : (mentions c).instr (.PushCommand (.OnConnect c)) = 1 := if_pos rfl
    have hzero := (hstaged.fresh c hc).1
    omega

-- The end of `c`: nothing else of it is under way.
theorem disconnect (hstaged : Staged conns free s)
    (hthread : s.threads[n]? = some (.PushCommand (.OnDisconnect c) :: rest)) :
    Reporting c (cs ++ [.OnDisconnect c]) free
      (s.run n rest (exec ok s.shared (.PushCommand (.OnDisconnect c)))) := by
  have hclosed : ¬ IsOpen c (cs ++ [.OnDisconnect c]) := by
    rw [isOpen_snoc]
    rintro (he | ⟨-, hne⟩)
    · exact nomatch he
    · exact hne rfl
  generalize he : exec ok s.shared (.PushCommand (.OnDisconnect c)) = effect
  have hadded : ∀ w ∈ [Iocp.handing c, Iocp.attending c, Iocp.closing c], w.added effect = 0 := by
    rw [← he]
    intro w hw
    simp only [List.mem_cons, List.not_mem_nil, or_false] at hw
    rcases hw with rfl | rfl | rfl <;> rfl
  have hshared : effect.shared = s.shared := by
    rw [← he]
    rfl
  have hhanding := total_run (w := Iocp.handing c) hthread effect
  have hattending := total_run (w := Iocp.attending c) hthread effect
  have hclosing := total_run (w := Iocp.closing c) hthread effect
  have hone : (Iocp.handing c).instr (.PushCommand (.OnDisconnect c)) = 1 := if_pos rfl
  have hquiet := le_total (w := quiet c) hthread
  have hpos : (quiet c).instr (.PushCommand (.OnDisconnect c)) = 1 := if_pos rfl
  have hle := attending_add_handing_le s c
  have hreceive := hstaged.receive c
  have hstage := hstaged.stage c
  rw [hadded _ (by simp)] at hhanding hattending hclosing
  refine ⟨fun hopen ↦ absurd hopen hclosed, fun h ↦ ?_, fun _ h ↦ ?_, fun _ _ h ↦ ?_,
    fun _ ↦ hclosed⟩
  · omega
  · omega
  · have hflag : (s.run n rest effect).shared = s.shared := hshared
    rw [hflag] at h
    omega

-- A report of another connection, or none: `c` stays open or not.
theorem other (h : Reporting c cs free s) (hthread : s.threads[n]? = some (i :: rest))
    (hC : Orderly s (.Run i ok)) (haccept : i ≠ .Accept) (hpush : ∀ d, i ≠ .PushFree d)
    (hconnect : i ≠ .PushCommand (.OnConnect c)) (hend : i ≠ .PushCommand (.OnDisconnect c)) :
    Reporting c (cs ++ (exec ok s.shared i).pushed) free
      (s.run n rest (exec ok s.shared i)) := by
  have hopen : IsOpen c (cs ++ (exec ok s.shared i).pushed) ↔ IsOpen c cs := by
    rw [exec_pushed]
    cases i with
    | PushCommand command =>
        show IsOpen c (cs ++ [command]) ↔ _
        have hne : command ≠ .OnConnect c := fun he ↦ hconnect (congrArg Instr.PushCommand he)
        have hne' : command ≠ .OnDisconnect c := fun he ↦ hend (congrArg Instr.PushCommand he)
        rw [isOpen_snoc, or_iff_right hne, and_iff_left hne']
    | _ =>
        show IsOpen c (cs ++ []) ↔ _
        rw [List.append_nil]
  have hfail : ¬ FailsAtOnce ok i := by
    rintro ⟨rfl, d, rfl⟩
    exact hC.accept d rfl
  have hrunning : (s.run n rest (exec ok s.shared i)).shared.server.m_bReadyForShutdown =
      s.shared.server.m_bReadyForShutdown := by
    show (exec ok s.shared i).shared.server.m_bReadyForShutdown = _
    rw [exec_server]
  have htotal : ∀ w : Weight, w.total (s.run n rest (exec ok s.shared i)) + w.instr i =
      w.total s + w.added (exec ok s.shared i) := fun w ↦ total_run hthread _
  have hle : ∀ w : Weight, w.instr i ≤ w.total s := fun w ↦ le_total hthread
  constructor
  · rw [hopen]
    intro hc
    have hexec := exec_unreported ok s.shared i c haccept hpush hfail hend
    have hsum := htotal (unreported c)
    have hzero := h.opened hc
    omega
  · rw [hopen]
    intro hpos
    have hexec := exec_handing ok s.shared i c
    have hsum := htotal (Iocp.handing c)
    have hattend := hle (Iocp.attending c)
    cases hrun : s.shared.server.m_bReadyForShutdown with
    | true =>
        rw [hrun, if_pos rfl] at hexec
        exact h.handing (by omega)
    | false =>
        rw [hrun, if_neg Bool.false_ne_true] at hexec
        by_cases hold : 0 < (Iocp.handing c).total s
        · exact h.handing hold
        · exact h.attending hrun (by omega)
  · rw [hopen, hrunning]
    intro hrun hpos
    have hsum := htotal (Iocp.attending c)
    by_cases hdata : ∃ data, i = .PushCommand (.OnData c data)
    · obtain ⟨data, rfl⟩ := hdata
      have hone : (Iocp.handing c).instr (.PushCommand (.OnData c data)) = 1 := if_pos rfl
      have hhand := hle (Iocp.handing c)
      exact h.handing (by omega)
    by_cases htaken : i = .Disconnected c ∧ (s.shared.connection c).iorefs_ = 0
    · obtain ⟨rfl, hzero⟩ := htaken
      have hone : (Iocp.closing c).instr (.Disconnected c) = 1 := if_pos rfl
      have hclosing := hle (Iocp.closing c)
      have hreporting := reporting_le s c
      have hunreferenced := hC.reference c ok rfl hzero
      exact h.closing hrun (by omega) (by omega)
    · have hexec := exec_attending ok s.shared i c hconnect (fun data he ↦ hdata ⟨data, he⟩)
        fun he hzero ↦ htaken ⟨he, hzero⟩
      exact h.attending hrun (by omega)
  · rw [hopen, hrunning]
    intro hrun hzero hpos
    have hexec := exec_closing ok s.shared i c
    have hreport := exec_reporting ok s.shared i c hconnect hrun
    have hsum := htotal (Iocp.closing c)
    have hsum' := htotal (reporting c)
    have hpart := hle (reporting c)
    change 0 < _ + ((exec ok s.shared i).shared.connection c).connected_.toNat at hpos
    exact h.closing hrun (by omega) (by omega)
  · rw [hopen]
    show (exec ok s.shared i).shared.created ≤ c → _
    rw [(exec_free ok s.shared i haccept hpush).2]
    exact h.fresh

-- `Accept` takes a connection whose end was reported, or a new one.
theorem accept (h : ∀ c, Reporting c cs free s) (hstaged : Staged conns free s)
    (hthread : s.threads[n]? = some (.Accept :: rest)) :
    ∃ free', Staged conns free' (s.run n rest (exec ok s.shared .Accept)) ∧
      ∀ c, Reporting c cs free' (s.run n rest (exec ok s.shared .Accept)) := by
  rcases exec_accept ok hstaged.holds with ⟨d, free', stack, created, k, hholds, htakes, he⟩ | he
  · have htaken := hstaged.taken htakes
    obtain ⟨hvacant, hcount, hnot, hle, hlt⟩ := htaken
    rw [he]
    refine ⟨free', hstaged.enters hthread hvacant hholds hcount hnot hle hlt k, fun c ↦ ?_⟩
    have hclosed : ¬ IsOpen d cs := by
      intro hopen
      cases htakes with
      | popped =>
          have hzero := (h d).opened hopen
          rw [List.count_cons_self] at hzero
          omega
      | created hd => exact (h d).fresh (Nat.le_of_eq hd.symm) hopen
    have htotal := fun w : Weight ↦ total_next (w := w) hthread
      { s.shared with
        acceptor.free_connection_ := stack
        acceptor.total_connection_ := k
        created } (.SetConnection d)
    apply (h c).keep
    · intro hopen
      have hne : d ≠ c := fun hd ↦ hclosed (by rwa [hd])
      have hzero : (unreported c).instr (.SetConnection d) = 0 := if_neg hne
      rw [hcount c hne.symm]
      apply Nat.add_le_add_right
      exact Nat.le_of_eq ((htotal (unreported c)).trans (congrArg _ hzero))
    · exact Nat.le_of_eq (htotal (Iocp.handing c))
    · exact Nat.le_of_eq (htotal (Iocp.attending c))
    · exact Nat.le_of_eq (htotal (reporting c)).symm
    · exact Nat.le_of_eq (congrArg (· + _) (htotal (Iocp.closing c)))
    · exact fun hrun ↦ hrun
    · exact hle
  · rw [he]
    refine ⟨free, hstaged.notAccepted hthread, fun c ↦ ?_⟩
    have htotal := fun w : Weight ↦ total_next (w := w) hthread s.shared .SetNotRunning
    apply (h c).keep
    · exact fun _ ↦ Nat.le_of_eq (congrArg (· + _) (htotal (unreported c)))
    · exact Nat.le_of_eq (htotal (Iocp.handing c))
    · exact Nat.le_of_eq (htotal (Iocp.attending c))
    · exact Nat.le_of_eq (htotal (reporting c)).symm
    · exact Nat.le_of_eq (congrArg (· + _) (htotal (Iocp.closing c)))
    · exact fun hrun ↦ hrun
    · exact Nat.le_refl _

theorem pushFree {d : ConnID} (h : Reporting c cs free s)
    (hthread : s.threads[n]? = some (.PushFree d :: rest)) :
    Reporting c cs (d :: free) (s.run n rest (exec ok s.shared (.PushFree d))) := by
  have htotal := fun w : Weight ↦ total_run (w := w) hthread (exec ok s.shared (.PushFree d))
  apply h.keep
  · intro _
    have hsum : _ + about c d 1 = (unreported c).total s + 0 := htotal (unreported c)
    have hcount : (d :: free).count c = free.count c + about c d 1 := by
      rw [List.count_cons, about]
      grind
    omega
  · exact Nat.le_of_eq (htotal (Iocp.handing c))
  · exact Nat.le_of_eq (htotal (Iocp.attending c))
  · exact Nat.le_of_eq (htotal (reporting c)).symm
  · exact Nat.le_of_eq (congrArg (· + _) (htotal (Iocp.closing c)))
  · exact fun hrun ↦ hrun
  · exact Nat.le_refl _

theorem run (h : ∀ c, Reporting c cs free s) (hstaged : Staged conns free s)
    (hthread : s.threads[n]? = some (i :: rest)) (hC : Orderly s (.Run i ok)) :
    ∃ free', Staged conns free' (s.run n rest (exec ok s.shared i)) ∧
      ∀ c, Reporting c (cs ++ Event.pushed (.Run i ok)) free'
        (s.run n rest (exec ok s.shared i)) := by
  by_cases haccept : i = .Accept
  · rw [haccept] at hthread ⊢
    rw [show Event.pushed (.Run .Accept ok) = [] from rfl, List.append_nil]
    exact accept h hstaged hthread
  by_cases hpush : ∃ d, i = .PushFree d
  · obtain ⟨d, rfl⟩ := hpush
    rw [show Event.pushed (.Run (.PushFree d) ok) = [] from rfl, List.append_nil]
    exact ⟨_, hstaged.pushFree hthread, fun c ↦ (h c).pushFree hthread⟩
  have hpush' : ∀ d, i ≠ .PushFree d := fun d hi ↦ hpush ⟨d, hi⟩
  refine ⟨free, ?_, fun c ↦ ?_⟩
  · by_cases hset : ∃ d, i = .SetConnection d
    · obtain ⟨d, rfl⟩ := hset
      exact hstaged.setConnection hthread
    · exact hstaged.other hthread hC haccept hpush' fun d hi ↦ hset ⟨d, hi⟩
  · by_cases hconnect : i = .PushCommand (.OnConnect c)
    · rw [hconnect] at hthread ⊢
      exact connect hstaged hthread
    by_cases hend : i = .PushCommand (.OnDisconnect c)
    · rw [hend] at hthread ⊢
      exact disconnect hstaged hthread
    rw [← exec_pushed ok s.shared i]
    exact (h c).other hthread hC haccept hpush' hconnect hend

theorem call (h : Reporting c cs free s) (hi : OwnCall i) :
    Reporting c cs free (s.start [i]) := by
  have htotal : ∀ w ∈ weights c, w.total (s.start [i]) = w.total s := by
    intro w hw
    have hzero : w.instr i = 0 := by
      simp only [weights, List.mem_cons, List.not_mem_nil, or_false] at hw
      cases i with
      | PushCommand command =>
          have hnone : command.connId = none := hi
          rcases hw with rfl | rfl | rfl | rfl | rfl <;> cases command <;>
            first | rfl | exact absurd hnone (Option.some_ne_none _)
      | Start => rcases hw with rfl | rfl | rfl | rfl | rfl <;> rfl
      | Stop => rcases hw with rfl | rfl | rfl | rfl | rfl <;> rfl
      | _ => exact False.elim hi
    rw [total_start, List.map_singleton, List.sum_singleton, hzero, Nat.add_zero]
  apply h.keep (t := s.start [i])
  · intro _
    rw [htotal (Iocp.unreported c) (by simp [weights])]
  · exact Nat.le_of_eq (htotal (Iocp.handing c) (by simp [weights]))
  · exact Nat.le_of_eq (htotal (Iocp.attending c) (by simp [weights]))
  · exact Nat.le_of_eq (htotal (Iocp.reporting c) (by simp [weights])).symm
  · rw [htotal (Iocp.closing c) (by simp [weights])]
    exact Nat.le_refl _
  · exact fun hrun ↦ hrun
  · exact Nat.le_refl _

-- The connection of an accept that completes is the one of `context_`.
theorem completed_le (hstaged : Staged conns free s) (bResult : Bool) (data : EasyCommandOnData)
    {op : Operation} (hop : op ∈ s.posted) :
    ∀ w ∈ weights c, ((completed bResult data s.shared op).map w.instr).sum ≤ w.op op := by
  have haddressed : ∀ d, op = .accept d → s.shared.acceptor.connection_ = some d := by
    rintro d rfl
    have hle := op_le_total (w := posting d) hop
    have hone : (posting d).op (.accept d) = 1 := if_pos rfl
    exact hstaged.posted d (by omega)
  intro w hw
  simp only [weights, List.mem_cons, List.not_mem_nil, or_false] at hw
  fun_cases completed bResult data s.shared op
  case case1 d e he =>
    cases (haddressed d rfl).symm.trans he
    rcases hw with rfl | rfl | rfl | rfl | rfl <;>
      simp [Iocp.unreported, Iocp.reporting, Iocp.handing, Iocp.attending, Iocp.closing]
  all_goals
    rcases hw with rfl | rfl | rfl | rfl | rfl <;>
      first
        | exact Nat.zero_le _
        | exact Nat.le_refl _

theorem complete (h : Reporting c cs free s) (hstaged : Staged conns free s) (bResult : Bool)
    (data : EasyCommandOnData) {op : Operation} (hop : op ∈ s.posted) :
    Reporting c cs free
      { s.start (completed bResult data s.shared op) with posted := s.posted.erase op } := by
  have hfall : ∀ w ∈ weights c, w.total { s.start (completed bResult data s.shared op) with
      posted := s.posted.erase op } ≤ w.total s := by
    intro w hw
    have htotal := total_complete (w := w) hop (completed bResult data s.shared op)
    have hle := completed_le (c := c) hstaged bResult data hop w hw
    omega
  apply h.keep (t := { s.start (completed bResult data s.shared op) with
    posted := s.posted.erase op })
  · exact fun _ ↦ Nat.add_le_add_right (hfall (Iocp.unreported c) (by simp [weights])) _
  · exact hfall (Iocp.handing c) (by simp [weights])
  · exact hfall (Iocp.attending c) (by simp [weights])
  · have htotal := total_complete (w := Iocp.reporting c) hop
      (completed bResult data s.shared op)
    have hzero : (Iocp.reporting c).op op = 0 := rfl
    omega
  · exact Nat.add_le_add_right (hfall (Iocp.closing c) (by simp [weights])) _
  · exact fun hrun ↦ hrun
  · exact Nat.le_refl _

theorem acts_le {command : EasyCommand} {actions : List Action}
    (h : Acts conns s.shared.server command actions) :
    ∀ w ∈ weights c, ((actions.flatMap ofAction).map w.instr).sum ≤ w.command command := by
  intro w hw
  simp only [weights, List.mem_cons, List.not_mem_nil, or_false] at hw
  cases h with
  | close hd =>
      rcases hw with rfl | rfl | rfl | rfl | rfl <;>
        simp [ofAction, Iocp.unreported, Iocp.reporting, Iocp.handing, Iocp.attending,
          Iocp.closing]
  | send hd =>
      rcases hw with rfl | rfl | rfl | rfl | rfl <;> exact Nat.zero_le _
  | other hnone hactions =>
      have hzero : ∀ d, w.instr (.AsyncDisconnect d) = 0 := by
        rcases hw with rfl | rfl | rfl | rfl | rfl <;> exact fun d ↦ rfl
      rw [Staged.ofAction_other hzero hactions]
      exact Nat.zero_le _

-- A connection whose end is executed is closed, and was not open.
theorem execute {e : Executed} {commands : List EasyCommand} {server : EasyBaseServer}
    (h : Reporting c cs free s) (hstaged : Staged conns free s) (hidle : s.threads[0]? = some [])
    (hlist : s.m_CommandList = e.1 :: commands)
    (hex : Executes .WIN32 s.shared.server e server) :
    Reporting c cs free
      { s with
        shared := s.shared.executed e.1 server
        threads := s.threads.set 0 (e.2.flatMap ofAction)
        m_CommandList := commands } := by
  have hacts := hex.acts hstaged.attached hstaged.array
    fun d he ↦ hstaged.ended (hlist.trans (by rw [he]))
  have htotal := fun w : Weight ↦ total_execute (w := w) hidle hlist
    (s.shared.executed e.1 server) (e.2.flatMap ofAction)
  generalize ht : State.mk (s.shared.executed e.1 server) _ s.posted commands = t at htotal
  have hshared : t.shared = s.shared.executed e.1 server := by
    rw [← ht]
  have hfall : ∀ w ∈ weights c, w.total t ≤ w.total s := by
    intro w hw
    have hle := acts_le (c := c) hacts w hw
    have hsum := htotal w
    omega
  apply h.keep
  · exact fun _ ↦ Nat.add_le_add_right (hfall (Iocp.unreported c) (by simp [weights])) _
  · exact hfall (Iocp.handing c) (by simp [weights])
  · exact hfall (Iocp.attending c) (by simp [weights])
  · have hsum := htotal (Iocp.reporting c)
    have hzero : (Iocp.reporting c).command e.1 = 0 := rfl
    omega
  · rw [hshared, Shared.executed_connected]
    exact Nat.add_le_add_right (hfall (Iocp.closing c) (by simp [weights])) _
  · rw [hshared, Shared.executed_server]
    intro hrun
    by_contra hshut
    rw [Bool.not_eq_false] at hshut
    rw [hex.sessionEffect.shutdown_iff.mpr (.inl hshut)] at hrun
    cases hrun
  · rw [hshared, Shared.executed_created]

/-! ## 4. Runs -/

theorem step (h : ∀ c, Reporting c cs free s) (hstaged : Staged conns free s) {event : Event}
    (hC : Orderly s event) (hst : Step OwnCall s event t) :
    ∃ conns' free', Staged conns' free' t ∧ ∀ c, Reporting c (cs ++ event.pushed) free' t := by
  cases hst with
  | call hi =>
      refine ⟨_, _, hstaged.call hi, fun c ↦ ?_⟩
      show Reporting c (cs ++ []) _ _
      rw [List.append_nil]
      exact (h c).call hi
  | run hthread => exact ⟨_, run h hstaged hthread hC⟩
  | @complete op bResult data hop =>
      refine ⟨_, _, hstaged.complete bResult data hop, fun c ↦ ?_⟩
      show Reporting c (cs ++ []) _ _
      rw [List.append_nil]
      exact (h c).complete hstaged bResult data hop
  | execute hidle hlist hex =>
      refine ⟨_, _, hstaged.execute hidle hlist hex, fun c ↦ ?_⟩
      show Reporting c (cs ++ []) _ _
      rw [List.append_nil]
      exact (h c).execute hstaged hidle hlist hex

-- What is pushed in a step may come where it does.
theorem inOrder (h : ∀ c, Reporting c cs free s) {event : Event} (hst : Step OwnCall s event t)
    {command : EasyCommand} (hpushed : event.pushed = [command]) : InOrder cs command := by
  cases hst with
  | @run i n rest ok hthread =>
      cases i with
      | PushCommand pushed =>
          cases hpushed
          have hle := fun w : Weight ↦ le_total (w := w) hthread
          cases command with
          | OnConnect c =>
              intro hopen
              have hone : (Iocp.unreported c).instr (.PushCommand (.OnConnect c)) = 1 := if_pos rfl
              have hpos := hle (Iocp.unreported c)
              have hzero := (h c).opened hopen
              omega
          | OnDisconnect c =>
              have hone : (Iocp.handing c).instr (.PushCommand (.OnDisconnect c)) = 1 := if_pos rfl
              have hpos := hle (Iocp.handing c)
              exact (h c).handing (by omega)
          | OnData c data =>
              have hone : (Iocp.handing c).instr (.PushCommand (.OnData c data)) = 1 := if_pos rfl
              have hpos := hle (Iocp.handing c)
              exact (h c).handing (by omega)
          | _ => trivial
      | _ => cases hpushed
  | _ => cases hpushed

theorem init (iMaxSession : ℕ) (memory : SessionPtr → EasySession) (array : ℕ → SessionPtr)
    (c : ConnID) : Reporting c [] [] (init iMaxSession memory array) := by
  constructor
  · exact fun _ ↦ rfl
  · exact fun hpos ↦ absurd hpos (Nat.lt_irrefl 0)
  · exact fun _ hpos ↦ absurd hpos (Nat.lt_irrefl 0)
  · exact fun _ _ hpos ↦ absurd hpos (Nat.lt_irrefl 0)
  · exact fun _ ↦ since_nil

end Reporting

-- The command list is a queue.
theorem queued {calls : Instr → Prop} {s t : State} {event : Event} (hst : Step calls s event t)
    {before : List EasyCommand} :
    before ++ s.m_CommandList ++ event.pushed =
      before ++ executions [event] ++ t.m_CommandList := by
  cases hst with
  | call hi => simp [Event.pushed, executions, State.start]
  | @run i n rest ok hthread =>
      rw [← exec_pushed ok s.shared i]
      simp [executions, State.run]
  | complete hop => simp [Event.pushed, executions, State.start]
  | execute hidle hlist hex => simp [Event.pushed, executions, hlist]

theorem pushes_snoc (es : List Event) (event : Event) :
    pushes (es ++ [event]) = pushes es ++ event.pushed := by
  rw [pushes, List.flatMap_append, List.flatMap_singleton]
  rfl

theorem pushes_eq {calls : Instr → Prop} {s₀ s : State} {es : List Event}
    (h : Path (Step calls) s₀ es s) (hs₀ : s₀.m_CommandList = []) :
    pushes es = executions es ++ s.m_CommandList := by
  apply h.always (I := fun es s ↦ pushes es = executions es ++ s.m_CommandList)
  · rw [hs₀]
    rfl
  · intro es s event t hqueue hst
    rw [pushes_snoc, hqueue, queued hst]
    simp [executions]

/-- **Reports come in order**: whatever the workers do, and however often a connection is used
again, its commands are pushed as one `COMMAND_ONCONNECT`, data, and one `COMMAND_ONDISCONNECT`, in
turn; and commands are executed in the order in which they were pushed. -/
theorem reports_in_order (iMaxSession : ℕ) (memory : SessionPtr → EasySession)
    (array : ℕ → SessionPtr) (es : List Event) (s : State)
    (h : Path (Guarded Orderly (Step OwnCall)) (init iMaxSession memory array) es s) :
    Each InOrder (pushes es) ∧ pushes es = executions es ++ s.m_CommandList := by
  have hall : (∃ conns free, Staged conns free s ∧ ∀ c, Reporting c (pushes es) free s) ∧
      Each InOrder (pushes es) := by
    apply h.always (I := fun es s ↦
      (∃ conns free, Staged conns free s ∧ ∀ c, Reporting c (pushes es) free s) ∧
        Each InOrder (pushes es))
    · exact ⟨⟨[], [], Staged.init iMaxSession memory array,
        Reporting.init iMaxSession memory array⟩, each_nil⟩
    · rintro es s event t ⟨⟨conns, free, hstaged, hreporting⟩, heach⟩ ⟨hC, hst⟩
      rw [pushes_snoc]
      refine ⟨Reporting.step hreporting hstaged hC hst, ?_⟩
      cases hpushed : event.pushed with
      | nil =>
          rw [List.append_nil]
          exact heach
      | cons command rest =>
          have hrest : rest = [] := by
            cases event with
            | Run i ok =>
                cases i with
                | PushCommand pushed => exact (List.cons.inj hpushed).2.symm
                | _ => cases hpushed
            | _ => cases hpushed
          rw [hrest] at hpushed ⊢
          exact each_snoc.mpr ⟨heach, Reporting.inOrder hreporting hst hpushed⟩
  exact ⟨hall.2, pushes_eq h.of_guarded rfl⟩

/-- The first connection ends; another one comes, and then one on the same connection. -/
theorem reports_in_order_again :
    ∃ es s, Path (Guarded Orderly (Step OwnCall)) (init 1 (fun _ ↦ zeroSession) fun _ ↦ 0) es s ∧
      pushes es = [.OnConnect 0, .OnDisconnect 0, .OnConnect 1, .OnConnect 0] ∧
      Each InOrder (pushes es) := by
  have hharmless : ∀ t event, Harmless event = true → Orderly t event := fun _ _ ↦ .of_harmless
  have haccepted := guarded_complete orderly_started (.accept 0) true ⟨[], by decide⟩
    (List.mem_singleton_self _) (.of_harmless rfl)
  have hreceiving := harmless_turns haccepted hharmless (List.replicate 11 (2, true)) rfl
  have hconnect := guarded_execute hreceiving (.OnConnect 0, []) (.of_harmless rfl) rfl rfl
    ⟨_, ⟨zeroSession, rfl⟩, rfl, rfl⟩
  -- the client goes
  have hreceived := guarded_complete hconnect (.recv 0) true ⟨[], by decide⟩ (by decide)
    (.of_harmless rfl)
  have hending := harmless_turns hreceived hharmless (List.replicate 3 (3, true)) rfl
  have hended := guarded_complete hending (.disconnect 0) true ⟨[], by decide⟩ (by decide)
    (.of_harmless rfl)
  have hdisconnected := hended.snoc (l := .Run (.Disconnected 0) true)
    ⟨.of_disconnected rfl, .run (n := 4) rfl⟩
  have hcallback := hdisconnected.snoc (l := .Run (.OnDisconnect 0) true)
    ⟨⟨by simp, by simp, by simp⟩, .run (n := 4) rfl⟩
  have hpushed := harmless_turns hcallback hharmless [(4, true)] rfl
  have hexecuted := guarded_execute hpushed (.OnDisconnect 0, [.Close 0])
    ⟨by simp, by simp, by simp⟩ rfl rfl ⟨_, rfl, rfl, rfl⟩
  have hclosed := hexecuted.snoc (l := .Run (.Close 0) true)
    ⟨⟨by simp, by simp, by simp⟩, .run (n := 0) rfl⟩
  have hfree := harmless_turns hclosed hharmless [(0, true)] rfl
  -- another one comes, and then one on the same connection
  have hsecond := guarded_complete hfree (.accept 1) true ⟨[], by decide⟩ (by decide)
    (.of_harmless rfl)
  have haccepts := harmless_turns hsecond hharmless (List.replicate 11 (5, true)) rfl
  have hagain := guarded_complete haccepts (.accept 0) true ⟨[], by decide⟩ (by decide)
    (.of_harmless rfl)
  have hconnected := harmless_turns hagain hharmless (List.replicate 11 (6, true)) rfl
  exact ⟨_, _, hconnected, rfl, (reports_in_order 1 _ _ _ _ hconnected).1⟩

end Iocp

end Fantuan
