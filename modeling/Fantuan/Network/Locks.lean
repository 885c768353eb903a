import Fantuan.Lib.Runs
import Fantuan.Network.Send

/-!
# easy_baseserver.cpp, easy_connection.cpp, easy_worker.cpp — the locks (Linux)

`_CommandHandler` holds `m_CommandMutex` while it executes `SENDDATA` commands, and there
`SendMessage(len, buffer)` waits for the `sem_` of the connection.  The callbacks of the worker lock
`m_CommandMutex` in `PushCommand`, and so does `Disconnect` when `send` returns 0.  Taking a lock is
a step of its own, and so is each call of `send`.
-/

open Lib

namespace Fantuan

variable {κ : Type}

inductive Thread
  | command
  | worker
deriving DecidableEq

inductive Lock (κ : Type)
  | m_CommandMutex
  | sem_ (c : κ)

/-- Where the command thread is: without the mutex, between two commands, at the `sem_wait` of
`SendMessage(len, buffer)`, in the loop there, or at the lock of `PushCommand` that is called from
there. -/
inductive CommandAt (κ : Type)
  | unlocked
  | handling
  | sem_wait (c : κ) (len : ℕ)
  | sending (c : κ)
  | Disconnect (c : κ)

/-- Where the worker is: outside a callback, in the loop of `SendMessage()`, or at the lock of
`PushCommand` or behind it.  The `sem_post` of `SendMessage()` may be still to come. -/
inductive WorkerAt (κ : Type)
  | epoll_wait
  | sending (c : κ) (total : ℤ)
  | PushCommand (post : Option κ)
  | locked (post : Option κ)

structure Locks (κ : Type) where
  /-- The thread that holds the mutex. -/
  m_CommandMutex : Option Thread
  sem_ : κ → ℕ
  len_ : κ → ℤ
  /-- `ev_.events` is `EPOLLOUT | EPOLLET`. -/
  armed : κ → Bool
  command : CommandAt κ
  worker : WorkerAt κ

inductive LockEvent (κ : Type)
  | lock
  | unlock
  | SendData (c : κ) (len : ℕ)
  | sem_wait
  /-- A call of `send` in `SendMessage(len, buffer)`. -/
  | send (o : SendOutcome)
  | pushDisconnect
  /-- `AcceptConnection` or `RecvData` comes to `PushCommand`. -/
  | callback
  | epollOut (c : κ)
  /-- A call of `send` in `SendMessage()`. -/
  | sendLeft (o : SendOutcome)
  | push
  | pushed

namespace Locks

/-! ## 1. The two threads -/

def start (κ : Type) : Locks κ where
  m_CommandMutex := none
  sem_ _ := 1
  len_ _ := 0
  armed _ := false
  command := .unlocked
  worker := .epoll_wait

variable [DecidableEq κ] (s : Locks κ)

def sem_post (c : κ) : Locks κ := { s with sem_ := Function.update s.sem_ c (s.sem_ c + 1) }

def setLen (c : κ) (len : ℤ) : Locks κ := { s with len_ := Function.update s.len_ c len }

/-- The end of the loop of `SendMessage(len, buffer)`. -/
def written (c : κ) (writeNum : ℤ) : Locks κ :=
  if writeNum = s.len_ c then { (s.setLen c 0).sem_post c with command := .handling }
  else s.setLen c (int32 (s.len_ c - writeNum))

/-- One turn of the loop of `SendMessage(len, buffer)`. -/
def SendMessage (c : κ) : SendOutcome → Locks κ
  | .accepted k => s.written c k
  | .EAGAIN => { s with armed := Function.update s.armed c true, command := .handling }
  | .EINTR => s.written c (-1)
  | .error => s.written c (-1)
  | .zero => { s with command := .Disconnect c }

/-- `SendMessage()` up to its loop. -/
def SendLeft (c : κ) : Locks κ :=
  if s.len_ c = 0 then s else { s with worker := .sending c (s.len_ c) }

/-- The end of `SendMessage()` with `bWriteOK`. -/
def flushed (c : κ) : Locks κ :=
  { (s.setLen c 0).sem_post c with
    armed := Function.update s.armed c false, worker := .epoll_wait }

/-- One turn of the loop of `SendMessage()`. -/
def SendLeftLoop (c : κ) (total : ℤ) : SendOutcome → Locks κ
  | .accepted k =>
      if (k : ℤ) = total then s.flushed c
      else { s with worker := .sending c (int32 (total - k)) }
  | .EAGAIN => s.flushed c
  | .EINTR => s
  | .error => { s.sem_post c with worker := .epoll_wait }
  | .zero => { s with worker := .PushCommand (some c) }

/-- The worker leaves `PushCommand`, and `SendMessage()` if it has been called there. -/
def leave : Option κ → Locks κ
  | none => { s with m_CommandMutex := none, worker := .epoll_wait }
  | some c => { s.sem_post c with m_CommandMutex := none, worker := .epoll_wait }

inductive Step : Locks κ → LockEvent κ → Locks κ → Prop
  | lock {s : Locks κ} (hc : s.command = .unlocked) (hfree : s.m_CommandMutex = none) :
      Step s .lock { s with m_CommandMutex := some .command, command := .handling }
  | unlock {s : Locks κ} (hc : s.command = .handling) :
      Step s .unlock { s with m_CommandMutex := none, command := .unlocked }
  | SendData {s : Locks κ} {c : κ} {len : ℕ} (hc : s.command = .handling) :
      Step s (.SendData c len) { s with command := .sem_wait c len }
  | sem_wait {s : Locks κ} {c : κ} {len : ℕ} (hc : s.command = .sem_wait c len)
      (hsem : 0 < s.sem_ c) :
      Step s .sem_wait
        { s.setLen c (int32 len) with
          sem_ := Function.update s.sem_ c (s.sem_ c - 1), command := .sending c }
  | send {s : Locks κ} {c : κ} {o : SendOutcome} (hc : s.command = .sending c)
      (ho : o.Possible (s.len_ c)) : Step s (.send o) (s.SendMessage c o)
  | pushDisconnect {s : Locks κ} {c : κ} (hc : s.command = .Disconnect c)
      (hfree : s.m_CommandMutex = none) :
      Step s .pushDisconnect { s.sem_post c with command := .handling }
  | callback {s : Locks κ} (hw : s.worker = .epoll_wait) :
      Step s .callback { s with worker := .PushCommand none }
  | epollOut {s : Locks κ} {c : κ} (hw : s.worker = .epoll_wait) (harmed : s.armed c = true) :
      Step s (.epollOut c) (s.SendLeft c)
  | sendLeft {s : Locks κ} {c : κ} {total : ℤ} {o : SendOutcome} (hw : s.worker = .sending c total)
      (ho : o.Possible total) : Step s (.sendLeft o) (s.SendLeftLoop c total o)
  | push {s : Locks κ} {post : Option κ} (hw : s.worker = .PushCommand post)
      (hfree : s.m_CommandMutex = none) :
      Step s .push { s with m_CommandMutex := some .worker, worker := .locked post }
  | pushed {s : Locks κ} {post : Option κ} (hw : s.worker = .locked post) :
      Step s .pushed (s.leave post)

/-! ## 2. Deadlocks -/

/-- The thread can only go on when it gets the lock, which it does not get now. -/
def Awaits : Thread → Lock κ → Prop
  | .command, .m_CommandMutex =>
      (s.command = .unlocked ∨ ∃ c, s.command = .Disconnect c) ∧ s.m_CommandMutex ≠ none
  | .command, .sem_ c => (∃ len, s.command = .sem_wait c len) ∧ s.sem_ c = 0
  | .worker, .m_CommandMutex => (∃ post, s.worker = .PushCommand post) ∧ s.m_CommandMutex ≠ none
  | .worker, .sem_ _ => False

/-- Only this thread can release the lock.  A `sem_` at which the command thread waits is posted by
the worker. -/
def Releases (t : Thread) : Lock κ → Prop
  | .m_CommandMutex => s.m_CommandMutex = some t
  | .sem_ _ => t = .worker

/-- A thread waits for itself, or the two threads wait for each other. -/
def Deadlocked : Prop :=
  (∃ t l, s.Awaits t l ∧ s.Releases t l) ∨
    ∃ l l', s.Awaits .command l ∧ s.Releases .worker l ∧
      s.Awaits .worker l' ∧ s.Releases .command l'

def Right (s : Locks κ) (e : LockEvent κ) : Prop := ∀ s', Step s e s' → ¬ s'.Deadlocked

/-- The command thread is at a `sem_` that is 0. -/
def CommandWaits : Prop := ∃ c len, s.command = .sem_wait c len ∧ s.sem_ c = 0

/-- The worker is at the lock of `PushCommand`. -/
def WorkerPushes : Prop := ∃ post, s.worker = .PushCommand post

/-- No `send` of the command thread returns 0; and the command thread does not come to a `sem_` that
is 0 while the worker is at the lock of `PushCommand`, nor the other way round. -/
def Safe (s : Locks κ) : LockEvent κ → Prop
  | .send .zero => ∀ c, s.command ≠ .sending c
  | .SendData c _ => s.command = .handling → s.sem_ c = 0 → ¬ s.WorkerPushes
  | .callback => s.worker = .epoll_wait → ¬ s.CommandWaits
  | .sendLeft .zero => (∃ c total, s.worker = .sending c total) → ¬ s.CommandWaits
  | _ => True

/-- Who holds the mutex, and what a deadlock comes down to then. -/
structure Owned (s : Locks κ) : Prop where
  command : s.m_CommandMutex = some .command ↔ s.command ≠ .unlocked
  worker : s.m_CommandMutex = some .worker ↔ ∃ post, s.worker = .locked post

def Stuck : Prop := (∃ c, s.command = .Disconnect c) ∨ s.CommandWaits ∧ s.WorkerPushes

variable {s} {s' : Locks κ} {e : LockEvent κ} {c : κ} {total : ℤ}
  {o : SendOutcome}

section Waiting

omit [DecidableEq κ]

theorem Owned.holds (h : s.Owned) (hc : s.command ≠ .unlocked) :
    s.m_CommandMutex = some .command ∧ s.m_CommandMutex ≠ none := by
  have hown := h.command.mpr hc
  rw [hown]
  exact ⟨rfl, Option.some_ne_none _⟩

theorem Owned.deadlocked_iff (h : s.Owned) : s.Deadlocked ↔ s.Stuck := by
  constructor
  · intro hd
    cases hd with
    | inl hself =>
        obtain ⟨t, l, hawaits, hreleases⟩ := hself
        cases t with
        | command =>
            cases l with
            | m_CommandMutex =>
                cases hawaits.1 with
                | inl hc => exact absurd hc (h.command.mp hreleases)
                | inr hc => exact .inl hc
            | sem_ c => cases hreleases
        | worker =>
            cases l with
            | m_CommandMutex =>
                obtain ⟨post, hw⟩ := hawaits.1
                obtain ⟨post', hw'⟩ := h.worker.mp hreleases
                cases hw.symm.trans hw'
            | sem_ c => exact hawaits.elim
    | inr hboth =>
        obtain ⟨l, l', hcommand, hby, hworker, -⟩ := hboth
        cases l' with
        | sem_ c => exact hworker.elim
        | m_CommandMutex =>
            cases l with
            | m_CommandMutex =>
                obtain ⟨post, hw⟩ := hworker.1
                obtain ⟨post', hw'⟩ := h.worker.mp hby
                cases hw.symm.trans hw'
            | sem_ c =>
                obtain ⟨len, hc⟩ := hcommand.1
                exact .inr ⟨⟨c, len, hc, hcommand.2⟩, hworker.1⟩
  · intro hs
    cases hs with
    | inl hdisconnect =>
        obtain ⟨c, hc⟩ := hdisconnect
        have hown := h.holds (by simp [hc])
        exact .inl ⟨.command, .m_CommandMutex, ⟨.inr ⟨c, hc⟩, hown.2⟩, hown.1⟩
    | inr hboth =>
        obtain ⟨⟨c, len, hc, hsem⟩, hw⟩ := hboth
        have hown := h.holds (by simp [hc])
        exact .inr ⟨.sem_ c, .m_CommandMutex, ⟨⟨len, hc⟩, hsem⟩, rfl, ⟨hw, hown.2⟩, hown.1⟩

theorem not_stuck_of_command (hc : ∀ c, s.command ≠ .Disconnect c) (hwaits : ¬ s.CommandWaits) :
    ¬ s.Stuck :=
  fun h ↦ h.elim (fun hd ↦ hd.elim hc) fun hboth ↦ hwaits hboth.1

theorem not_stuck_of_worker (hc : ∀ c, s.command ≠ .Disconnect c) (hpushes : ¬ s.WorkerPushes) :
    ¬ s.Stuck :=
  fun h ↦ h.elim (fun hd ↦ hd.elim hc) fun hboth ↦ hpushes hboth.2

-- A command thread that is at no lock is not stuck.
theorem not_stuck_of_running (hc : ∀ c, s.command ≠ .Disconnect c)
    (hsem : ∀ c len, s.command ≠ .sem_wait c len) : ¬ s.Stuck := by
  apply not_stuck_of_command hc
  intro hwaits
  cases hwaits with
  | intro c hwaits =>
      cases hwaits with
      | intro len hwaits => exact hsem c len hwaits.1

-- The command thread goes on with the mutex in its hands.
theorem Owned.of_command (h : s.Owned) (hmutex : s'.m_CommandMutex = s.m_CommandMutex)
    (hc : s.command ≠ .unlocked) (hc' : s'.command ≠ .unlocked) (hw : s'.worker = s.worker) :
    s'.Owned where
  command := by
    rw [hmutex]
    exact h.command.trans (iff_of_true hc hc')
  worker := by
    rw [hmutex, hw]
    exact h.worker

-- The worker goes on without the mutex.
theorem Owned.of_worker (h : s.Owned) (hmutex : s'.m_CommandMutex = s.m_CommandMutex)
    (hc : s'.command = s.command) (hw : ∀ post, s.worker ≠ .locked post)
    (hw' : ∀ post, s'.worker ≠ .locked post) : s'.Owned where
  command := by
    rw [hmutex, hc]
    exact h.command
  worker := by
    rw [hmutex]
    exact h.worker.trans (iff_of_false (not_exists.mpr hw) (not_exists.mpr hw'))

end Waiting

/-! ## 3. One step -/

theorem written_cases (s : Locks κ) (c : κ) (writeNum : ℤ) :
    (s.written c writeNum).m_CommandMutex = s.m_CommandMutex ∧
      (s.written c writeNum).worker = s.worker ∧
      ((s.written c writeNum).command = .handling ∨
        (s.written c writeNum).command = s.command) := by
  unfold written
  split
  · exact ⟨rfl, rfl, .inl rfl⟩
  · exact ⟨rfl, rfl, .inr rfl⟩

-- A call of `send` that does not return 0 leaves the command thread in the loop, or done.
theorem SendMessage_cases (hc : s.command = .sending c) :
    (s.SendMessage c o).m_CommandMutex = s.m_CommandMutex ∧
      (s.SendMessage c o).worker = s.worker ∧
      ((s.SendMessage c o).command = .handling ∨ (s.SendMessage c o).command = .sending c ∨
        o = .zero ∧ (s.SendMessage c o).command = .Disconnect c) := by
  have hwritten := fun writeNum ↦ written_cases s c writeNum
  rw [hc] at hwritten
  cases o with
  | accepted k => exact ⟨(hwritten k).1, (hwritten k).2.1, (hwritten k).2.2.imp_right .inl⟩
  | EAGAIN => exact ⟨rfl, rfl, .inl rfl⟩
  | EINTR => exact ⟨(hwritten _).1, (hwritten _).2.1, (hwritten _).2.2.imp_right .inl⟩
  | error => exact ⟨(hwritten _).1, (hwritten _).2.1, (hwritten _).2.2.imp_right .inl⟩
  | zero => exact ⟨rfl, rfl, .inr (.inr ⟨rfl, rfl⟩)⟩

-- After a `send` in `SendMessage()` the worker is done, in the loop, or at `Disconnect`.
theorem SendLeftLoop_cases (hw : s.worker = .sending c total) :
    (s.SendLeftLoop c total o).m_CommandMutex = s.m_CommandMutex ∧
      (s.SendLeftLoop c total o).command = s.command ∧
      ((s.SendLeftLoop c total o).worker = .epoll_wait ∨
        (∃ total', (s.SendLeftLoop c total o).worker = .sending c total') ∨
        o = .zero ∧ (s.SendLeftLoop c total o).worker = .PushCommand (some c) ∧
          (s.SendLeftLoop c total o).sem_ = s.sem_) := by
  cases o with
  | accepted k =>
      by_cases hall : (k : ℤ) = total
      · rw [show s.SendLeftLoop c total (.accepted k) = s.flushed c from if_pos hall]
        exact ⟨rfl, rfl, .inl rfl⟩
      · rw [show s.SendLeftLoop c total (.accepted k) =
          { s with worker := .sending c (int32 (total - k)) } from if_neg hall]
        exact ⟨rfl, rfl, .inr (.inl ⟨_, rfl⟩)⟩
  | EAGAIN => exact ⟨rfl, rfl, .inl rfl⟩
  | EINTR => exact ⟨rfl, rfl, .inr (.inl ⟨total, hw⟩)⟩
  | error => exact ⟨rfl, rfl, .inl rfl⟩
  | zero => exact ⟨rfl, rfl, .inr (.inr ⟨rfl, rfl, rfl⟩)⟩

-- Deadlocks arise in steps that are not safe only.
theorem not_stuck_of_step (h : ¬ s.Stuck) (hsafe : Safe s e) (hstep : Step s e s') :
    ¬ s'.Stuck := by
  have hdisconnect : ∀ c, s.command ≠ .Disconnect c := fun c hc ↦ h (.inl ⟨c, hc⟩)
  cases hstep with
  | lock => exact not_stuck_of_running (by simp) (by simp)
  | unlock => exact not_stuck_of_running (by simp) (by simp)
  | @SendData c len hc =>
      by_cases hsem : s.sem_ c = 0
      · apply not_stuck_of_worker
        · simp
        · exact hsafe hc hsem
      · -- `sem_wait` will not wait
        apply not_stuck_of_command
        · simp
        · intro hwaits
          obtain ⟨c', len', hc', hsem'⟩ := hwaits
          cases hc'
          exact hsem hsem'
  | sem_wait => exact not_stuck_of_running (by simp) (by simp)
  | @send c o hc =>
      obtain hdone | hloop | ⟨hzero, -⟩ := (SendMessage_cases (o := o) hc).2.2
      · exact not_stuck_of_running (by simp [hdone]) (by simp [hdone])
      · exact not_stuck_of_running (by simp [hloop]) (by simp [hloop])
      · subst hzero
        exact absurd hc (hsafe c)
  | @pushDisconnect c hc => exact absurd hc (hdisconnect c)
  | callback hw =>
      apply not_stuck_of_command
      · exact hdisconnect
      · exact hsafe hw
  | @epollOut c hw =>
      unfold SendLeft
      split
      · exact h
      · exact not_stuck_of_worker hdisconnect (by simp [WorkerPushes])
  | @sendLeft c total o hw =>
      have hcases := SendLeftLoop_cases (o := o) hw
      have hdisconnect' : ∀ c', (s.SendLeftLoop c total o).command ≠ .Disconnect c' := by
        rw [hcases.2.1]
        exact hdisconnect
      obtain hdone | ⟨total', hloop⟩ | ⟨hzero, -, hsem⟩ := hcases.2.2
      · exact not_stuck_of_worker hdisconnect' (by simp [WorkerPushes, hdone])
      · exact not_stuck_of_worker hdisconnect' (by simp [WorkerPushes, hloop])
      · -- the worker comes to `PushCommand`: the command thread must not wait
        subst hzero
        exact not_stuck_of_command hdisconnect' (hsafe ⟨c, total, hw⟩)
  | push => exact not_stuck_of_worker hdisconnect (by simp [WorkerPushes])
  | @pushed post hw =>
      cases post with
      | none => exact not_stuck_of_worker hdisconnect (by simp [WorkerPushes, leave])
      | some c => exact not_stuck_of_worker hdisconnect (by simp [WorkerPushes, leave])

theorem Owned.step (h : s.Owned) (hstuck : ¬ s.Stuck) (hstep : Step s e s') : s'.Owned := by
  have hfree : s.m_CommandMutex = none →
      s.command = .unlocked ∧ ∀ post, s.worker ≠ .locked post := by
    intro hnone
    refine ⟨?_, fun post hw ↦ ?_⟩
    · by_contra hc
      exact (h.holds hc).2 hnone
    · have hown := h.worker.mpr ⟨post, hw⟩
      rw [hnone] at hown
      cases hown
  cases hstep with
  | lock _ hnone =>
      constructor
      · simp
      · simp [(hfree hnone).2]
  | unlock hc =>
      have hown := (h.holds (by simp [hc])).1
      constructor
      · simp
      · -- the worker does not have the mutex either
        have hworker := h.worker
        rw [hown] at hworker
        simpa using hworker
  | SendData hc => exact h.of_command rfl (by simp [hc]) (by simp) rfl
  | sem_wait hc => exact h.of_command rfl (by simp [hc]) (by simp) rfl
  | @send c o hc =>
      have hcases := SendMessage_cases (o := o) hc
      have hbusy : (s.SendMessage c o).command ≠ .unlocked := by
        obtain he | he | ⟨-, he⟩ := hcases.2.2
        · simp [he]
        · simp [he]
        · simp [he]
      exact h.of_command hcases.1 (by simp [hc]) hbusy hcases.2.1
  | @pushDisconnect c hc => exact absurd (.inl ⟨c, hc⟩) hstuck
  | callback hw => exact h.of_worker rfl rfl (by simp [hw]) (by simp)
  | @epollOut c hw =>
      unfold SendLeft
      split
      · exact h
      · exact h.of_worker rfl rfl (by simp [hw]) (by simp)
  | @sendLeft c total o hw =>
      have hcases := SendLeftLoop_cases (o := o) hw
      have hout : ∀ post, (s.SendLeftLoop c total o).worker ≠ .locked post := by
        obtain he | ⟨total', he⟩ | ⟨-, he, -⟩ := hcases.2.2
        · simp [he]
        · simp [he]
        · simp [he]
      exact h.of_worker hcases.1 hcases.2.1 (by simp [hw]) hout
  | @push post hw hnone =>
      constructor
      · simp [(hfree hnone).1]
      · simp
  | @pushed post hw =>
      have hown := h.worker.mpr ⟨post, hw⟩
      -- the command thread is outside, and neither has the mutex now
      have hcommand := h.command
      rw [hown] at hcommand
      have hunlocked : s.command = .unlocked := by simpa using hcommand
      cases post with
      | none => exact ⟨by simp [leave, hunlocked], by simp [leave]⟩
      | some c => exact ⟨by simp [leave, sem_post, hunlocked], by simp [leave]⟩

-- What makes a step unsafe leads to a deadlock.
theorem safe_of_right (h : s.Owned) (hstuck : ¬ s.Stuck) (hright : Right s e) : Safe s e := by
  have hleads : ∀ s', Step s e s' → s'.Stuck → False := fun s' hstep hs' ↦
    hright s' hstep ((h.step hstuck hstep).deadlocked_iff.mpr hs')
  cases e with
  | send o =>
      cases o with
      | zero => exact fun c hc ↦ hleads _ (.send hc trivial) (.inl ⟨c, rfl⟩)
      | _ => trivial
  | SendData c len =>
      exact fun hc hsem hpushes ↦ hleads _ (.SendData hc) (.inr ⟨⟨c, len, rfl, hsem⟩, hpushes⟩)
  | callback => exact fun hw hwaits ↦ hleads _ (.callback hw) (.inr ⟨hwaits, none, rfl⟩)
  | sendLeft o =>
      cases o with
      | zero =>
          intro hw hwaits
          obtain ⟨c, total, hw⟩ := hw
          exact hleads _ (.sendLeft hw trivial) (.inr ⟨hwaits, some c, rfl⟩)
      | _ => trivial
  | _ => trivial

/-! ## 4. Runs -/

/-- **No deadlock** arises in a run if and only if no `send` of the command thread returns 0, and
the command thread is never at a `sem_` that is 0 while the worker is at the lock of `PushCommand`:
the one does not come there while the other is. -/
theorem noDeadlock_iff (es : List (LockEvent κ)) :
    AllSteps Step (start κ) Right es ↔ AllSteps Step (start κ) Safe es := by
  have hstart : (start κ).Owned ∧ ¬ (start κ).Stuck := by
    refine ⟨⟨by simp [start], by simp [start]⟩, ?_⟩
    exact not_stuck_of_running (by simp [start]) (by simp [start])
  apply allSteps_iff (I := fun s ↦ s.Owned ∧ ¬ s.Stuck) hstart
  · intro s e s' hs hright hstep
    exact ⟨hs.1.step hs.2 hstep, not_stuck_of_step hs.2 (safe_of_right hs.1 hs.2 hright) hstep⟩
  · intro s e hs
    refine ⟨safe_of_right hs.1 hs.2, fun hsafe s' hstep ↦ ?_⟩
    rw [(hs.1.step hs.2 hstep).deadlocked_iff]
    exact not_stuck_of_step hs.2 hsafe hstep

-- `send` returns 0: the command thread waits for the mutex that it holds.
theorem deadlocked_self :
    ∃ s, Path Step (start ℕ) [.lock, .SendData 0 10, .sem_wait, .send .zero] s ∧ s.Deadlocked := by
  have h₁ : Path Step (start ℕ) [.lock] _ := Path.nil.snoc (.lock rfl rfl)
  have h₂ : Path Step (start ℕ) [.lock, .SendData 0 10] _ := h₁.snoc (.SendData rfl)
  have h₃ : Path Step (start ℕ) [.lock, .SendData 0 10, .sem_wait] _ :=
    h₂.snoc (.sem_wait rfl Nat.one_pos)
  have h₄ : Path Step (start ℕ) [.lock, .SendData 0 10, .sem_wait, .send .zero] _ :=
    h₃.snoc (.send rfl trivial)
  exact ⟨_, h₄, .inl ⟨.command, .m_CommandMutex, ⟨.inr ⟨0, rfl⟩, Option.some_ne_none _⟩, rfl⟩⟩

/-- The socket is full, and the command thread waits for the worker to send the rest before it sends
again on the same connection; the worker waits for the mutex, to push what it has received. -/
theorem deadlocked_both :
    ∃ s, Path Step (start ℕ)
      [.lock, .SendData 0 10, .sem_wait, .send .EAGAIN, .SendData 0 10, .callback] s ∧
      s.Deadlocked := by
  have h₁ : Path Step (start ℕ) [.lock] _ := Path.nil.snoc (.lock rfl rfl)
  have h₂ : Path Step (start ℕ) [.lock, .SendData 0 10] _ := h₁.snoc (.SendData rfl)
  have h₃ : Path Step (start ℕ) [.lock, .SendData 0 10, .sem_wait] _ :=
    h₂.snoc (.sem_wait rfl Nat.one_pos)
  have h₄ : Path Step (start ℕ) [.lock, .SendData 0 10, .sem_wait, .send .EAGAIN] _ :=
    h₃.snoc (.send rfl trivial)
  have h₅ : Path Step (start ℕ)
      [.lock, .SendData 0 10, .sem_wait, .send .EAGAIN, .SendData 0 10] _ :=
    h₄.snoc (.SendData rfl)
  have h₆ : Path Step (start ℕ)
      [.lock, .SendData 0 10, .sem_wait, .send .EAGAIN, .SendData 0 10, .callback] _ :=
    h₅.snoc (.callback rfl)
  exact ⟨_, h₆, .inr ⟨.sem_ 0, .m_CommandMutex, ⟨⟨10, rfl⟩, rfl⟩, rfl,
    ⟨⟨none, rfl⟩, Option.some_ne_none _⟩, rfl⟩⟩

end Locks

end Fantuan
