import Fantuan.Lib.Lock
import Fantuan.Lib.Runs
import Fantuan.Network.Send

/-!
# The semaphore of a connection (Linux)

`SendMessage(len, buffer)` takes `sem_` and posts it, or, after an `EAGAIN`, leaves the rest of the
message in `send_context_` to the worker, which posts it in `SendMessage()`.  Any number of threads
may call `SendMessage(len, buffer)`.  Every access to `sem_`, to `send_context_` and to the events
that are registered is a step of its own, and so is each call of `send`.
-/

open Lib

namespace Fantuan

/-- Where a thread is in `SendMessage(len, buffer)`: outside, at its `sem_wait`, behind it, in the
loop, behind the loop with `bWriteOK`, after an `EAGAIN`, or at its `sem_post`. -/
inductive SendCallerPc
  | idle
  | sem_wait (len : ℕ) (buffer : ℤ)
  | assign (len : ℕ) (buffer : ℤ)
  | sending
  | sent
  | epoll_ctl
  | sem_post

/-- From behind the `sem_wait` to the `sem_post`, or to the `epoll_ctl` that leaves the message to
the worker. -/
def SendCallerPc.Inside : SendCallerPc → Prop
  | idle => False
  | sem_wait _ _ => False
  | _ => True

/-- Where the worker is in `SendMessage()`: outside, at its start, in the loop, behind the loop with
`bWriteOK`, at its `epoll_ctl`, or at its `sem_post`. -/
inductive SendWorkerPc
  | idle
  | called
  | sending (p total : ℤ)
  | sent
  | epoll_ctl
  | sem_post

/-- The message is still to be sent, or a part of it. -/
def SendWorkerPc.Left : SendWorkerPc → Prop
  | called => True
  | sending _ _ => True
  | _ => False

/-- The callers are named by `ι`.  `buffer_` and `len_` are those of `send_context_`. -/
structure SendLock (ι : Type) where
  sem_ : ℕ
  buffer_ : ℤ
  len_ : ℤ
  /-- `ev_.events` is `EPOLLOUT | EPOLLET`. -/
  armed : Bool
  caller : ι → SendCallerPc
  worker : SendWorkerPc

inductive SendLockEvent (ι : Type)
  | call (i : ι) (len : ℕ) (buffer : ℤ)
  /-- A caller goes on, other than by a call of `send`. -/
  | next (i : ι)
  | send (i : ι) (o : SendOutcome)
  | epollOut
  /-- The same for the worker. -/
  | nextLeft
  | sendLeft (o : SendOutcome)

namespace SendLock

variable {ι : Type}

/-! ## 1. The threads -/

/-- A new connection, with any `send_context_`. -/
def start (ι : Type) (buffer_ len_ : ℤ) : SendLock ι where
  sem_ := 1
  buffer_ := buffer_
  len_ := len_
  armed := false
  caller _ := .idle
  worker := .idle

section Turns

variable (s : SendLock ι) (i : ι)

/-- `SendMessage()` up to its loop. -/
def SendLeft : SendLock ι :=
  { s with worker := if s.len_ = 0 then .idle else .sending s.buffer_ s.len_ }

/-- One turn of the loop of `SendMessage()`. -/
def SendLeftLoop (p total : ℤ) : SendOutcome → SendLock ι
  | .accepted k =>
      if (k : ℤ) = total then { s with worker := .sent }
      else { s with worker := .sending (p + k) (int32 (total - k)) }
  | .EAGAIN => { s with worker := .sent }
  | .EINTR => s
  | .error => { s with worker := .sem_post }
  -- `Disconnect` comes in between
  | .zero => { s with worker := .sem_post }

variable [DecidableEq ι]

def setCaller (pc : SendCallerPc) : SendLock ι := { s with caller := Function.update s.caller i pc }

/-- The end of the loop of `SendMessage(len, buffer)`. -/
def written (writeNum : ℤ) : SendLock ι :=
  if writeNum = s.len_ then s.setCaller i .sent
  else { s with buffer_ := s.buffer_ + writeNum, len_ := int32 (s.len_ - writeNum) }

/-- One turn of the loop of `SendMessage(len, buffer)`. -/
def SendMessage : SendOutcome → SendLock ι
  | .accepted k => s.written i k
  | .EAGAIN => s.setCaller i .epoll_ctl
  -- there is no branch for `EINTR` and other errors, `writeNum` is -1
  | .EINTR => s.written i (-1)
  | .error => s.written i (-1)
  | .zero => s.setCaller i .sem_post

end Turns

inductive Step [DecidableEq ι] : SendLock ι → SendLockEvent ι → SendLock ι → Prop
  | call {s : SendLock ι} {i : ι} {len : ℕ} {buffer : ℤ} (hc : s.caller i = .idle)
      (hlen : len < 2 ^ 32) : Step s (.call i len buffer) (s.setCaller i (.sem_wait len buffer))
  | sem_wait {s : SendLock ι} {i : ι} {len : ℕ} {buffer : ℤ}
      (hc : s.caller i = .sem_wait len buffer) (hsem : 0 < s.sem_) :
      Step s (.next i) { s.setCaller i (.assign len buffer) with sem_ := s.sem_ - 1 }
  | assign {s : SendLock ι} {i : ι} {len : ℕ} {buffer : ℤ} (hc : s.caller i = .assign len buffer) :
      Step s (.next i) { s.setCaller i .sending with buffer_ := buffer, len_ := int32 len }
  | send {s : SendLock ι} {i : ι} {o : SendOutcome} (hc : s.caller i = .sending)
      (ho : o.Possible s.len_) : Step s (.send i o) (s.SendMessage i o)
  | sent {s : SendLock ι} {i : ι} (hc : s.caller i = .sent) :
      Step s (.next i) { s.setCaller i .sem_post with len_ := 0 }
  | epoll_ctl {s : SendLock ι} {i : ι} (hc : s.caller i = .epoll_ctl) :
      Step s (.next i) { s.setCaller i .idle with armed := true }
  | sem_post {s : SendLock ι} {i : ι} (hc : s.caller i = .sem_post) :
      Step s (.next i) { s.setCaller i .idle with sem_ := s.sem_ + 1 }
  | epollOut {s : SendLock ι} (hw : s.worker = .idle) (harmed : s.armed = true) :
      Step s .epollOut { s with worker := .called }
  | called {s : SendLock ι} (hw : s.worker = .called) : Step s .nextLeft s.SendLeft
  | sendLeft {s : SendLock ι} {o : SendOutcome} {p total : ℤ} (hw : s.worker = .sending p total)
      (ho : o.Possible total) : Step s (.sendLeft o) (s.SendLeftLoop p total o)
  | sentLeft {s : SendLock ι} (hw : s.worker = .sent) :
      Step s .nextLeft { s with len_ := 0, worker := .epoll_ctl }
  | disarm {s : SendLock ι} (hw : s.worker = .epoll_ctl) :
      Step s .nextLeft { s with armed := false, worker := .sem_post }
  | postLeft {s : SendLock ι} (hw : s.worker = .sem_post) :
      Step s .nextLeft { s with sem_ := s.sem_ + 1, worker := .idle }

/-! ## 2. What the semaphore is for -/

/-- The message in `send_context_` is left to the worker. -/
def Parked (s : SendLock ι) : Prop := s.armed = true ∧ s.len_ ≠ 0

/-- One of the two functions is at work on a message. -/
def Sending (s : SendLock ι) : Prop := (∃ i, (s.caller i).Inside) ∨ s.worker ≠ .idle

structure Correct (s : SendLock ι) : Prop where
  sem_ : s.sem_ = 0 ∨ s.sem_ = 1
  zero_iff : s.sem_ = 0 ↔ s.Sending ∨ s.Parked
  one : ∀ i j, (s.caller i).Inside → (s.caller j).Inside → i = j
  alone : ∀ i, (s.caller i).Inside → ¬ s.Parked
  exclusive : ∀ i, (s.caller i).Inside → s.worker = .idle

/-- An empty message gets no `EAGAIN`, and no `send` in `SendMessage()` returns 0 or an error. -/
def Safe (s : SendLock ι) : SendLockEvent ι → Prop
  | .send _ .EAGAIN => s.len_ ≠ 0
  | .sendLeft .error => False
  | .sendLeft .zero => False
  | _ => True

/-- `o` has the lock that the semaphore stands for. -/
structure Owned (s : SendLock ι) (o : Owner ι) : Prop where
  sem_ : s.sem_ = o.value
  caller : ∀ i, (s.caller i).Inside ↔ o = .caller i
  worker : s.worker ≠ .idle ↔ o = .worker
  armed : s.armed = true → o = .parked ∨ o = .worker
  parked : o = .parked → s.Parked
  leaving : ∀ i, s.caller i = .epoll_ctl → s.len_ ≠ 0
  left : s.worker.Left → s.Parked
  disarmed : s.worker = .sem_post → s.armed = false

namespace Owned

variable {s t : SendLock ι} {o : Owner ι} {i j : ι} {pc : SendCallerPc}

theorem worker_idle (h : s.Owned o) (ho : o ≠ .worker) : s.worker = .idle := by
  by_contra hw
  exact ho (h.worker.mp hw)

theorem not_armed (h : s.Owned (.caller i)) : s.armed = false := by
  cases harmed : s.armed with
  | false => rfl
  | true => cases h.armed harmed <;> contradiction

theorem correct (h : s.Owned o) : s.Correct where
  sem_ := by
    rw [h.sem_]
    cases o <;> simp [Owner.value]
  zero_iff := by
    rw [h.sem_, Owner.value_eq_zero]
    constructor
    · intro hne
      cases o with
      | free => exact absurd rfl hne
      | caller i => exact .inl (.inl ⟨i, (h.caller i).mpr rfl⟩)
      | parked => exact .inr (h.parked rfl)
      | worker => exact .inl (.inr (h.worker.mpr rfl))
    · intro hbusy hfree
      subst hfree
      cases hbusy with
      | inl hsending =>
          cases hsending with
          | inl hcaller =>
              obtain ⟨i, hi⟩ := hcaller
              exact nomatch (h.caller i).mp hi
          | inr hworker => exact nomatch h.worker.mp hworker
      | inr hparked => cases h.armed hparked.1 <;> contradiction
  one i j hi hj := by
    have heq := ((h.caller i).mp hi).symm.trans ((h.caller j).mp hj)
    exact Owner.caller.inj heq
  alone i hi hparked := by
    rw [(h.caller i).mp hi] at h
    exact nomatch h.not_armed.symm.trans hparked.1
  exclusive i hi := by
    apply h.worker_idle
    rw [(h.caller i).mp hi]
    exact nofun

theorem start (buffer_ len_ : ℤ) : (SendLock.start ι buffer_ len_).Owned .free where
  sem_ := rfl
  caller _ := iff_of_false id nofun
  worker := iff_of_false (fun hw ↦ hw rfl) nofun
  armed := nofun
  parked := nofun
  leaving := nofun
  left := nofun
  disarmed := nofun

theorem eq_caller (h : s.Owned o) (hc : s.caller i = pc) (hin : pc.Inside) : o = .caller i :=
  (h.caller i).mp (hc ▸ hin)

theorem only (h : s.Owned (.caller i)) (j : ι) (hj : (s.caller j).Inside) : j = i :=
  (Owner.caller.inj (h.eq_caller rfl hj)).symm

theorem eq_worker {pc : SendWorkerPc} (h : s.Owned o) (hw : s.worker = pc) (hne : pc ≠ .idle) :
    o = .worker :=
  h.worker.mp (hw ▸ hne)

-- Nobody is inside: nobody leaves a message behind.
theorem not_leaving (h : ∀ j, ¬ (s.caller j).Inside) (j : ι) : s.caller j ≠ .epoll_ctl := by
  intro hj
  apply h j
  rw [hj]
  trivial

/-! ## 3. Steps of the worker -/

theorem epollOut (h : s.Owned o) (hw : s.worker = .idle) (harmed : s.armed = true) :
    o = .parked ∧ ({ s with worker := .called } : SendLock ι).Owned .worker := by
  have ho : o = .parked := by
    cases h.armed harmed with
    | inl hparked => exact hparked
    | inr hworker => exact absurd hw (h.worker.mpr hworker)
  subst ho
  have hparked := h.parked rfl
  exact ⟨rfl, h.sem_, fun j ↦ (h.caller j).trans (iff_of_false nofun nofun),
    iff_of_true nofun rfl, fun _ ↦ .inr rfl, nofun, h.leaving, fun _ ↦ hparked, nofun⟩

-- The worker that has the lock goes on with it.
theorem worker_step (h : s.Owned .worker) (hsem : t.sem_ = s.sem_) (hcaller : t.caller = s.caller)
    (hworker : t.worker ≠ .idle) (hleft : t.worker.Left → t.Parked)
    (hdisarmed : t.worker = .sem_post → t.armed = false) : t.Owned .worker := by
  have houtside : ∀ j, ¬ (t.caller j).Inside := by
    intro j hin
    rw [hcaller] at hin
    exact nomatch (h.caller j).mp hin
  exact ⟨hsem.trans h.sem_, fun j ↦ iff_of_false (houtside j) nofun, iff_of_true hworker rfl,
    fun _ ↦ .inr rfl, nofun, fun j hj ↦ absurd hj (not_leaving houtside j), hleft, hdisarmed⟩

theorem sendLeft {p : SendOutcome} {q total : ℤ} (h : s.Owned .worker)
    (hw : s.worker = .sending q total) (hsafe : Safe s (.sendLeft p)) :
    (s.SendLeftLoop q total p).Owned .worker := by
  have hparked : s.Parked := h.left (by rw [hw]; trivial)
  cases p with
  | accepted k =>
      by_cases hall : (k : ℤ) = total
      · have hdone : s.SendLeftLoop q total (.accepted k) = _ := if_pos hall
        rw [hdone]
        exact h.worker_step rfl rfl nofun nofun nofun
      · have hpart : s.SendLeftLoop q total (.accepted k) = _ := if_neg hall
        rw [hpart]
        exact h.worker_step rfl rfl nofun (fun _ ↦ hparked) nofun
  | EAGAIN => exact h.worker_step rfl rfl nofun nofun nofun
  | EINTR => exact h
  | error => exact absurd hsafe id
  | zero => exact absurd hsafe id

theorem postLeft (h : s.Owned .worker) (hw : s.worker = .sem_post) :
    ({ s with sem_ := s.sem_ + 1, worker := .idle } : SendLock ι).Owned .free := by
  have hdisarmed : s.armed = false := h.disarmed hw
  refine ⟨by show s.sem_ + 1 = 1; rw [h.sem_]; rfl, fun j ↦ (h.caller j).trans ?_,
    iff_of_false (fun hw ↦ hw rfl) nofun, ?_, nofun, h.leaving, nofun, nofun⟩
  · exact iff_of_false nofun nofun
  · intro harmed
    exact nomatch hdisarmed.symm.trans harmed

/-! ## 4. Steps of the callers -/

variable [DecidableEq ι]

@[simp] theorem setCaller_self : (s.setCaller i pc).caller i = pc := by
  unfold setCaller
  exact Function.update_self ..

theorem setCaller_of_ne (hj : j ≠ i) : (s.setCaller i pc).caller j = s.caller j := by
  unfold setCaller
  exact Function.update_of_ne hj ..

theorem inside_setCaller (h : pc.Inside ↔ (s.caller i).Inside) (j : ι) :
    ((s.setCaller i pc).caller j).Inside ↔ (s.caller j).Inside := by
  by_cases hj : j = i
  · simp only [hj, setCaller_self]
    exact h
  · simp only [setCaller_of_ne hj]

-- What a caller that is outside does is its own affair.
theorem call (h : s.Owned o) (hout : ¬ (s.caller i).Inside) (hpc : ¬ pc.Inside) :
    (s.setCaller i pc).Owned o where
  sem_ := h.sem_
  caller j := (inside_setCaller (iff_of_false hpc hout) j).trans (h.caller j)
  worker := h.worker
  armed := h.armed
  parked := h.parked
  leaving j hj := by
    by_cases hji : j = i
    · simp only [hji, setCaller_self] at hj
      rw [hj] at hpc
      exact absurd trivial hpc
    · simp only [setCaller_of_ne hji] at hj
      exact h.leaving j hj
  left := h.left
  disarmed := h.disarmed

theorem sem_wait {len : ℕ} {buffer : ℤ} (h : s.Owned o) (hsem : 0 < s.sem_) :
    o = .free ∧
      ({ s.setCaller i (.assign len buffer) with sem_ := s.sem_ - 1 } : SendLock ι).Owned
        (.caller i) := by
  rw [h.sem_] at hsem
  have hfree : o = .free := Owner.eq_free_of_pos hsem
  subst hfree
  refine ⟨rfl, by show s.sem_ - 1 = 0; rw [h.sem_]; rfl, fun j ↦ ?_, h.worker.trans (by simp), ?_,
    nofun, ?_, h.left, h.disarmed⟩
  · by_cases hj : j = i
    · simp only [hj, setCaller_self]
      exact iff_of_true trivial trivial
    · simp only [setCaller_of_ne hj, h.caller j]
      exact iff_of_false nofun fun heq ↦ hj (Owner.caller.inj heq).symm
  · intro harmed
    cases h.armed harmed <;> contradiction
  · intro j hj
    by_cases hji : j = i
    · simp only [hji, setCaller_self] at hj
      exact nomatch hj
    · simp only [setCaller_of_ne hji] at hj
      exact h.leaving j hj

omit [DecidableEq ι] in
-- A caller that has the lock goes on with it.
theorem caller_step (h : s.Owned (.caller i)) (hsem : t.sem_ = s.sem_) (harmed : t.armed = s.armed)
    (hworker : t.worker = s.worker) (hcaller : ∀ j, (t.caller j).Inside ↔ (s.caller j).Inside)
    (hleaving : t.caller i = .epoll_ctl → t.len_ ≠ 0) : t.Owned (.caller i) := by
  have hidle : t.worker = .idle := hworker.trans (h.worker_idle nofun)
  refine ⟨hsem.trans h.sem_, fun j ↦ (hcaller j).trans (h.caller j), ?_, ?_, nofun, ?_, ?_, ?_⟩
  · exact iff_of_false (fun hw ↦ hw hidle) nofun
  · rw [harmed]
    exact h.armed
  · intro j hj
    have hin : (s.caller j).Inside := by
      rw [← hcaller j, hj]
      trivial
    cases (h.caller j).mp hin
    exact hleaving hj
  · rw [hidle]
    exact False.elim
  · rw [hidle]
    exact nofun

theorem goes_on {buffer_ len_ : ℤ} (h : s.Owned (.caller i)) (hpc : pc.Inside)
    (hleaving : pc = .epoll_ctl → len_ ≠ 0) :
    ({ s.setCaller i pc with buffer_ := buffer_, len_ := len_ } : SendLock ι).Owned
      (.caller i) := by
  have hin : (s.caller i).Inside := (h.caller i).mpr rfl
  refine h.caller_step rfl rfl rfl (inside_setCaller (iff_of_true hpc hin)) ?_
  simp only [setCaller_self]
  exact hleaving

theorem written (h : s.Owned (.caller i)) (hc : s.caller i = .sending) (writeNum : ℤ) :
    (s.written i writeNum).Owned (.caller i) := by
  unfold SendLock.written
  split
  · exact h.goes_on trivial nofun
  · refine h.caller_step rfl rfl rfl (fun j ↦ Iff.rfl) ?_
    show s.caller i = .epoll_ctl → _
    rw [hc]
    exact nofun

theorem send {p : SendOutcome} (h : s.Owned (.caller i)) (hc : s.caller i = .sending)
    (hsafe : Safe s (.send i p)) : (s.SendMessage i p).Owned (.caller i) := by
  cases p with
  | accepted k => exact h.written hc k
  | EAGAIN => exact h.goes_on trivial fun _ ↦ hsafe
  | EINTR => exact h.written hc (-1)
  | error => exact h.written hc (-1)
  | zero => exact h.goes_on trivial nofun

-- The caller that leaves was the only one inside.
theorem outside_of_leave (h : ∀ j, (s.caller j).Inside → j = i) (j : ι) :
    ¬ ((s.setCaller i .idle).caller j).Inside := by
  by_cases hj : j = i
  · simp only [hj, setCaller_self]
    exact id
  · simp only [setCaller_of_ne hj]
    exact fun hin ↦ hj (h j hin)

-- The message is left to the worker.
theorem park (h : s.Owned (.caller i)) (hc : s.caller i = .epoll_ctl) :
    ({ s.setCaller i .idle with armed := true } : SendLock ι).Owned .parked := by
  have hidle : s.worker = .idle := h.worker_idle nofun
  have hout := outside_of_leave h.only
  have hparked : s.len_ ≠ 0 := h.leaving i hc
  refine ⟨h.sem_, fun j ↦ iff_of_false (hout j) nofun, ?_, fun _ ↦ .inl rfl,
    fun _ ↦ ⟨rfl, hparked⟩, fun j hj ↦ absurd hj (not_leaving hout j), fun _ ↦ ⟨rfl, hparked⟩, ?_⟩
  · exact iff_of_false (fun hw ↦ hw hidle) nofun
  · show s.worker = .sem_post → _
    rw [hidle]
    exact nofun

theorem sem_post (h : s.Owned (.caller i)) :
    ({ s.setCaller i .idle with sem_ := s.sem_ + 1 } : SendLock ι).Owned .free := by
  have hidle : s.worker = .idle := h.worker_idle nofun
  have hout := outside_of_leave h.only
  refine ⟨by show s.sem_ + 1 = 1; rw [h.sem_]; rfl, fun j ↦ iff_of_false (hout j) nofun, ?_, ?_,
    nofun, fun j hj ↦ absurd hj (not_leaving hout j), h.left, h.disarmed⟩
  · exact iff_of_false (fun hw ↦ hw hidle) nofun
  · intro harmed
    exact nomatch h.not_armed.symm.trans harmed

/-- **A safe step** passes the lock on, or leaves it where it is. -/
theorem step {e : SendLockEvent ι} (h : s.Owned o) (hsafe : Safe s e) (hstep : Step s e t) :
    ∃ o', Relation.ReflGen Owner.Step o o' ∧ t.Owned o' := by
  cases hstep with
  | call hc => exact ⟨o, .refl, h.call (by rw [hc]; exact id) id⟩
  | sem_wait hc hsem =>
      obtain ⟨rfl, ht⟩ := h.sem_wait hsem
      exact ⟨_, .single (.acquire _), ht⟩
  | assign hc =>
      obtain rfl := h.eq_caller hc trivial
      exact ⟨_, .refl, h.goes_on trivial nofun⟩
  | send hc =>
      obtain rfl := h.eq_caller hc trivial
      exact ⟨_, .refl, h.send hc hsafe⟩
  | sent hc =>
      obtain rfl := h.eq_caller hc trivial
      exact ⟨_, .refl, h.goes_on trivial nofun⟩
  | epoll_ctl hc =>
      obtain rfl := h.eq_caller hc trivial
      exact ⟨_, .single (.park _), h.park hc⟩
  | sem_post hc =>
      obtain rfl := h.eq_caller hc trivial
      exact ⟨_, .single (.release _), h.sem_post⟩
  | epollOut hw harmed =>
      obtain ⟨rfl, ht⟩ := h.epollOut hw harmed
      exact ⟨_, .single .take, ht⟩
  | called hw =>
      obtain rfl := h.eq_worker hw nofun
      have hparked : s.Parked := h.left (by rw [hw]; trivial)
      have hloop : s.SendLeft = { s with worker := .sending s.buffer_ s.len_ } := by
        rw [SendLeft, if_neg hparked.2]
      rw [hloop]
      exact ⟨_, .refl, h.worker_step rfl rfl nofun (fun _ ↦ hparked) nofun⟩
  | sendLeft hw =>
      obtain rfl := h.eq_worker hw nofun
      exact ⟨_, .refl, h.sendLeft hw hsafe⟩
  | sentLeft hw =>
      obtain rfl := h.eq_worker hw nofun
      exact ⟨_, .refl, h.worker_step rfl rfl nofun nofun nofun⟩
  | disarm hw =>
      obtain rfl := h.eq_worker hw nofun
      exact ⟨_, .refl, h.worker_step rfl rfl nofun nofun fun _ ↦ rfl⟩
  | postLeft hw =>
      obtain rfl := h.eq_worker hw nofun
      exact ⟨_, .single .finish, h.postLeft hw⟩

end Owned

/-! ## 5. Runs -/

section Runs

variable [DecidableEq ι]

-- The semaphore stands for a lock that is passed on as it should be.
theorem path_owned {buffer_ len_ : ℤ} {es : List (SendLockEvent ι)} {s : SendLock ι}
    (h : Path (Guarded Safe Step) (start ι buffer_ len_) es s) :
    ∃ o, Relation.ReflTransGen Owner.Step .free o ∧ s.Owned o :=
  h.stuttering Owned (Owned.start buffer_ len_) fun _ _ _ _ hst ho ↦ ho.step hst.1 hst.2

/-- **The semaphore is a correct lock** in every run in which no empty message gets an `EAGAIN` and
no `send` of `SendMessage()` returns 0 or an error. -/
theorem correct_of_safe (buffer_ len_ : ℤ) (es : List (SendLockEvent ι)) (s : SendLock ι)
    (h : Path (Guarded Safe Step) (start ι buffer_ len_) es s) : s.Correct := by
  obtain ⟨o, -, ho⟩ := path_owned h
  exact ho.correct

-- After a step that is not safe the thread goes on to a state that is not correct.
theorem not_correct_of_not_safe {s t : SendLock ι} {o : Owner ι} {e : SendLockEvent ι}
    (h : s.Owned o) (hstep : Step s e t) (hsafe : ¬ Safe s e) :
    ∃ e' u, Step t e' u ∧ ¬ u.Correct := by
  have hworker : ∀ p total, s.worker = .sending p total →
      ∃ e' u, Step { s with worker := .sem_post } e' u ∧ ¬ u.Correct := by
    intro p total hw
    obtain rfl := h.eq_worker hw nofun
    have hparked : s.Parked := h.left (by rw [hw]; trivial)
    refine ⟨_, _, .postLeft rfl, fun hcorrect ↦ ?_⟩
    have hzero : s.sem_ + 1 = 0 := hcorrect.zero_iff.mpr (.inr hparked)
    exact nomatch hzero
  cases hstep with
  | @send i p hc =>
      obtain rfl := h.eq_caller hc trivial
      cases p with
      | EAGAIN =>
          have hempty : s.len_ = 0 := not_not.mp hsafe
          refine ⟨_, _, .epoll_ctl (Owned.setCaller_self), fun hcorrect ↦ ?_⟩
          cases hcorrect.zero_iff.mp h.sem_ with
          | inl hsending =>
              cases hsending with
              | inl hin =>
                  obtain ⟨j, hj⟩ := hin
                  have hsame : ∀ j, ((s.setCaller i .epoll_ctl).caller j).Inside ↔ _ :=
                    Owned.inside_setCaller (iff_of_true trivial ((h.caller i).mpr rfl))
                  exact Owned.outside_of_leave (fun k hk ↦ h.only k ((hsame k).mp hk)) j hj
              | inr hw => exact hw (h.worker_idle nofun)
          | inr hparked => exact hparked.2 hempty
      | _ => exact absurd trivial hsafe
  | @sendLeft p q total hw =>
      cases p with
      | error => exact hworker q total hw
      | zero => exact hworker q total hw
      | _ => exact absurd trivial hsafe
  | _ => exact absurd trivial hsafe

theorem snoc_safe {s t u : SendLock ι} {es : List (SendLockEvent ι)} {e : SendLockEvent ι}
    (h : Path (Guarded Safe Step) s es t) (hstep : Step t e u) (hsafe : Safe t e) :
    Path (Guarded Safe Step) s (es ++ [e]) u :=
  h.snoc ⟨hsafe, hstep⟩

/-- A message whose rest the worker sends, while another caller waits. -/
theorem correct_left :
    ∃ es s, Path (Guarded Safe Step) (start Bool 0 0) es s ∧ s.worker = .sent ∧ s.Correct := by
  have h₁ := snoc_safe (e := .call true 3 0) (s := start Bool 0 0) .nil (.call rfl (by decide))
    trivial
  have h₂ := snoc_safe (e := .call false 2 7) h₁ (.call rfl (by decide)) trivial
  have h₃ := snoc_safe (e := .next true) h₂ (.sem_wait rfl (by decide)) trivial
  have h₄ := snoc_safe (e := .next true) h₃ (.assign rfl) trivial
  have h₅ := snoc_safe (e := .send true .EAGAIN) h₄ (.send rfl trivial)
    (show int32 3 ≠ 0 by decide)
  have h₆ := snoc_safe (e := .next true) h₅ (.epoll_ctl rfl) trivial
  have h₇ := snoc_safe h₆ (.epollOut rfl rfl) trivial
  have h₈ := snoc_safe h₇ (.called rfl) trivial
  have h₉ := snoc_safe (e := .sendLeft (.accepted 3)) h₈ (.sendLeft rfl (by decide)) trivial
  exact ⟨_, _, h₉, rfl, correct_of_safe 0 0 _ _ h₉⟩

/-- The connection is dead: each time the worker gives up it posts the semaphore, and the message
stays where it is. -/
theorem posted_twice :
    ∃ es s, Path Step (start Unit 0 0) es s ∧ s.sem_ = 2 ∧ ¬ s.Correct := by
  have h₁ : Path Step (start Unit 0 0) [.call () 3 0] _ := Path.nil.snoc (.call rfl (by decide))
  have h₂ := h₁.snoc (l := .next ()) (.sem_wait rfl (by decide))
  have h₃ := h₂.snoc (l := .next ()) (.assign rfl)
  have h₄ := h₃.snoc (l := .send () .EAGAIN) (.send rfl (by trivial))
  have h₅ := h₄.snoc (l := .next ()) (.epoll_ctl rfl)
  have h₆ := h₅.snoc (.epollOut rfl rfl)
  have h₇ := h₆.snoc (.called rfl)
  have h₈ := h₇.snoc (l := .sendLeft .error) (.sendLeft rfl (by trivial))
  have h₉ := h₈.snoc (.postLeft rfl)
  have h₁₀ := h₉.snoc (.epollOut rfl rfl)
  have h₁₁ := h₁₀.snoc (.called rfl)
  have h₁₂ := h₁₁.snoc (l := .sendLeft .error) (.sendLeft rfl (by trivial))
  have h₁₃ := h₁₂.snoc (.postLeft rfl)
  refine ⟨_, _, h₁₃, rfl, fun hcorrect ↦ ?_⟩
  cases hcorrect.sem_ with
  | inl hzero => exact nomatch hzero
  | inr hone => exact nomatch hone

end Runs

end SendLock

end Fantuan
