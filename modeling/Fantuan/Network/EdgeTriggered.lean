import Fantuan.Network.Epoll

/-!
# What goes unnoticed with `EPOLLET` (Linux)

`RecvData` and `AcceptConnection` are called once each time their socket is reported, however much
has come up to then.  `RecvData` stops at the first short read, `AcceptConnection` accepts one
connection.
-/

open Lib

namespace Fantuan

/-! ## 1. A socket whose stream has ended -/

/-- What a step does about a connection whose peer sends no more. -/
inductive AtEnd (c : ConnID) (s : EpollServer) (e : EpollEvent) (t : EpollServer) : Prop
  | same (hevent : ∀ r, e.event ≠ some (.recv c r)) (hsocket : t.socket c = s.socket c)
      (hreported : some c ∈ t.server.events_ ↔ some c ∈ s.server.events_)
      (haccepted : c ∈ t.server.accepted ↔ c ∈ s.server.accepted)
  | control (armed : Bool) (he : e = .control c armed)
      (hsocket : t.socket c = ⟨(s.socket c).inbox, true, armed, !armed⟩)
      (hserver : t.server = s.server)
  | accept (hevent : ∀ r, e.event ≠ some (.recv c r)) (hnew : c ∉ s.server.accepted)
      (hsocket : t.socket c = ⟨(s.socket c).inbox, true, false, true⟩)
      (hreported : some c ∈ t.server.events_ ↔ some c ∈ s.server.events_)
  | report (hevent : ∀ r, e.event ≠ some (.recv c r)) (hready : (s.socket c).ready = true)
      (hsocket : t.socket c = { s.socket c with ready := false })
      (hbefore : some c ∉ s.server.events_) (hafter : some c ∈ t.server.events_)
      (haccepted : c ∈ t.server.accepted)
  | read (hevent : e.event = none) (hready : (t.socket c).ready = (s.socket c).ready)
      (harmed : (t.socket c).armed = (s.socket c).armed)
      (hdvd : MAXLINE ∣ (t.socket c).inbox.length ↔ MAXLINE ∣ (s.socket c).inbox.length)
      (hbefore : some c ∈ s.server.events_) (hserver : t.server = s.server)
  | drained (r : RecvResult) (he : e.event = some (.recv c r)) (hok : r.bReadOK = true)
      (hready : (t.socket c).ready = (s.socket c).ready)
      (harmed : (t.socket c).armed = (s.socket c).armed)
      (hdvd : ¬ MAXLINE ∣ (s.socket c).inbox.length) (hinbox : (t.socket c).inbox = [])
      (hbefore : some c ∈ s.server.events_) (hafter : some c ∉ t.server.events_)
      (haccepted : c ∈ t.server.accepted ↔ c ∈ s.server.accepted)
  | ended (r : RecvResult) (he : e.event = some (.recv c r)) (hok : r.bReadOK = false)
      (hwhy : e = .returned c .error r ∨ MAXLINE ∣ (s.socket c).inbox.length)
      (hbefore : some c ∈ s.server.events_)

section Step

variable {s t : EpollServer} {e : EpollEvent} {c : ConnID}

theorem Socket.reported_false (k : Socket) : k.reported false = k := by
  cases k with
  | mk inbox closed armed ready => simp only [Socket.reported, Bool.not_false, Bool.and_true]

theorem Socket.readable_of_closed {k : Socket} (h : k.closed = true) : k.readable = true := by
  rw [Socket.readable, h, Bool.or_true]

-- Once the peer sends no more, a read is short only where a remainder is left.
theorem Socket.Recv.atEnd {k k' : Socket} {o : RecvOutcome} (h : k.Recv o k')
    (hclosed : k.closed = true) :
    o.Continues ∨ o.EndsWithData ∧ ¬ MAXLINE ∣ k.inbox.length ∨
      ¬ o.EndsWithData ∧ (o = .error ∨ MAXLINE ∣ k.inbox.length) := by
  cases h with
  | bytes hne =>
      by_cases hfull : (k.inbox.take MAXLINE).length = MAXLINE
      · exact .inl hfull
      · refine .inr (.inl ⟨hfull, fun hdvd ↦ hfull ?_⟩)
        have hpos : 0 < k.inbox.length := List.length_pos_iff.mpr hne
        have hle := Nat.le_of_dvd hpos hdvd
        rw [List.length_take, Nat.min_eq_left hle]
  | EAGAIN _ hopen =>
      rw [hclosed] at hopen
      exact nomatch hopen
  | closed hnil =>
      refine .inr (.inr ⟨id, .inr ?_⟩)
      rw [hnil]
      exact Nat.dvd_zero MAXLINE
  | EINTR => exact .inl trivial
  | error => exact .inr (.inr ⟨id, .inl rfl⟩)

theorem EpollStep.closed (hst : EpollStep s e t) (h : (s.socket c).closed = true) :
    (t.socket c).closed = true := by
  have hput : ∀ (c' : ConnID) (k : Socket), k.closed = (s.socket c').closed ∨ k.closed = true →
      ((s.put c' k).socket c).closed = true := by
    intro c' k hk
    by_cases hcc : c = c'
    · subst hcc
      rw [s.put_self]
      exact hk.elim (fun heq ↦ heq.trans h) id
    · rw [s.put_of_ne hcc]
      exact h
  cases hst with
  | connect | server => exact h
  | arrive | control => exact hput _ _ (.inl rfl)
  | close => exact hput _ _ (.inr rfl)
  | recv _ _ hrecv => exact hput _ _ (.inl hrecv.closed_eq)
  | returned _ hrecv => exact hput _ _ (.inl hrecv.closed_eq)
  | wait => exact h
  | accept => exact hput _ _ (.inl rfl)

theorem EpollStep.nodup (hst : EpollStep s e t) (h : s.server.events_.Nodup) :
    t.server.events_.Nodup := by
  cases hst with
  | connect | arrive | close | control | recv => exact h
  | returned hst =>
      rw [hst.1.receives.1] at h
      exact (List.nodup_cons.mp h).2
  | wait hst =>
      obtain ⟨-, hevents, -, hnodup, -⟩ := hst.1.waits
      exact hevents ▸ hnodup
  | accept hst =>
      rw [hst.1.accepts_eq.1] at h
      exact (List.nodup_cons.mp h).2
  | server hst he => exact (hst.1.inner he).1 ▸ h

-- The socket of another connection, and a server that stays as it is.
theorem AtEnd.other {c' : ConnID} {k : Socket} (hevent : e.event = none) (hcc : c ≠ c') :
    AtEnd c s e (s.put c' k) :=
  .same (fun r ↦ by rw [hevent]; exact (Option.some_ne_none _).symm) (s.put_of_ne hcc k) Iff.rfl
    Iff.rfl

theorem EpollStep.atEnd (hst : EpollStep s e t) (hcalling : s.Calling)
    (hnodup : s.server.events_.Nodup) (hclosed : (s.socket c).closed = true) :
    AtEnd c s e t := by
  cases hst with
  | connect => exact .same nofun rfl Iff.rfl Iff.rfl
  | @arrive c' data _ hopen =>
      by_cases hcc : c = c'
      · rw [← hcc, hclosed] at hopen
        exact nomatch hopen
      · exact .other rfl hcc
  | @close c' hopen =>
      by_cases hcc : c = c'
      · rw [← hcc, hclosed] at hopen
        exact nomatch hopen
      · exact .other rfl hcc
  | @control c' armed hc =>
      by_cases hcc : c = c'
      · subst hcc
        refine .control armed rfl ?_ rfl
        rw [s.put_self, Socket.control, Socket.readable_of_closed hclosed, Bool.and_true, hclosed]
      · exact .other rfl hcc
  | @recv c' later o k hw hevent hrecv hr =>
      by_cases hcc : c = c'
      · subst hcc
        refine .read rfl ?_ ?_ ?_ ?_ rfl
        · show ((s.put c k).socket c).ready = _
          rw [s.put_self, hrecv.ready_eq]
        · show ((s.put c k).socket c).armed = _
          rw [s.put_self, hrecv.armed_eq]
        · show MAXLINE ∣ ((s.put c k).socket c).inbox.length ↔ _
          rw [s.put_self]
          exact hrecv.dvd (continues_of_none hr)
        · rw [hevent]
          exact List.mem_cons_self
      · exact .same nofun (s.put_of_ne hcc k) Iff.rfl Iff.rfl
  | @returned c' o k r server hst hrecv hr =>
      obtain ⟨hevent, haccepted⟩ := hst.1.receives
      rw [hevent] at hnodup
      by_cases hcc : c = c'
      · subst hcc
        have hend := not_continues_of_some hcalling.continues hrecv.possible hr
        have hdata := ok_iff hcalling.continues hrecv.possible hr
        rcases (hrecv.atEnd hclosed).resolve_left hend with ⟨ho, hdvd⟩ | ⟨ho, hwhy⟩
        · have hput : ((s.put c k).socket c) = k := s.put_self c k
          refine .drained r rfl (hdata.mpr ho) ?_ ?_ hdvd ?_ ?_ (List.nodup_cons.mp hnodup).1 ?_
          · exact (congrArg Socket.ready hput).trans hrecv.ready_eq
          · exact (congrArg Socket.armed hput).trans hrecv.armed_eq
          · exact (congrArg Socket.inbox hput).trans (hrecv.drained ho)
          · rw [hevent]
            exact List.mem_cons_self
          · exact haccepted ▸ Iff.rfl
        · refine .ended r rfl (Bool.eq_false_iff.mpr fun hok ↦ ho (hdata.mp hok)) ?_ ?_
          · exact hwhy.imp_left fun herror ↦ by rw [herror]
          · rw [hevent]
            exact List.mem_cons_self
      · refine .same (fun r' hr' ↦ ?_) (s.put_of_ne hcc k) ?_ (haccepted ▸ Iff.rfl)
        · cases hr'
          exact hcc rfl
        · rw [hevent, List.mem_cons, Option.some.injEq]
          exact (or_iff_right hcc).symm
  | @wait events server hst hreports =>
      obtain ⟨hnone, hevents, haccepted, -, hlive⟩ := hst.1.waits
      have hbefore : some c ∉ s.server.events_ := by
        rw [hnone]
        exact List.not_mem_nil
      by_cases hmem : some c ∈ events
      · refine .report nofun (hreports.1 c hmem).1 ?_ hbefore (hevents ▸ hmem) ?_
        · show (s.socket c).reported (decide (some c ∈ events)) = _
          rw [decide_eq_true hmem, Socket.reported, Bool.not_true, Bool.and_false]
        · exact haccepted ▸ hlive c hmem
      · refine .same nofun ?_ ?_ (haccepted ▸ Iff.rfl)
        · show (s.socket c).reported (decide (some c ∈ events)) = _
          rw [decide_eq_false hmem, Socket.reported_false]
        · exact iff_of_false (hevents ▸ hmem) hbefore
  | @accept c' server hst hbacklog =>
      obtain ⟨hevent, haccepted, hnew⟩ := hst.1.accepts_eq
      have hreported : some c ∈ server.events_ ↔ some c ∈ s.server.events_ := by
        rw [hevent, List.mem_cons]
        exact (or_iff_right (Option.some_ne_none c)).symm
      by_cases hcc : c = c'
      · subst hcc
        refine .accept nofun hnew ?_ hreported
        show (s.put c ((s.socket c).control false)).socket c = _
        rw [s.put_self, Socket.control, Socket.readable_of_closed hclosed, hclosed]
        rfl
      · refine .same nofun (s.put_of_ne hcc _) hreported ?_
        show c ∈ server.accepted ↔ _
        rw [haccepted, List.mem_append, List.mem_singleton]
        exact or_iff_left hcc
  | server hst he =>
      obtain ⟨hevents, haccepted, -, -⟩ := hst.1.inner he
      refine .same (fun r hr ↦ ?_) rfl (hevents ▸ Iff.rfl) (haccepted ▸ Iff.rfl)
      cases hr
      exact he

end Step

/-! ## 2. The end of the stream -/

namespace EpollServer

variable (s : EpollServer) (c : ConnID)

/-- A call of `RecvData` for the connection is to come that finds nothing but the end. -/
def Foreseen : Prop :=
  some c ∈ s.server.events_ ∧ ((s.socket c).ready = true ∨ (s.socket c).armed = true) ∨
    MAXLINE ∣ (s.socket c).inbox.length ∧ (some c ∈ s.server.events_ ∨
      (s.socket c).ready = true ∨ (s.socket c).armed = true ∨ c ∉ s.server.accepted)

/-- The only call that is to come, if any is, stops at the bytes before the end. -/
def Missed : Prop :=
  ¬ MAXLINE ∣ (s.socket c).inbox.length ∧ some c ∉ s.server.events_ ∨
    c ∈ s.server.accepted ∧ (s.socket c).ready = false ∧
      (¬ MAXLINE ∣ (s.socket c).inbox.length ∧ some c ∈ s.server.events_ ∨
        (s.socket c).inbox = [] ∧ some c ∉ s.server.events_)

end EpollServer

section Runs

variable {s t : EpollServer} {e : EpollEvent} {c : ConnID} {es : List EpollEvent}

theorem AtEnd.foreseen (h : AtEnd c s e t) (hs : s.Foreseen c) :
    t.Foreseen c ∨ ∃ r, e.event = some (.recv c r) ∧ r.bReadOK = false := by
  cases h with
  | same _ hsocket hreported haccepted =>
      left
      rw [EpollServer.Foreseen, hsocket, hreported, haccepted]
      exact hs
  | control armed he hsocket hserver =>
      left
      have hlook : (!armed) = true ∨ armed = true := by cases armed <;> simp
      rw [EpollServer.Foreseen, hsocket, hserver]
      rcases hs with ⟨hmem, -⟩ | ⟨hdvd, -⟩
      · exact .inl ⟨hmem, hlook⟩
      · exact .inr ⟨hdvd, .inr (or_assoc.mp (.inl hlook))⟩
  | accept _ hnew hsocket hreported =>
      left
      rw [EpollServer.Foreseen, hsocket, hreported]
      rcases hs with ⟨hmem, -⟩ | ⟨hdvd, -⟩
      · exact .inl ⟨hmem, .inl rfl⟩
      · exact .inr ⟨hdvd, .inr (.inl rfl)⟩
  | report _ hready hsocket hbefore hafter haccepted =>
      left
      rcases hs with ⟨hmem, -⟩ | ⟨hdvd, -⟩
      · exact absurd hmem hbefore
      · refine .inr ⟨?_, .inl hafter⟩
        rw [hsocket]
        exact hdvd
  | read _ hready harmed hdvd hbefore hserver =>
      left
      rw [EpollServer.Foreseen, hready, harmed, hdvd, hserver]
      exact hs
  | drained r _ hok hready harmed hdvd hinbox hbefore hafter haccepted =>
      left
      rcases hs with ⟨-, hlook⟩ | ⟨hdvd', -⟩
      · right
        rw [hready, harmed, hinbox]
        exact ⟨Nat.dvd_zero MAXLINE, .inr (or_assoc.mp (.inl hlook))⟩
      · exact absurd hdvd' hdvd
  | ended r he hok => exact .inr ⟨r, he, hok⟩

theorem AtEnd.missed (h : AtEnd c s e t) (hs : s.Missed c)
    (hcontrol : ∀ armed, e ≠ .control c armed) (herror : ∀ r, e ≠ .returned c .error r) :
    t.Missed c ∧ ∀ r, e.event = some (.recv c r) → r.bReadOK = true := by
  cases h with
  | same hevent hsocket hreported haccepted =>
      refine ⟨?_, fun r hr ↦ absurd hr (hevent r)⟩
      rw [EpollServer.Missed, hsocket, hreported, haccepted]
      exact hs
  | control armed he => exact absurd he (hcontrol armed)
  | accept hevent hnew hsocket hreported =>
      refine ⟨.inl ?_, fun r hr ↦ absurd hr (hevent r)⟩
      rw [hsocket, hreported]
      exact hs.resolve_right fun hold ↦ hnew hold.1
  | report hevent hready hsocket hbefore hafter haccepted =>
      refine ⟨.inr ⟨haccepted, by rw [hsocket], .inl ⟨?_, hafter⟩⟩, fun r hr ↦ absurd hr (hevent r)⟩
      rw [hsocket]
      rcases hs with ⟨hdvd, -⟩ | ⟨-, hnot, -⟩
      · exact hdvd
      · rw [hready] at hnot
        exact nomatch hnot
  | read hevent hready harmed hdvd hbefore hserver =>
      refine ⟨?_, fun r hr ↦ by rw [hevent] at hr; exact nomatch hr⟩
      rcases hs with ⟨-, hnot⟩ | ⟨haccepted, hnot, ⟨hrest, -⟩ | ⟨-, hgone⟩⟩
      · exact absurd hbefore hnot
      · refine .inr ⟨hserver ▸ haccepted, hready.trans hnot, .inl ⟨?_, hserver ▸ hbefore⟩⟩
        rwa [hdvd]
      · exact absurd hbefore hgone
  | drained r he hok hready harmed hdvd hinbox hbefore hafter haccepted =>
      refine ⟨?_, fun r' hr' ↦ ?_⟩
      · rcases hs with ⟨-, hnot⟩ | ⟨hlive, hnot, -⟩
        · exact absurd hbefore hnot
        · exact .inr ⟨haccepted.mpr hlive, hready.trans hnot, .inr ⟨hinbox, hafter⟩⟩
      · rw [he, Option.some.injEq, Event.recv.injEq] at hr'
        rw [← hr'.2]
        exact hok
  | ended r he hok hwhy hbefore =>
      have hdvd := hwhy.resolve_left (herror r)
      rcases hs with ⟨hnot, -⟩ | ⟨-, -, ⟨hnot, -⟩ | ⟨-, hgone⟩⟩
      · exact absurd hdvd hnot
      · exact absurd hdvd hnot
      · exact absurd hbefore hgone

theorem mem_serverEvents_snoc {e' : Event} :
    e' ∈ serverEvents (es ++ [e]) ↔ e' ∈ serverEvents es ∨ e.event = some e' := by
  simp only [serverEvents, List.mem_filterMap, List.mem_append, List.mem_singleton, or_and_right,
    exists_or, exists_eq_left]

/-- What holds of every state, apart from the connection. -/
def EpollServer.Regular (s : EpollServer) : Prop := s.Calling ∧ s.server.events_.Nodup

theorem EpollServer.Regular.step (h : s.Regular) (hst : EpollStep s e t) : t.Regular :=
  ⟨h.1.step hst, hst.nodup h.2⟩

theorem regular_of_path (hs : s.Started) (h : Path EpollStep s es t) : t.Regular := by
  refine h.always (I := fun _ s ↦ s.Regular) ⟨hs.calling, ?_⟩ fun _ _ _ _ hreg hst ↦ hreg.step hst
  rw [hs.server.events]
  exact List.nodup_nil

theorem foreseen_of_path (h : Path EpollStep s es t) (hreg : s.Regular)
    (hclosed : (s.socket c).closed = true) (hs : s.Foreseen c) :
    t.Foreseen c ∨ ∃ r, .recv c r ∈ serverEvents es ∧ r.bReadOK = false := by
  have hinv : t.Regular ∧ (t.socket c).closed = true ∧
      (t.Foreseen c ∨ ∃ r, .recv c r ∈ serverEvents es ∧ r.bReadOK = false) := by
    refine h.always (I := fun es t ↦ t.Regular ∧ (t.socket c).closed = true ∧
      (t.Foreseen c ∨ ∃ r, .recv c r ∈ serverEvents es ∧ r.bReadOK = false))
      ⟨hreg, hclosed, .inl hs⟩ fun es s e t ⟨hreg, hclosed, hseen⟩ hst ↦
        ⟨hreg.step hst, hst.closed hclosed, ?_⟩
    rcases hseen with hforeseen | ⟨r, hr, hok⟩
    · refine ((hst.atEnd hreg.1 hreg.2 hclosed).foreseen hforeseen).imp_right ?_
      rintro ⟨r, hr, hok⟩
      exact ⟨r, mem_serverEvents_snoc.mpr (.inr hr), hok⟩
    · exact .inr ⟨r, mem_serverEvents_snoc.mpr (.inl hr), hok⟩
  exact hinv.2.2

theorem missed_of_path (h : Path EpollStep s es t) (hreg : s.Regular)
    (hclosed : (s.socket c).closed = true) (hs : s.Missed c)
    (hcontrol : ∀ armed, .control c armed ∉ es) (herror : ∀ r, .returned c .error r ∉ es) :
    (t.Regular ∧ (t.socket c).closed = true ∧ t.Missed c) ∧
      ∀ r, .recv c r ∈ serverEvents es → r.bReadOK = true := by
  induction h with
  | nil => exact ⟨⟨hreg, hclosed, hs⟩, fun r hr ↦ absurd hr List.not_mem_nil⟩
  | @snoc es t u e _ hst ih =>
      have hlast : e ∈ es ++ [e] := List.mem_append_right _ List.mem_cons_self
      obtain ⟨⟨hreg, hclosed, hmissed⟩, hold⟩ :=
        ih (fun armed hmem ↦ hcontrol armed (List.mem_append_left _ hmem))
          fun r hmem ↦ herror r (List.mem_append_left _ hmem)
      obtain ⟨hnext, hnew⟩ := (hst.atEnd hreg.1 hreg.2 hclosed).missed hmissed
        (fun armed he ↦ hcontrol armed (he ▸ hlast)) fun r he ↦ herror r (he ▸ hlast)
      exact ⟨⟨hreg.step hst, hst.closed hclosed, hnext⟩, fun r hr ↦
        (mem_serverEvents_snoc.mp hr).elim (hold r) (hnew r)⟩

/-- **When the end of a stream is noticed.**  The peer stops sending.  If an event of the connection
is being handled just then, or as many bytes are unread as make whole reads, the connection has been
disconnected once nothing of it is looked at any more.  Otherwise no call of `RecvData` finds the
end, as long as sending does not touch the registration and `recv` does not fail. -/
theorem end_of_stream_noticed (s u v t : EpollServer) (before after : List EpollEvent)
    (hs : s.Started) (hbefore : Path EpollStep s before u) (c : ConnID)
    (hend : EpollStep u (.close c) v) (hafter : Path EpollStep v after t) :
    (some c ∈ u.server.events_ ∨ MAXLINE ∣ (u.socket c).inbox.length →
      c ∈ t.server.accepted → ¬ t.Due c →
        ∃ r, .recv c r ∈ serverEvents after ∧ r.bReadOK = false) ∧
      (¬ (some c ∈ u.server.events_ ∨ MAXLINE ∣ (u.socket c).inbox.length) →
        (∀ armed, .control c armed ∉ after) → (∀ r, .returned c .error r ∉ after) →
          ∀ r, .recv c r ∈ serverEvents after → r.bReadOK = true) := by
  have hreg : v.Regular := (regular_of_path hs hbefore).step hend
  cases hend with
  | close hopen =>
      have hput : (u.put c (u.socket c).close).socket c = (u.socket c).close := u.put_self c _
      have hclosed : ((u.put c (u.socket c).close).socket c).closed = true := by
        rw [hput]
        rfl
      refine ⟨fun hwhen hlive hquiet ↦ ?_, fun hwhen hcontrol herror ↦ ?_⟩
      · have hlook : (u.socket c).close.ready = true ∨ (u.socket c).close.armed = true := by
          show ((u.socket c).ready || !(u.socket c).armed) = true ∨ (u.socket c).armed = true
          cases (u.socket c).armed <;> simp
        have hforeseen : (u.put c (u.socket c).close).Foreseen c := by
          rw [EpollServer.Foreseen, hput]
          exact hwhen.imp (fun hmem ↦ ⟨hmem, hlook⟩)
            fun hdvd ↦ ⟨hdvd, .inr (or_assoc.mp (.inl hlook))⟩
        refine (foreseen_of_path hafter hreg hclosed hforeseen).resolve_left fun hstill ↦ hquiet ?_
        rcases hstill with ⟨hmem, -⟩ | ⟨-, hmem | hready | harmed | hnew⟩
        · exact .inr (.inr hmem)
        · exact .inr (.inr hmem)
        · exact .inr (.inl hready)
        · exact .inl harmed
        · exact absurd hlive hnew
      · rw [not_or] at hwhen
        have hmissed : (u.put c (u.socket c).close).Missed c := by
          rw [EpollServer.Missed, hput]
          exact .inl ⟨hwhen.2, hwhen.1⟩
        exact (missed_of_path hafter hreg hclosed hmissed hcontrol herror).2

theorem nine_closes :
    EpollStep (.nine oneSession false) (.close 0) (.nine oneSession true) := by
  have hput : (EpollServer.nine oneSession false).put 0
      ((EpollServer.nine oneSession false).socket 0).close = .nine oneSession true := by
    simp only [EpollServer.nine, EpollServer.put, Function.update_self, Function.update_idem,
      Socket.close, Bool.true_or]
  rw [← hput]
  exact .close rfl

/-- The peer sends a packet and stops before it is accepted: the packet is read, the end is not
noticed. -/
theorem end_of_stream_noticed_nine :
    ∃ t after, Path EpollStep (.start oneSession)
        ([.connect, .arrive 0 [5, 0, 1, 0, 9]] ++ [.close 0] ++ after) t ∧
      t.Settled 0 ∧ ∀ r, .recv 0 r ∈ serverEvents after → r.bReadOK = true := by
  let data : EasyCommandOnData := ⟨[5, 0, 1, 0, 9], by decide⟩
  obtain ⟨t, hafter, hsettled⟩ := nine_run true data rfl
  have hfirst := (Path.nil (R := EpollStep) (s := .start oneSession)).snoc .connect
  have hbefore : Path EpollStep (.start oneSession) [.connect, .arrive 0 [5, 0, 1, 0, 9]]
      (.nine oneSession false) :=
    hfirst.snoc (.arrive (c := 0) (List.cons_ne_nil 5 [0, 1, 0, 9]) rfl)
  refine ⟨t, _, (hbefore.snoc nine_closes).append hafter, hsettled, ?_⟩
  refine (end_of_stream_noticed _ _ _ _ _ _ (EpollServer.started_start oneSession_prepared.idle)
    hbefore 0 nine_closes hafter).2 ?_ (by simp [nineEvents]) (by simp [nineEvents])
  rw [not_or]
  exact ⟨List.not_mem_nil, by decide⟩

end Runs

/-! ## 3. The listening socket -/

namespace EpollEvent

def connects : EpollEvent → Bool
  | connect => true
  | _ => false

/-- Whether the listening socket is on the ready list after an event. -/
def listens (listening : Bool) : EpollEvent → Bool
  | connect => true
  | server (.wait events) => listening && !accepting events
  | _ => listening

/-- A connection comes while one before it is still to be reported. -/
def coalesces (listening : Bool) : EpollEvent → Bool
  | connect => listening
  | _ => false

end EpollEvent

/-- How many connections came while one before was still to be reported. -/
def coalesced (listening : Bool) : List EpollEvent → ℕ
  | [] => 0
  | e :: es => (if e.coalesces listening then 1 else 0) + coalesced (e.listens listening) es

section Listening

variable {es : List EpollEvent} {s t : EpollServer} {e : EpollEvent}

theorem coalesced_snoc (listening : Bool) :
    coalesced listening (es ++ [e]) = coalesced listening es +
      if e.coalesces (es.foldl EpollEvent.listens listening) then 1 else 0 := by
  induction es generalizing listening with
  | nil =>
      show _ + 0 = 0 + _
      rw [Nat.add_zero, Nat.zero_add]
      rfl
  | cons e' es ih =>
      rw [List.cons_append, coalesced, ih, coalesced, List.foldl_cons, Nat.add_assoc]

/-- What the backlog consists of. -/
structure Listening (es : List EpollEvent) (s : EpollServer) : Prop where
  nodup : s.server.events_.Nodup
  listening : es.foldl EpollEvent.listens false = s.listening
  connects : es.countP EpollEvent.connects = s.server.accepted.length + s.backlog
  backlog : s.backlog = coalesced false es + (if s.listening then 1 else 0) +
    if none ∈ s.server.events_ then 1 else 0

-- An event that has nothing to do with the listening socket.
theorem Listening.quiet (h : Listening es s) (hst : EpollStep s e t)
    (hconnects : e.connects = false) (hlistens : ∀ b, e.listens b = b)
    (hcoalesces : ∀ b, e.coalesces b = false) (hlistening : t.listening = s.listening)
    (haccepted : t.server.accepted = s.server.accepted) (hbacklog : t.backlog = s.backlog)
    (hnone : none ∈ t.server.events_ ↔ none ∈ s.server.events_) : Listening (es ++ [e]) t := by
  refine ⟨hst.nodup h.nodup, ?_, ?_, ?_⟩
  · rw [List.foldl_append, h.listening, hlistening]
    exact hlistens _
  · rw [List.countP_append, List.countP_singleton, if_neg (by rw [hconnects]; decide), haccepted,
      hbacklog]
    exact h.connects
  · rw [coalesced_snoc, if_neg (by rw [hcoalesces]; decide), hlistening, hbacklog, Nat.add_zero]
    simp only [hnone]
    exact h.backlog

theorem Listening.step (h : Listening es s) (hst : EpollStep s e t) : Listening (es ++ [e]) t := by
  have hnodup := hst.nodup h.nodup
  have hold := h.backlog
  have hconnects := h.connects
  cases hst with
  | connect =>
      refine ⟨hnodup, ?_, ?_, ?_⟩
      · rw [List.foldl_append]
        rfl
      · rw [List.countP_append, hconnects]
        rfl
      · rw [coalesced_snoc, h.listening]
        show s.backlog + 1 = _ + (if s.listening then 1 else 0) + 1 +
          if none ∈ s.server.events_ then 1 else 0
        omega
  | arrive hdata hopen =>
      exact h.quiet (.arrive hdata hopen) rfl (fun _ ↦ rfl) (fun _ ↦ rfl) rfl rfl rfl Iff.rfl
  | close hopen =>
      exact h.quiet (.close hopen) rfl (fun _ ↦ rfl) (fun _ ↦ rfl) rfl rfl rfl Iff.rfl
  | control hc =>
      exact h.quiet (.control hc) rfl (fun _ ↦ rfl) (fun _ ↦ rfl) rfl rfl rfl Iff.rfl
  | recv hw hevent hrecv hr =>
      exact h.quiet (.recv hw hevent hrecv hr) rfl (fun _ ↦ rfl) (fun _ ↦ rfl) rfl rfl rfl Iff.rfl
  | returned hst hrecv hr =>
      obtain ⟨hevent, haccepted⟩ := hst.1.receives
      refine h.quiet (.returned hst hrecv hr) rfl (fun _ ↦ rfl) (fun _ ↦ rfl) rfl haccepted rfl ?_
      rw [hevent, List.mem_cons]
      exact (or_iff_right (Option.some_ne_none _).symm).symm
  | @wait events server hst hreports =>
      obtain ⟨hnone, hevents, haccepted, -, -⟩ := hst.1.waits
      rw [hnone, if_neg List.not_mem_nil, Nat.add_zero] at hold
      refine ⟨hnodup, ?_, ?_, ?_⟩
      · rw [List.foldl_append, h.listening]
        rfl
      · rw [List.countP_append, hconnects, ← haccepted]
        rfl
      · rw [coalesced_snoc]
        show s.backlog = _ + 0 + (if s.listening && !accepting events then 1 else 0) +
          if none ∈ server.events_ then 1 else 0
        rw [hevents]
        by_cases hmem : none ∈ events
        · rw [(hreports.2 hmem).1] at hold
          rw [if_pos hmem, accepting, decide_eq_true hmem, Bool.not_true, Bool.and_false]
          simpa using hold
        · rw [if_neg hmem, accepting, decide_eq_false hmem, Bool.not_false, Bool.and_true]
          exact hold
  | @accept c server hst hbacklog =>
      obtain ⟨hevent, haccepted, -⟩ := hst.1.accepts_eq
      have hgone : none ∉ server.events_ := by
        have hnodup := h.nodup
        rw [hevent] at hnodup
        exact (List.nodup_cons.mp hnodup).1
      rw [hevent, if_pos List.mem_cons_self] at hold
      refine ⟨hnodup, ?_, ?_, ?_⟩
      · rw [List.foldl_append, h.listening]
        rfl
      · rw [List.countP_append, hconnects]
        show _ + 0 = server.accepted.length + (s.backlog - 1)
        rw [haccepted, List.length_append, List.length_singleton]
        omega
      · rw [coalesced_snoc]
        show s.backlog - 1 = _ + 0 + (if s.listening then 1 else 0) +
          if none ∈ server.events_ then 1 else 0
        rw [if_neg hgone]
        omega
  | @server e server hst he =>
      obtain ⟨hevents, haccepted, -, -⟩ := hst.1.inner he
      have hnone : none ∈ server.events_ ↔ none ∈ s.server.events_ := by rw [hevents]
      refine h.quiet (.server hst he) rfl (fun _ ↦ ?_) (fun _ ↦ rfl) rfl haccepted rfl hnone
      cases e with
      | wait => exact he.elim
      | _ => rfl

end Listening

end Fantuan
