import Fantuan.Midware.Client
import Fantuan.Network.Delivery

/-!
# easy_worker.cpp, easy_acceptor.cpp — epoll (Linux)

All sockets are registered with `EPOLLET`: the kernel puts a socket on the ready list when something
arrives, and `epoll_wait` takes it off again.  `RecvData` reads until a call of `recv` brings less
than it asks for; only what arrives later brings the socket back onto the list.  The bytes and the
end of a stream may come before the connection is accepted; it has the name here that it gets then.
-/

open Lib

namespace Fantuan

/-! ## 1. Sockets -/

/-- The socket of a connection, as the kernel has it. -/
structure Socket where
  /-- What has arrived and is not read. -/
  inbox : List UInt8
  /-- The peer sends no more. -/
  closed : Bool
  /-- `ev_.events` is `EPOLLOUT | EPOLLET`. -/
  armed : Bool
  /-- On the ready list, to be reported with `EPOLLIN`. -/
  ready : Bool
deriving DecidableEq, Repr

namespace Socket

variable (k : Socket)

def readable : Bool := !k.inbox.isEmpty || k.closed

def arrive (data : List UInt8) : Socket :=
  { k with inbox := k.inbox ++ data, ready := k.ready || !k.armed }

def close : Socket := { k with closed := true, ready := k.ready || !k.armed }

/-- `epoll_ctl` looks at the socket once. -/
def control (armed : Bool) : Socket := { k with armed := armed, ready := !armed && k.readable }

def reported (events : Bool) : Socket := { k with ready := k.ready && !events }

/-- A call of `recv`.  It returns all that there is, up to `MAXLINE` bytes. -/
inductive Recv : Socket → RecvOutcome → Socket → Prop
  | bytes {k : Socket} (h : k.inbox ≠ []) :
      Recv k (.bytes (k.inbox.take MAXLINE)) { k with inbox := k.inbox.drop MAXLINE }
  | EAGAIN {k : Socket} (h : k.inbox = []) (hopen : k.closed = false) : Recv k .EAGAIN k
  | closed {k : Socket} (h : k.inbox = []) (hclosed : k.closed = true) : Recv k .closed k
  | EINTR {k : Socket} : Recv k .EINTR k
  | error {k : Socket} : Recv k .error k

variable {k k' : Socket} {o : RecvOutcome}

theorem Recv.possible (h : k.Recv o k') : o.Possible := by
  cases h with
  | bytes hne =>
      have hpos : 0 < k.inbox.length := List.length_pos_iff.mpr hne
      show 1 ≤ (k.inbox.take MAXLINE).length ∧ (k.inbox.take MAXLINE).length ≤ MAXLINE
      rw [List.length_take, MAXLINE]
      omega
  | EAGAIN | closed | EINTR | error => trivial

-- Nothing is lost between the socket and the buffer.
theorem Recv.inbox_eq (h : k.Recv o k') : k.inbox = o.received ++ k'.inbox := by
  cases h with
  | bytes => exact (List.take_append_drop MAXLINE k.inbox).symm
  | EAGAIN | closed | EINTR | error => rfl

theorem Recv.closed_eq (h : k.Recv o k') : k'.closed = k.closed := by
  cases h <;> rfl

theorem Recv.ready_eq (h : k.Recv o k') : k'.ready = k.ready := by
  cases h <;> rfl

theorem Recv.armed_eq (h : k.Recv o k') : k'.armed = k.armed := by
  cases h <;> rfl

-- A read that ends the loop has emptied the socket.
theorem Recv.drained (h : k.Recv o k') (ho : o.EndsWithData) : k'.inbox = [] := by
  cases h with
  | bytes hne =>
      have hshort : (k.inbox.take MAXLINE).length ≠ MAXLINE := ho
      rw [List.length_take] at hshort
      exact List.drop_eq_nil_of_le (by omega)
  | EAGAIN hnil => exact hnil
  | closed | EINTR | error => exact nomatch ho

-- A full read takes `MAXLINE` bytes.
theorem Recv.dvd (h : k.Recv o k') (ho : o.Continues) :
    MAXLINE ∣ k'.inbox.length ↔ MAXLINE ∣ k.inbox.length := by
  cases h with
  | bytes =>
      have hfull : (k.inbox.take MAXLINE).length = MAXLINE := ho
      have hsplit := congrArg List.length (List.take_append_drop MAXLINE k.inbox)
      rw [List.length_append, hfull] at hsplit
      rw [← hsplit]
      exact (Nat.dvd_add_right (Nat.dvd_refl MAXLINE)).symm
  | EINTR => exact Iff.rfl
  | EAGAIN | closed | error => exact nomatch ho

end Socket

/-! ## 2. The worker with the kernel -/

structure EpollServer where
  server : LinuxServer
  socket : ConnID → Socket
  /-- Connections that wait for `accept`. -/
  backlog : ℕ
  /-- The listening socket is on the ready list. -/
  listening : Bool
  /-- What the calls of `recv` returned in the call of `RecvData` that goes on. -/
  outcomes : List RecvOutcome

inductive EpollEvent
  | connect
  | arrive (c : ConnID) (data : List UInt8)
  | close (c : ConnID)
  | control (c : ConnID) (armed : Bool)
  | recv (c : ConnID) (o : RecvOutcome)
  /-- The last call of `recv`, with what `RecvData` did. -/
  | returned (c : ConnID) (o : RecvOutcome) (r : RecvResult)
  | server (e : Event)

/-- What the two threads do in an event. -/
def EpollEvent.event : EpollEvent → Option Event
  | returned c _ r => some (.recv c r)
  | server e => some e
  | _ => none

def serverEvents (es : List EpollEvent) : List Event := es.filterMap EpollEvent.event

/-- Whether the listening socket is reported. -/
def accepting (events : List (Option ConnID)) : Bool := decide (none ∈ events)

namespace EpollServer

variable (s : EpollServer)

def put (c : ConnID) (k : Socket) : EpollServer :=
  { s with socket := Function.update s.socket c k }

@[simp] theorem put_self (c : ConnID) (k : Socket) : (s.put c k).socket c = k := by
  simp only [put, Function.update_self]

@[simp] theorem put_of_ne {c c' : ConnID} (h : c' ≠ c) (k : Socket) :
    (s.put c k).socket c' = s.socket c' := by
  simp only [put, Function.update_of_ne h]

/-- The sockets that are reported come off the ready list. -/
def waited (events : List (Option ConnID)) (server : LinuxServer) : EpollServer :=
  { s with
    server := server
    socket := fun c ↦ (s.socket c).reported (decide (some c ∈ events))
    listening := s.listening && !accepting events }

/-- Only sockets that can be read are reported. -/
def Reports (events : List (Option ConnID)) : Prop :=
  (∀ c, some c ∈ events → (s.socket c).ready = true ∧ (s.socket c).readable = true) ∧
    (none ∈ events → s.listening = true ∧ 0 < s.backlog)

end EpollServer

/-- An event of the server that neither waits nor handles what was reported. -/
def Event.Inner : Event → Prop
  | wait _ => False
  | accept _ => False
  | recv _ _ => False
  | _ => True

inductive EpollStep : EpollServer → EpollEvent → EpollServer → Prop
  | connect {s : EpollServer} :
      EpollStep s .connect { s with backlog := s.backlog + 1, listening := true }
  | arrive {s : EpollServer} {c : ConnID} {data : List UInt8} (hdata : data ≠ [])
      (hopen : (s.socket c).closed = false) :
      EpollStep s (.arrive c data) (s.put c ((s.socket c).arrive data))
  | close {s : EpollServer} {c : ConnID} (hopen : (s.socket c).closed = false) :
      EpollStep s (.close c) (s.put c (s.socket c).close)
  | control {s : EpollServer} {c : ConnID} {armed : Bool} (hc : c ∈ s.server.accepted) :
      EpollStep s (.control c armed) (s.put c ((s.socket c).control armed))
  | recv {s : EpollServer} {c : ConnID} {later : List (Option ConnID)} {o : RecvOutcome}
      {k : Socket} (hw : s.server.worker = .loop) (hevent : s.server.events_ = some c :: later)
      (hrecv : (s.socket c).Recv o k)
      (hr : EasyConnection.RecvData (s.outcomes ++ [o]) = none) :
      EpollStep s (.recv c o)
        { s with socket := Function.update s.socket c k, outcomes := s.outcomes ++ [o] }
  | returned {s : EpollServer} {c : ConnID} {o : RecvOutcome} {k : Socket} {r : RecvResult}
      {server : LinuxServer} (hst : s.server.DeliveryStep (.recv c r) server)
      (hrecv : (s.socket c).Recv o k)
      (hr : EasyConnection.RecvData (s.outcomes ++ [o]) = some r) :
      EpollStep s (.returned c o r)
        { s with server := server, socket := Function.update s.socket c k, outcomes := [] }
  | wait {s : EpollServer} {events : List (Option ConnID)} {server : LinuxServer}
      (hst : s.server.DeliveryStep (.wait events) server) (hevents : s.Reports events) :
      EpollStep s (.server (.wait events)) (s.waited events server)
  | accept {s : EpollServer} {c : ConnID} {server : LinuxServer}
      (hst : s.server.DeliveryStep (.accept c) server) (hbacklog : 0 < s.backlog) :
      EpollStep s (.server (.accept c))
        { s with
          server := server
          socket := Function.update s.socket c ((s.socket c).control false)
          backlog := s.backlog - 1 }
  | server {s : EpollServer} {e : Event} {server : LinuxServer}
      (hst : s.server.DeliveryStep e server) (he : e.Inner) :
      EpollStep s (.server e) { s with server := server }

/-- A copy of `OnData` leaves `m_RecvBuf`. -/
def EpollServer.Overruns (s : EpollServer) (e : EpollEvent) : Prop :=
  ∃ event, e = .server event ∧ s.server.Overruns event

/-- The steps in which no copy leaves `m_RecvBuf`; where one does, anything may come of it. -/
def DefinedEpollStep : EpollServer → EpollEvent → EpollServer → Prop :=
  Guarded (fun s e ↦ ¬ s.Overruns e) fun s e t ↦ EpollStep s e t ∨ s.Overruns e

theorem EpollStep.not_overruns {s t : EpollServer} {e : EpollEvent} (h : EpollStep s e t) :
    ¬ s.Overruns e := by
  rintro ⟨event, rfl, hover⟩
  cases h with
  | wait hst => exact hst.1.not_overruns hover
  | accept hst => exact hst.1.not_overruns hover
  | server hst => exact hst.1.not_overruns hover

theorem path_defined_iff {s t : EpollServer} {es : List EpollEvent} :
    Path DefinedEpollStep s es t ↔ Path EpollStep s es t :=
  ⟨fun h ↦ h.mono fun _ _ _ hst ↦ hst.2.resolve_right hst.1,
    fun h ↦ h.mono fun _ _ _ hst ↦ ⟨hst.not_overruns, .inl hst⟩⟩

/-- Before the first connection. -/
structure EpollServer.Started (s : EpollServer) : Prop where
  server : s.server.Started
  socket : ∀ c, s.socket c = ⟨[], false, false, false⟩
  backlog : s.backlog = 0
  listening : s.listening = false
  outcomes : s.outcomes = []

/-! ## 3. `RecvData` under way -/

section Calls

variable {os : List RecvOutcome} {o : RecvOutcome} {r : RecvResult}

theorem oneCall_concat (hos : ∀ o ∈ os, o.Possible ∧ o.Continues) (ho : o.Possible) :
    OneCall (os ++ [o]) := by
  induction os with
  | nil => exact ⟨List.forall_mem_singleton.mpr ho, List.isChain_singleton o⟩
  | cons o' os ih =>
      obtain ⟨hfirst, hlater⟩ := List.forall_mem_cons.mp hos
      obtain ⟨hpossible, hchain⟩ := ih hlater
      refine ⟨List.forall_mem_cons.mpr ⟨hfirst.1, hpossible⟩, ?_⟩
      rw [List.cons_append, List.isChain_cons]
      exact ⟨fun _ _ ↦ hfirst.2, hchain⟩

-- Without a result the loop goes on.
theorem continues_of_none (h : EasyConnection.RecvData (os ++ [o]) = none) : o.Continues := by
  by_contra ho
  obtain ⟨r, hr⟩ :=
    EasyConnection.recvLoop_of_ends (n := 0) (r := ⟨[], 0, false⟩) List.getLast?_concat ho
  exact nomatch h.symm.trans hr

theorem ok_iff (hos : ∀ o ∈ os, o.Possible ∧ o.Continues) (ho : o.Possible)
    (h : EasyConnection.RecvData (os ++ [o]) = some r) : r.bReadOK = true ↔ o.EndsWithData := by
  obtain ⟨o', hlast, -, hok⟩ := EasyConnection.recvLoop_some (oneCall_concat hos ho) rfl h
  rw [List.getLast?_concat, Option.some.injEq] at hlast
  rw [hlast]
  exact hok

theorem not_continues_of_some (hos : ∀ o ∈ os, o.Possible ∧ o.Continues) (ho : o.Possible)
    (h : EasyConnection.RecvData (os ++ [o]) = some r) : ¬ o.Continues := by
  obtain ⟨o', hlast, hend, -⟩ := EasyConnection.recvLoop_some (oneCall_concat hos ho) rfl h
  rw [List.getLast?_concat, Option.some.injEq] at hlast
  rw [hlast]
  exact hend

theorem bytes_eq (hos : ∀ o ∈ os, o.Possible ∧ o.Continues) (ho : o.Possible)
    (h : EasyConnection.RecvData (os ++ [o]) = some r) :
    r.bytes = received os ++ o.received := by
  rw [bytes_recvLoop h (oneCall_concat hos ho), received_append]
  show [] ++ (received os ++ (o.received ++ [])) = _
  rw [List.append_nil, List.nil_append]

end Calls

section Step

variable {s t : LinuxServer} {e : Event}

theorem LinuxServer.Step.inner (h : LinuxServer.Step s e t) (he : e.Inner) :
    t.events_ = s.events_ ∧ t.accepted = s.accepted ∧ (s.worker = .loop → t.worker = .loop) ∧
      ∀ c, readFor c e = [] := by
  cases h with
  | wait | accept | data | hangup => exact he.elim
  | push hw =>
      refine ⟨rfl, rfl, fun hloop ↦ ?_, fun _ ↦ rfl⟩
      rw [hw] at hloop
      exact nomatch hloop
  | returned => exact ⟨rfl, rfl, fun _ ↦ rfl, fun _ ↦ rfl⟩
  | lock | exec | unlock => exact ⟨rfl, rfl, id, fun _ ↦ rfl⟩

theorem LinuxServer.Step.waits {events : List (Option ConnID)}
    (h : LinuxServer.Step s (.wait events) t) :
    s.events_ = [] ∧ t.events_ = events ∧ t.accepted = s.accepted ∧ events.Nodup ∧
      ∀ c, some c ∈ events → c ∈ s.accepted := by
  cases h with
  | wait hw hnone honce hevents => exact ⟨hnone, rfl, rfl, honce, fun c hc ↦ (hevents c hc).1⟩

theorem LinuxServer.Step.accepts_eq {c : ConnID} (h : LinuxServer.Step s (.accept c) t) :
    s.events_ = none :: t.events_ ∧ t.accepted = s.accepted ++ [c] ∧ c ∉ s.accepted := by
  cases h with
  | accept hw hevent hnew => exact ⟨hevent, rfl, hnew⟩

theorem LinuxServer.Step.receives {c : ConnID} {r : RecvResult}
    (h : LinuxServer.Step s (.recv c r) t) :
    s.events_ = some c :: t.events_ ∧ t.accepted = s.accepted := by
  cases h with
  | data hw hevent => exact ⟨hevent, rfl⟩
  | hangup hw hevent => exact ⟨hevent, rfl⟩

end Step

namespace EpollServer

/-- The call of `RecvData` that goes on is for the first of the events, and all its calls of `recv`
so far let the loop go on. -/
structure Calling (s : EpollServer) : Prop where
  continues : ∀ o ∈ s.outcomes, o.Possible ∧ o.Continues
  called : s.outcomes = [] ∨
    s.server.worker = .loop ∧ ∃ c later, s.server.events_ = some c :: later

variable {s t : EpollServer} {e : EpollEvent}

theorem Calling.outcomes_eq_nil (h : s.Calling)
    (hevents : ∀ c later, s.server.events_ ≠ some c :: later) : s.outcomes = [] := by
  refine h.called.resolve_right ?_
  rintro ⟨-, c, later, hevent⟩
  exact hevents c later hevent

theorem Calling.step (h : s.Calling) (hst : EpollStep s e t) : t.Calling := by
  cases hst with
  | connect | arrive | close | control => exact ⟨h.continues, h.called⟩
  | @recv c later o k hw hevent hrecv hr =>
      refine ⟨fun o' ho' ↦ ?_, .inr ⟨hw, c, later, hevent⟩⟩
      rcases List.mem_append.mp ho' with hold | hnew
      · exact h.continues o' hold
      · rw [List.mem_singleton.mp hnew]
        exact ⟨hrecv.possible, continues_of_none hr⟩
  | returned => exact ⟨fun _ ho ↦ absurd ho List.not_mem_nil, .inl rfl⟩
  | wait hst =>
      refine ⟨h.continues, .inl (h.outcomes_eq_nil fun c later hevent ↦ ?_)⟩
      rw [hst.1.waits.1] at hevent
      exact nomatch hevent
  | accept hst =>
      refine ⟨h.continues, .inl (h.outcomes_eq_nil fun c later hevent ↦ ?_)⟩
      rw [hst.1.accepts_eq.1] at hevent
      exact nomatch hevent
  | server hst he =>
      obtain ⟨hevents, -, hloop, -⟩ := hst.1.inner he
      refine ⟨h.continues, h.called.imp_right fun hcall ↦ ?_⟩
      rw [hevents]
      exact ⟨hloop hcall.1, hcall.2⟩

theorem Started.calling (h : s.Started) : s.Calling := by
  refine ⟨fun o ho ↦ ?_, .inl h.outcomes⟩
  rw [h.outcomes] at ho
  exact absurd ho List.not_mem_nil

end EpollServer

/-! ## 4. No byte is left behind -/

def EpollEvent.arrivedFor (c : ConnID) : EpollEvent → List UInt8
  | arrive c' data => if c' = c then data else []
  | _ => []

/-- The bytes that have arrived for the connection. -/
def arrivedOn (c : ConnID) (es : List EpollEvent) : List UInt8 :=
  es.flatMap (EpollEvent.arrivedFor c)

/-- What was read for the connection in the call of `RecvData` that goes on. -/
def EpollServer.reading (s : EpollServer) (c : ConnID) : List UInt8 :=
  if s.server.events_.head? = some (some c) then received s.outcomes else []

/-- The connection is to be looked at again. -/
def EpollServer.Due (s : EpollServer) (c : ConnID) : Prop :=
  (s.socket c).armed = true ∨ (s.socket c).ready = true ∨ some c ∈ s.server.events_

/-- What has arrived for connections that were not disconnected. -/
structure Attended (es : List EpollEvent) (s : EpollServer) : Prop where
  calling : s.Calling
  kept : ∀ c, Open (serverEvents es) c →
    arrivedOn c es = readOn c (serverEvents es) ++ s.reading c ++ (s.socket c).inbox
  due : ∀ c ∈ s.server.accepted, Open (serverEvents es) c → (s.socket c).inbox ≠ [] → s.Due c

section Runs

variable {es : List EpollEvent} {e : EpollEvent} {s t : EpollServer} {c : ConnID}

theorem serverEvents_quiet (h : e.event = none) :
    serverEvents (es ++ [e]) = serverEvents es := by
  rw [serverEvents, List.filterMap_append, List.filterMap_cons_none h, List.filterMap_nil,
    List.append_nil, serverEvents]

theorem serverEvents_snoc {e' : Event} (h : e.event = some e') :
    serverEvents (es ++ [e]) = serverEvents es ++ [e'] := by
  rw [serverEvents, List.filterMap_append, List.filterMap_cons_some h, List.filterMap_nil,
    serverEvents]

theorem arrivedOn_snoc : arrivedOn c (es ++ [e]) = arrivedOn c es ++ e.arrivedFor c := by
  rw [arrivedOn, List.flatMap_append, List.flatMap_singleton, arrivedOn]

theorem readOn_snoc {es : List Event} {e : Event} :
    readOn c (es ++ [e]) = readOn c es ++ readFor c e := by
  rw [readOn, List.flatMap_append, List.flatMap_singleton, readOn]

theorem EpollServer.reading_nil (s : EpollServer) (c : ConnID) (h : s.outcomes = []) :
    s.reading c = [] := by
  rw [EpollServer.reading, h]
  exact ite_self []

theorem EpollServer.reading_of_notMem (h : some c ∉ s.server.events_) : s.reading c = [] := by
  rw [EpollServer.reading, if_neg]
  intro hhead
  exact h (List.mem_of_mem_head? hhead)

theorem EpollServer.reading_head (s : EpollServer) {later : List (Option ConnID)}
    (h : s.server.events_ = some c :: later) : s.reading c = received s.outcomes := by
  rw [EpollServer.reading, h]
  exact if_pos rfl

theorem EpollServer.reading_other (s : EpollServer) {c' : ConnID} {later : List (Option ConnID)}
    (h : s.server.events_ = some c :: later) (hcc : c' ≠ c) : s.reading c' = [] := by
  rw [EpollServer.reading, h]
  refine if_neg fun he ↦ ?_
  cases he
  exact hcc rfl

namespace Attended

-- Only the socket of one connection changes, and the server does not move.
theorem touch {k : Socket} (h : Attended es s) (c : ConnID) (hevent : e.event = none)
    (hfor : ∀ c', c' ≠ c → e.arrivedFor c' = [])
    (hinbox : k.inbox = (s.socket c).inbox ++ e.arrivedFor c)
    (hdue : c ∈ s.server.accepted → k.inbox ≠ [] → (s.put c k).Due c ∨
      (s.socket c).inbox ≠ [] ∧ (s.Due c → (s.put c k).Due c)) :
    Attended (es ++ [e]) (s.put c k) := by
  refine ⟨⟨h.calling.continues, h.calling.called⟩, fun c' hopen ↦ ?_, fun c' hc' hopen hne ↦ ?_⟩
  · rw [serverEvents_quiet hevent] at hopen ⊢
    rw [arrivedOn_snoc, h.kept c' hopen]
    by_cases hcc : c' = c
    · rw [hcc, List.append_assoc, ← hinbox, s.put_self]
      rfl
    · rw [hfor c' hcc, List.append_nil, s.put_of_ne hcc]
      rfl
  · rw [serverEvents_quiet hevent] at hopen
    by_cases hcc : c' = c
    · subst hcc
      rw [s.put_self] at hne
      exact (hdue hc' hne).elim id fun hold ↦ hold.2 (h.due c' hc' hopen hold.1)
    · rw [s.put_of_ne hcc] at hne
      rw [EpollServer.Due, s.put_of_ne hcc]
      exact h.due c' hc' hopen hne

-- The calls of `recv` in the middle: what they return is being read.
theorem recv {k : Socket} {o : RecvOutcome} {later : List (Option ConnID)} (h : Attended es s)
    (hcalling : t.Calling) (hevent : s.server.events_ = some c :: later)
    (hrecv : (s.socket c).Recv o k) (hserver : t.server = s.server)
    (hsocket : t.socket = (s.put c k).socket) (houtcomes : t.outcomes = s.outcomes ++ [o]) :
    Attended (es ++ [.recv c o]) t := by
  have hnext : t.server.events_ = some c :: later := hserver ▸ hevent
  refine ⟨hcalling, fun c' hopen ↦ ?_, fun c' hc' hopen hne ↦ ?_⟩
  · rw [serverEvents_quiet rfl] at hopen ⊢
    rw [arrivedOn_snoc, h.kept c' hopen, hsocket]
    show _ ++ [] = _
    rw [List.append_nil]
    by_cases hcc : c' = c
    · rw [hcc, s.reading_head hevent, t.reading_head hnext, s.put_self, houtcomes,
        received_append, hrecv.inbox_eq]
      show _ = _ ++ (received s.outcomes ++ (o.received ++ [])) ++ _
      simp only [List.append_nil, List.append_assoc]
    · rw [s.reading_other hevent hcc, t.reading_other hnext hcc, s.put_of_ne hcc]
  · rw [serverEvents_quiet rfl] at hopen
    by_cases hcc : c' = c
    · refine .inr (.inr ?_)
      rw [hnext, hcc]
      exact List.mem_cons_self
    · rw [hsocket, s.put_of_ne hcc] at hne
      have hold := h.due c' (hserver ▸ hc') hopen hne
      rwa [EpollServer.Due, hsocket, s.put_of_ne hcc, hserver]

-- The last one: it is all in the command, and nothing stays in the socket.
theorem returned {k : Socket} {o : RecvOutcome} {r : RecvResult} (h : Attended es s)
    (hcalling : t.Calling) (hst : s.server.Step (.recv c r) t.server)
    (hrecv : (s.socket c).Recv o k)
    (hr : EasyConnection.RecvData (s.outcomes ++ [o]) = some r)
    (hsocket : t.socket = (s.put c k).socket) (houtcomes : t.outcomes = []) :
    Attended (es ++ [.returned c o r]) t := by
  obtain ⟨hevent, haccepted⟩ := hst.receives
  refine ⟨hcalling, fun c' hopen ↦ ?_, fun c' hc' hopen hne ↦ ?_⟩
  · rw [serverEvents_snoc (e := .returned c o r) rfl] at hopen ⊢
    rw [arrivedOn_snoc, h.kept c' hopen.left, readOn_snoc, t.reading_nil c' houtcomes, hsocket]
    show _ ++ [] = _
    by_cases hcc : c' = c
    · subst hcc
      have hok : r.bReadOK = true := hopen r (List.mem_append_right _ List.mem_cons_self)
      have hfor : readFor c' (.recv c' r) = r.bytes := if_pos ⟨rfl, hok⟩
      rw [hfor, bytes_eq h.calling.continues hrecv.possible hr, s.put_self,
        s.reading_head hevent, hrecv.inbox_eq]
      simp only [List.append_nil, List.append_assoc]
    · have hfor : readFor c' (.recv c r) = [] := if_neg fun he ↦ hcc he.1.symm
      rw [hfor, s.reading_other hevent hcc, s.put_of_ne hcc]
      simp only [List.append_nil]
  · rw [serverEvents_snoc (e := .returned c o r) rfl] at hopen
    rw [hsocket] at hne
    by_cases hcc : c' = c
    · subst hcc
      have hok : r.bReadOK = true := hopen r (List.mem_append_right _ List.mem_cons_self)
      rw [s.put_self] at hne
      exact absurd (hrecv.drained ((ok_iff h.calling.continues hrecv.possible hr).mp hok)) hne
    · rw [s.put_of_ne hcc] at hne
      have hold := h.due c' (haccepted ▸ hc') hopen.left hne
      rw [EpollServer.Due, hevent] at hold
      rw [EpollServer.Due, hsocket, s.put_of_ne hcc]
      refine hold.imp_right (Or.imp_right fun hmem ↦ ?_)
      exact (List.mem_cons.mp hmem).resolve_left fun he ↦ hcc (Option.some.inj he)

theorem wait {events : List (Option ConnID)} {server : LinuxServer} (h : Attended es s)
    (hcalling : (s.waited events server).Calling) (hst : s.server.Step (.wait events) server) :
    Attended (es ++ [.server (.wait events)]) (s.waited events server) := by
  obtain ⟨hnone, hevents, haccepted, -⟩ := hst.waits
  have houtcomes : s.outcomes = [] := h.calling.outcomes_eq_nil fun c later hevent ↦ by
    rw [hnone] at hevent
    exact nomatch hevent
  refine ⟨hcalling, fun c hopen ↦ ?_, fun c hc hopen hne ↦ ?_⟩
  · rw [serverEvents_snoc (e := .server (.wait events)) rfl] at hopen ⊢
    rw [arrivedOn_snoc, h.kept c hopen.left, readOn_snoc, s.reading_nil c houtcomes,
      (s.waited events server).reading_nil c houtcomes]
    show _ ++ [] = _ ++ [] ++ [] ++ (s.socket c).inbox
    simp only [List.append_nil]
  · rw [serverEvents_snoc (e := .server (.wait events)) rfl] at hopen
    rcases h.due c (haccepted ▸ hc) hopen.left hne with harmed | hready | hmem
    · exact .inl harmed
    · by_cases hreport : some c ∈ events
      · exact .inr (.inr (hevents ▸ hreport))
      · refine .inr (.inl ?_)
        show ((s.socket c).ready && !decide (some c ∈ events)) = true
        rw [hready, decide_eq_false hreport]
        rfl
    · rw [hnone] at hmem
      exact absurd hmem List.not_mem_nil

theorem accept (h : Attended es s) (hcalling : t.Calling)
    (hst : s.server.Step (.accept c) t.server)
    (hsocket : t.socket = (s.put c ((s.socket c).control false)).socket)
    (houtcomes : t.outcomes = s.outcomes) : Attended (es ++ [.server (.accept c)]) t := by
  obtain ⟨hevent, haccepted, -⟩ := hst.accepts_eq
  have hnil : s.outcomes = [] := h.calling.outcomes_eq_nil fun c later hhead ↦ by
    rw [hevent] at hhead
    exact nomatch hhead
  have hinbox : ∀ c', (t.socket c').inbox = (s.socket c').inbox := by
    intro c'
    rw [hsocket]
    by_cases hcc : c' = c
    · rw [hcc, s.put_self]
      rfl
    · rw [s.put_of_ne hcc]
  refine ⟨hcalling, fun c' hopen ↦ ?_, fun c' hc' hopen hne ↦ ?_⟩
  · rw [serverEvents_snoc (e := .server (.accept c)) rfl] at hopen ⊢
    rw [arrivedOn_snoc, h.kept c' hopen.left, readOn_snoc, s.reading_nil c' hnil,
      t.reading_nil c' (houtcomes.trans hnil), hinbox]
    show _ ++ [] = _ ++ [] ++ [] ++ _
    simp only [List.append_nil]
  · rw [serverEvents_snoc (e := .server (.accept c)) rfl] at hopen
    rw [hinbox] at hne
    by_cases hcc : c' = c
    · -- `epoll_ctl` finds what has come before
      refine .inr (.inl ?_)
      rw [hcc] at hne
      rw [hsocket, hcc, s.put_self]
      show (!false && (!(s.socket c).inbox.isEmpty || (s.socket c).closed)) = true
      rw [List.isEmpty_eq_false_iff.mpr hne]
      rfl
    · rw [haccepted, List.mem_append, List.mem_singleton] at hc'
      have hold := h.due c' (hc'.resolve_right hcc) hopen.left hne
      rw [EpollServer.Due, hevent] at hold
      rw [EpollServer.Due, hsocket, s.put_of_ne hcc]
      refine hold.imp_right (Or.imp_right fun hmem ↦ ?_)
      exact (List.mem_cons.mp hmem).resolve_left (Option.some_ne_none c')

theorem inner {e : Event} (h : Attended es s) (hcalling : t.Calling) (he : e.Inner)
    (hst : s.server.Step e t.server) (hsocket : t.socket = s.socket)
    (houtcomes : t.outcomes = s.outcomes) : Attended (es ++ [.server e]) t := by
  obtain ⟨hevents, haccepted, -, hread⟩ := hst.inner he
  refine ⟨hcalling, fun c hopen ↦ ?_, fun c hc hopen hne ↦ ?_⟩
  · rw [serverEvents_snoc (e := .server e) rfl] at hopen ⊢
    rw [arrivedOn_snoc, h.kept c hopen.left, readOn_snoc, hread, hsocket, EpollServer.reading,
      EpollServer.reading, hevents, houtcomes]
    show _ ++ [] = _ ++ [] ++ _ ++ _
    rw [List.append_nil, List.append_nil]
  · rw [serverEvents_snoc (e := .server e) rfl] at hopen
    rw [hsocket] at hne
    rw [EpollServer.Due, hsocket, hevents]
    exact h.due c (haccepted ▸ hc) hopen.left hne

theorem step (h : Attended es s) (hst : EpollStep s e t) : Attended (es ++ [e]) t := by
  have hcalling := h.calling.step hst
  cases hst with
  | connect =>
      refine ⟨hcalling, fun c hopen ↦ ?_, fun c hc hopen hne ↦ ?_⟩
      · rw [serverEvents_quiet rfl] at hopen ⊢
        rw [arrivedOn_snoc, h.kept c hopen]
        exact List.append_nil _
      · rw [serverEvents_quiet rfl] at hopen
        exact h.due c hc hopen hne
  | @arrive c data hdata hopen =>
      refine h.touch c rfl (fun c' hcc ↦ if_neg (Ne.symm hcc)) ?_ fun _ _ ↦ .inl ?_
      · show (s.socket c).inbox ++ data = _ ++ if c = c then data else []
        rw [if_pos rfl]
      · rw [EpollServer.Due, s.put_self]
        cases harmed : (s.socket c).armed with
        | true => exact .inl harmed
        | false => exact .inr (.inl (by rw [Socket.arrive, harmed]; exact Bool.or_true _))
  | @close c hopen =>
      refine h.touch c rfl (fun _ _ ↦ rfl) (List.append_nil _).symm fun _ hne ↦ .inr ⟨hne, ?_⟩
      rw [EpollServer.Due, EpollServer.Due, s.put_self]
      refine Or.imp id (Or.imp_left fun hready ↦ ?_)
      show ((s.socket c).ready || !(s.socket c).armed) = true
      rw [hready]
      rfl
  | @control c armed hc =>
      refine h.touch c rfl (fun _ _ ↦ rfl) (List.append_nil _).symm fun _ hne ↦ .inl ?_
      rw [EpollServer.Due, s.put_self]
      cases armed with
      | true => exact .inl rfl
      | false =>
          refine .inr (.inl ?_)
          have hinbox : (s.socket c).inbox ≠ [] := hne
          show (!false && (!(s.socket c).inbox.isEmpty || (s.socket c).closed)) = true
          rw [List.isEmpty_eq_false_iff.mpr hinbox]
          rfl
  | recv hw hevent hrecv hr => exact h.recv hcalling hevent hrecv rfl rfl rfl
  | returned hst hrecv hr => exact h.returned hcalling hst.1 hrecv hr rfl rfl
  | wait hst => exact h.wait hcalling hst.1
  | accept hst => exact h.accept hcalling hst.1 rfl rfl
  | server hst he => exact h.inner hcalling he hst.1 rfl rfl

theorem start (h : s.Started) : Attended [] s := by
  refine ⟨h.calling, fun c _ ↦ ?_, fun c hc ↦ ?_⟩
  · rw [h.socket, s.reading_nil c h.outcomes]
    rfl
  · rw [h.server.accepted] at hc
    exact absurd hc List.not_mem_nil

end Attended

-- Seen without the kernel, a run is one of the two threads.
theorem server_path (h : Path EpollStep s es t) :
    Path LinuxServer.DeliveryStep s.server (serverEvents es) t.server := by
  refine h.projected (g := EpollServer.server) (fun s e t e' hst he ↦ ?_) fun s e t hst he ↦ ?_
  · cases hst with
    | connect | arrive | close | control | recv => exact nomatch he
    | returned hst => cases he; exact hst
    | wait hst => cases he; exact hst
    | accept hst => cases he; exact hst
    | server hst => cases he; exact hst
  · cases hst with
    | connect | arrive | close | control | recv => rfl
    | returned | wait | accept | server => exact nomatch he

theorem attended_of_path (hs : s.Started) (h : Path EpollStep s es t) : Attended es t :=
  h.always (.start hs) fun _ _ _ _ hatt hst ↦ hatt.step hst

/-- Nothing is under way for the connection. -/
structure EpollServer.Settled (s : EpollServer) (c : ConnID) : Prop where
  accepted : c ∈ s.server.accepted
  looked : ¬ s.Due c
  executed : s.server.waitingOn c = []

/-- **No byte is left behind.**  Whatever order things happen in, as long as no copy of `OnData`
leaves `m_RecvBuf`, what has arrived for a connection that was not disconnected is with its session,
in commands, being read, or in a socket that is looked at again.  Once nothing is under way for the
connection, its session has handled every packet of at most 1024 bytes that the peer has wholly
sent. -/
theorem nothing_left_behind (s t : EpollServer) (es : List EpollEvent) (hs : s.Started)
    (h : Path DefinedEpollStep s es t) (hes : Each NotAfterHangup (serverEvents es))
    (hkeeps : Each KeepsBytes (serverEvents es)) (c : ConnID) (hopen : Open (serverEvents es) c) :
    arrivedOn c es = (chunksOf c (executed (serverEvents es))).flatten ++
        (t.server.waitingOn c).flatten ++ t.reading c ++ (t.socket c).inbox ∧
      (c ∈ t.server.accepted → (t.socket c).inbox ≠ [] → t.Due c) ∧
      ∀ rs : List SendRequest, (∀ r ∈ rs, r.iLen ≤ MAX_INPUT_BUFFER - PACKET_HEAD) →
        arrivedOn c es <+: stream rs → t.Settled c →
        packetsOf c (executed (serverEvents es)) =
          (arrived (arrivedOn c es).length rs).map SendRequest.packet := by
  rw [path_defined_iff] at h
  have hatt := attended_of_path hs h
  obtain ⟨hlife, hpath, hread⟩ := delivered_of_path hs.server (server_path h) hes hkeeps
  have hsplit : readOn c (serverEvents es) =
      (chunksOf c (executed (serverEvents es))).flatten ++ (t.server.waitingOn c).flatten := by
    rw [← hread, chunksOf_commands, List.flatten_append]
  have harrived := hatt.kept c hopen
  rw [hsplit] at harrived
  refine ⟨harrived, fun hc ↦ hatt.due c hc hopen, fun rs hrs hsent hsettled ↦ ?_⟩
  -- all of it is with the session
  have hinbox : (t.socket c).inbox = [] := by
    by_contra hne
    exact hsettled.looked (hatt.due c hsettled.accepted hopen hne)
  have hreading : t.reading c = [] :=
    EpollServer.reading_of_notMem fun hmem ↦ hsettled.looked (.inr (.inr hmem))
  rw [hinbox, hreading, hsettled.executed, List.flatten_nil, List.append_nil, List.append_nil,
    List.append_nil] at harrived
  rw [harrived] at hsent ⊢
  have hwhole : (chunksOf c (executed (serverEvents es))).flatten ++ [] <+: stream rs := by
    rwa [List.append_nil]
  obtain ⟨hwrap, hpackets⟩ := packets_of_stream hrs hwhole
  rw [← hpackets]
  exact (served_of_path hs.server.idle (executed_path hpath) hlife.reported.left).handled c hwrap

end Runs

/-! ## 5. A run -/

namespace EpollServer

def start (server : EasyBaseServer) : EpollServer :=
  ⟨.start server, fun _ ↦ ⟨[], false, false, false⟩, 0, false, []⟩

theorem started_start {server : EasyBaseServer} (h : server.Idle) : (start server).Started :=
  ⟨LinuxServer.started_start h, fun _ ↦ rfl, rfl, rfl, rfl⟩

end EpollServer

theorem LinuxServer.Step.delivery {s t : LinuxServer} {e : Event} (h : LinuxServer.Step s e t)
    (he : ∀ c r, e ≠ .recv c r) : s.DeliveryStep e t :=
  ⟨h, fun c r hr ↦ absurd hr (he c r)⟩

/-- A packet of one byte. -/
def ninePacket : EasyPacket := ⟨5, 1, [9]⟩

theorem nine_executed (hidle : oneSession.Idle) (data : EasyCommandOnData)
    (hdata : data.m_pData = [5, 0, 1, 0, 9]) :
    ∃ t u, Executes .LINUX oneSession (.OnConnect 0, []) t ∧
      Executes .LINUX t (.OnData 0 data, [.OnPacketReceived 0 ninePacket]) u := by
  obtain ⟨p, pool, created, o, ha⟩ := oneSession.exists_allocates zeroSession
  obtain ⟨t, ht, hrunning, -, hclient, hobject⟩ :=
    connect_run .LINUX zeroSession hidle.running ha 0
  have hback : (t.object p).m_pConnection = some 0 := by rw [hobject]
  have hempty : (t.object p).toRecvBuffer.m_iRecvBufLen = 0 := by
    rw [hobject]
    cases ha with
    | pooled h =>
        refine (hidle.pool_idle p ?_).2
        rw [h]
        exact List.mem_cons_self
    | new => rfl
  let r : SendRequest := ⟨5, [9], by decide, by decide⟩
  have hframe : r.frame = data.m_pData := by
    rw [hdata]
    decide
  have hfits : PACKET_HEAD + r.iLen ≤ MAX_INPUT_BUFFER := by decide
  obtain ⟨u, hu, hpc, hhandled⟩ := EasyBaseClient.exists_handled hempty hfits
  rw [hframe] at hu
  obtain ⟨v, hv, -⟩ := data_run .LINUX hrunning hclient hback data hu hpc
  rw [hhandled] at hv
  exact ⟨t, v, ht, hv⟩

/-- The packet has come while its connection waits for `accept`. -/
def EpollServer.nine (server : EasyBaseServer) (closed : Bool) : EpollServer :=
  ⟨.start server,
    Function.update (fun _ ↦ ⟨[], false, false, false⟩) 0 ⟨[5, 0, 1, 0, 9], closed, false, true⟩,
    1, true, []⟩

def nineEvents (data : EasyCommandOnData) : List EpollEvent :=
  [.server (.wait [none]), .server (.accept 0), .server (.push (.OnConnect 0)),
    .server (.wait [some 0]),
    .returned 0 (.bytes [5, 0, 1, 0, 9]) onePacket, .server (.push (.OnData 0 data)),
    .server (.returned 0), .server .lock, .server (.exec (.OnConnect 0, [])),
    .server (.exec (.OnData 0 data, [.OnPacketReceived 0 ninePacket]))]

theorem nine_run (closed : Bool) (data : EasyCommandOnData)
    (hdata : data.m_pData = [5, 0, 1, 0, 9]) :
    ∃ t, Path EpollStep (.nine oneSession closed) (nineEvents data) t ∧ t.Settled 0 := by
  have hidle : oneSession.Idle := oneSession_prepared.idle
  obtain ⟨t, u, ht, hu⟩ := nine_executed hidle data hdata
  have hrunning := hidle.running
  generalize oneSession = server at *
  have hnone : ∀ c : ConnID, some c ∉ [(none : Option ConnID)] := fun c hc ↦
    Option.some_ne_none c (List.mem_singleton.mp hc)
  have hone : ∀ c : ConnID, some c ∈ [some (0 : ConnID)] → c = 0 := fun c hc ↦
    Option.some.inj (List.mem_singleton.mp hc)
  have hnil := Path.nil (R := EpollStep) (s := .nine server closed)
  -- the connection is accepted
  have h₁ := hnil.snoc (.wait
    ((LinuxServer.Step.wait rfl rfl (List.nodup_singleton none)
      fun c hc ↦ absurd hc (hnone c)).delivery nofun)
    ⟨fun c hc ↦ absurd hc (hnone c), fun _ ↦ ⟨rfl, Nat.zero_lt_one⟩⟩)
  have h₂ := h₁.snoc (.accept
    ((LinuxServer.Step.accepts (c := 0) hrunning rfl rfl List.not_mem_nil).delivery nofun)
    Nat.zero_lt_one)
  have h₃ := h₂.snoc (.server ((LinuxServer.Step.push rfl rfl).delivery nofun) trivial)
  -- the packet is read
  have h₄ := h₃.snoc (.wait
    ((LinuxServer.Step.wait rfl rfl (List.nodup_singleton (some 0)) fun c hc ↦ by
      rw [hone c hc]
      exact ⟨List.mem_singleton_self 0, List.not_mem_nil⟩).delivery nofun)
    ⟨fun c hc ↦ by rw [hone c hc]; exact ⟨rfl, rfl⟩,
      fun hc ↦ absurd (List.mem_singleton.mp hc) (Option.some_ne_none 0).symm⟩)
  have hlen : data.m_pData.length = uint16 onePacket.len_ := by rw [hdata]; rfl
  have hcopied : data.m_pData = (onePacket.handedOver fun _ ↦ 0).take
      (uint16 (uint32 onePacket.len_)) := by
    rw [hdata, kept_onePacket.copied rfl]
    rfl
  have hrecv : EasyConnection.RecvData [.bytes [5, 0, 1, 0, 9]] = some onePacket := rfl
  have h₅ := h₄.snoc (.returned (c := 0) (r := onePacket)
    ⟨.data rfl rfl hrecv rfl hlen,
      fun c r hr hok ↦ by cases hr; exact ⟨fun _ ↦ 0, data, hcopied, rfl⟩⟩
    (.bytes (List.cons_ne_nil _ _)) rfl)
  have h₆ := h₅.snoc (.server ((LinuxServer.Step.push
    (LinuxServer.handler_of_running hrunning _) rfl).delivery nofun) trivial)
  have h₇ := h₆.snoc (.server ((LinuxServer.Step.returned rfl).delivery nofun) trivial)
  -- the commands are executed
  have h₈ := h₇.snoc (.server ((LinuxServer.Step.lock rfl).delivery nofun) trivial)
  have h₉ := h₈.snoc (.server ((LinuxServer.Step.execs rfl rfl ht).delivery nofun) trivial)
  have h₁₀ := h₉.snoc (.server ((LinuxServer.Step.execs rfl rfl hu).delivery nofun) trivial)
  refine ⟨_, h₁₀, List.mem_singleton_self 0, ?_, rfl⟩
  rintro (harmed | hready | hmem)
  · exact nomatch harmed
  · exact nomatch hready
  · exact absurd hmem List.not_mem_nil

theorem nine_events (data : EasyCommandOnData) :
    serverEvents (nineEvents data) =
      [.wait [none], .accept 0, .push (.OnConnect 0), .wait [some 0], .recv 0 onePacket,
        .push (.OnData 0 data), .returned 0, .lock, .exec (.OnConnect 0, []),
        .exec (.OnData 0 data, [.OnPacketReceived 0 ninePacket])] := rfl

/-- It is handled. -/
theorem nothing_left_behind_nine :
    ∃ es t, Path DefinedEpollStep (.start oneSession) es t ∧ t.Settled 0 ∧
      packetsOf 0 (executed (serverEvents es)) = [ninePacket] := by
  let r : SendRequest := ⟨5, [9], by decide, by decide⟩
  let data : EasyCommandOnData := ⟨[5, 0, 1, 0, 9], by decide⟩
  obtain ⟨t, hlater, hsettled⟩ := nine_run false data rfl
  have hfirst := (Path.nil (R := EpollStep) (s := .start oneSession)).snoc .connect
  have hnine := hfirst.snoc (.arrive (c := 0) (List.cons_ne_nil 5 [0, 1, 0, 9]) rfl)
  have hpath : Path DefinedEpollStep _
      ([.connect, .arrive 0 [5, 0, 1, 0, 9]] ++ nineEvents data) t :=
    path_defined_iff.mpr (hnine.append hlater)
  have honly : ∀ c r, .recv c r ∈ serverEvents (nineEvents data) → r = onePacket := by
    intro c r hmem
    rw [nine_events] at hmem
    simp only [List.mem_cons, Event.recv.injEq, reduceCtorEq, false_or, or_false,
      List.not_mem_nil] at hmem
    exact hmem.2
  have harrived : arrivedOn 0 ([.connect, .arrive 0 [5, 0, 1, 0, 9]] ++ nineEvents data) =
      [5, 0, 1, 0, 9] := rfl
  have hstream : stream [r] = [5, 0, 1, 0, 9] := by decide
  have hpackets := (nothing_left_behind _ _ _
    (EpollServer.started_start oneSession_prepared.idle) hpath ?_ ?_ 0 ?_).2.2 [r]
    (List.forall_mem_singleton.mpr (by decide)) (by rw [harrived, hstream]) hsettled
  · rw [harrived] at hpackets
    exact ⟨_, t, hpath, hsettled, hpackets⟩
  · intro before e hpre c r _ r' hr'
    rw [honly c r' (hpre.subset (List.mem_append_left _ hr'))]
    rfl
  · rintro before e hpre c r rfl -
    rw [honly c r (hpre.subset (List.mem_append_right _ List.mem_cons_self))]
    exact kept_onePacket
  · intro r hr
    rw [honly 0 r hr]
    rfl

end Fantuan
