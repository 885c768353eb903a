import Fantuan.Midware.Registry
import Fantuan.Network.Receive

/-!
# Connection lifetime (Linux)

Two threads share the connections: the worker, which handles what `epoll_wait` reports and pushes
commands, and the command thread, which executes them and deletes the connection of an
`OnDisconnect`.  The socket stays registered until then, so that more can be reported for a
connection whose end has been pushed already.  Allocations succeed, and a `ConnID` names one
connection for good.
-/

open Lib

namespace Fantuan

/-! ## 1. The two threads -/

/-- Where the worker is: in the loop of `WorkerThread`, in `PushCommand`, or in `RecvData` after the
handler `OnData`. -/
inductive WorkerPc
  | loop
  | pushing (command : EasyCommand)
  | returning (c : ConnID)

structure LinuxServer where
  server : EasyBaseServer
  m_CommandList : List EasyCommand
  /-- The command thread holds `m_CommandMutex` and executes the list. -/
  draining : Bool
  accepted : List ConnID
  deleted : List ConnID
  /-- The events of the last `epoll_wait` that are still to be handled; `none` is the listening
  socket. -/
  events_ : List (Option ConnID)
  worker : WorkerPc

inductive Event
  | accept (c : ConnID)
  | wait (events : List (Option ConnID))
  | recv (c : ConnID) (r : RecvResult)
  | push (command : EasyCommand)
  | returned (c : ConnID)
  | lock
  | exec (e : Executed)
  | unlock

/-- The connection object that a step reads or writes. -/
def Event.touched : Event → Option ConnID
  | recv c _ => some c
  | returned c => some c
  | exec e => e.1.connId
  | _ => none

/-- The connections that actions delete: `EasySession::OnDisconnect` does so after `Close`. -/
def deletedBy (actions : List Action) : List ConnID :=
  actions.filterMap fun
    | .Close connId => some connId
    | _ => none

namespace LinuxServer

/-- The handlers `OnConnection`, `OnDisconnect` and `OnData` push a command, unless the server shuts
down. -/
def handler (s : LinuxServer) (command : EasyCommand) : WorkerPc :=
  if s.server.m_bReadyForShutdown then .loop else .pushing command

inductive Step : LinuxServer → Event → LinuxServer → Prop
  | wait {s : LinuxServer} {events : List (Option ConnID)} (hw : s.worker = .loop)
      (hnone : s.events_ = []) (honce : events.Nodup)
      (hevents : ∀ c, some c ∈ events → c ∈ s.accepted ∧ c ∉ s.deleted) :
      Step s (.wait events) { s with events_ := events }
  | accept {s : LinuxServer} {c : ConnID} {later : List (Option ConnID)} (hw : s.worker = .loop)
      (hevent : s.events_ = none :: later) (hnew : c ∉ s.accepted) :
      Step s (.accept c)
        { s with
          events_ := later, accepted := s.accepted ++ [c], worker := s.handler (.OnConnect c) }
  | data {s : LinuxServer} {c : ConnID} {later : List (Option ConnID)}
      {outcomes : List RecvOutcome} {r : RecvResult} {data : EasyCommandOnData}
      (hw : s.worker = .loop) (hevent : s.events_ = some c :: later)
      (hr : EasyConnection.RecvData outcomes = some r) (hok : r.bReadOK = true)
      (hlen : data.m_pData.length = uint16 r.len_) :
      Step s (.recv c r) { s with events_ := later, worker := s.handler (.OnData c data) }
  | hangup {s : LinuxServer} {c : ConnID} {later : List (Option ConnID)}
      {outcomes : List RecvOutcome} {r : RecvResult} (hw : s.worker = .loop)
      (hevent : s.events_ = some c :: later) (hr : EasyConnection.RecvData outcomes = some r)
      (hok : r.bReadOK = false) :
      Step s (.recv c r) { s with events_ := later, worker := s.handler (.OnDisconnect c) }
  | push {s : LinuxServer} {command : EasyCommand} (hw : s.worker = .pushing command)
      (hfree : s.draining = false) :
      Step s (.push command)
        { s with
          m_CommandList := s.m_CommandList ++ [command]
          worker :=
            match command with
            | .OnData c _ => .returning c
            | _ => .loop }
  | returned {s : LinuxServer} {c : ConnID} (hw : s.worker = .returning c) :
      Step s (.returned c) { s with worker := .loop }
  | lock {s : LinuxServer} (hfree : s.draining = false) : Step s .lock { s with draining := true }
  | exec {s : LinuxServer} {command : EasyCommand} {later : List EasyCommand} {d : Done}
      (hlock : s.draining = true) (hlist : s.m_CommandList = command :: later)
      (hd : s.server._OnCommand .LINUX command d) :
      Step s (.exec (command, d.actions))
        { s with
          server := d.server, m_CommandList := later
          deleted := s.deleted ++ deletedBy d.actions }
  | unlock {s : LinuxServer} (hlock : s.draining = true) (hlist : s.m_CommandList = []) :
      Step s .unlock { s with draining := false }

/-- Before the first connection. -/
structure Started (s : LinuxServer) : Prop where
  idle : s.server.Idle
  list : s.m_CommandList = []
  free : s.draining = false
  accepted : s.accepted = []
  deleted : s.deleted = []
  events : s.events_ = []
  worker : s.worker = .loop

end LinuxServer

/-- No event of a connection is handled after one that ended with `Disconnect`. -/
def NotAfterHangup (before : List Event) (e : Event) : Prop :=
  ∀ c r, e = .recv c r → ∀ r', .recv c r' ∈ before → r'.bReadOK = true

/-! ## 2. Every connection's commands stay in order -/

/-- The commands executed in a run. -/
def executed (es : List Event) : List Executed :=
  es.filterMap fun
    | .exec e => some e
    | _ => none

def WorkerPc.pushed : WorkerPc → List EasyCommand
  | pushing command => [command]
  | _ => []

/-- The commands that are not executed yet. -/
def LinuxServer.pending (s : LinuxServer) : List EasyCommand := s.m_CommandList ++ s.worker.pushed

/-- All commands so far, those executed and those to come. -/
def commands (es : List Event) (s : LinuxServer) : List Executed :=
  executed es ++ s.pending.map fun command ↦ (command, [])

/-- Events of `c` were handled, none of them with `Disconnect` at its end. -/
def Open (es : List Event) (c : ConnID) : Prop := ∀ r, .recv c r ∈ es → r.bReadOK = true

structure Lifetime (es : List Event) (s : LinuxServer) : Prop where
  owned : Owned (live (executed es)) s.server
  reported : Each Reported (commands es s)
  deleted : ∀ c ∈ s.deleted, Ended (executed es) c
  ended : ∀ c, Open es c → ¬ Ended (commands es s) c
  connected : ∀ c, Connected (commands es s) c ↔ c ∈ s.accepted
  events : ∀ c, some c ∈ s.events_ → c ∈ s.accepted
  receiving : ∀ c data, s.worker = .pushing (.OnData c data) → Open es c
  returning : ∀ c, s.worker = .returning c → Open es c

section Executed

variable {es : List Event} {c : ConnID}

theorem executed_exec (es : List Event) (e : Executed) :
    executed (es ++ [.exec e]) = executed es ++ [e] := by
  rw [executed, List.filterMap_append]
  rfl

-- Every other event leaves the executed commands as they are.
theorem executed_other {e : Event} (h : executed [e] = []) :
    executed (es ++ [e]) = executed es := by
  rw [executed, List.filterMap_append, ← executed, ← executed, h, List.append_nil]

theorem open_snoc {e : Event} :
    Open (es ++ [e]) c ↔ Open es c ∧ ∀ r, e = .recv c r → r.bReadOK = true := by
  simp only [Open, List.mem_append, List.mem_singleton, or_imp, forall_and]
  exact and_congr_right fun _ ↦ forall_congr' fun r ↦ imp_congr_left eq_comm

theorem Open.snoc {e : Event} (h : Open es c) (he : ∀ r, e = .recv c r → r.bReadOK = true) :
    Open (es ++ [e]) c :=
  open_snoc.mpr ⟨h, he⟩

theorem Open.left {e : Event} (h : Open (es ++ [e]) c) : Open es c :=
  fun r hr ↦ h r (List.mem_append_left _ hr)

theorem Ended.left {xs ys : List Executed} (h : Ended xs c) : Ended (xs ++ ys) c := by
  rcases h with ⟨e, he, hce⟩
  exact ⟨e, List.mem_append_left _ he, hce⟩

end Executed

theorem LinuxServer.handler_of_running {s : LinuxServer} (h : s.server.m_bReadyForShutdown = false)
    (command : EasyCommand) : s.handler command = .pushing command := by
  rw [handler, h]
  rfl

namespace Lifetime

variable {es : List Event} {s : LinuxServer} {e : Event} {c : ConnID} {command : EasyCommand}

theorem handler_eq (h : Lifetime es s) (command : EasyCommand) :
    s.handler command = .pushing command :=
  LinuxServer.handler_of_running h.owned.running command

theorem not_deleted (h : Lifetime es s) (hopen : Open es c) : c ∉ s.deleted :=
  fun hdel ↦ h.ended c hopen (h.deleted c hdel).left

-- A step that neither executes nor makes a command.
theorem quiet {t : LinuxServer} (h : Lifetime es s)
    (hexec : executed (es ++ [e]) = executed es) (hserver : t.server = s.server)
    (hpending : t.pending = s.pending) (hdeleted : t.deleted = s.deleted)
    (haccepted : t.accepted = s.accepted)
    (hevents : ∀ c, some c ∈ t.events_ → c ∈ s.accepted)
    (hreceiving : ∀ c data, t.worker = .pushing (.OnData c data) → Open (es ++ [e]) c)
    (hreturning : ∀ c, t.worker = .returning c → Open (es ++ [e]) c) :
    Lifetime (es ++ [e]) t := by
  have hcommands : commands (es ++ [e]) t = commands es s := by
    rw [commands, hexec, hpending, commands]
  refine ⟨?_, ?_, ?_, fun c hopen ↦ ?_, fun c ↦ ?_, ?_, hreceiving, hreturning⟩
  · rw [hexec, hserver]
    exact h.owned
  · rw [hcommands]
    exact h.reported
  · rw [hexec, hdeleted]
    exact h.deleted
  · rw [hcommands]
    exact h.ended c hopen.left
  · rw [hcommands, haccepted]
    exact h.connected c
  · rw [haccepted]
    exact hevents

-- A step of the worker that makes a command.
theorem make {t : LinuxServer} (h : Lifetime es s) (hw : s.worker = .loop)
    (hexec : executed (es ++ [e]) = executed es) (hserver : t.server = s.server)
    (hlist : t.m_CommandList = s.m_CommandList) (hworker : t.worker = .pushing command)
    (hdeleted : t.deleted = s.deleted) (hreported : Reported (commands es s) (command, []))
    (hended : ∀ c, command = .OnDisconnect c → ¬ Open (es ++ [e]) c)
    (hconnected : ∀ c, c ∈ t.accepted ↔ c ∈ s.accepted ∨ command = .OnConnect c)
    (hevents : ∀ c, some c ∈ t.events_ → c ∈ s.accepted)
    (hreceiving : ∀ c data, command = .OnData c data → Open (es ++ [e]) c) :
    Lifetime (es ++ [e]) t := by
  have hcommands : commands (es ++ [e]) t = commands es s ++ [(command, [])] := by
    rw [commands, hexec, LinuxServer.pending, hlist, hworker, commands, LinuxServer.pending, hw]
    simp only [WorkerPc.pushed, List.map_append, List.map_cons, List.map_nil, List.append_nil,
      List.append_assoc]
  refine ⟨?_, ?_, ?_, fun c hopen ↦ ?_, fun c ↦ ?_, fun c hc ↦ ?_, fun c data hp ↦ ?_,
    fun c hr ↦ ?_⟩
  · rw [hexec, hserver]
    exact h.owned
  · rw [hcommands]
    exact each_snoc.mpr ⟨h.reported, hreported⟩
  · rw [hexec, hdeleted]
    exact h.deleted
  · rw [hcommands, ended_snoc]
    rintro (hold | hnew)
    · exact h.ended c hopen.left hold
    · exact hended c hnew hopen
  · rw [hcommands, connected_snoc, hconnected, h.connected]
  · exact (hconnected c).mpr (.inl (hevents c hc))
  · rw [hworker, WorkerPc.pushing.injEq] at hp
    exact hreceiving c data hp
  · rw [hworker] at hr
    cases hr

-- What the next command does.
theorem next (h : Lifetime es s) {later : List EasyCommand} {d : Done}
    (hlist : s.m_CommandList = command :: later)
    (hd : s.server._OnCommand .LINUX command d) :
    Each Reported (executed es) ∧ Reported (executed es) (command, d.actions) ∧
      NetworkStep (live (executed es)) s.server (command, d.actions) d.server := by
  -- the commands before it are executed, those behind it wait
  have hsplit : commands es s = (executed es ++ [(command, [])]) ++
      (later ++ s.worker.pushed).map fun command ↦ (command, []) := by
    rw [commands, LinuxServer.pending, hlist, List.cons_append, List.map_cons, List.append_assoc]
    rfl
  have hrep := h.reported
  rw [hsplit] at hrep
  rcases each_snoc.mp hrep.left with ⟨hbefore, hnext⟩
  exact ⟨hbefore, hnext, h.owned.networkStep hbefore hnext ⟨d, hd, rfl, rfl⟩⟩

-- Executing a command changes only what it is known to have done.
theorem commands_exec {t : LinuxServer} {later : List EasyCommand} {actions : List Action}
    (hlist : s.m_CommandList = command :: later) (hlater : t.m_CommandList = later)
    (hworker : t.worker = s.worker) :
    (commands (es ++ [.exec (command, actions)]) t).map Prod.fst =
      (commands es s).map Prod.fst := by
  rw [commands, commands, executed_exec, LinuxServer.pending, LinuxServer.pending, hlist, hlater,
    hworker]
  simp only [List.map_append, List.map_cons, List.append_assoc, List.cons_append, List.nil_append]

theorem exec (h : Lifetime es s) {later : List EasyCommand} {d : Done}
    (hlist : s.m_CommandList = command :: later)
    (hd : s.server._OnCommand .LINUX command d) :
    Lifetime (es ++ [.exec (command, d.actions)])
      { s with
        server := d.server, m_CommandList := later
        deleted := s.deleted ++ deletedBy d.actions } := by
  have hmap : (commands (es ++ [.exec (command, d.actions)])
      { s with
        server := d.server, m_CommandList := later
        deleted := s.deleted ++ deletedBy d.actions }).map Prod.fst =
      (commands es s).map Prod.fst := commands_exec hlist rfl rfl
  rcases h.next hlist hd with ⟨hbefore, -, hst⟩
  refine ⟨?_, reported_congr hmap.symm h.reported, fun c hc ↦ ?_, fun c hc ↦ ?_, fun c ↦ ?_,
    h.events, fun c data hp ↦ (h.receiving c data hp).snoc (by simp),
    fun c hr ↦ (h.returning c hr).snoc (by simp)⟩
  · rw [executed_exec]
    exact h.owned.step hbefore hst
  · rw [executed_exec]
    rcases List.mem_append.mp hc with hold | hnew
    · exact (h.deleted c hold).left
    · -- only `OnDisconnect` closes a connection, its own
      rw [ended_snoc]
      apply Or.inr
      generalize d.actions = actions at hst hnew
      generalize d.server = server at hst
      cases hst with
      | connect => simp [deletedBy] at hnew
      | disconnect => simpa [deletedBy, eq_comm] using hnew
      | data => simp [deletedBy] at hnew
  · rw [ended_iff, hmap, ← ended_iff]
    exact h.ended c hc.left
  · rw [connected_iff, hmap, ← connected_iff]
    exact h.connected c

-- The connection of an event was reported and has not ended.
theorem mem_live (h : Lifetime es s) {later : List (Option ConnID)}
    (hevent : s.events_ = some c :: later) (hopen : Open es c) : c ∈ live (commands es s) := by
  apply ((Fantuan.mem_live h.reported c).1).mpr
  refine ⟨(h.connected c).mpr (h.events c ?_), h.ended c hopen⟩
  rw [hevent]
  exact List.mem_cons_self

section Worker

variable {later : List (Option ConnID)} {event : Option ConnID}

theorem events_later (h : Lifetime es s) (hevent : s.events_ = event :: later) (c : ConnID)
    (hc : some c ∈ later) : c ∈ s.accepted := by
  apply h.events
  rw [hevent]
  exact List.mem_cons_of_mem event hc

theorem accept (h : Lifetime es s) (hw : s.worker = .loop) (hevent : s.events_ = none :: later)
    (hnew : c ∉ s.accepted) :
    Lifetime (es ++ [.accept c])
      { s with
        events_ := later, accepted := s.accepted ++ [c], worker := s.handler (.OnConnect c) } := by
  refine h.make hw (executed_other rfl) rfl rfl (h.handler_eq _) rfl ?_ ?_ ?_ ?_ ?_
  · intro e' he' hce'
    exact hnew ((h.connected c).mp ⟨e', he', hce'⟩)
  · intro c' hc'
    cases hc'
  · intro c'
    simp [eq_comm]
  · exact h.events_later hevent
  · intro c' data hc'
    cases hc'

theorem data {r : RecvResult} {data : EasyCommandOnData} (h : Lifetime es s)
    (hw : s.worker = .loop) (hevent : s.events_ = some c :: later) (hc : Open es c)
    (hok : r.bReadOK = true) :
    Lifetime (es ++ [.recv c r])
      { s with events_ := later, worker := s.handler (.OnData c data) } := by
  refine h.make hw (executed_other rfl) rfl rfl (h.handler_eq _) rfl ?_ ?_ ?_ ?_ ?_
  · exact h.mem_live hevent hc
  · intro c' hc'
    cases hc'
  · intro c'
    simp
  · exact h.events_later hevent
  · intro c' data' hc'
    cases hc'
    apply hc.snoc
    intro r' hr'
    cases hr'
    exact hok

theorem hangup {r : RecvResult} (h : Lifetime es s) (hw : s.worker = .loop)
    (hevent : s.events_ = some c :: later) (hc : Open es c) (hok : r.bReadOK = false) :
    Lifetime (es ++ [.recv c r])
      { s with events_ := later, worker := s.handler (.OnDisconnect c) } := by
  refine h.make hw (executed_other rfl) rfl rfl (h.handler_eq _) rfl ?_ ?_ ?_ ?_ ?_
  · exact h.mem_live hevent hc
  · intro c' hc' hopen'
    cases hc'
    cases hok.symm.trans ((open_snoc.mp hopen').2 r rfl)
  · intro c'
    simp
  · exact h.events_later hevent
  · intro c' data' hc'
    cases hc'

-- The command goes from the worker to the list, and stays pending.
theorem push (h : Lifetime es s) (hw : s.worker = .pushing command) :
    Lifetime (es ++ [.push command])
      { s with
        m_CommandList := s.m_CommandList ++ [command]
        worker :=
          match command with
          | .OnData c _ => .returning c
          | _ => .loop } := by
  refine h.quiet (executed_other rfl) rfl ?_ rfl rfl h.events ?_ ?_
  · cases command <;> simp only [LinuxServer.pending, hw, WorkerPc.pushed, List.append_nil]
  · intro c data hp
    cases command <;> cases hp
  · intro c hr
    cases command with
    | OnData c' data =>
        cases hr
        exact (h.receiving c data hw).snoc (by simp)
    | _ => cases hr

end Worker

theorem step {t : LinuxServer} (h : Lifetime es s) (he : NotAfterHangup es e)
    (hst : LinuxServer.Step s e t) : Lifetime (es ++ [e]) t := by
  cases hst with
  | wait hw hnone honce hevents =>
      refine h.quiet (executed_other rfl) rfl rfl rfl rfl (fun c hc ↦ (hevents c hc).1) ?_ ?_
      · intro c data hp
        cases hw.symm.trans hp
      · intro c hr
        cases hw.symm.trans hr
  | accept hw hevent hnew => exact h.accept hw hevent hnew
  | @data c _ _ r _ hw hevent _ hok => exact h.data hw hevent (he c r rfl) hok
  | @hangup c _ _ r hw hevent _ hok => exact h.hangup hw hevent (he c r rfl) hok
  | push hw => exact h.push hw
  | returned hw =>
      refine h.quiet (executed_other rfl) rfl ?_ rfl rfl h.events ?_ ?_
      · simp only [LinuxServer.pending, hw, WorkerPc.pushed]
      · intro c' data hp
        cases hp
      · intro c' hr
        cases hr
  | lock =>
      refine h.quiet (executed_other rfl) rfl rfl rfl rfl h.events ?_ ?_
      · exact fun c data hp ↦ (h.receiving c data hp).snoc (by simp)
      · exact fun c hr ↦ (h.returning c hr).snoc (by simp)
  | exec hlock hlist hd => exact h.exec hlist hd
  | unlock =>
      refine h.quiet (executed_other rfl) rfl rfl rfl rfl h.events ?_ ?_
      · exact fun c data hp ↦ (h.receiving c data hp).snoc (by simp)
      · exact fun c hr ↦ (h.returning c hr).snoc (by simp)

theorem start (h : s.Started) : Lifetime [] s := by
  have hcommands : commands [] s = [] := by
    rw [commands, LinuxServer.pending, h.list, h.worker]
    rfl
  refine ⟨h.idle, ?_, fun c hc ↦ ?_, fun c _ hc ↦ ?_, fun c ↦ ?_, fun c hc ↦ ?_,
    fun c data hp ↦ ?_, fun c hr ↦ ?_⟩
  · rw [hcommands]
    exact each_nil
  · rw [h.deleted] at hc
    cases hc
  · rw [hcommands] at hc
    rcases hc with ⟨e, he, -⟩
    cases he
  · rw [hcommands, h.accepted]
    simp [Connected]
  · rw [h.events] at hc
    cases hc
  · cases h.worker.symm.trans hp
  · cases h.worker.symm.trans hr

-- What a step is about to touch has not been deleted.
theorem touched_alive (h : Lifetime es s) (he : NotAfterHangup es e) {t : LinuxServer}
    (hst : LinuxServer.Step s e t) (hc : e.touched = some c) : c ∉ s.deleted := by
  cases hst with
  | data =>
      cases hc
      exact h.not_deleted (he c _ rfl)
  | hangup =>
      cases hc
      exact h.not_deleted (he c _ rfl)
  | returned hw =>
      cases hc
      exact h.not_deleted (h.returning c hw)
  | @exec command later d hlock hlist hd =>
      -- had the connection been deleted, its end would have been executed before
      rcases h.next hlist hd with ⟨hbefore, hnext, -⟩
      have hlive := Fantuan.mem_live hbefore c
      intro hdel
      have hended := h.deleted c hdel
      cases command with
      | OnConnect c' =>
          cases hc
          rcases hlive.2 hended with ⟨e', he', hce'⟩
          exact hnext e' he' hce'
      | OnDisconnect c' =>
          cases hc
          exact (hlive.1.mp hnext).2 hended
      | OnData c' data =>
          cases hc
          exact (hlive.1.mp hnext).2 hended
      | _ => cases hc
  | _ => cases hc

end Lifetime

theorem lifetime_of_path {s t : LinuxServer} {es : List Event} (hs : s.Started)
    (h : Path LinuxServer.Step s es t) (hes : Each NotAfterHangup es) : Lifetime es t :=
  h.invariant hes (Lifetime.start hs) fun _ _ _ _ _ hI he hst ↦ hI.step he hst

/-! ## 3. Deleted connections -/

/-- As long as no event of a connection is handled after its end, nothing happens to a connection
that has been deleted. -/
theorem alive_of_notAfterHangup (s t u : LinuxServer) (es : List Event) (e : Event)
    (hs : s.Started) (h : Path LinuxServer.Step s es t) (hst : LinuxServer.Step t e u)
    (hes : Each NotAfterHangup (es ++ [e])) : ∀ c, e.touched = some c → c ∉ t.deleted := by
  rw [each_snoc] at hes
  exact fun c hc ↦ (lifetime_of_path hs h hes.1).touched_alive hes.2 hst hc

namespace LinuxServer

variable {s : LinuxServer} {c : ConnID}

/-- Before the first connection to `server`. -/
def start (server : EasyBaseServer) : LinuxServer := ⟨server, [], false, [], [], [], .loop⟩

theorem started_start {server : EasyBaseServer} (h : server.Idle) : (start server).Started :=
  ⟨h, rfl, rfl, rfl, rfl, rfl, rfl⟩

/-- The end of the stream. -/
def ended : RecvResult := ⟨[], 0, false⟩

theorem Step.accepts {later : List (Option ConnID)} (hrun : s.server.m_bReadyForShutdown = false)
    (hw : s.worker = .loop) (hevent : s.events_ = none :: later) (hnew : c ∉ s.accepted) :
    Step s (.accept c)
      { s with
        events_ := later, accepted := s.accepted ++ [c], worker := .pushing (.OnConnect c) } := by
  rw [← handler_of_running hrun]
  exact .accept hw hevent hnew

theorem Step.hangs {later : List (Option ConnID)} (hrun : s.server.m_bReadyForShutdown = false)
    (hw : s.worker = .loop) (hevent : s.events_ = some c :: later) :
    Step s (.recv c ended)
      { s with events_ := later, worker := .pushing (.OnDisconnect c) } := by
  rw [← handler_of_running hrun]
  have hr : EasyConnection.RecvData [.closed] = some ended := rfl
  exact .hangup hw hevent hr rfl

theorem Step.execs {later : List EasyCommand} {command : EasyCommand} {actions : List Action}
    {server : EasyBaseServer} (hlock : s.draining = true)
    (hlist : s.m_CommandList = command :: later)
    (h : Executes .LINUX s.server (command, actions) server) :
    Step s (.exec (command, actions))
      { s with
        server, m_CommandList := later, deleted := s.deleted ++ deletedBy actions } := by
  rcases h with ⟨d, hd, rfl, rfl⟩
  exact .exec hlock hlist hd

-- The run in which a connection is accepted and an event is reported for it.
theorem accepted_run {server : EasyBaseServer} (hrun : server.m_bReadyForShutdown = false)
    (c : ConnID) :
    Path Step (start server) [.wait [none], .accept c, .push (.OnConnect c), .wait [some c]]
      ⟨server, [.OnConnect c], false, [c], [], [some c], .loop⟩ := by
  have h₁ : Step (start server) (.wait [none]) ⟨server, [], false, [], [], [none], .loop⟩ :=
    .wait rfl rfl (List.nodup_singleton none) (by simp)
  have h₂ : Step ⟨server, [], false, [], [], [none], .loop⟩ (.accept c)
      ⟨server, [], false, [c], [], [], .pushing (.OnConnect c)⟩ :=
    .accepts hrun rfl rfl List.not_mem_nil
  have h₃ : Step ⟨server, [], false, [c], [], [], .pushing (.OnConnect c)⟩ (.push (.OnConnect c))
      ⟨server, [.OnConnect c], false, [c], [], [], .loop⟩ := .push rfl rfl
  have h₄ : Step ⟨server, [.OnConnect c], false, [c], [], [], .loop⟩ (.wait [some c])
      ⟨server, [.OnConnect c], false, [c], [], [some c], .loop⟩ :=
    .wait rfl rfl (List.nodup_singleton _) (by simp)
  exact (((Path.nil.snoc h₁).snoc h₂).snoc h₃).snoc h₄

-- The event is the end of the stream, another one is reported before the commands are executed.
theorem ended_run {server : EasyBaseServer} (hrun : server.m_bReadyForShutdown = false)
    {before : List Event} {s : LinuxServer} {list : List EasyCommand} {c : ConnID}
    (h : Path Step s before ⟨server, list, false, [c], [], [some c], .loop⟩) :
    Path Step s (before ++ [.recv c ended] ++ [.push (.OnDisconnect c)] ++ [.wait [some c]])
      ⟨server, list ++ [.OnDisconnect c], false, [c], [], [some c], .loop⟩ := by
  have h₁ : Step ⟨server, list, false, [c], [], [some c], .loop⟩ (.recv c ended)
      ⟨server, list, false, [c], [], [], .pushing (.OnDisconnect c)⟩ := .hangs hrun rfl rfl
  have h₂ : Step ⟨server, list, false, [c], [], [], .pushing (.OnDisconnect c)⟩
      (.push (.OnDisconnect c))
      ⟨server, list ++ [.OnDisconnect c], false, [c], [], [], .loop⟩ := .push rfl rfl
  have h₃ : Step ⟨server, list ++ [.OnDisconnect c], false, [c], [], [], .loop⟩ (.wait [some c])
      ⟨server, list ++ [.OnDisconnect c], false, [c], [], [some c], .loop⟩ :=
    .wait rfl rfl (List.nodup_singleton _) (by simp)
  exact ((h.snoc h₁).snoc h₂).snoc h₃

end LinuxServer

/-- A connection has ended and been deleted when the stream of another one ends. -/
theorem alive_after_deletion :
    ∃ es t u, Path LinuxServer.Step (.start oneSession) es t ∧
      LinuxServer.Step t (.recv 1 LinuxServer.ended) u ∧ 0 ∈ t.deleted ∧ 1 ∉ t.deleted := by
  have hidle : oneSession.Idle := oneSession_prepared.idle
  rcases oneSession.exists_allocates zeroSession with ⟨p, pool, created, o, ha⟩
  rcases connect_run .LINUX zeroSession hidle.running ha 0 with
    ⟨t₁, ht₁, hrunning₁, -, hclient, hobject⟩
  have hback : (t₁.object p).m_pConnection = some 0 := by rw [hobject]
  rcases disconnect_run .LINUX hrunning₁ hclient hback with ⟨t₂, ht₂, hrunning₂, -⟩
  have hfirst : Path LinuxServer.Step (.start oneSession)
      ([] ++ [.wait [none]] ++ [.accept 0] ++ [.push (.OnConnect 0)] ++ [.wait [some 0]]) _ :=
    LinuxServer.accepted_run hidle.running 0
  have hended := (hfirst.snoc (.hangs hidle.running rfl rfl)).snoc (.push rfl rfl)
  have hconnect := (hended.snoc (.lock rfl)).snoc (.execs rfl rfl ht₁)
  have hdeleted := (hconnect.snoc (.execs rfl rfl ht₂)).snoc (.unlock rfl rfl)
  -- another connection comes
  have hwait : LinuxServer.Step ⟨t₂, [], false, [0], [0], [], .loop⟩ (.wait [none])
      ⟨t₂, [], false, [0], [0], [none], .loop⟩ :=
    .wait rfl rfl (List.nodup_singleton none) (by simp)
  have haccept : LinuxServer.Step ⟨t₂, [], false, [0], [0], [none], .loop⟩ (.accept 1)
      ⟨t₂, [], false, [0, 1], [0], [], .pushing (.OnConnect 1)⟩ :=
    .accepts hrunning₂ rfl rfl (by simp)
  have hreported : LinuxServer.Step ⟨t₂, [.OnConnect 1], false, [0, 1], [0], [], .loop⟩
      (.wait [some 1]) ⟨t₂, [.OnConnect 1], false, [0, 1], [0], [some 1], .loop⟩ :=
    .wait rfl rfl (List.nodup_singleton _) (by simp)
  have hst := (((hdeleted.snoc hwait).snoc haccept).snoc (.push rfl rfl)).snoc hreported
  have hend : LinuxServer.Step ⟨t₂, [.OnConnect 1], false, [0, 1], [0], [some 1], .loop⟩
      (.recv 1 LinuxServer.ended) _ := .hangs hrunning₂ rfl rfl
  refine ⟨_, _, _, hst, hend, List.mem_singleton_self 0,
    alive_of_notAfterHangup (.start oneSession) _ _ _ _ (LinuxServer.started_start hidle) hst hend
      ?_ 1 rfl⟩
  -- nothing is received twice on a connection
  simp only [each_snoc, each_nil, true_and]
  simp [NotAfterHangup]

/-- Two events of connection 0 are handled after the end of its stream, before the command thread
executes the first `OnDisconnect`: it closes and deletes the connection, then the second one is
executed for it. -/
theorem deleted_touched :
    ∃ s es t e u, s.Started ∧ Path LinuxServer.Step s es t ∧ LinuxServer.Step t e u ∧
      e.touched = some 0 ∧ 0 ∈ t.deleted := by
  have hidle : oneSession.Idle := oneSession_prepared.idle
  have hrun := LinuxServer.ended_run hidle.running
    (LinuxServer.ended_run hidle.running (LinuxServer.accepted_run hidle.running 0))
  rcases oneSession.exists_allocates zeroSession with ⟨p, pool, created, o, ha⟩
  rcases connect_run .LINUX zeroSession hidle.running ha 0 with
    ⟨t₁, ht₁, hrunning₁, -, hclient, hobject⟩
  have hback : (t₁.object p).m_pConnection = some 0 := by rw [hobject]
  rcases disconnect_run .LINUX hrunning₁ hclient hback with ⟨t₂, ht₂, -⟩
  have hlock := hrun.snoc (.lock rfl)
  have hconnect := hlock.snoc (.execs rfl rfl ht₁)
  have hdisconnect := hconnect.snoc (.execs rfl rfl ht₂)
  exact ⟨_, _, _, _, _, LinuxServer.started_start hidle, hdisconnect,
    .exec rfl rfl rfl, rfl, List.mem_singleton_self 0⟩

end Fantuan
