import Fantuan.Midware.Attached
import Fantuan.Lib.Runs

/-!
# Shutting down

The callbacks of the network layer look at `m_bReadyForShutdown` and then push a command, and the
command thread executes what is in `m_CommandList`.  `COMMAND_SHUTDOWN` sets the flag, and then
disconnects the sessions: by the time the network layer reports that a connection has ended, its
callback does not push `COMMAND_ONDISCONNECT` any more.  `COMMAND_ONCONNECT` is skipped when the
flag is set, `COMMAND_ONDISCONNECT` is not: on Linux it follows a `client_` that nothing has set.
-/

open Lib

open scoped List

namespace Fantuan

/-! ## 1. The callbacks and the command thread -/

namespace Shutdown

structure State where
  server : EasyBaseServer
  m_CommandList : List EasyCommand
  /-- The commands of callbacks between the test of the flag and `PushCommand`. -/
  entering : List EasyCommand
  /-- The connections that were accepted and whose end has not been reported. -/
  connected : List ConnID
  /-- The connections that have ever been reported; an object that is used again counts as new. -/
  seen : List ConnID

/-- The server after `Initialize`. -/
def init (iMaxSession : ℕ) (memory : SessionPtr → EasySession) (array : ℕ → SessionPtr) : State :=
  ⟨.initialized iMaxSession memory array, [], [], [], []⟩

/-- The commands that will be executed without anything else happening. -/
def State.pending (s : State) : List EasyCommand := s.entering ++ s.m_CommandList

inductive Event
  | OnConnection (connId : ConnID)
  | OnDisconnect (connId : ConnID)
  | OnData (connId : ConnID) (data : EasyCommandOnData)
  /-- A callback pushes its command. -/
  | Pushed (command : EasyCommand)
  /-- Another thread pushes a command. -/
  | PushCommand (command : EasyCommand)
  | Execute (e : Executed)

/-- The test of the flag in a callback, and the new command. -/
def State.callback (s : State) (command : EasyCommand) : State :=
  if s.server.m_bReadyForShutdown then s else { s with entering := s.entering ++ [command] }

/-- `OnConnection` returns false when the server is shutting down. -/
def State.report (s : State) (connId : ConnID) : State :=
  if s.server.m_bReadyForShutdown then { s with seen := connId :: s.seen }
  else { s with
    entering := s.entering ++ [.OnConnect connId], connected := connId :: s.connected
    seen := connId :: s.seen }

/-- The callbacks for a connection come one after the other. -/
def State.Returned (s : State) (connId : ConnID) : Prop :=
  ∀ command ∈ s.entering, command.connId ≠ some connId

/-- `_OnCommand` asks the connection for its session. -/
def GetsClient (shutdown : Prop) (connId : ConnID) : EasyCommand → Prop
  | .OnDisconnect m_ConnId => m_ConnId = connId
  | .OnData m_ConnId _ => m_ConnId = connId ∧ ¬ shutdown
  | _ => False

/-- The command follows the `client_` of a connection for which `SetClient` has not been called.  On
Windows that is the NULL of `Accept`; on Linux it is whatever the memory of the connection held. -/
def Stale (platform : Platform) (s : State) (command : EasyCommand) : Prop :=
  platform = .LINUX ∧ ∃ c, GetsClient (s.server.m_bReadyForShutdown = true) c command ∧
    s.server.client_ c = none

inductive Step (platform : Platform) (s : State) : Event → State → Prop
  | OnConnection {c : ConnID} (hc : c ∉ s.seen) : Step platform s (.OnConnection c) (s.report c)
  | OnDisconnect {c : ConnID} (hc : c ∈ s.connected) (hret : s.Returned c) :
      Step platform s (.OnDisconnect c)
        { s.callback (.OnDisconnect c) with connected := s.connected.erase c }
  | OnData {c : ConnID} {data : EasyCommandOnData} (hc : c ∈ s.connected) (hret : s.Returned c) :
      Step platform s (.OnData c data) (s.callback (.OnData c data))
  | Pushed {command : EasyCommand} (h : command ∈ s.entering) :
      Step platform s (.Pushed command)
        { s with
          entering := s.entering.erase command
          m_CommandList := s.m_CommandList ++ [command] }
  | PushCommand {command : EasyCommand} (h : command.connId = none) :
      Step platform s (.PushCommand command)
        { s with m_CommandList := s.m_CommandList ++ [command] }
  | Execute {e : Executed} {rest : List EasyCommand} {server : EasyBaseServer}
      (h : s.m_CommandList = e.1 :: rest) (hclient : ¬ Stale platform s e.1)
      (hex : Executes platform s.server e server) :
      Step platform s (.Execute e) { s with server, m_CommandList := rest }

/-- A step of the server; `none` once it has followed a stale pointer, from where on it may do
anything. -/
inductive Run (platform : Platform) : Option State → Event → Option State → Prop
  | step {s t : State} {event : Event} (h : Step platform s event t) :
      Run platform (some s) event (some t)
  | stale {s : State} {e : Executed} {rest : List EasyCommand} (h : s.m_CommandList = e.1 :: rest)
      (hstale : Stale platform s e.1) : Run platform (some s) (.Execute e) none
  | lost {event : Event} : Run platform none event none

/-- Every connection has been reported ended, and no command is left. -/
def Quiet (s : State) : Prop := s.connected = [] ∧ s.entering = [] ∧ s.m_CommandList = []

/-- No session is in the map or has a connection, and all are in the pool. -/
def Released (s : State) : Prop :=
  s.server.m_SessionMap = ∅ ∧ ∀ p < s.server.created,
    (s.server.object p).m_pConnection = none ∧ p ∈ s.server.m_SessionPool.m_ObjectList

def Shut (es : List Event) : Prop := ∃ actions, Event.Execute (.Shutdown, actions) ∈ es

/-- `COMMAND_ONCONNECT` has been executed for the connection. -/
def Opened (es : List Event) (connId : ConnID) : Prop :=
  ∃ actions, Event.Execute (.OnConnect connId, actions) ∈ es

/-- When the first `COMMAND_SHUTDOWN` is executed, the ends of all connections for which
`COMMAND_ONCONNECT` has been executed have been reported. -/
def NoneConnected (before : List Event) (event : Event) : Prop :=
  (∃ actions, event = .Execute (.Shutdown, actions)) → ¬ Shut before →
    ∀ c, Opened before c → .OnDisconnect c ∈ before

/-- `COMMAND_ONCONNECT` has been executed for the connection before any `COMMAND_SHUTDOWN`, so that
it was not skipped. -/
def Bound (es : List Event) (connId : ConnID) : Prop :=
  ∃ before actions, before ++ [Event.Execute (.OnConnect connId, actions)] <+: es ∧ ¬ Shut before

/-- A command that asks a connection for its session is executed only after a `COMMAND_ONCONNECT` of
the connection that was not skipped. -/
def Known (before : List Event) (event : Event) : Prop :=
  ∀ command actions c, event = .Execute (command, actions) →
    GetsClient (Shut before) c command → Bound before c

/-! ## 2. What every step keeps -/

/-- No `COMMAND_ONCONNECT` comes after the `COMMAND_ONDISCONNECT` of the same connection. -/
def InOrder (a b : EasyCommand) : Prop := ∀ c, a = .OnDisconnect c → b ≠ .OnConnect c

/-- After the events `es`, with sessions for the connections `conns`. -/
structure Inv (es : List Event) (conns : List ConnID) (s : State) : Prop where
  attached : Attached conns s.server
  flag : s.server.m_bReadyForShutdown = true ↔ Shut es
  fresh : ∀ c, c ∉ s.seen → c ∉ s.connected ∧ s.server.client_ c = none ∧
    .OnDisconnect c ∉ es ∧ ∀ command ∈ s.pending, command.connId ≠ some c
  once : ∀ c, s.pending.count (.OnDisconnect c) + s.connected.count c ≤ 1
  opens : ∀ c, s.pending.count (.OnConnect c) + conns.count c ≤ 1
  client : ∀ c, s.server.client_ c ≠ none →
    c ∈ conns ∨ (.OnDisconnect c ∉ s.pending ∧ c ∉ s.connected)
  entering : ∀ c, .OnDisconnect c ∈ s.pending → .OnConnect c ∉ s.entering
  order : s.m_CommandList.Pairwise InOrder
  reported : ∀ c, .OnDisconnect c ∈ s.pending → .OnDisconnect c ∈ es
  alive : ∀ c ∈ s.connected, .OnDisconnect c ∉ es
  opened : ∀ c ∈ conns, Opened es c
  ends : ¬ Shut es → ∀ c, c ∈ conns ∨ .OnConnect c ∈ s.pending →
    c ∈ s.connected ∨ .OnDisconnect c ∈ s.pending
  kept : ¬ Shut es → ∀ c, Opened es c → c ∈ conns ∨ .OnDisconnect c ∈ es

theorem mem_pending {s : State} {command : EasyCommand} :
    command ∈ s.pending ↔ command ∈ s.entering ∨ command ∈ s.m_CommandList := List.mem_append

theorem shut_snoc {es : List Event} {event : Event} :
    Shut (es ++ [event]) ↔ Shut es ∨ ∃ actions, event = .Execute (.Shutdown, actions) := by
  simp [Shut, exists_or, eq_comm]

theorem opened_snoc {es : List Event} {event : Event} {c : ConnID} :
    Opened (es ++ [event]) c ↔
      Opened es c ∨ ∃ actions, event = .Execute (.OnConnect c, actions) := by
  simp [Opened, exists_or, eq_comm]

theorem bound_snoc {es : List Event} {event : Event} {c : ConnID} :
    Bound (es ++ [event]) c ↔
      Bound es c ∨ (∃ actions, event = .Execute (.OnConnect c, actions)) ∧ ¬ Shut es := by
  constructor
  · rintro ⟨before, actions, hpre, hs⟩
    rcases List.prefix_concat_iff.mp hpre with he | hpre'
    · rcases List.append_inj' he rfl with ⟨rfl, hsingle⟩
      cases hsingle
      exact .inr ⟨⟨actions, rfl⟩, hs⟩
    · exact .inl ⟨before, actions, hpre', hs⟩
  · rintro (⟨before, actions, hpre, hs⟩ | ⟨⟨actions, rfl⟩, hs⟩)
    · exact ⟨before, actions, hpre.trans (List.prefix_append es [event]), hs⟩
    · exact ⟨es, actions, List.prefix_refl _, hs⟩

theorem mem_snoc {es : List Event} {event event' : Event} :
    event' ∈ es ++ [event] ↔ event' ∈ es ∨ event' = event := by
  simp

namespace Inv

variable {es : List Event} {conns : List ConnID} {s : State} {c : ConnID}

-- An event that is neither executed nor the end of a connection changes no history.
theorem event (h : Inv es conns s) {event : Event} (hex : ∀ e, event ≠ .Execute e)
    (hdis : ∀ c, event ≠ .OnDisconnect c) : Inv (es ++ [event]) conns s := by
  have hshut : Shut (es ++ [event]) ↔ Shut es := by
    rw [shut_snoc]
    exact or_iff_left fun ⟨_, he⟩ ↦ hex _ he
  have hopened : ∀ c, Opened (es ++ [event]) c ↔ Opened es c := by
    intro c
    rw [opened_snoc]
    exact or_iff_left fun ⟨_, he⟩ ↦ hex _ he
  have hmem : ∀ c, Event.OnDisconnect c ∈ es ++ [event] ↔ Event.OnDisconnect c ∈ es := by
    intro c
    rw [mem_snoc]
    exact or_iff_left fun he ↦ hdis c he.symm
  constructor
  · exact h.attached
  · rw [hshut]
    exact h.flag
  · intro c
    rw [hmem]
    exact h.fresh c
  · exact h.once
  · exact h.opens
  · exact h.client
  · exact h.entering
  · exact h.order
  · intro c
    rw [hmem]
    exact h.reported c
  · intro c
    rw [hmem]
    exact h.alive c
  · intro c
    rw [hopened]
    exact h.opened c
  · rw [hshut]
    exact h.ends
  · intro hs c
    rw [hmem, hopened]
    exact h.kept (fun hs' ↦ hs (hshut.mpr hs')) c

theorem report (h : Inv es conns s) (hc : c ∉ s.seen) : Inv es conns (s.report c) := by
  have hfresh := h.fresh c hc
  have hnotin : ∀ command ∈ s.pending, command.connId ≠ some c := hfresh.2.2.2
  have hconn : EasyCommand.OnConnect c ∉ s.pending := fun hmem ↦ hnotin _ hmem rfl
  have hdisc : EasyCommand.OnDisconnect c ∉ s.pending := fun hmem ↦ hnotin _ hmem rfl
  have hnone : c ∉ conns := by
    intro hmem
    rcases h.attached.bound c hmem with ⟨p, hp, -⟩
    rw [hfresh.2.1] at hp
    cases hp
  unfold State.report
  split
  · rename_i hs
    exact { h with fresh := fun c' hc' ↦ h.fresh c' fun hmem ↦ hc' (List.mem_cons_of_mem c hmem) }
  · rename_i hs
    have hpending : ∀ command, command ∈ (s.entering ++ [.OnConnect c]) ++ s.m_CommandList ↔
        command ∈ s.pending ∨ command = .OnConnect c := by
      intro command
      simp only [State.pending, List.mem_append, List.mem_singleton]
      tauto
    constructor
    · exact h.attached
    · exact h.flag
    · intro c' hc'
      rw [List.mem_cons, not_or] at hc'
      have hold := h.fresh c' hc'.2
      refine ⟨?_, hold.2.1, hold.2.2.1, ?_⟩
      · rw [List.mem_cons, not_or]
        exact ⟨hc'.1, hold.1⟩
      · intro command hmem
        rcases (hpending command).mp hmem with hmem | rfl
        · exact hold.2.2.2 command hmem
        · intro he
          exact hc'.1 (Option.some.inj he).symm
    · intro c'
      have hold := h.once c'
      grind [State.pending]
    · intro c'
      have hold := h.opens c'
      grind [State.pending]
    · intro c' hclient
      have hcc : c' ≠ c := by
        rintro rfl
        exact hclient hfresh.2.1
      rcases h.client c' hclient with hmem | hold
      · exact .inl hmem
      · grind [State.pending]
    · grind [State.pending, h.entering]
    · exact h.order
    · grind [State.pending, h.reported]
    · grind [h.alive]
    · exact h.opened
    · grind [State.pending, h.ends]
    · exact h.kept

-- A connection of a callback has been reported before.
theorem mem_seen (h : Inv es conns s) (hc : c ∈ s.connected) : c ∈ s.seen := by
  by_contra hnot
  exact (h.fresh c hnot).1 hc

theorem data (h : Inv es conns s) {data : EasyCommandOnData} (hc : c ∈ s.connected) :
    Inv es conns (s.callback (.OnData c data)) := by
  have hseen := h.mem_seen hc
  unfold State.callback
  split
  · exact h
  · constructor
    · exact h.attached
    · exact h.flag
    · intro c' hc'
      have hold := h.fresh c' hc'
      refine ⟨hold.1, hold.2.1, hold.2.2.1, ?_⟩
      intro command hmem
      by_cases he : command = .OnData c data
      · rw [he]
        intro heq
        cases heq
        exact hc' hseen
      · grind [State.pending]
    · intro c'
      have hold := h.once c'
      grind [State.pending]
    · intro c'
      have hold := h.opens c'
      grind [State.pending]
    · grind [State.pending, h.client]
    · grind [State.pending, h.entering]
    · exact h.order
    · grind [State.pending, h.reported]
    · exact h.alive
    · exact h.opened
    · grind [State.pending, h.ends]
    · exact h.kept

theorem disconnect (h : Inv es conns s) (hc : c ∈ s.connected) (hret : s.Returned c) :
    Inv (es ++ [.OnDisconnect c]) conns
      { s.callback (.OnDisconnect c) with connected := s.connected.erase c } := by
  have hseen := h.mem_seen hc
  have hone := h.once c
  have hcount : 0 < s.connected.count c := List.count_pos_iff.mpr hc
  have hnot : EasyCommand.OnDisconnect c ∉ s.pending := List.count_eq_zero.mp (by omega)
  have hgone : c ∉ s.connected.erase c := by
    apply List.count_eq_zero.mp
    rw [List.count_erase_self]
    omega
  have hshut : Shut (es ++ [Event.OnDisconnect c]) ↔ Shut es := by
    rw [shut_snoc]
    exact or_iff_left (by simp)
  have hopened : ∀ c', Opened (es ++ [Event.OnDisconnect c]) c' ↔ Opened es c' := by
    intro c'
    rw [opened_snoc]
    exact or_iff_left (by simp)
  have hentering : EasyCommand.OnConnect c ∉ s.entering := fun hmem ↦ hret _ hmem rfl
  unfold State.callback
  split
  · rename_i hs
    constructor
    · exact h.attached
    · rw [hshut]
      exact h.flag
    · grind [State.pending, h.fresh]
    · intro c'
      have hold := h.once c'
      grind [State.pending]
    · exact h.opens
    · grind [State.pending, h.client]
    · exact h.entering
    · exact h.order
    · grind [State.pending, h.reported]
    · grind [h.alive]
    · grind [h.opened]
    · grind [h.flag]
    · grind [h.flag]
  · rename_i hs
    constructor
    · exact h.attached
    · rw [hshut]
      exact h.flag
    · intro c' hc'
      have hcc : c' ≠ c := fun he ↦ hc' (he ▸ hseen)
      have hold := h.fresh c' hc'
      refine ⟨?_, hold.2.1, ?_, ?_⟩
      · grind
      · grind
      · intro command hmem
        by_cases he : command = .OnDisconnect c
        · rw [he]
          intro heq
          cases heq
          exact hcc rfl
        · grind [State.pending]
    · intro c'
      have hold := h.once c'
      grind [State.pending]
    · intro c'
      have hold := h.opens c'
      grind [State.pending]
    · grind [State.pending, h.client]
    · grind [State.pending, h.entering]
    · exact h.order
    · grind [State.pending, h.reported]
    · grind [h.alive]
    · grind [h.opened]
    · grind [State.pending, h.ends]
    · grind [h.kept]

-- A command comes last, if it is not the beginning of a connection whose end is in the list.
theorem order_snoc (h : Inv es conns s) {command : EasyCommand}
    (hnew : ∀ c, command = .OnConnect c → .OnDisconnect c ∉ s.m_CommandList) :
    (s.m_CommandList ++ [command]).Pairwise InOrder := by
  rw [List.pairwise_append]
  refine ⟨h.order, List.pairwise_singleton _ _, ?_⟩
  intro a ha b hb c hac hbc
  rw [List.mem_singleton] at hb
  exact hnew c (hb ▸ hbc) (hac ▸ ha)

theorem pushed (h : Inv es conns s) {command : EasyCommand} (hmem : command ∈ s.entering) :
    Inv es conns { s with
      entering := s.entering.erase command
      m_CommandList := s.m_CommandList ++ [command] } := by
  -- the commands are the same, in another order
  have hperm : (s.entering.erase command ++ (s.m_CommandList ++ [command])).Perm s.pending := by
    have hout := List.perm_cons_erase hmem
    have hin : (s.m_CommandList ++ [command]).Perm (command :: s.m_CommandList) :=
      List.perm_append_singleton command s.m_CommandList
    calc s.entering.erase command ++ (s.m_CommandList ++ [command])
      _ ~ s.entering.erase command ++ command :: s.m_CommandList := hin.append_left _
      _ ~ command :: (s.entering.erase command ++ s.m_CommandList) := List.perm_middle
      _ ~ s.entering ++ s.m_CommandList := (hout.symm.append_right s.m_CommandList)
  have hsame : ∀ command', command' ∈ s.entering.erase command ++ (s.m_CommandList ++ [command]) ↔
      command' ∈ s.pending := fun command' ↦ hperm.mem_iff
  constructor
  · exact h.attached
  · exact h.flag
  · intro c hc
    have hold := h.fresh c hc
    exact ⟨hold.1, hold.2.1, hold.2.2.1, fun command' hc' ↦ hold.2.2.2 command' ((hsame _).mp hc')⟩
  · intro c
    show (s.entering.erase command ++ (s.m_CommandList ++ [command])).count _ + _ ≤ 1
    rw [hperm.count_eq]
    exact h.once c
  · intro c
    show (s.entering.erase command ++ (s.m_CommandList ++ [command])).count _ + _ ≤ 1
    rw [hperm.count_eq]
    exact h.opens c
  · intro c hc
    exact (h.client c hc).imp_right fun hnot ↦ ⟨fun hd ↦ hnot.1 ((hsame _).mp hd), hnot.2⟩
  · intro c hd hconn
    exact h.entering c ((hsame _).mp hd) (List.mem_of_mem_erase hconn)
  · apply h.order_snoc
    intro c hconn hdisc
    rw [hconn] at hmem
    exact h.entering c (mem_pending.mpr (.inr hdisc)) hmem
  · exact fun c hd ↦ h.reported c ((hsame _).mp hd)
  · exact h.alive
  · exact h.opened
  · intro hs c hc
    have hold := h.ends hs c (hc.imp_right (hsame _).mp)
    exact hold.imp_right (hsame _).mpr
  · exact h.kept

theorem pushCommand (h : Inv es conns s) {command : EasyCommand}
    (hcommand : command.connId = none) :
    Inv es conns { s with m_CommandList := s.m_CommandList ++ [command] } := by
  have hconn : ∀ c, command ≠ .OnConnect c := by
    rintro c rfl
    cases hcommand
  have hdisc : ∀ c, command ≠ .OnDisconnect c := by
    rintro c rfl
    cases hcommand
  constructor
  · exact h.attached
  · exact h.flag
  · grind [State.pending, h.fresh]
  · intro c
    have hold := h.once c
    grind [State.pending]
  · intro c
    have hold := h.opens c
    grind [State.pending]
  · grind [State.pending, h.client]
  · grind [State.pending, h.entering]
  · exact h.order_snoc fun c he ↦ absurd he (hconn c)
  · grind [State.pending, h.reported]
  · exact h.alive
  · exact h.opened
  · grind [State.pending, h.ends]
  · exact h.kept

theorem execute (h : Inv es conns s) {e : Executed} {rest : List EasyCommand}
    {server : EasyBaseServer} (hlist : s.m_CommandList = e.1 :: rest)
    (hst : SessionEffect s.server e.1 server) :
    Inv (es ++ [.Execute e]) (attachedAfter s.server.m_bReadyForShutdown conns e.1)
      { s with server, m_CommandList := rest } := by
  have hcons : ∀ command, s.pending.count command =
      (s.entering ++ rest).count command + if e.1 = command then 1 else 0 := by
    intro command
    rw [State.pending, hlist, List.count_append, List.count_append, List.count_cons, Nat.add_assoc]
    simp only [beq_iff_eq]
  have hmem : ∀ command, command ∈ s.pending ↔ command ∈ s.entering ++ rest ∨ e.1 = command := by
    intro command
    rw [State.pending, hlist, List.mem_append, List.mem_append, List.mem_cons, eq_comm]
    tauto
  have hhead : e.1 ∈ s.pending := (hmem e.1).mpr (.inr rfl)
  have horder := h.order
  rw [hlist, List.pairwise_cons] at horder
  have hconns : ∀ c, c ∈ attachedAfter s.server.m_bReadyForShutdown conns e.1 ↔
      c ∈ conns ∧ e.1 ≠ .OnDisconnect c ∨
        e.1 = .OnConnect c ∧ s.server.m_bReadyForShutdown = false :=
    fun c ↦ mem_attachedAfter h.attached.nodup
  have hshut : Shut (es ++ [Event.Execute e]) ↔ Shut es ∨ e.1 = .Shutdown := by
    rw [shut_snoc]
    apply or_congr_right
    exact ⟨fun ⟨_, he⟩ ↦ by cases he; rfl, fun he ↦ ⟨e.2, by rw [← he]⟩⟩
  have hopened : ∀ c, Opened (es ++ [Event.Execute e]) c ↔ Opened es c ∨ e.1 = .OnConnect c := by
    intro c
    rw [opened_snoc]
    apply or_congr_right
    exact ⟨fun ⟨_, he⟩ ↦ by cases he; rfl, fun he ↦ ⟨e.2, by rw [← he]⟩⟩
  have hreported : ∀ c, Event.OnDisconnect c ∈ es ++ [Event.Execute e] ↔
      Event.OnDisconnect c ∈ es := by
    intro c
    rw [mem_snoc]
    exact or_iff_left (by simp)
  have hnew : ∀ c, e.1 = .OnConnect c → c ∉ conns := by
    intro c he
    have hold := h.opens c
    have hpos : 0 < s.pending.count (.OnConnect c) := List.count_pos_iff.mpr (he ▸ hhead)
    exact List.count_eq_zero.mp (by omega)
  -- a connection whose end is executed is not connected, and does not end again
  have hlast : ∀ c, e.1 = .OnDisconnect c →
      .OnDisconnect c ∉ s.entering ++ rest ∧ c ∉ s.connected := by
    intro c he
    have hold := h.once c
    rw [hcons, if_pos he] at hold
    exact ⟨List.count_eq_zero.mp (by omega), List.count_eq_zero.mp (by omega)⟩
  have hnodup : Attached (attachedAfter s.server.m_bReadyForShutdown conns e.1) server := by
    apply h.attached.command hst hnew
    intro c he
    by_cases hnone : s.server.client_ c = none
    · exact .inl hnone
    · exact .inr ((h.client c hnone).resolve_right fun hnot ↦ hnot.1 (he ▸ hhead))
  constructor
  · exact hnodup
  · rw [hst.shutdown_iff, hshut, h.flag]
  · intro c hc
    have hold := h.fresh c hc
    refine ⟨hold.1, ?_, ?_, ?_⟩
    · by_contra hclient
      rcases hst.client_iff.mp hclient with hclient | ⟨he, -⟩
      · exact hclient hold.2.1
      · exact hold.2.2.2 e.1 hhead (by rw [he]; rfl)
    · rw [hreported]
      exact hold.2.2.1
    · exact fun command hcommand ↦ hold.2.2.2 command ((hmem command).mpr (.inl hcommand))
  · intro c
    have hold := h.once c
    rw [hcons] at hold
    show (s.entering ++ rest).count _ + s.connected.count c ≤ 1
    omega
  · intro c
    have hold := h.opens c
    have hone := List.nodup_iff_count_le_one.mp hnodup.nodup c
    rw [hcons] at hold
    show (s.entering ++ rest).count _ + _ ≤ 1
    by_cases hc : c ∈ attachedAfter s.server.m_bReadyForShutdown conns e.1
    · rcases (hconns c).mp hc with ⟨hin, -⟩ | ⟨he, -⟩
      · have hpos : 0 < conns.count c := List.count_pos_iff.mpr hin
        omega
      · rw [if_pos he] at hold
        omega
    · rw [List.count_eq_zero.mpr hc]
      omega
  · intro c hclient
    rw [hconns]
    rcases hst.client_iff.mp hclient with hold | hnew'
    · by_cases he : e.1 = .OnDisconnect c
      · exact .inr (hlast c he)
      · rcases h.client c hold with hin | hout
        · exact .inl (.inl ⟨hin, he⟩)
        · exact .inr ⟨fun hc ↦ hout.1 ((hmem _).mpr (.inl hc)), hout.2⟩
    · exact .inl (.inr hnew')
  · exact fun c hc ↦ h.entering c ((hmem _).mpr (.inl hc))
  · exact horder.2
  · intro c hc
    rw [hreported]
    exact h.reported c ((hmem _).mpr (.inl hc))
  · intro c hc
    rw [hreported]
    exact h.alive c hc
  · intro c hc
    rw [hopened]
    rcases (hconns c).mp hc with ⟨hin, -⟩ | ⟨he, -⟩
    · exact .inl (h.opened c hin)
    · exact .inr he
  · intro hs c hc
    rw [hshut, not_or] at hs
    by_cases he : e.1 = .OnDisconnect c
    · -- nothing of the connection is left
      rcases hc with hin | hpending
      · rcases (hconns c).mp hin with ⟨-, hne⟩ | ⟨he', -⟩
        · exact absurd he hne
        · rw [he] at he'
          cases he'
      · rcases List.mem_append.mp hpending with hentering | hrest
        · exact absurd hentering (h.entering c (he ▸ hhead))
        · exact absurd rfl (horder.1 _ hrest c he)
    · have hold : c ∈ s.connected ∨ .OnDisconnect c ∈ s.pending := by
        apply h.ends hs.1 c
        rcases hc with hin | hpending
        · rcases (hconns c).mp hin with ⟨hin, -⟩ | ⟨he', -⟩
          · exact .inl hin
          · exact .inr (he' ▸ hhead)
        · exact .inr ((hmem _).mpr (.inl hpending))
      exact hold.imp_right fun hc ↦ ((hmem _).mp hc).resolve_right he
  · intro hs c hc
    rw [hshut, not_or] at hs
    rw [hconns, hreported]
    have hflag : s.server.m_bReadyForShutdown = false :=
      Bool.eq_false_iff.mpr fun hflag ↦ hs.1 (h.flag.mp hflag)
    rcases (hopened c).mp hc with hold | he
    · by_cases he : e.1 = .OnDisconnect c
      · exact .inr (h.reported c (he ▸ hhead))
      · exact (h.kept hs.1 c hold).imp_left fun hin ↦ .inl ⟨hin, he⟩
    · exact .inl (.inr ⟨he, hflag⟩)

end Inv

/-- The connections with sessions after an event. -/
def connsAfter (shutdown : Bool) (conns : List ConnID) : Event → List ConnID
  | .Execute e => attachedAfter shutdown conns e.1
  | _ => conns

section Runs

variable {platform : Platform} {es : List Event} {conns : List ConnID} {s t : State} {event : Event}

theorem Inv.step (h : Inv es conns s) (hst : Step platform s event t) :
    Inv (es ++ [event]) (connsAfter s.server.m_bReadyForShutdown conns event) t := by
  cases hst with
  | OnConnection hc => exact (h.report hc).event (by simp) (by simp)
  | OnDisconnect hc hret => exact h.disconnect hc hret
  | OnData hc hret => exact (h.data hc).event (by simp) (by simp)
  | Pushed hmem => exact (h.pushed hmem).event (by simp) (by simp)
  | PushCommand hcommand => exact (h.pushCommand hcommand).event (by simp) (by simp)
  | Execute hlist _ hex => exact h.execute hlist hex.sessionEffect

theorem inv_init (iMaxSession : ℕ) (memory : SessionPtr → EasySession)
    (array : ℕ → SessionPtr) : Inv [] [] (init iMaxSession memory array) := by
  have hidle := EasyBaseServer.idle_initialized iMaxSession memory array
  have hclient := client_initialized iMaxSession memory array
  have hshut : ¬ Shut [] := by simp [Shut]
  constructor
  · exact attached_initialized iMaxSession memory array
  · rw [iff_false_right hshut]
    exact Bool.eq_false_iff.mp hidle.running
  · intro c _
    refine ⟨List.not_mem_nil, hclient c, List.not_mem_nil, ?_⟩
    intro command hmem
    cases hmem
  · exact fun c ↦ Nat.zero_le 1
  · exact fun c ↦ Nat.zero_le 1
  · exact fun c hc ↦ absurd (hclient c) hc
  · exact fun c hc ↦ absurd hc List.not_mem_nil
  · exact List.Pairwise.nil
  · exact fun c hc ↦ absurd hc List.not_mem_nil
  · exact fun c hc ↦ absurd hc List.not_mem_nil
  · exact fun c hc ↦ absurd hc List.not_mem_nil
  · intro _ c hc
    rcases hc with hc | hc
    · exact absurd hc List.not_mem_nil
    · exact absurd hc List.not_mem_nil
  · rintro - c ⟨actions, hmem⟩
    exact absurd hmem List.not_mem_nil

-- In a server that is shutting down, a step leaves the connections and their ends alone but for
-- the one whose end it executes.
theorem shut_step (h : Inv es conns s) (hst : Step platform s event t) (hs : Shut es) :
    ∃ gone : ConnID → Prop, (∀ c, gone c → .OnDisconnect c ∈ s.pending) ∧
      (∀ c, c ∈ connsAfter s.server.m_bReadyForShutdown conns event ↔ c ∈ conns ∧ ¬ gone c) ∧
      ∀ c, ¬ gone c → (.OnDisconnect c ∈ t.pending ↔ .OnDisconnect c ∈ s.pending) := by
  have hflag := h.flag.mpr hs
  cases hst with
  | OnConnection hc =>
      refine ⟨fun _ ↦ False, ?_, ?_, ?_⟩ <;> simp [connsAfter, State.report, hflag, State.pending]
  | OnDisconnect hc hret =>
      refine ⟨fun _ ↦ False, ?_, ?_, ?_⟩ <;> simp [connsAfter, State.callback, hflag, State.pending]
  | OnData hc hret =>
      refine ⟨fun _ ↦ False, ?_, ?_, ?_⟩ <;> simp [connsAfter, State.callback, hflag, State.pending]
  | Pushed hmem =>
      refine ⟨fun _ ↦ False, ?_, ?_, ?_⟩
      · simp
      · simp [connsAfter]
      · grind [State.pending]
  | PushCommand hcommand =>
      refine ⟨fun _ ↦ False, ?_, ?_, ?_⟩
      · simp
      · simp [connsAfter]
      · grind [State.pending, EasyCommand.connId]
  | @Execute e rest server hlist hclient hex =>
      refine ⟨fun c ↦ e.1 = .OnDisconnect c, ?_, ?_, ?_⟩
      · grind [State.pending]
      · intro c
        rw [connsAfter, mem_attachedAfter h.attached.nodup, hflag]
        simp
      · grind [State.pending]

-- A step sets `client_` for the connections that are bound, and no other.
theorem bound_step (h : Inv es conns s) (hbound : ∀ c, s.server.client_ c ≠ none ↔ Bound es c)
    (hst : Step platform s event t) (c : ConnID) :
    t.server.client_ c ≠ none ↔ Bound (es ++ [event]) c := by
  rw [bound_snoc, ← hbound]
  cases hst with
  | @OnConnection c' hc =>
      have hsame : (s.report c').server = s.server := by
        unfold State.report
        split <;> rfl
      rw [hsame]
      simp
  | @OnDisconnect c' hc hret =>
      have hsame : (s.callback (.OnDisconnect c')).server = s.server := by
        unfold State.callback
        split <;> rfl
      simp [hsame]
  | @OnData c' data hc hret =>
      have hsame : (s.callback (.OnData c' data)).server = s.server := by
        unfold State.callback
        split <;> rfl
      simp [hsame]
  | Pushed hmem => simp
  | PushCommand hcommand => simp
  | @Execute e rest server hlist hclient hex =>
      rw [hex.sessionEffect.client_iff, ← h.flag, Bool.not_eq_true]
      apply or_congr_right
      apply and_congr_left'
      exact ⟨fun he ↦ ⟨e.2, by rw [← he]⟩, fun ⟨_, he⟩ ↦ by cases he; rfl⟩

-- No step follows a pointer that was not set.
theorem known_step (h : Inv es conns s) (hbound : ∀ c, s.server.client_ c ≠ none ↔ Bound es c)
    (hst : Step platform s event t) (hplatform : platform = .LINUX) : Known es event := by
  intro command actions c he hget
  cases hst with
  | OnConnection hc => cases he
  | OnDisconnect hc hret => cases he
  | OnData hc hret => cases he
  | Pushed hmem => cases he
  | PushCommand hcommand => cases he
  | Execute hlist hclient hex =>
      cases he
      rw [← hbound]
      intro hnone
      rw [← h.flag] at hget
      exact hclient ⟨hplatform, c, hget, hnone⟩

/-! ## 3. Runs -/

/-- Once the server is shutting down: whether the ends of all connections will be executed. -/
structure RunInv (platform : Platform) (es : List Event) (conns : List ConnID) (s : State) :
    Prop where
  inv : Inv es conns s
  bound : ∀ c, s.server.client_ c ≠ none ↔ Bound es c
  known : platform = .LINUX → Each Known es
  before : ¬ Shut es → Each NoneConnected es
  after : Shut es → (Each NoneConnected es ↔ ∀ c ∈ conns, .OnDisconnect c ∈ s.pending)

theorem RunInv.step (h : RunInv platform es conns s) (hst : Step platform s event t) :
    RunInv platform (es ++ [event]) (connsAfter s.server.m_bReadyForShutdown conns event) t := by
  have hinv := h.inv.step hst
  have hbound := bound_step h.inv h.bound hst
  have hknown : platform = .LINUX → Each Known (es ++ [event]) := fun hplatform ↦
    each_snoc.mpr ⟨h.known hplatform, known_step h.inv h.bound hst hplatform⟩
  by_cases hs : Shut es
  · have hshut : Shut (es ++ [event]) := shut_snoc.mpr (.inl hs)
    refine ⟨hinv, hbound, hknown, fun hnot ↦ absurd hshut hnot, fun _ ↦ ?_⟩
    rcases shut_step h.inv hst hs with ⟨gone, hgone, hconns, hpending⟩
    have hnone : NoneConnected es event := fun _ hnot ↦ absurd hs hnot
    rw [each_snoc, and_iff_left hnone, h.after hs]
    constructor
    · intro hall c hc
      rcases (hconns c).mp hc with ⟨hin, hnot⟩
      exact (hpending c hnot).mpr (hall c hin)
    · intro hall c hc
      by_cases hg : gone c
      · exact hgone c hg
      · exact (hpending c hg).mp (hall c ((hconns c).mpr ⟨hc, hg⟩))
  · have heach := h.before hs
    constructor
    · exact hinv
    · exact hbound
    · exact hknown
    · intro hnot
      rw [shut_snoc, not_or] at hnot
      exact each_snoc.mpr ⟨heach, fun hex ↦ absurd hex hnot.2⟩
    · -- the first `COMMAND_SHUTDOWN`
      intro hshut
      rcases (shut_snoc.mp hshut).resolve_left hs with ⟨actions, rfl⟩
      rw [each_snoc, and_iff_right heach]
      cases hst with
      | @Execute e rest server hlist hclient hex =>
          have hmem : ∀ c, EasyCommand.OnDisconnect c ∈ s.entering ++ rest ↔
              EasyCommand.OnDisconnect c ∈ s.pending := by
            intro c
            rw [State.pending, hlist]
            simp
          show _ ↔ ∀ c ∈ conns, EasyCommand.OnDisconnect c ∈ s.entering ++ rest
          constructor
          · intro hnone c hc
            have hreported := hnone ⟨actions, rfl⟩ hs c (h.inv.opened c hc)
            rw [hmem]
            exact (h.inv.ends hs c (.inl hc)).resolve_left fun hin ↦ h.inv.alive c hin hreported
          · rintro hall - - c hc
            rcases h.inv.kept hs c hc with hin | hreported
            · exact h.inv.reported c ((hmem c).mp (hall c hin))
            · exact hreported

theorem runInv_init (iMaxSession : ℕ) (memory : SessionPtr → EasySession)
    (array : ℕ → SessionPtr) : RunInv platform [] [] (init iMaxSession memory array) := by
  refine ⟨inv_init iMaxSession memory array, fun c ↦ ?_, fun _ ↦ each_nil, fun _ ↦ each_nil, ?_⟩
  · have hnone : (init iMaxSession memory array).server.client_ c = none :=
      client_initialized iMaxSession memory array c
    rw [hnone]
    simp [Bound]
  · rintro ⟨actions, hmem⟩
    exact absurd hmem List.not_mem_nil

/-- What a run has come to, if it is anything. -/
def Comes (platform : Platform) (es : List Event) : Option State → Prop
  | some s => ∃ conns, RunInv platform es conns s
  | none => platform = .LINUX ∧ ¬ Each Known es

theorem Comes.step {o o' : Option State} (h : Comes platform es o)
    (hrun : Run platform o event o') : Comes platform (es ++ [event]) o' := by
  cases hrun with
  | step hst =>
      rcases h with ⟨conns, hinv⟩
      exact ⟨_, hinv.step hst⟩
  | @stale s e rest hlist hstale =>
      rcases h with ⟨conns, hinv⟩
      rcases hstale with ⟨hplatform, c, hget, hnone⟩
      rw [hinv.inv.flag] at hget
      refine ⟨hplatform, fun heach ↦ ?_⟩
      have hbound := (each_snoc.mp heach).2 e.1 e.2 c rfl hget
      exact (hinv.bound c).mpr hbound hnone
  | lost => exact ⟨h.1, fun heach ↦ h.2 (each_snoc.mp heach).1⟩

theorem comes_of_path (iMaxSession : ℕ) (memory : SessionPtr → EasySession) (array : ℕ → SessionPtr)
    {o : Option State} (h : Path (Run platform) (some (init iMaxSession memory array)) es o) :
    Comes platform es o := by
  apply h.always (I := Comes platform)
  · exact ⟨[], runInv_init iMaxSession memory array⟩
  · exact fun es o event o' hcomes hrun ↦ hcomes.step hrun

theorem RunInv.released (h : RunInv platform es conns s) (hquiet : Quiet s) :
    Released s ↔ Each NoneConnected es := by
  rcases hquiet with ⟨hconnected, hentering, hlist⟩
  have hpending : s.pending = [] := by rw [State.pending, hentering, hlist, List.append_nil]
  rw [Released, h.inv.attached.nil_iff, List.eq_nil_iff_forall_not_mem]
  by_cases hs : Shut es
  · rw [h.after hs, hpending]
    simp
  · rw [iff_true_right (h.before hs)]
    intro c hc
    rcases h.inv.ends hs c (.inl hc) with hin | hin
    · rw [hconnected] at hin
      exact List.not_mem_nil hin
    · rw [hpending] at hin
      exact List.not_mem_nil hin

-- A run without a stale pointer.
theorem path_run (h : Path (Step platform) s es t) :
    Path (Run platform) (some s) es (some t) := by
  induction h with
  | nil => exact .nil
  | snoc _ hst ih => exact ih.snoc (.step hst)

-- `COMMAND_ONCONNECT` and `COMMAND_SHUTDOWN` can be executed.
theorem step_onConnect {c : ConnID} {rest : List EasyCommand}
    (hlist : s.m_CommandList = .OnConnect c :: rest)
    (hflag : s.server.m_bReadyForShutdown = false) (memory : EasySession) :
    Step platform s (.Execute (.OnConnect c, []))
      { s with
        server := (s.server._OnCommandOnConnect memory c).server
        m_CommandList := rest } := by
  refine .Execute hlist (fun ⟨_, _, hget, _⟩ ↦ hget)
    ⟨s.server._OnCommandOnConnect memory c, ?_, rfl, rfl⟩
  simp only [EasyBaseServer._OnCommand, hflag]
  exact ⟨memory, rfl⟩

theorem step_shutdown {rest : List EasyCommand} (hlist : s.m_CommandList = .Shutdown :: rest) :
    Step platform s (.Execute (.Shutdown, (s.server._OnCommandShutdown platform).actions))
      { s with server := (s.server._OnCommandShutdown platform).server, m_CommandList := rest } :=
  .Execute hlist (fun ⟨_, _, hget, _⟩ ↦ hget) ⟨_, rfl, rfl, rfl⟩

/-- The server with one client. -/
def oneClient (iMaxSession : ℕ) (memory : SessionPtr → EasySession) (array : ℕ → SessionPtr)
    (connId : ConnID) : EasyBaseServer :=
  ((EasyBaseServer.initialized iMaxSession memory array)._OnCommandOnConnect zeroSession
    connId).server

theorem step_pushed {server : EasyBaseServer} {list : List EasyCommand} {conns seen : List ConnID}
    (command : EasyCommand) :
    Step platform ⟨server, list, [command], conns, seen⟩ (.Pushed command)
      ⟨server, list ++ [command], [], conns, seen⟩ := by
  have hst : Step platform ⟨server, list, [command], conns, seen⟩ (.Pushed command)
      ⟨server, list ++ [command], [command].erase command, conns, seen⟩ :=
    .Pushed (List.mem_singleton_self command)
  rwa [List.erase_cons_head] at hst

theorem oneClient_running (iMaxSession : ℕ) (memory : SessionPtr → EasySession)
    (array : ℕ → SessionPtr) (c : ConnID) :
    (oneClient iMaxSession memory array c).m_bReadyForShutdown = false := by
  rcases (EasyBaseServer.initialized iMaxSession memory array).exists_allocates zeroSession with
    ⟨p, pool, created, o, ha⟩
  rw [oneClient, EasyBaseServer.onConnect_eq ha]
  exact (EasyBaseServer.idle_initialized iMaxSession memory array).running

theorem oneClient_client (iMaxSession : ℕ) (memory : SessionPtr → EasySession)
    (array : ℕ → SessionPtr) (c : ConnID) :
    (oneClient iMaxSession memory array c).client_ c ≠ none := by
  rcases (EasyBaseServer.initialized iMaxSession memory array).exists_allocates zeroSession with
    ⟨p, pool, created, o, ha⟩
  rw [oneClient, EasyBaseServer.onConnect_eq ha]
  simp

theorem step_onConnection {server : EasyBaseServer} {list : List EasyCommand} {c : ConnID}
    (hflag : server.m_bReadyForShutdown = false) :
    Step platform ⟨server, list, [], [], []⟩ (.OnConnection c)
      ⟨server, list, [.OnConnect c], [c], [c]⟩ := by
  have hst : Step platform ⟨server, list, [], [], []⟩ (.OnConnection c) _ :=
    .OnConnection List.not_mem_nil
  rwa [State.report, if_neg (Bool.eq_false_iff.mp hflag)] at hst

theorem step_onDisconnect {server : EasyBaseServer} {list : List EasyCommand} {c : ConnID}
    {seen : List ConnID} (hflag : server.m_bReadyForShutdown = false) :
    Step platform ⟨server, list, [], [c], seen⟩ (.OnDisconnect c)
      ⟨server, list, [.OnDisconnect c], [], seen⟩ := by
  have hst : Step platform ⟨server, list, [], [c], seen⟩ (.OnDisconnect c) _ :=
    .OnDisconnect (List.mem_singleton_self c) fun command hmem ↦ absurd hmem List.not_mem_nil
  rwa [State.callback, if_neg (Bool.eq_false_iff.mp hflag), List.erase_cons_head] at hst

theorem step_onDisconnect_shut {server : EasyBaseServer} {c : ConnID} {seen : List ConnID}
    (hflag : server.m_bReadyForShutdown = true) :
    Step platform ⟨server, [], [], [c], seen⟩ (.OnDisconnect c) ⟨server, [], [], [], seen⟩ := by
  have hst : Step platform ⟨server, [], [], [c], seen⟩ (.OnDisconnect c) _ :=
    .OnDisconnect (List.mem_singleton_self c) fun command hmem ↦ absurd hmem List.not_mem_nil
  rwa [State.callback, if_pos hflag, List.erase_cons_head] at hst

theorem path_oneClient (iMaxSession : ℕ) (memory : SessionPtr → EasySession)
    (array : ℕ → SessionPtr) (c : ConnID) :
    Path (Step platform) (init iMaxSession memory array)
      ([] ++ [.OnConnection c] ++ [.Pushed (.OnConnect c)] ++ [.Execute (.OnConnect c, [])])
      ⟨oneClient iMaxSession memory array c, [], [], [c], [c]⟩ := by
  have hflag := (EasyBaseServer.idle_initialized iMaxSession memory array).running
  have hreport : Step platform (init iMaxSession memory array) (.OnConnection c)
      ⟨.initialized iMaxSession memory array, [], [.OnConnect c], [c], [c]⟩ :=
    step_onConnection hflag
  have hexecute : Step platform
      ⟨.initialized iMaxSession memory array, [.OnConnect c], [], [c], [c]⟩
      (.Execute (.OnConnect c, [])) ⟨oneClient iMaxSession memory array c, [], [], [c], [c]⟩ :=
    step_onConnect rfl hflag zeroSession
  exact ((Path.nil.snoc hreport).snoc (step_pushed _)).snoc hexecute

end Runs

/-- **Shutting down**: when all connections have ended and nothing is left to execute, all sessions
have been released exactly if no connection with a session was left when the shutdown was
executed, and on Linux no command followed a pointer that nothing had set. -/
theorem sessions_released_iff (platform : Platform) (iMaxSession : ℕ)
    (memory : SessionPtr → EasySession) (array : ℕ → SessionPtr) (es : List Event)
    (o : Option State) (h : Path (Run platform) (some (init iMaxSession memory array)) es o)
    (hquiet : ∀ s, o = some s → Quiet s) :
    (∃ s, o = some s ∧ Released s) ↔
      Each NoneConnected es ∧ (platform = .LINUX → Each Known es) := by
  have hcomes := comes_of_path iMaxSession memory array h
  cases o with
  | none =>
      have hnone : ¬ ∃ s : State, none = some s ∧ Released s := fun ⟨_, he, _⟩ ↦ by cases he
      exact iff_of_false hnone fun hall ↦ hcomes.2 (hall.2 hcomes.1)
  | some s =>
      rcases hcomes with ⟨conns, hinv⟩
      rw [and_iff_left hinv.known, ← hinv.released (hquiet s rfl)]
      constructor
      · rintro ⟨t, he, hreleased⟩
        cases he
        exact hreleased
      · exact fun hreleased ↦ ⟨s, rfl, hreleased⟩

/-- The only client leaves before the shutdown is executed, and its end is executed after it. -/
theorem released_after_end :
    ∃ es s, Path (Run .LINUX) (some (init 1 (fun _ ↦ zeroSession) fun _ ↦ 0)) es (some s) ∧
      Shut es ∧ Opened es 7 ∧ Quiet s ∧
      ((∃ t, some s = some t ∧ Released t) ↔
        Each NoneConnected es ∧ (Platform.LINUX = .LINUX → Each Known es)) := by
  let server := oneClient 1 (fun _ ↦ zeroSession) (fun _ ↦ 0) 7
  let shut := (server._OnCommandShutdown .LINUX).server
  have hrun : Path (Step .LINUX) (init 1 (fun _ ↦ zeroSession) fun _ ↦ 0) _
      ⟨server, [], [], [7], [7]⟩ := path_oneClient 1 (fun _ ↦ zeroSession) (fun _ ↦ 0) 7
  have hend : Step .LINUX ⟨server, [], [], [7], [7]⟩ (.OnDisconnect 7)
      ⟨server, [], [.OnDisconnect 7], [], [7]⟩ :=
    step_onDisconnect (oneClient_running 1 (fun _ ↦ zeroSession) (fun _ ↦ 0) 7)
  have hcommand : Step .LINUX ⟨server, [], [.OnDisconnect 7], [], [7]⟩ (.PushCommand .Shutdown)
      ⟨server, [.Shutdown], [.OnDisconnect 7], [], [7]⟩ := .PushCommand rfl
  have hshut : Step .LINUX ⟨server, [.Shutdown, .OnDisconnect 7], [], [], [7]⟩
      (.Execute (.Shutdown, (server._OnCommandShutdown .LINUX).actions))
      ⟨shut, [.OnDisconnect 7], [], [], [7]⟩ := step_shutdown rfl
  have hclient : shut.client_ 7 ≠ none := by
    rw [(sameSessions_shutdown server .LINUX).client]
    exact oneClient_client 1 (fun _ ↦ zeroSession) (fun _ ↦ 0) 7
  have hknown : ¬ Stale .LINUX ⟨shut, [.OnDisconnect 7], [], [], [7]⟩ (.OnDisconnect 7) := by
    rintro ⟨-, c, hget, hnone⟩
    cases hget
    exact hclient hnone
  have hexecute : Step .LINUX ⟨shut, [.OnDisconnect 7], [], [], [7]⟩
      (.Execute (.OnDisconnect 7, (shut._OnCommandOnDisconnect 7).actions))
      ⟨(shut._OnCommandOnDisconnect 7).server, [], [], [], [7]⟩ :=
    .Execute rfl hknown ⟨_, rfl, rfl, rfl⟩
  have hpath := path_run
    (((((hrun.snoc hend).snoc hcommand).snoc (step_pushed _)).snoc hshut).snoc hexecute)
  have hquiet : Quiet ⟨(shut._OnCommandOnDisconnect 7).server, [], [], [], [7]⟩ := ⟨rfl, rfl, rfl⟩
  refine ⟨_, _, hpath, ?_, ?_, hquiet, sessions_released_iff .LINUX 1 _ _ _ _ hpath ?_⟩
  · simp [Shut]
  · simp [Opened]
  · rintro s he
    cases he
    exact hquiet

-- The shutdown is executed between the push of a `COMMAND_ONCONNECT` and its execution.
theorem path_skipped (iMaxSession : ℕ) (memory : SessionPtr → EasySession)
    (array : ℕ → SessionPtr) (c : ConnID) :
    ∃ es, Path (Run .LINUX) (some (init iMaxSession memory array)) es none ∧ Shut es := by
  let server := EasyBaseServer.initialized iMaxSession memory array
  let shut := (server._OnCommandShutdown .LINUX).server
  have hflag : server.m_bReadyForShutdown = false :=
    (EasyBaseServer.idle_initialized iMaxSession memory array).running
  have hshutting : shut.m_bReadyForShutdown = true :=
    (sameSessions_shutdown server .LINUX).shutdown
  have hclient : shut.client_ c = none := by
    rw [(sameSessions_shutdown server .LINUX).client]
    exact client_initialized iMaxSession memory array c
  have hcommand : Step .LINUX ⟨server, [], [], [], []⟩ (.PushCommand .Shutdown)
      ⟨server, [.Shutdown], [], [], []⟩ := .PushCommand rfl
  have hreport : Step .LINUX ⟨server, [.Shutdown], [], [], []⟩ (.OnConnection c)
      ⟨server, [.Shutdown], [.OnConnect c], [c], [c]⟩ := step_onConnection hflag
  have hend : Step .LINUX ⟨server, [.Shutdown, .OnConnect c], [], [c], [c]⟩ (.OnDisconnect c)
      ⟨server, [.Shutdown, .OnConnect c], [.OnDisconnect c], [], [c]⟩ := step_onDisconnect hflag
  have hshut : Step .LINUX ⟨server, [.Shutdown, .OnConnect c, .OnDisconnect c], [], [], [c]⟩
      (.Execute (.Shutdown, (server._OnCommandShutdown .LINUX).actions))
      ⟨shut, [.OnConnect c, .OnDisconnect c], [], [], [c]⟩ := step_shutdown rfl
  have hskipped : Step .LINUX ⟨shut, [.OnConnect c, .OnDisconnect c], [], [], [c]⟩
      (.Execute (.OnConnect c, [])) ⟨shut, [.OnDisconnect c], [], [], [c]⟩ := by
    have hexec : Executes .LINUX shut (.OnConnect c, []) shut := by
      refine ⟨⟨true, shut, []⟩, ?_, rfl, rfl⟩
      simp only [EasyBaseServer._OnCommand, hshutting, if_true]
    have hnot : ¬ Stale .LINUX ⟨shut, [.OnConnect c, .OnDisconnect c], [], [], [c]⟩
        (.OnConnect c) := by
      rintro ⟨-, c', hget, -⟩
      cases hget
    exact .Execute rfl hnot hexec
  have hstart : Path (Step .LINUX) (init iMaxSession memory array) _
      ⟨server, [.Shutdown, .OnConnect c], [], [c], [c]⟩ :=
    ((Path.nil.snoc hcommand).snoc hreport).snoc (step_pushed _)
  have hpath := path_run
    ((((hstart.snoc hend).snoc (step_pushed _)).snoc hshut).snoc hskipped)
  have hstale : Run .LINUX (some ⟨shut, [.OnDisconnect c], [], [], [c]⟩)
      (.Execute (.OnDisconnect c, [])) none := .stale rfl ⟨rfl, c, rfl, hclient⟩
  exact ⟨_, hpath.snoc hstale, by simp [Shut]⟩

/-- A client is connected when the shutdown is executed: its end is not executed any more.  On
Linux, the end of a client whose `COMMAND_ONCONNECT` was skipped follows a stale pointer. -/
theorem not_released :
    (¬ ∀ es o, Path (Run .WIN32) (some (init 1 (fun _ ↦ zeroSession) fun _ ↦ 0)) es o → Shut es →
      (∀ s, o = some s → Quiet s) → ∃ s, o = some s ∧ Released s) ∧
    ∃ es, Path (Run .LINUX) (some (init 1 (fun _ ↦ zeroSession) fun _ ↦ 0)) es none ∧ Shut es := by
  refine ⟨fun hreleased ↦ ?_, path_skipped 1 _ _ 7⟩
  let server := oneClient 1 (fun _ ↦ zeroSession) (fun _ ↦ 0) 7
  let shut := (server._OnCommandShutdown .WIN32).server
  have hrun : Path (Step .WIN32) (init 1 (fun _ ↦ zeroSession) fun _ ↦ 0) _
      ⟨server, [], [], [7], [7]⟩ := path_oneClient 1 (fun _ ↦ zeroSession) (fun _ ↦ 0) 7
  have hcommand : Step .WIN32 ⟨server, [], [], [7], [7]⟩ (.PushCommand .Shutdown)
      ⟨server, [.Shutdown], [], [7], [7]⟩ := .PushCommand rfl
  have hshut : Step .WIN32 ⟨server, [.Shutdown], [], [7], [7]⟩
      (.Execute (.Shutdown, (server._OnCommandShutdown .WIN32).actions))
      ⟨shut, [], [], [7], [7]⟩ := step_shutdown rfl
  have hend : Step .WIN32 ⟨shut, [], [], [7], [7]⟩ (.OnDisconnect 7) ⟨shut, [], [], [], [7]⟩ :=
    step_onDisconnect_shut (sameSessions_shutdown server .WIN32).shutdown
  have hpath := path_run (((hrun.snoc hcommand).snoc hshut).snoc hend)
  have hquiet : Quiet ⟨shut, [], [], [], [7]⟩ := ⟨rfl, rfl, rfl⟩
  have hends : ∀ s, some (⟨shut, [], [], [], [7]⟩ : State) = some s → Quiet s := by
    rintro s he
    cases he
    exact hquiet
  obtain ⟨s, he, hall⟩ := hreleased _ _ hpath (by simp [Shut]) hends
  cases he
  rcases comes_of_path 1 _ _ hpath with ⟨conns, hinv⟩
  have heach := (hinv.released hquiet).mp hall
  rw [each_snoc, each_snoc] at heach
  have hreported := heach.1.2 ⟨_, rfl⟩ (by simp [Shut]) 7 (by simp [Opened])
  simp at hreported

end Shutdown

end Fantuan
