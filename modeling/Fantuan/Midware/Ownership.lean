import Fantuan.Midware.Server

/-!
# Which session belongs to which connection

The network layer reports each connection once, then its data, then at most once its end.  Along
every such run of commands the back pointer `m_pConnection` of a session and the `client_` of a
connection agree, and the sessions in the pool belong to nobody.
-/

open Lib StateTransition

namespace Fantuan

/-! ## 1. What the network layer reports -/

/-- The open connections after one more command. -/
def liveAfter (conns : List ConnID) (e : Executed) : List ConnID :=
  match e.1 with
  | .OnConnect m_ConnId => conns ++ [m_ConnId]
  | .OnDisconnect m_ConnId => conns.erase m_ConnId
  | _ => conns

/-- The open connections after the commands `es`. -/
def live (es : List Executed) : List ConnID := es.foldl liveAfter []

/-- After `before` the network layer may report `e`. -/
def Reported (before : List Executed) (e : Executed) : Prop :=
  match e.1 with
  | .OnConnect m_ConnId => ∀ e' ∈ before, e'.1 ≠ .OnConnect m_ConnId
  | .OnDisconnect m_ConnId => m_ConnId ∈ live before
  | .OnData m_ConnId _ => m_ConnId ∈ live before
  | _ => False

theorem live_snoc (es : List Executed) (e : Executed) :
    live (es ++ [e]) = liveAfter (live es) e := by
  rw [live, List.foldl_append]
  rfl

theorem live_spec {es : List Executed} (h : Each Reported es) :
    (live es).Nodup ∧ ∀ c ∈ live es, ∃ e ∈ es, e.1 = .OnConnect c := by
  induction es using List.reverseRecOn with
  | nil => exact ⟨List.nodup_nil, fun c hc ↦ absurd hc List.not_mem_nil⟩
  | append_singleton es e ih =>
      rw [each_snoc] at h
      have hold := ih h.1
      have hmono : ∀ c ∈ live es, ∃ e' ∈ es ++ [e], e'.1 = .OnConnect c := by
        intro c hc
        rcases hold.2 c hc with ⟨e', he', hce'⟩
        exact ⟨e', List.mem_append_left _ he', hce'⟩
      rcases e with ⟨command, actions⟩
      rw [live_snoc]
      -- `OnConnect` adds a connection that was not there, `OnDisconnect` takes one away
      cases command with
      | OnConnect c =>
          have hc : c ∉ live es := by
            intro hc
            rcases hold.2 c hc with ⟨e', he', hce'⟩
            exact h.2 e' he' hce'
          show (live es ++ [c]).Nodup ∧ ∀ c' ∈ live es ++ [c], _
          rw [List.nodup_append_comm]
          refine ⟨List.nodup_cons.mpr ⟨hc, hold.1⟩, fun c' hc' ↦ ?_⟩
          rcases List.mem_append.mp hc' with hc' | hc'
          · exact hmono c' hc'
          · cases List.mem_singleton.mp hc'
            exact ⟨_, List.mem_append_right _ (List.mem_singleton_self _), rfl⟩
      | OnDisconnect c =>
          exact ⟨hold.1.erase c, fun c' hc' ↦ hmono c' (List.mem_of_mem_erase hc')⟩
      | OnData c data => exact ⟨hold.1, hmono⟩
      | SendData => exact ⟨hold.1, hmono⟩
      | Shutdown => exact ⟨hold.1, hmono⟩
      | Disconnect => exact ⟨hold.1, hmono⟩

/-- The connection has been reported. -/
def Connected (es : List Executed) (c : ConnID) : Prop := ∃ e ∈ es, e.1 = .OnConnect c

/-- The end of the connection has been reported. -/
def Ended (es : List Executed) (c : ConnID) : Prop := ∃ e ∈ es, e.1 = .OnDisconnect c

theorem connected_iff {es : List Executed} {c : ConnID} :
    Connected es c ↔ EasyCommand.OnConnect c ∈ es.map Prod.fst := by
  rw [List.mem_map]
  rfl

theorem ended_iff {es : List Executed} {c : ConnID} :
    Ended es c ↔ EasyCommand.OnDisconnect c ∈ es.map Prod.fst := by
  rw [List.mem_map]
  rfl

theorem connected_snoc {es : List Executed} {e : Executed} {c : ConnID} :
    Connected (es ++ [e]) c ↔ Connected es c ∨ e.1 = .OnConnect c := by
  simp [Connected, or_and_right, exists_or]

theorem ended_snoc {es : List Executed} {e : Executed} {c : ConnID} :
    Ended (es ++ [e]) c ↔ Ended es c ∨ e.1 = .OnDisconnect c := by
  simp [Ended, or_and_right, exists_or]

-- The open connections are those that have been reported and have not ended, and only reported
-- ones end.
theorem mem_live {es : List Executed} (h : Each Reported es) :
    ∀ c, (c ∈ live es ↔ Connected es c ∧ ¬ Ended es c) ∧ (Ended es c → Connected es c) := by
  induction es using List.reverseRecOn with
  | nil => simp [live, Connected, Ended]
  | append_singleton es e ih =>
      have hnodup := (live_spec (each_snoc.mp h).1).1
      rw [each_snoc] at h
      have he := h.2
      have hold := ih h.1
      intro c
      rcases e with ⟨command, actions⟩
      rw [live_snoc, connected_snoc, ended_snoc]
      cases command with
      | OnConnect d =>
          have hd : ¬ Connected es d := fun ⟨e', he', hce'⟩ ↦ he e' he' hce'
          simp only [liveAfter, List.mem_append, List.mem_singleton, EasyCommand.OnConnect.injEq,
            reduceCtorEq, or_false]
          by_cases hcd : d = c
          · -- a connection does not end before it is reported
            subst hcd
            have hnot : ¬ Ended es d := fun hend ↦ hd ((hold d).2 hend)
            simp [hnot]
          · simp only [hcd, Ne.symm hcd, or_false]
            exact hold c
      | OnDisconnect d =>
          have hd : Connected es d := ((hold d).1.mp he).1
          simp only [liveAfter, hnodup.mem_erase_iff, EasyCommand.OnDisconnect.injEq,
            reduceCtorEq, or_false]
          by_cases hcd : d = c
          · subst hcd
            simp [hd]
          · simp only [hcd, Ne.symm hcd, ne_eq, not_false_eq_true, true_and, or_false]
            exact hold c
      | OnData d data =>
          simp only [liveAfter, reduceCtorEq, or_false]
          exact hold c
      | SendData => exact he.elim
      | Shutdown => exact he.elim
      | Disconnect => exact he.elim

theorem live_congr {es es' : List Executed} (h : es.map Prod.fst = es'.map Prod.fst) :
    live es = live es' := by
  have hmap : ∀ es : List Executed,
      live es = (es.map Prod.fst).foldl (fun conns command ↦ liveAfter conns (command, [])) [] := by
    intro es
    rw [List.foldl_map]
    rfl
  rw [hmap, hmap, h]

-- What may be reported does not depend on what executing the commands did.
theorem reported_congr {es es' : List Executed} (h : es.map Prod.fst = es'.map Prod.fst)
    (hes : Each Reported es) : Each Reported es' := by
  induction es using List.reverseRecOn generalizing es' with
  | nil =>
      rw [List.map_eq_nil_iff.mp h.symm]
      exact hes
  | append_singleton es e ih =>
      rcases List.eq_nil_or_concat es' with rfl | ⟨es'', ⟨command', actions'⟩, rfl⟩
      · simp at h
      rcases e with ⟨command, actions⟩
      rw [List.concat_eq_append] at h ⊢
      rw [List.map_append, List.map_append] at h
      rcases List.append_inj' h rfl with ⟨hmap, hlast⟩
      have hcommand : command = command' := (List.cons.inj hlast).1
      subst hcommand
      rw [each_snoc] at hes ⊢
      refine ⟨ih hmap hes.1, ?_⟩
      -- a report depends on the connections reported before and on those still open
      have hseen : ∀ c, (∀ e' ∈ es, e'.1 ≠ .OnConnect c) → ∀ e' ∈ es'', e'.1 ≠ .OnConnect c := by
        intro c hc e' he' hce'
        have hmem : EasyCommand.OnConnect c ∈ es.map Prod.fst := by
          rw [hmap, ← hce']
          exact List.mem_map_of_mem he'
        rcases List.mem_map.mp hmem with ⟨e'', he'', hce''⟩
        exact hc e'' he'' hce''
      have he := hes.2
      cases command with
      | OnConnect c => exact hseen c he
      | OnDisconnect c =>
          show c ∈ live es''
          rw [← live_congr hmap]
          exact he
      | OnData c data =>
          show c ∈ live es''
          rw [← live_congr hmap]
          exact he
      | SendData => exact he
      | Shutdown => exact he
      | Disconnect => exact he

/-! ## 2. What one report does -/

/-- What `Allocate` takes: the session, what is left of the pool, where the next object will be
created, and the session's members. -/
inductive Allocates (s : EasyBaseServer) (memory : EasySession) :
    SessionPtr → List SessionPtr → ℕ → EasySession → Prop
  | pooled {p : SessionPtr} {pool : List SessionPtr}
      (h : s.m_SessionPool.m_ObjectList = p :: pool) :
      Allocates s memory p pool s.created (s.object p)
  | new (h : s.m_SessionPool.m_ObjectList = []) :
      Allocates s memory s.created [] (s.created + 1) memory.construct

namespace EasyBaseServer

variable (s : EasyBaseServer)

/-- The server once a session that `Allocate` took belongs to `connId`. -/
def taken (p : SessionPtr) (pool : List SessionPtr) (created : ℕ) (o : EasySession)
    (connId : ConnID) : EasyBaseServer :=
  { s with
    m_SessionPool := ⟨pool⟩
    created
    m_SessionMap := (s.insert o.m_iSessionID p).m_SessionMap
    object := Function.update s.object p { o with m_pConnection := some connId }
    client_ := Function.update s.client_ connId (some p) }

/-- The server once session `p` is back in the pool. -/
def released (p : SessionPtr) : EasyBaseServer :=
  { s with
    m_SessionPool := s.m_SessionPool.Free p
    m_SessionMap := s.m_SessionMap.erase (s.object p).m_iSessionID
    object := Function.update s.object p (s.object p).Reset }

/-- The server once session `p` has received data. -/
def received (p : SessionPtr) (b : RecvBuffer) : EasyBaseServer :=
  { s with object := Function.update s.object p { s.object p with toRecvBuffer := b } }

section Members

variable {s} {p q : SessionPtr} {pool : List SessionPtr} {created : ℕ} {o : EasySession}
  {c d : ConnID} {b : RecvBuffer}

@[simp] theorem taken_client : (s.taken p pool created o c).client_ c = some p := by
  simp only [taken, Function.update_self]

theorem taken_client_of_ne (h : d ≠ c) : (s.taken p pool created o c).client_ d = s.client_ d := by
  simp only [taken, Function.update_of_ne h]

@[simp] theorem taken_object :
    (s.taken p pool created o c).object p = { o with m_pConnection := some c } :=
  Function.update_self p _ s.object

theorem taken_object_of_ne (h : q ≠ p) : (s.taken p pool created o c).object q = s.object q :=
  Function.update_of_ne h _ s.object

@[simp] theorem released_object : (s.released p).object p = (s.object p).Reset :=
  Function.update_self p _ s.object

theorem released_object_of_ne (h : q ≠ p) : (s.released p).object q = s.object q :=
  Function.update_of_ne h _ s.object

@[simp] theorem received_object :
    (s.received p b).object p = { s.object p with toRecvBuffer := b } :=
  Function.update_self p _ s.object

theorem received_object_of_ne (h : q ≠ p) : (s.received p b).object q = s.object q :=
  Function.update_of_ne h _ s.object

end Members

theorem exists_allocates (memory : EasySession) :
    ∃ p pool created o, Allocates s memory p pool created o := by
  cases hpool : s.m_SessionPool.m_ObjectList with
  | nil => exact ⟨_, _, _, _, .new hpool⟩
  | cons p pool => exact ⟨_, _, _, _, .pooled hpool⟩

variable {s}

theorem onConnect_eq {memory o : EasySession} {p : SessionPtr} {pool : List SessionPtr}
    {created : ℕ} (h : Allocates s memory p pool created o) (connId : ConnID) :
    s._OnCommandOnConnect memory connId = ⟨true, s.taken p pool created o connId, []⟩ := by
  cases h with
  | pooled hpool =>
      simp only [_OnCommandOnConnect, Allocate, EasyPool.Allocate, hpool, OnConnection, insert,
        taken, reduceCtorEq, if_false]
  | new hpool =>
      simp only [_OnCommandOnConnect, Allocate, EasyPool.Allocate, hpool, OnConnection, insert,
        taken, if_true, Function.update_self, Function.update_idem]
      rw [← hpool]

theorem onDisconnect_eq {p : SessionPtr} {connId : ConnID} (h : s.client_ connId = some p) :
    s._OnCommandOnDisconnect connId =
      ⟨true, s.released p, ((s.object p).m_pConnection.map Action.Close).toList⟩ := by
  simp only [_OnCommandOnDisconnect, h, OnDisconnect, released]

theorem mem_onData {p : SessionPtr} {connId : ConnID} {data : EasyCommandOnData} {d : Done}
    (h : s.client_ connId = some p) :
    d ∈ s._OnCommandOnData connId data ↔
      ∃ t ∈ EasySession.OnData (s.object p).toRecvBuffer data.m_pData, t.pc = .returned ∧
        d = ⟨true, s.received p t.buf, t.handled.map (.OnPacketReceived connId)⟩ := by
  simp only [_OnCommandOnData, h, Part.mem_bind_iff]
  apply exists_congr
  intro t
  apply and_congr_right
  intro _
  split
  · rename_i hpc
    rw [Part.mem_some_iff, and_iff_right hpc]
    rfl
  · rename_i hpc
    exact iff_of_false (Part.notMem_none d) fun h ↦ hpc h.1

end EasyBaseServer

/-! ## 3. Ownership -/

/-- The connections `conns` are open: each has a session of its own, and those in the pool are
nobody's. -/
structure Owned (conns : List ConnID) (s : EasyBaseServer) : Prop where
  running : s.m_bReadyForShutdown = false
  pool_nodup : s.m_SessionPool.m_ObjectList.Nodup
  pool_lt : ∀ p ∈ s.m_SessionPool.m_ObjectList, p < s.created
  pool_idle : ∀ p ∈ s.m_SessionPool.m_ObjectList,
    (s.object p).m_pConnection = none ∧ (s.object p).m_iRecvBufLen = 0
  bound : ∀ c ∈ conns, ∃ p, s.client_ c = some p ∧ (s.object p).m_pConnection = some c ∧
    p < s.created

/-- A server that no connection has been reported to. -/
def EasyBaseServer.Idle (s : EasyBaseServer) : Prop := Owned [] s

/-- What executing a report does, `conns` being the open connections. -/
inductive NetworkStep (conns : List ConnID) (s : EasyBaseServer) :
    Executed → EasyBaseServer → Prop
  | connect {c : ConnID} {memory : EasySession} {p : SessionPtr} {pool : List SessionPtr}
      {created : ℕ} {o : EasySession} (hc : c ∉ conns) (ha : Allocates s memory p pool created o) :
      NetworkStep conns s (.OnConnect c, []) (s.taken p pool created o c)
  | disconnect {c : ConnID} {p : SessionPtr} (hc : c ∈ conns) (hp : s.client_ c = some p)
      (hback : (s.object p).m_pConnection = some c) :
      NetworkStep conns s (.OnDisconnect c, [.Close c]) (s.released p)
  | data {c : ConnID} {p : SessionPtr} {data : EasyCommandOnData} {t : OnData.State}
      (hc : c ∈ conns) (hp : s.client_ c = some p) (hback : (s.object p).m_pConnection = some c)
      (ht : t ∈ EasySession.OnData (s.object p).toRecvBuffer data.m_pData)
      (hpc : t.pc = .returned) :
      NetworkStep conns s (.OnData c data, t.handled.map (.OnPacketReceived c))
        (s.received p t.buf)

-- Conversely, the command thread can take each of these steps.
theorem NetworkStep.executes {conns : List ConnID} {s t : EasyBaseServer} {e : Executed}
    (h : NetworkStep conns s e t) (platform : Platform) (hs : s.m_bReadyForShutdown = false) :
    Executes platform s e t := by
  have hrunning : ¬ s.m_bReadyForShutdown = true := by
    rw [hs]
    decide
  cases h with
  | @connect c memory p pool created o hc ha =>
      refine ⟨⟨true, _, []⟩, ?_, rfl, rfl⟩
      simp only [EasyBaseServer._OnCommand, if_neg hrunning]
      exact ⟨memory, (EasyBaseServer.onConnect_eq ha c).symm⟩
  | @disconnect c p hc hp hback =>
      refine ⟨⟨true, _, [.Close c]⟩, ?_, rfl, rfl⟩
      show _ = s._OnCommandOnDisconnect c
      rw [EasyBaseServer.onDisconnect_eq hp, hback]
      rfl
  | @data c p data t hc hp hback ht hpc =>
      refine ⟨⟨true, _, _⟩, ?_, rfl, rfl⟩
      simp only [EasyBaseServer._OnCommand, if_neg hrunning]
      exact (EasyBaseServer.mem_onData hp).mpr ⟨t, ht, hpc, rfl⟩

namespace Owned

variable {conns : List ConnID} {s t : EasyBaseServer} {memory o : EasySession} {p : SessionPtr}
  {pool : List SessionPtr} {created : ℕ} {c : ConnID} {es : List Executed} {e : Executed}
  {platform : Platform}

-- The inversion of a step: the three things a report can do.
theorem networkStep (h : Owned (live es) s) (hes : Each Reported es) (he : Reported es e)
    (hst : Executes platform s e t) : NetworkStep (live es) s e t := by
  rcases e with ⟨command, actions⟩
  rcases hst with ⟨d, hd, rfl, rfl⟩
  have hrunning : ¬ s.m_bReadyForShutdown = true := by
    rw [h.running]
    decide
  cases command with
  | OnConnect c =>
      have hc : c ∉ live es := by
        intro hc
        rcases (live_spec hes).2 c hc with ⟨e', he', hce'⟩
        exact he e' he' hce'
      simp only [EasyBaseServer._OnCommand, if_neg hrunning] at hd
      rcases hd with ⟨memory, rfl⟩
      rcases s.exists_allocates memory with ⟨p, pool, created, o, ha⟩
      rw [EasyBaseServer.onConnect_eq ha]
      exact .connect hc ha
  | OnDisconnect c =>
      rcases h.bound c he with ⟨p, hp, hback, -⟩
      have hd' : d = s._OnCommandOnDisconnect c := hd
      rw [hd', EasyBaseServer.onDisconnect_eq hp, hback]
      exact .disconnect he hp hback
  | OnData c data =>
      rcases h.bound c he with ⟨p, hp, hback, -⟩
      simp only [EasyBaseServer._OnCommand, if_neg hrunning] at hd
      rcases (EasyBaseServer.mem_onData hp).mp hd with ⟨u, hu, hpc, rfl⟩
      exact .data he hp hback hu hpc
  | SendData => exact he.elim
  | Shutdown => exact he.elim
  | Disconnect => exact he.elim

-- The session that `Allocate` takes was nobody's.
theorem allocates (h : Owned conns s) (ha : Allocates s memory p pool created o) :
    o.m_pConnection = none ∧ o.m_iRecvBufLen = 0 ∧ p < created ∧ s.created ≤ created ∧
      p ∉ pool ∧ pool.Nodup ∧ (∀ q ∈ pool, q ∈ s.m_SessionPool.m_ObjectList) ∧
      ∀ c ∈ conns, s.client_ c ≠ some p := by
  cases ha with
  | pooled hpool =>
      -- the pool has no session twice, and none that belongs to a connection
      have hmem : p ∈ s.m_SessionPool.m_ObjectList := by
        rw [hpool]
        exact List.mem_cons_self
      have hnodup := h.pool_nodup
      rw [hpool, List.nodup_cons] at hnodup
      refine ⟨(h.pool_idle p hmem).1, (h.pool_idle p hmem).2, h.pool_lt p hmem, Nat.le_refl _,
        hnodup.1, hnodup.2, fun q hq ↦ ?_, fun c hc hp ↦ ?_⟩
      · rw [hpool]
        exact List.mem_cons_of_mem p hq
      · rcases h.bound c hc with ⟨p', hp', hback, -⟩
        cases hp.symm.trans hp'
        rw [(h.pool_idle p hmem).1] at hback
        cases hback
  | new hpool =>
      refine ⟨rfl, rfl, Nat.lt_succ_self _, Nat.le_succ _, List.not_mem_nil, List.nodup_nil,
        fun q hq ↦ absurd hq List.not_mem_nil, fun c hc hp ↦ ?_⟩
      -- a new object is not at a pointer that is in use
      rcases h.bound c hc with ⟨p', hp', -, hlt⟩
      cases hp.symm.trans hp'
      exact Nat.lt_irrefl _ hlt

theorem connect (h : Owned conns s) (hc : c ∉ conns) (ha : Allocates s memory p pool created o) :
    Owned (conns ++ [c]) (s.taken p pool created o c) := by
  rcases h.allocates ha with ⟨-, -, hlt, hle, hnot, hnodup, hsub, hfree⟩
  refine ⟨h.running, hnodup, fun q hq ↦ ?_, fun q hq ↦ ?_, fun c' hc' ↦ ?_⟩
  · exact Nat.lt_of_lt_of_le (h.pool_lt q (hsub q hq)) hle
  · have hne : q ≠ p := by
      rintro rfl
      exact hnot hq
    rw [EasyBaseServer.taken_object_of_ne hne]
    exact h.pool_idle q (hsub q hq)
  · rcases List.mem_append.mp hc' with hold | hnew
    · -- another connection, and its session is another one
      rcases h.bound c' hold with ⟨p', hp', hback, hlt'⟩
      have hcne : c' ≠ c := by
        rintro rfl
        exact hc hold
      have hpne : p' ≠ p := by
        rintro rfl
        exact hfree c' hold hp'
      refine ⟨p', ?_, ?_, Nat.lt_of_lt_of_le hlt' hle⟩
      · rw [EasyBaseServer.taken_client_of_ne hcne, hp']
      · rw [EasyBaseServer.taken_object_of_ne hpne, hback]
    · cases List.mem_singleton.mp hnew
      exact ⟨p, by simp, by simp, hlt⟩

theorem disconnect (h : Owned conns s) (hnodup : conns.Nodup) (hc : c ∈ conns)
    (hp : s.client_ c = some p) (hback : (s.object p).m_pConnection = some c) :
    Owned (conns.erase c) (s.released p) := by
  -- the session is in use, so that it does not come into the pool twice
  have hnot : p ∉ s.m_SessionPool.m_ObjectList := by
    intro hmem
    rw [(h.pool_idle p hmem).1] at hback
    cases hback
  have hlt : p < s.created := by
    rcases h.bound c hc with ⟨p', hp', -, hlt⟩
    cases hp.symm.trans hp'
    exact hlt
  refine ⟨h.running, ?_, fun q hq ↦ ?_, fun q hq ↦ ?_, fun c' hc' ↦ ?_⟩
  · show (s.m_SessionPool.m_ObjectList ++ [p]).Nodup
    rw [List.nodup_append_comm]
    exact List.nodup_cons.mpr ⟨hnot, h.pool_nodup⟩
  · rcases List.mem_append.mp hq with hq | hq
    · exact h.pool_lt q hq
    · rw [List.mem_singleton.mp hq]
      exact hlt
  · rcases List.mem_append.mp hq with hold | hnew
    · have hne : q ≠ p := by
        rintro rfl
        exact hnot hold
      rw [EasyBaseServer.released_object_of_ne hne]
      exact h.pool_idle q hold
    · cases List.mem_singleton.mp hnew
      simp only [EasyBaseServer.released_object, EasySession.Reset, and_self]
  · rcases h.bound c' (List.mem_of_mem_erase hc') with ⟨p', hp', hback', hlt'⟩
    have hne : p' ≠ p := by
      rintro rfl
      cases hback.symm.trans hback'
      exact (List.Nodup.not_mem_erase hnodup) hc'
    refine ⟨p', hp', ?_, hlt'⟩
    rw [EasyBaseServer.released_object_of_ne hne, hback']

theorem data (h : Owned conns s) (hback : (s.object p).m_pConnection = some c) (b : RecvBuffer) :
    Owned conns (s.received p b) := by
  refine ⟨h.running, h.pool_nodup, h.pool_lt, fun q hq ↦ ?_, fun c' hc' ↦ ?_⟩
  · have hne : q ≠ p := by
      rintro rfl
      rw [(h.pool_idle q hq).1] at hback
      cases hback
    rw [EasyBaseServer.received_object_of_ne hne]
    exact h.pool_idle q hq
  · rcases h.bound c' hc' with ⟨p', hp', hback', hlt'⟩
    refine ⟨p', hp', ?_, hlt'⟩
    -- receiving does not change the back pointer of the session
    by_cases hne : p' = p
    · subst hne
      rw [EasyBaseServer.received_object, hback']
    · rw [EasyBaseServer.received_object_of_ne hne, hback']

theorem step (h : Owned (live es) s) (hes : Each Reported es) (hst : NetworkStep (live es) s e t) :
    Owned (live (es ++ [e])) t := by
  rw [live_snoc]
  cases hst with
  | connect hc ha => exact h.connect hc ha
  | disconnect hc hp hback => exact h.disconnect (live_spec hes).1 hc hp hback
  | data hc hp hback => exact h.data hback _

end Owned

/-! ## 4. Taking a step -/

section Runs

variable (platform : Platform) {s : EasyBaseServer} {p : SessionPtr} {c : ConnID}

theorem connect_run (memory : EasySession) {o : EasySession} {pool : List SessionPtr} {created : ℕ}
    (hs : s.m_bReadyForShutdown = false) (ha : Allocates s memory p pool created o) (c : ConnID) :
    ∃ t, Executes platform s (.OnConnect c, []) t ∧ t.m_bReadyForShutdown = false ∧
      t.m_SessionPool.m_ObjectList = pool ∧ t.client_ c = some p ∧
      t.object p = { o with m_pConnection := some c } := by
  have hst : NetworkStep [] s (.OnConnect c, []) (s.taken p pool created o c) :=
    .connect List.not_mem_nil ha
  exact ⟨_, hst.executes platform hs, hs, rfl, by simp, by simp⟩

theorem data_run (hs : s.m_bReadyForShutdown = false) (hc : s.client_ c = some p)
    (hback : (s.object p).m_pConnection = some c) (data : EasyCommandOnData) {u : OnData.State}
    (hu : u ∈ EasySession.OnData (s.object p).toRecvBuffer data.m_pData)
    (hpc : u.pc = .returned) :
    ∃ t, Executes platform s (.OnData c data, u.handled.map (.OnPacketReceived c)) t ∧
      t.m_bReadyForShutdown = false ∧ t.m_SessionPool = s.m_SessionPool ∧
      t.client_ = s.client_ ∧ t.object p = { s.object p with toRecvBuffer := u.buf } := by
  have hst : NetworkStep [c] s (.OnData c data, u.handled.map (.OnPacketReceived c))
      (s.received p u.buf) :=
    .data (List.mem_singleton_self c) hc hback hu hpc
  exact ⟨_, hst.executes platform hs, hs, rfl, rfl, by simp⟩

theorem disconnect_run (hs : s.m_bReadyForShutdown = false) (hc : s.client_ c = some p)
    (hback : (s.object p).m_pConnection = some c) :
    ∃ t, Executes platform s (.OnDisconnect c, [.Close c]) t ∧ t.m_bReadyForShutdown = false ∧
      t.m_SessionPool.m_ObjectList = s.m_SessionPool.m_ObjectList ++ [p] ∧
      t.object p = (s.object p).Reset := by
  have hst : NetworkStep [c] s (.OnDisconnect c, [.Close c]) (s.released p) :=
    .disconnect (List.mem_singleton_self c) hc hback
  exact ⟨_, hst.executes platform hs, hs, rfl, by simp⟩

end Runs

end Fantuan
