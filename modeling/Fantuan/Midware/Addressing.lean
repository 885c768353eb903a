import Fantuan.Midware.Registry

/-!
# Commands that are addressed to a session

`COMMAND_SENDDATA` and `COMMAND_DISCONNECT` carry a session id and go to the session at that index
of `m_SessionArray`.  The array, as `_InitializeSessionPool` fills it, has the session with the last
id everywhere, so that a command reaches the client it is meant for only under that one id.
-/

open Lib

namespace Fantuan

namespace EasyBaseServer

/-- The session `p` is live: it serves the connection `c`. -/
def Live (s : EasyBaseServer) (p : SessionPtr) (c : ConnID) : Prop :=
  p < s.created ∧ (s.object p).m_pConnection = some c

/-- `p` is a live session with the id `id`. -/
def LiveWithId (s : EasyBaseServer) (id : ℕ) (p : SessionPtr) (c : ConnID) : Prop :=
  s.Live p c ∧ (s.object p).m_iSessionID = id

/-- A handler acted on the connection of the live session with the id `id`, or it returned false and
touched no connection because there is none.  Outside the array it gives nothing back. -/
def Addressed (s : EasyBaseServer) (id : ℕ) (handled : Option Done) : Prop :=
  ∃ d, handled = some d ∧
    ((∃ p c, s.LiveWithId id p c ∧ (∀ p' c', s.LiveWithId id p' c' → p' = p) ∧
        ∃ a, d.actions = [a] ∧ a.connId = c ∧ a.Acts) ∨
      (∀ p c, ¬ s.LiveWithId id p c) ∧ d.ret = false ∧ d.actions = [])

/-- `id` is the last id, and its session is live and the only one with this id. -/
def OwnsLastId (s : EasyBaseServer) (id : ℕ) : Prop :=
  id + 1 = s.m_iMaxSession ∧ (s.object (s.m_SessionArray id)).m_pConnection ≠ none ∧
    ∀ p c, s.LiveWithId id p c → p = s.m_SessionArray id

end EasyBaseServer

/-! ## 1. The array and the back pointers along a run -/

/-- Every entry of `m_SessionArray` points to the session that has the last id, and the sessions
that are live belong to open connections. -/
structure Aliased (conns : List ConnID) (s : EasyBaseServer) : Prop where
  owned : Owned conns s
  array : ∀ i, i < s.m_iMaxSession → s.m_SessionArray i = 0 ∧ 0 < s.created ∧
    (s.object 0).m_iSessionID + 1 = s.m_iMaxSession
  back : ∀ p c, s.Live p c → c ∈ conns ∧ s.client_ c = some p

namespace Aliased

variable {conns : List ConnID} {s t : EasyBaseServer} {c : ConnID} {p : SessionPtr}

theorem connect {memory o : EasySession} {pool : List SessionPtr} {created : ℕ}
    (h : Aliased conns s) (hc : c ∉ conns) (ha : Allocates s memory p pool created o) :
    Aliased (conns ++ [c]) (s.taken p pool created o c) := by
  rcases h.owned.allocates ha with ⟨-, -, hlt, hle, -⟩
  refine ⟨h.owned.connect hc ha, fun i hi ↦ ?_, fun q d hq ↦ ?_⟩
  · rcases h.array i hi with ⟨harray, hpos, hid⟩
    refine ⟨harray, Nat.lt_of_lt_of_le hpos hle, ?_⟩
    cases ha with
    | pooled => rw [EasyBaseServer.taken_id]; exact hid
    | new =>
        -- the new session is not the first
        rw [EasyBaseServer.taken_object_of_ne (Nat.ne_of_lt hpos)]
        exact hid
  · rcases hq with ⟨hqlt, hback⟩
    -- the session taken serves `c` now, the others serve whom they served
    by_cases hqp : q = p
    · subst hqp
      rw [EasyBaseServer.taken_object, Option.some.injEq] at hback
      subst hback
      exact ⟨List.mem_append_right _ (List.mem_singleton_self c), EasyBaseServer.taken_client⟩
    · rw [EasyBaseServer.taken_object_of_ne hqp] at hback
      have hlive : s.Live q d := by
        refine ⟨?_, hback⟩
        have hqlt' : q < created := hqlt
        cases ha with
        | pooled => exact hqlt'
        | new => exact Nat.lt_of_le_of_ne (Nat.le_of_lt_succ hqlt') hqp
      rcases h.back q d hlive with ⟨hmem, hclient⟩
      have hdc : d ≠ c := by
        rintro rfl
        exact hc hmem
      refine ⟨List.mem_append_left _ hmem, ?_⟩
      rw [EasyBaseServer.taken_client_of_ne hdc, hclient]

theorem disconnect (h : Aliased conns s) (hnodup : conns.Nodup) (hc : c ∈ conns)
    (hp : s.client_ c = some p) (hback : (s.object p).m_pConnection = some c) :
    Aliased (conns.erase c) (s.released p) := by
  refine ⟨h.owned.disconnect hnodup hc hp hback, fun i hi ↦ ?_, fun q d hq ↦ ?_⟩
  · rw [EasyBaseServer.released_id]
    exact h.array i hi
  · rcases hq with ⟨hqlt, hqback⟩
    by_cases hqp : q = p
    · rw [hqp, EasyBaseServer.released_object] at hqback
      cases hqback
    · rw [EasyBaseServer.released_object_of_ne hqp] at hqback
      rcases h.back q d ⟨hqlt, hqback⟩ with ⟨hmem, hclient⟩
      have hdc : d ≠ c := by
        rintro rfl
        exact hqp (Option.some.inj (hclient.symm.trans hp))
      exact ⟨(List.mem_erase_of_ne hdc).mpr hmem, hclient⟩

theorem data (h : Aliased conns s) (hback : (s.object p).m_pConnection = some c) (b : RecvBuffer) :
    Aliased conns (s.received p b) := by
  refine ⟨h.owned.data hback b, fun i hi ↦ ?_, fun q d hq ↦ ?_⟩
  · rw [EasyBaseServer.received_id]
    exact h.array i hi
  · rcases hq with ⟨hqlt, hqback⟩
    apply h.back q d
    refine ⟨hqlt, ?_⟩
    by_cases hqp : q = p
    · rw [hqp, EasyBaseServer.received_object] at hqback
      rw [hqp]
      exact hqback
    · rwa [EasyBaseServer.received_object_of_ne hqp] at hqback

theorem step {es : List Executed} {e : Executed} (h : Aliased (live es) s)
    (hes : Each Reported es) (hst : NetworkStep (live es) s e t) :
    Aliased (live (es ++ [e])) t := by
  rw [live_snoc]
  cases hst with
  | connect hc ha => exact h.connect hc ha
  | disconnect hc hp hback => exact h.disconnect (live_spec hes).1 hc hp hback
  | data hc hp hback => exact h.data hback _

end Aliased

theorem aliased_initialized (iMaxSession : ℕ) (memory : SessionPtr → EasySession)
    (array : ℕ → SessionPtr) :
    Aliased [] (EasyBaseServer.initialized iMaxSession memory array) := by
  have hidle := EasyBaseServer.idle_initialized iMaxSession memory array
  cases iMaxSession with
  | zero =>
      exact ⟨hidle, fun i hi ↦ absurd hi (Nat.not_lt_zero i),
        fun p c hp ↦ absurd hp.1 (Nat.not_lt_zero p)⟩
  | succ k =>
      refine ⟨hidle, ?_, ?_⟩ <;> rw [EasyBaseServer.initialized_succ]
      · intro i hi
        refine ⟨if_pos (Nat.le_of_lt_succ hi), Nat.zero_lt_one, ?_⟩
        simp only [EasyBaseServer.aliased, Function.update_self, EasyBaseServer.construct]
      · rintro p c ⟨hlt, hback⟩
        cases Nat.lt_one_iff.mp hlt
        simp only [EasyBaseServer.aliased, Function.update_self] at hback
        cases hback

/-! ## 2. What the handlers act on -/

section Handlers

variable {conns : List ConnID} {s : EasyBaseServer} {id : ℕ} {d : Done} {c : ConnID}

-- A handler that acts on the connection of the session in the array is right exactly under the
-- last id.
theorem addressed_acts_iff (h : Aliased conns s) (hid : id < s.m_iMaxSession)
    (hc : (s.object (s.m_SessionArray id)).m_pConnection = some c) (hret : d.ret = true)
    (hact : ∃ a, d.actions = [a] ∧ a.connId = c ∧ a.Acts) :
    s.Addressed id (some d) ↔ s.OwnsLastId id := by
  rcases h.array id hid with ⟨harray, hpos, hlast⟩
  have hlive : s.Live (s.m_SessionArray id) c := ⟨by rw [harray]; exact hpos, hc⟩
  have hne : (s.object (s.m_SessionArray id)).m_pConnection ≠ none := by
    rw [hc]
    exact Option.some_ne_none c
  constructor
  · rintro ⟨d', hd, ⟨p, c', hp, honly, a, ha, rfl, -⟩ | ⟨-, hfalse, -⟩⟩
    · cases hd
      rcases hact with ⟨a', ha', rfl, -⟩
      cases ha.symm.trans ha'
      -- one connection is served by one session only
      have heq : p = s.m_SessionArray id :=
        Option.some.inj ((h.back p _ hp.1).2.symm.trans (h.back _ _ hlive).2)
      refine ⟨?_, hne, fun q c hq ↦ (honly q c hq).trans heq⟩
      rw [← hp.2, heq, harray]
      exact hlast
    · cases hd
      rw [hret] at hfalse
      cases hfalse
  · rintro ⟨hsucc, -, honly⟩
    refine ⟨d, rfl, .inl ⟨_, c, ⟨hlive, ?_⟩, honly, hact⟩⟩
    rw [harray]
    omega

theorem addressed_idle_iff (hact : d.actions = []) :
    s.Addressed id (some d) ↔ (∀ p c, ¬ s.LiveWithId id p c) ∧ d.ret = false := by
  constructor
  · rintro ⟨d', hd, ⟨p, c, -, -, a, ha, -⟩ | ⟨hnone, hret, -⟩⟩
    · cases hd
      rw [hact] at ha
      cases ha
    · cases hd
      exact ⟨hnone, hret⟩
  · rintro ⟨hnone, hret⟩
    exact ⟨d, rfl, .inr ⟨hnone, hret, hact⟩⟩

theorem not_addressed_none : ¬ s.Addressed id none := by
  rintro ⟨d, hd, -⟩
  cases hd

theorem addressed_disconnect_iff (h : Aliased conns s) (platform : Platform) (id : ℕ) :
    s.Addressed id (s._OnCommandDisconnect platform id) ↔
      s.OwnsLastId id ∧ platform = .WIN32 := by
  unfold EasyBaseServer._OnCommandDisconnect
  by_cases hid : id < s.m_iMaxSession
  · rw [if_pos hid]
    cases hc : (s.object (s.m_SessionArray id)).m_pConnection with
    | none =>
        simp only [EasyBaseServer.Disconnect, EasyBaseServer.OnDisconnect, hc, Option.map_none]
        rw [addressed_idle_iff rfl]
        exact iff_of_false (fun h ↦ absurd h.2 (by simp)) fun h ↦ h.1.2.1 hc
    | some c =>
        cases platform with
        | WIN32 =>
            simp only [EasyBaseServer.Disconnect, hc, and_true]
            exact addressed_acts_iff h hid hc rfl ⟨_, rfl, rfl, trivial⟩
        | LINUX =>
            -- the source has no code for a live session here
            simp only [EasyBaseServer.Disconnect, hc]
            rw [addressed_idle_iff rfl]
            exact iff_of_false (fun h ↦ absurd h.2 (by simp)) fun h ↦ absurd h.2 (by decide)
  · rw [if_neg hid]
    exact iff_of_false not_addressed_none fun h ↦ hid (by rw [← h.1.1]; exact Nat.lt_succ_self id)

/-- `SendData` has a buffer that the packet fits. -/
def HasBuffer (platform : Platform) (popped : Bool) (request : SendRequest) : Prop :=
  PACKET_HEAD + request.iLen ≤ MAX_OUTPUT_BUFFER ∧ (platform = .WIN32 → popped = true)

-- Sending something on the connection of the session in the array.
theorem addressed_sent_iff (h : Aliased conns s) (hid : id < s.m_iMaxSession)
    {f : ConnID → Action} (hf : ∀ c, (f c).connId = c) (hacts : ∀ c, (f c).Acts) :
    s.Addressed id
        (((s.object (s.m_SessionArray id)).m_pConnection.map fun c ↦ ((0 : ℤ), [f c])).map
          fun (iRet, actions) ↦ ⟨iRet == 0, s, actions⟩) ↔
      s.OwnsLastId id := by
  cases hc : (s.object (s.m_SessionArray id)).m_pConnection with
  | none => exact iff_of_false not_addressed_none fun h ↦ h.2.1 hc
  | some c => exact addressed_acts_iff h hid hc rfl ⟨f c, rfl, hf c, hacts c⟩

-- A call that does nothing is not what the command asks for, and 0 was returned.
theorem not_addressed_idle_call {f : ConnID → Action} {o : Option ConnID}
    (hacts : ∀ c, ¬ (f c).Acts) :
    ¬ s.Addressed id ((o.map fun c ↦ ((0 : ℤ), [f c])).map
      fun (iRet, actions) ↦ ⟨iRet == 0, s, actions⟩) := by
  cases o with
  | none => exact not_addressed_none
  | some c =>
      rintro ⟨d, hd, ⟨p, c', -, -, a, ha, -, hact⟩ | ⟨-, hret, -⟩⟩
      · cases hd
        cases ha
        exact hacts c hact
      · cases hd
        cases hret

theorem acts_frame_iff {request : SendRequest} {c : ConnID} :
    (Action.AsyncSend c request.frame).Acts ↔
      PACKET_HEAD + request.iLen ≤ MAX_OUTPUT_BUFFER := by
  rw [Action.Acts, SendRequest.length_frame]

theorem addressed_send_iff (h : Aliased conns s) (platform : Platform) (popped : Bool) (id : ℕ)
    (request : SendRequest) :
    s.Addressed id (s._OnCommandSendData platform popped id request) ↔
      s.OwnsLastId id ∧ HasBuffer platform popped request ∨
        id < s.m_iMaxSession ∧ platform = .WIN32 ∧ popped = false ∧
          ∀ p c, ¬ s.LiveWithId id p c := by
  unfold EasyBaseServer._OnCommandSendData EasySession.SendData
  by_cases hid : id < s.m_iMaxSession
  · rw [if_pos hid]
    cases platform with
    | WIN32 =>
        cases popped with
        | false =>
            show s.Addressed id (some ⟨false, s, []⟩) ↔ _
            rw [addressed_idle_iff rfl]
            simp [HasBuffer, hid]
        | true =>
            simp only [if_true]
            by_cases hfit : PACKET_HEAD + request.iLen ≤ MAX_OUTPUT_BUFFER
            · rw [addressed_sent_iff h hid (fun _ ↦ rfl) fun _ ↦ acts_frame_iff.mpr hfit]
              simp [HasBuffer, hfit]
            · -- the call is made and does nothing
              apply iff_of_false (not_addressed_idle_call fun _ ↦ mt acts_frame_iff.mp hfit)
              simp [HasBuffer, hfit]
    | LINUX =>
        by_cases hfit : PACKET_HEAD + request.iLen ≤ MAX_OUTPUT_BUFFER
        · simp only [if_pos hfit]
          rw [addressed_sent_iff h hid (f := fun c ↦ .SendMessage c request.frame) (fun _ ↦ rfl)
            fun _ ↦ trivial]
          simp [HasBuffer, hfit]
        · -- the packet does not fit `m_SendBuf`
          simp only [hfit, if_false, Option.map_none]
          apply iff_of_false not_addressed_none
          simp [HasBuffer, hfit]
  · rw [if_neg hid]
    apply iff_of_false not_addressed_none
    rintro (h | h)
    · exact hid (by rw [← h.1.1]; exact Nat.lt_succ_self id)
    · exact hid h.1

end Handlers

theorem aliased_of_path {platform : Platform} {iMaxSession : ℕ}
    {memory : SessionPtr → EasySession} {array : ℕ → SessionPtr} {t : EasyBaseServer}
    {es : List Executed}
    (h : Path (Executes platform) (EasyBaseServer.initialized iMaxSession memory array) es t)
    (hes : Each Reported es) : Aliased (live es) t :=
  h.invariant (I := fun es t ↦ Aliased (live es) t) hes
    (aliased_initialized iMaxSession memory array) fun _ _ _ _ hbefore hal he hst ↦
      hal.step hbefore (hal.owned.networkStep hbefore he hst)

/-- **Addressing.**  In every state that reports lead to from `Initialize`, a command reaches the
client it is addressed to exactly under the last id, and only what its handler does with a live
session. -/
theorem addressed_iff (platform : Platform) (iMaxSession : ℕ) (memory : SessionPtr → EasySession)
    (array : ℕ → SessionPtr) (t : EasyBaseServer) (es : List Executed)
    (h : Path (Executes platform) (EasyBaseServer.initialized iMaxSession memory array) es t)
    (hes : Each Reported es) (id : ℕ) :
    (t.Addressed id (t._OnCommandDisconnect platform id) ↔
        t.OwnsLastId id ∧ platform = .WIN32) ∧
      ∀ popped request,
        (t.Addressed id (t._OnCommandSendData platform popped id request) ↔
          t.OwnsLastId id ∧ HasBuffer platform popped request ∨
            id < t.m_iMaxSession ∧ platform = .WIN32 ∧ popped = false ∧
              ∀ p c, ¬ t.LiveWithId id p c) := by
  have hal := aliased_of_path h hes
  exact ⟨addressed_disconnect_iff hal platform id,
    fun popped request ↦ addressed_send_iff hal platform popped id request⟩

-- The run in which one connection is reported, to a server with any sessions.
theorem first_connection (platform : Platform) (k : ℕ) (c : ConnID) :
    ∃ es t, Path (Executes platform)
        (EasyBaseServer.initialized (k + 1) (fun _ ↦ zeroSession) fun _ ↦ 0) es t ∧
      Each Reported es ∧ t.m_iMaxSession = k + 1 ∧ t.created = 1 ∧ t.m_SessionArray 0 = 0 ∧
        (t.object 0).m_pConnection = some c := by
  rw [EasyBaseServer.initialized_succ]
  generalize hs : EasyBaseServer.aliased (k + 1) (fun _ ↦ zeroSession) (fun _ ↦ 0) k = s
  have ha : Allocates s zeroSession 0 [] s.created (s.object 0) := .pooled (by rw [← hs]; rfl)
  have hst : NetworkStep [] s (.OnConnect c, []) (s.taken 0 [] s.created (s.object 0) c) :=
    .connect List.not_mem_nil ha
  have hrunning : s.m_bReadyForShutdown = false := by
    rw [← hs]
    rfl
  refine ⟨_, _, Path.nil.snoc (hst.executes platform hrunning), ?_, ?_, ?_, ?_, ?_⟩
  · exact each_snoc.mpr ⟨each_nil, fun e he ↦ absurd he List.not_mem_nil⟩
  · rw [← hs]
    rfl
  · rw [← hs]
    rfl
  · rw [← hs]
    rfl
  · rw [EasyBaseServer.taken_object]

/-- A server with one session, which serves connection 3. -/
theorem addressed_one_session :
    ∃ es t, Path (Executes .WIN32) (.initialized 1 (fun _ ↦ zeroSession) fun _ ↦ 0) es t ∧
      t.Addressed 0 (t._OnCommandDisconnect .WIN32 0) := by
  rcases first_connection .WIN32 0 3 with ⟨es, t, h, hes, hmax, hcreated, harray, hback⟩
  refine ⟨es, t, h, (addressed_iff .WIN32 1 _ _ t es h hes 0).1.mpr ⟨⟨hmax.symm, ?_, ?_⟩, rfl⟩⟩
  · rw [harray, hback]
    exact Option.some_ne_none 3
  · intro p c hp
    have hlt := hp.1.1
    rw [hcreated, Nat.lt_one_iff] at hlt
    rw [harray, hlt]

/-- With two sessions and connection 3 open, which has the session with id 1, a packet for the
session with id 0 is sent to connection 3, and id 2 is looked up behind the array. -/
theorem addressed_elsewhere :
    ∃ es t, Path (Executes .LINUX) (.initialized 2 (fun _ ↦ zeroSession) fun _ ↦ 0) es t ∧
      Each Reported es ∧ t.LiveWithId 1 0 3 ∧
        (¬ ∃ d, t._OnCommandDisconnect .LINUX 2 = some d) ∧
        ¬ t.Addressed 0 (t._OnCommandSendData .LINUX true 0 ⟨5, [1], by decide, by decide⟩) := by
  rcases first_connection .LINUX 1 3 with ⟨es, t, h, hes, hmax, hcreated, harray, hback⟩
  have hal := aliased_of_path h hes
  have hid : (t.object 0).m_iSessionID + 1 = t.m_iMaxSession :=
    (hal.array 0 (by rw [hmax]; decide)).2.2
  refine ⟨es, t, h, hes, ⟨⟨by rw [hcreated]; decide, hback⟩, by omega⟩, ?_, ?_⟩
  · rintro ⟨d, hd⟩
    rw [EasyBaseServer._OnCommandDisconnect, if_neg (by rw [hmax]; decide)] at hd
    cases hd
  · rw [addressed_send_iff hal]
    rintro (hlast | hwin)
    · have hsucc := hlast.1.1
      omega
    · cases hwin.2.1

end Fantuan
