import Fantuan.Midware.Initialize

/-!
# The sessions of the connections, whatever the command

For every command, in a server that is shutting down or not, which connections have a session
afterwards.  A connection may be reported again once its end has been executed.
-/

open Lib

namespace Fantuan

/-- The connections `conns` have the sessions; all other sessions are in the pool, and the map has
sessions of `conns` only. -/
structure Attached (conns : List ConnID) (s : EasyBaseServer) : Prop where
  nodup : conns.Nodup
  pool_nodup : s.m_SessionPool.m_ObjectList.Nodup
  pool_lt : ∀ p ∈ s.m_SessionPool.m_ObjectList, p < s.created
  pool_idle : ∀ p ∈ s.m_SessionPool.m_ObjectList, (s.object p).m_pConnection = none
  bound : ∀ c ∈ conns, ∃ p, s.client_ c = some p ∧ (s.object p).m_pConnection = some c ∧
    p < s.created
  covered : ∀ p < s.created, p ∈ s.m_SessionPool.m_ObjectList ∨ ∃ c ∈ conns, s.client_ c = some p
  mapped : ∀ id p, s.m_SessionMap.lookup id = some p →
    id = (s.object p).m_iSessionID ∧ ∃ c ∈ conns, s.client_ c = some p

/-- The connections with a session after a command. -/
def attachedAfter (shutdown : Bool) (conns : List ConnID) : EasyCommand → List ConnID
  | .OnConnect m_ConnId => if shutdown then conns else conns ++ [m_ConnId]
  | .OnDisconnect m_ConnId => conns.erase m_ConnId
  | _ => conns

namespace Attached

variable {conns : List ConnID} {s t : EasyBaseServer} {memory o : EasySession} {p q : SessionPtr}
  {pool : List SessionPtr} {created : ℕ} {c : ConnID} {platform : Platform}

/-! ## 1. What the pieces of the commands do -/

-- The session that `Allocate` takes is nobody's.
theorem allocates (h : Attached conns s) (ha : Allocates s memory p pool created o) :
    p < created ∧ s.created ≤ created ∧ (∀ q, q < created → q = p ∨ q < s.created) ∧
      p ∉ pool ∧ pool.Nodup ∧ (∀ q, q ∈ s.m_SessionPool.m_ObjectList ↔ q ∈ pool ∨
        q = p ∧ p ∈ s.m_SessionPool.m_ObjectList) ∧ ∀ c ∈ conns, s.client_ c ≠ some p := by
  cases ha with
  | pooled hpool =>
      have hmem : p ∈ s.m_SessionPool.m_ObjectList := by
        rw [hpool]
        exact List.mem_cons_self
      have hnodup := h.pool_nodup
      rw [hpool, List.nodup_cons] at hnodup
      refine ⟨h.pool_lt p hmem, Nat.le_refl _, fun q hq ↦ .inr hq, hnodup.1, hnodup.2,
        fun q ↦ ?_, fun c hc hp ↦ ?_⟩
      · rw [and_iff_left hmem, hpool, List.mem_cons, or_comm]
      · rcases h.bound c hc with ⟨p', hp', hback, -⟩
        cases hp.symm.trans hp'
        rw [h.pool_idle p hmem] at hback
        cases hback
  | new hpool =>
      have hnot : s.created ∉ s.m_SessionPool.m_ObjectList := by
        rw [hpool]
        exact List.not_mem_nil
      refine ⟨Nat.lt_succ_self _, Nat.le_succ _, fun q hq ↦ ?_, List.not_mem_nil, List.nodup_nil,
        fun q ↦ ?_, fun c hc hp ↦ ?_⟩
      · omega
      · rw [hpool]
        simp
      · rcases h.bound c hc with ⟨p', hp', -, hlt⟩
        cases hp.symm.trans hp'
        exact Nat.lt_irrefl _ hlt

theorem connect (h : Attached conns s) (hc : c ∉ conns)
    (ha : Allocates s memory p pool created o) :
    Attached (conns ++ [c]) (s.taken p pool created o c) := by
  rcases h.allocates ha with ⟨hlt, hle, hcreated, hnot, hnodup, hpool, hfree⟩
  have hne : ∀ c' ∈ conns, c' ≠ c := by
    rintro c' hc' rfl
    exact hc hc'
  have hpne : ∀ c' ∈ conns, ∀ q, s.client_ c' = some q → q ≠ p := by
    rintro c' hc' q hq rfl
    exact hfree c' hc' hq
  have hlast : c ∈ conns ++ [c] := List.mem_append_right _ (List.mem_singleton_self c)
  constructor
  · rw [List.nodup_append_comm]
    exact List.nodup_cons.mpr ⟨hc, h.nodup⟩
  · exact hnodup
  · exact fun q hq ↦ Nat.lt_of_lt_of_le (h.pool_lt q ((hpool q).mpr (.inl hq))) hle
  · intro q hq
    have hqp : q ≠ p := by
      rintro rfl
      exact hnot hq
    rw [EasyBaseServer.taken_object_of_ne hqp]
    exact h.pool_idle q ((hpool q).mpr (.inl hq))
  · intro c' hc'
    rcases List.mem_append.mp hc' with hold | hnew
    · rcases h.bound c' hold with ⟨q, hq, hback, hlt'⟩
      refine ⟨q, ?_, ?_, Nat.lt_of_lt_of_le hlt' hle⟩
      · rw [EasyBaseServer.taken_client_of_ne (hne c' hold), hq]
      · rw [EasyBaseServer.taken_object_of_ne (hpne c' hold q hq), hback]
    · cases List.mem_singleton.mp hnew
      exact ⟨p, by simp, by simp, hlt⟩
  · intro q hq
    by_cases hqp : q = p
    · rw [hqp]
      exact .inr ⟨c, hlast, by simp⟩
    · rcases h.covered q ((hcreated q hq).resolve_left hqp) with hmem | ⟨c', hc', hq'⟩
      · exact .inl (((hpool q).mp hmem).resolve_right fun he ↦ hqp he.1)
      · refine .inr ⟨c', List.mem_append_left _ hc', ?_⟩
        rw [EasyBaseServer.taken_client_of_ne (hne c' hc'), hq']
  · intro id q hq
    -- the entry is an old one, or the one for `p`
    have hcases : id = o.m_iSessionID ∧ q = p ∨ s.m_SessionMap.lookup id = some q := by
      have hq' : (if o.m_iSessionID ∈ s.m_SessionMap then s.m_SessionMap
          else s.m_SessionMap.insert o.m_iSessionID p).lookup id = some q := hq
      split at hq'
      · exact .inr hq'
      · by_cases hid : id = o.m_iSessionID
        · rw [hid, AList.lookup_insert] at hq'
          exact .inl ⟨hid, (Option.some.inj hq').symm⟩
        · rw [AList.lookup_insert_ne hid] at hq'
          exact .inr hq'
    rcases hcases with ⟨rfl, rfl⟩ | hold
    · exact ⟨by simp, c, hlast, by simp⟩
    · rcases h.mapped id q hold with ⟨hid, c', hc', hq'⟩
      refine ⟨?_, c', List.mem_append_left _ hc', ?_⟩
      · rw [EasyBaseServer.taken_object_of_ne (hpne c' hc' q hq')]
        exact hid
      · rw [EasyBaseServer.taken_client_of_ne (hne c' hc'), hq']

theorem disconnect (h : Attached conns s) (hc : c ∈ conns) (hp : s.client_ c = some p) :
    Attached (conns.erase c) (s.released p) := by
  rcases h.bound c hc with ⟨p', hp', hback, hlt⟩
  cases hp.symm.trans hp'
  have hnot : p ∉ s.m_SessionPool.m_ObjectList := by
    intro hmem
    rw [h.pool_idle p hmem] at hback
    cases hback
  -- the other connections have other sessions
  have hpne : ∀ c' ∈ conns.erase c, ∀ q, s.client_ c' = some q → q ≠ p := by
    rintro c' hc' q hq rfl
    rcases h.bound c' (List.mem_of_mem_erase hc') with ⟨q', hq', hback', -⟩
    cases hq.symm.trans hq'
    cases hback.symm.trans hback'
    exact h.nodup.not_mem_erase hc'
  have hmem : ∀ q, q ∈ s.m_SessionPool.m_ObjectList ++ [p] ↔
      q ∈ s.m_SessionPool.m_ObjectList ∨ q = p := by
    intro q
    rw [List.mem_append, List.mem_singleton]
  constructor
  · exact h.nodup.erase c
  · show (s.m_SessionPool.m_ObjectList ++ [p]).Nodup
    rw [List.nodup_append_comm]
    exact List.nodup_cons.mpr ⟨hnot, h.pool_nodup⟩
  · intro q hq
    rcases (hmem q).mp hq with hq | rfl
    · exact h.pool_lt q hq
    · exact hlt
  · intro q hq
    rcases (hmem q).mp hq with hold | rfl
    · have hqp : q ≠ p := by
        rintro rfl
        exact hnot hold
      rw [EasyBaseServer.released_object_of_ne hqp]
      exact h.pool_idle q hold
    · rw [EasyBaseServer.released_object, EasySession.Reset]
  · intro c' hc'
    rcases h.bound c' (List.mem_of_mem_erase hc') with ⟨q, hq, hback', hlt'⟩
    refine ⟨q, hq, ?_, hlt'⟩
    rw [EasyBaseServer.released_object_of_ne (hpne c' hc' q hq), hback']
  · intro q hq
    rcases h.covered q hq with hmem' | ⟨c', hc', hq'⟩
    · exact .inl ((hmem q).mpr (.inl hmem'))
    · by_cases hcc : c' = c
      · rw [hcc, hp] at hq'
        cases hq'
        exact .inl ((hmem p).mpr (.inr rfl))
      · exact .inr ⟨c', (List.mem_erase_of_ne hcc).mpr hc', hq'⟩
  · intro id q hq
    have hq' : (s.m_SessionMap.erase (s.object p).m_iSessionID).lookup id = some q := hq
    have hid : id ≠ (s.object p).m_iSessionID := by
      rintro rfl
      rw [AList.lookup_erase] at hq'
      cases hq'
    rw [AList.lookup_erase_ne hid] at hq'
    rcases h.mapped id q hq' with ⟨hid', c', hc', hclient⟩
    have hqp : q ≠ p := by
      rintro rfl
      exact hid hid'
    have hcc : c' ≠ c := by
      rintro rfl
      exact hqp (Option.some.inj (hclient.symm.trans hp))
    refine ⟨?_, c', (List.mem_erase_of_ne hcc).mpr hc', hclient⟩
    rw [EasyBaseServer.released_object_of_ne hqp]
    exact hid'

-- Only the ids and the back pointers of the sessions count.
theorem congr_object (h : Attached conns s)
    (hid : ∀ q, (t.object q).m_iSessionID = (s.object q).m_iSessionID)
    (hback : ∀ q, (t.object q).m_pConnection = (s.object q).m_pConnection)
    (hpool : t.m_SessionPool = s.m_SessionPool) (hmap : t.m_SessionMap = s.m_SessionMap)
    (hcreated : t.created = s.created) (hclient : ∀ c ∈ conns, t.client_ c = s.client_ c) :
    Attached conns t := by
  constructor
  · exact h.nodup
  · rw [hpool]
    exact h.pool_nodup
  · rw [hpool, hcreated]
    exact h.pool_lt
  · intro q hq
    rw [hback]
    exact h.pool_idle q (by rwa [← hpool])
  · intro c hc
    rcases h.bound c hc with ⟨q, hq, hb, hlt⟩
    exact ⟨q, (hclient c hc).trans hq, (hback q).trans hb, by rwa [hcreated]⟩
  · intro q hq
    rw [hcreated] at hq
    rw [hpool]
    rcases h.covered q hq with hmem | ⟨c, hc, hq'⟩
    · exact .inl hmem
    · exact .inr ⟨c, hc, (hclient c hc).trans hq'⟩
  · intro id q hq
    rw [hmap] at hq
    rcases h.mapped id q hq with ⟨hid', c, hc, hq'⟩
    exact ⟨hid'.trans (hid q).symm, c, hc, (hclient c hc).trans hq'⟩

end Attached

theorem client_initialized (iMaxSession : ℕ) (memory : SessionPtr → EasySession)
    (array : ℕ → SessionPtr) (c : ConnID) :
    (EasyBaseServer.initialized iMaxSession memory array).client_ c = none := by
  cases iMaxSession with
  | zero => rfl
  | succ k =>
      rw [EasyBaseServer.initialized_succ]
      rfl

theorem attached_initialized (iMaxSession : ℕ) (memory : SessionPtr → EasySession)
    (array : ℕ → SessionPtr) :
    Attached [] (EasyBaseServer.initialized iMaxSession memory array) := by
  have hidle := EasyBaseServer.idle_initialized iMaxSession memory array
  have hnone : ∀ c : ConnID, c ∉ [] := fun _ ↦ List.not_mem_nil
  constructor
  · exact List.nodup_nil
  · exact hidle.pool_nodup
  · exact hidle.pool_lt
  · exact fun p hp ↦ (hidle.pool_idle p hp).1
  · exact fun c hc ↦ absurd hc (hnone c)
  · intro p hp
    cases iMaxSession with
    | zero => exact absurd hp (Nat.not_lt_zero p)
    | succ k =>
        rw [EasyBaseServer.initialized_succ] at hp ⊢
        cases Nat.lt_one_iff.mp hp
        exact .inl (List.mem_singleton_self 0)
  · intro id p hp
    cases iMaxSession with
    | zero => cases hp
    | succ k =>
        rw [EasyBaseServer.initialized_succ] at hp
        cases hp

/-- The servers differ in the receive buffers of sessions at most. -/
structure SameSessions (s t : EasyBaseServer) : Prop where
  ids : ∀ q, (t.object q).m_iSessionID = (s.object q).m_iSessionID
  back : ∀ q, (t.object q).m_pConnection = (s.object q).m_pConnection
  pool : t.m_SessionPool = s.m_SessionPool
  map : t.m_SessionMap = s.m_SessionMap
  created : t.created = s.created
  client : t.client_ = s.client_
  shutdown : t.m_bReadyForShutdown = s.m_bReadyForShutdown
  array : t.m_SessionArray = s.m_SessionArray
  max : t.m_iMaxSession = s.m_iMaxSession

namespace SameSessions

variable {s t u : EasyBaseServer} {conns : List ConnID}

theorem refl (s : EasyBaseServer) : SameSessions s s :=
  ⟨fun _ ↦ rfl, fun _ ↦ rfl, rfl, rfl, rfl, rfl, rfl, rfl, rfl⟩

theorem trans (h : SameSessions s t) (h' : SameSessions t u) : SameSessions s u :=
  ⟨fun q ↦ (h'.ids q).trans (h.ids q), fun q ↦ (h'.back q).trans (h.back q),
    h'.pool.trans h.pool, h'.map.trans h.map, h'.created.trans h.created,
    h'.client.trans h.client, h'.shutdown.trans h.shutdown, h'.array.trans h.array,
    h'.max.trans h.max⟩

theorem attached (h : SameSessions s t) (hs : Attached conns s) : Attached conns t :=
  hs.congr_object h.ids h.back h.pool h.map h.created fun _ _ ↦ by rw [h.client]

end SameSessions

/-! ## 2. The commands -/

section Commands

variable {s t : EasyBaseServer} {platform : Platform} {p : SessionPtr} {e : Executed}

theorem sameSessions_received (b : RecvBuffer) : SameSessions s (s.received p b) := by
  refine ⟨fun q ↦ ?_, fun q ↦ ?_, rfl, rfl, rfl, rfl, rfl, rfl, rfl⟩
  · by_cases hq : q = p
    · rw [hq, EasyBaseServer.received_object]
    · rw [EasyBaseServer.received_object_of_ne hq]
  · by_cases hq : q = p
    · rw [hq, EasyBaseServer.received_object]
    · rw [EasyBaseServer.received_object_of_ne hq]

-- A session without a connection is reset, which changes nothing but its buffer.
theorem sameSessions_disconnect (s : EasyBaseServer) (platform : Platform) (p : SessionPtr) :
    SameSessions s (s.Disconnect platform p).1 := by
  cases hback : (s.object p).m_pConnection with
  | some c =>
      cases platform with
      | WIN32 =>
          simp only [EasyBaseServer.Disconnect, hback]
          exact .refl s
      | LINUX =>
          simp only [EasyBaseServer.Disconnect, hback]
          exact .refl s
  | none =>
      simp only [EasyBaseServer.Disconnect, hback, EasyBaseServer.OnDisconnect]
      refine ⟨fun q ↦ ?_, fun q ↦ ?_, rfl, rfl, rfl, rfl, rfl, rfl, rfl⟩
      · show (Function.update s.object p (s.object p).Reset q).m_iSessionID = _
        by_cases hq : q = p
        · rw [hq, Function.update_self, EasySession.Reset]
        · rw [Function.update_of_ne hq]
      · show (Function.update s.object p (s.object p).Reset q).m_pConnection = _
        by_cases hq : q = p
        · rw [hq, Function.update_self, hback, EasySession.Reset]
        · rw [Function.update_of_ne hq]

theorem sameSessions_shutdown (s : EasyBaseServer) (platform : Platform) :
    SameSessions { s with m_bReadyForShutdown := true } (s._OnCommandShutdown platform).server := by
  have hloop : ∀ (entries : List (Sigma fun _ : ℕ ↦ SessionPtr))
      (u : EasyBaseServer × List Action),
      SameSessions u.1 (entries.foldl (fun u entry ↦
        ((u.1.Disconnect platform entry.2).1, u.2 ++ (u.1.Disconnect platform entry.2).2))
          u).1 := by
    intro entries
    induction entries with
    | nil => exact fun u ↦ .refl u.1
    | cons entry entries ih =>
        intro u
        have hrest := ih ((u.1.Disconnect platform entry.2).1,
          u.2 ++ (u.1.Disconnect platform entry.2).2)
        rw [List.foldl_cons]
        exact (sameSessions_disconnect u.1 platform entry.2).trans hrest
  exact hloop s.m_SessionMap.entries ({ s with m_bReadyForShutdown := true }, [])

/-- What a command does to the sessions. -/
inductive SessionEffect (s : EasyBaseServer) : EasyCommand → EasyBaseServer → Prop
  | connect {c : ConnID} {memory o : EasySession} {p : SessionPtr} {pool : List SessionPtr}
      {created : ℕ} (hs : s.m_bReadyForShutdown = false)
      (ha : Allocates s memory p pool created o) :
      SessionEffect s (.OnConnect c) (s.taken p pool created o c)
  | skipped {c : ConnID} (hs : s.m_bReadyForShutdown = true) : SessionEffect s (.OnConnect c) s
  | disconnect {c : ConnID} {p : SessionPtr} (hp : s.client_ c = some p) :
      SessionEffect s (.OnDisconnect c) (s.released p)
  | unknown {c : ConnID} (hc : s.client_ c = none) : SessionEffect s (.OnDisconnect c) s
  | shutdown {t : EasyBaseServer} (ht : SameSessions { s with m_bReadyForShutdown := true } t) :
      SessionEffect s .Shutdown t
  | data {c : ConnID} {data : EasyCommandOnData} {t : EasyBaseServer} (ht : SameSessions s t) :
      SessionEffect s (.OnData c data) t
  | send {i : ℕ} {r : SendRequest} : SessionEffect s (.SendData i r) s
  | close {i : ℕ} {t : EasyBaseServer} (ht : SameSessions s t) :
      SessionEffect s (.Disconnect i) t

-- Without connections, all sessions are in the pool, and the map is empty.
theorem Attached.nil_iff {conns : List ConnID} (h : Attached conns s) :
    (s.m_SessionMap = ∅ ∧ ∀ p < s.created, (s.object p).m_pConnection = none ∧
      p ∈ s.m_SessionPool.m_ObjectList) ↔ conns = [] := by
  constructor
  · rintro ⟨-, hreleased⟩
    apply List.eq_nil_iff_forall_not_mem.mpr
    intro c hc
    rcases h.bound c hc with ⟨p, -, hback, hlt⟩
    rw [(hreleased p hlt).1] at hback
    cases hback
  · rintro rfl
    constructor
    · apply AList.ext
      apply List.eq_nil_iff_forall_not_mem.mpr
      intro entry hentry
      rcases h.mapped entry.1 entry.2 (AList.mem_lookup_iff.mpr hentry) with ⟨-, c, hc, -⟩
      exact List.not_mem_nil hc
    · intro p hp
      have hpool : p ∈ s.m_SessionPool.m_ObjectList := by
        rcases h.covered p hp with hmem | ⟨c, hc, -⟩
        · exact hmem
        · exact absurd hc List.not_mem_nil
      exact ⟨h.pool_idle p hpool, hpool⟩

-- The inversion of the execution of a command.
theorem Executes.sessionEffect (h : Executes platform s e t) : SessionEffect s e.1 t := by
  rcases e with ⟨command, actions⟩
  rcases h with ⟨d, hd, -, rfl⟩
  cases command with
  | OnConnect c =>
      simp only [EasyBaseServer._OnCommand] at hd
      split at hd
      · rename_i hs
        rw [hd]
        exact .skipped hs
      · rename_i hs
        rcases hd with ⟨memory, rfl⟩
        rcases s.exists_allocates memory with ⟨p, pool, created, o, ha⟩
        rw [EasyBaseServer.onConnect_eq ha]
        exact .connect (Bool.eq_false_iff.mpr hs) ha
  | OnDisconnect c =>
      have hd' : d = s._OnCommandOnDisconnect c := hd
      cases hp : s.client_ c with
      | some p =>
          rw [hd', EasyBaseServer.onDisconnect_eq hp]
          exact .disconnect hp
      | none =>
          rw [hd']
          simp only [EasyBaseServer._OnCommandOnDisconnect, hp]
          exact .unknown hp
  | OnData c data =>
      simp only [EasyBaseServer._OnCommand] at hd
      split at hd
      · rw [hd]
        exact .data (.refl s)
      · cases hp : s.client_ c with
        | some p =>
            rcases (EasyBaseServer.mem_onData hp).mp hd with ⟨u, -, -, rfl⟩
            exact .data (sameSessions_received u.buf)
        | none =>
            simp only [EasyBaseServer._OnCommandOnData, hp, Part.mem_some_iff] at hd
            rw [hd]
            exact .data (.refl s)
  | SendData i r =>
      simp only [EasyBaseServer._OnCommand] at hd
      split at hd
      · rw [hd]
        exact .send
      · rcases hd with ⟨popped, hd⟩
        simp only [EasyBaseServer._OnCommandSendData] at hd
        split at hd
        · rcases Option.map_eq_some_iff.mp hd with ⟨r', -, rfl⟩
          exact .send
        · cases hd
  | Shutdown =>
      have hd' : d = s._OnCommandShutdown platform := hd
      rw [hd']
      exact .shutdown (sameSessions_shutdown s platform)
  | Disconnect i =>
      have hd' : s._OnCommandDisconnect platform i = some d := hd
      simp only [EasyBaseServer._OnCommandDisconnect] at hd'
      split at hd'
      · cases hd'
        exact .close (sameSessions_disconnect s platform _)
      · cases hd'

namespace SessionEffect

variable {command : EasyCommand} {c : ConnID}

theorem shutdown_iff (h : SessionEffect s command t) :
    t.m_bReadyForShutdown = true ↔ s.m_bReadyForShutdown = true ∨ command = .Shutdown := by
  cases h with
  | shutdown ht => simp [ht.shutdown]
  | data ht => simp [ht.shutdown]
  | close ht => simp [ht.shutdown]
  | connect => simp [EasyBaseServer.taken]
  | disconnect => simp [EasyBaseServer.released]
  | skipped => simp
  | unknown => simp
  | send => simp

-- Only a connection that is reported gets a session.
theorem client_iff (h : SessionEffect s command t) :
    t.client_ c ≠ none ↔
      s.client_ c ≠ none ∨ command = .OnConnect c ∧ s.m_bReadyForShutdown = false := by
  cases h with
  | @connect c' memory o p pool created hs ha =>
      by_cases hcc : c = c'
      · simp [hcc, hs]
      · rw [EasyBaseServer.taken_client_of_ne hcc]
        simp [Ne.symm hcc]
  | shutdown ht =>
      rw [ht.client]
      simp
  | data ht =>
      rw [ht.client]
      simp
  | close ht =>
      rw [ht.client]
      simp
  | skipped hs => simp [hs]
  | disconnect => simp [EasyBaseServer.released]
  | unknown => simp
  | send => simp

end SessionEffect

theorem mem_attachedAfter {shutdown : Bool} {conns : List ConnID} {command : EasyCommand}
    {c : ConnID} (hnodup : conns.Nodup) :
    c ∈ attachedAfter shutdown conns command ↔
      c ∈ conns ∧ command ≠ .OnDisconnect c ∨ command = .OnConnect c ∧ shutdown = false := by
  cases command with
  | OnConnect c' =>
      cases shutdown with
      | true => simp [attachedAfter]
      | false => simp [attachedAfter, eq_comm]
  | OnDisconnect c' =>
      simp [attachedAfter, hnodup.mem_erase_iff, and_comm, eq_comm]
  | OnData c' data => simp [attachedAfter]
  | SendData i r => simp [attachedAfter]
  | Shutdown => simp [attachedAfter]
  | Disconnect i => simp [attachedAfter]

theorem Attached.command {conns : List ConnID} {command : EasyCommand} (h : Attached conns s)
    (hst : SessionEffect s command t) (hconnect : ∀ c, command = .OnConnect c → c ∉ conns)
    (hdisconnect : ∀ c, command = .OnDisconnect c → s.client_ c = none ∨ c ∈ conns) :
    Attached (attachedAfter s.m_bReadyForShutdown conns command) t := by
  have hflag : Attached conns { s with m_bReadyForShutdown := true } :=
    h.congr_object (fun _ ↦ rfl) (fun _ ↦ rfl) rfl rfl rfl fun _ _ ↦ rfl
  cases hst with
  | @connect c memory o p pool created hs ha =>
      rw [attachedAfter, hs]
      exact h.connect (hconnect c rfl) ha
  | skipped hs =>
      rw [attachedAfter, hs]
      exact h
  | @disconnect c p hp =>
      rcases hdisconnect c rfl with hnone | hc
      · rw [hnone] at hp
        cases hp
      · exact h.disconnect hc hp
  | @unknown c hnone =>
      have hc : c ∉ conns := by
        intro hc
        rcases h.bound c hc with ⟨p, hp, -⟩
        rw [hnone] at hp
        cases hp
      rw [attachedAfter, List.erase_of_not_mem hc]
      exact h
  | shutdown ht => exact ht.attached hflag
  | data ht => exact ht.attached h
  | send => exact h
  | close ht => exact ht.attached h

/-! ## 3. What the commands do to connections (Windows) -/

/-- The entries of `m_SessionArray` are sessions. -/
def EasyBaseServer.ArrayOk (s : EasyBaseServer) : Prop :=
  ∀ i < s.m_iMaxSession, s.m_SessionArray i < s.created

/-- The actions of a command on connections: `Close` and `AsyncSend` only for those with a
session. -/
inductive Acts (conns : List ConnID) (s : EasyBaseServer) : EasyCommand → List Action → Prop
  | close {c : ConnID} (hc : c ∈ conns) : Acts conns s (.OnDisconnect c) [.Close c]
  | send {i : ℕ} {r : SendRequest} {c : ConnID} {buf : List UInt8} (hc : c ∈ conns) :
      Acts conns s (.SendData i r) [.AsyncSend c buf]
  | other {command : EasyCommand} {actions : List Action}
      (hnone : ∀ c, command = .OnDisconnect c → s.client_ c = none)
      (hactions : ∀ a ∈ actions, (∃ c, a = .AsyncDisconnect c) ∨
        ∃ c packet, a = .OnPacketReceived c packet) : Acts conns s command actions

theorem Attached.back {conns : List ConnID} {c : ConnID} (h : Attached conns s)
    (hp : p < s.created) (hback : (s.object p).m_pConnection = some c) : c ∈ conns := by
  rcases h.covered p hp with hpool | ⟨c', hc', hclient⟩
  · rw [h.pool_idle p hpool] at hback
    cases hback
  · rcases h.bound c' hc' with ⟨q, hq, hback', -⟩
    cases hclient.symm.trans hq
    cases hback.symm.trans hback'
    exact hc'

theorem disconnect_actions (s : EasyBaseServer) (p : SessionPtr) :
    ∀ a ∈ (s.Disconnect .WIN32 p).2, ∃ c, a = .AsyncDisconnect c := by
  cases hback : (s.object p).m_pConnection with
  | some c =>
      simp only [EasyBaseServer.Disconnect, hback]
      exact fun a ha ↦ ⟨c, List.mem_singleton.mp ha⟩
  | none =>
      simp only [EasyBaseServer.Disconnect, hback, EasyBaseServer.OnDisconnect]
      exact fun a ha ↦ absurd ha List.not_mem_nil

theorem shutdown_actions (s : EasyBaseServer) :
    ∀ a ∈ (s._OnCommandShutdown .WIN32).actions, ∃ c, a = .AsyncDisconnect c := by
  have hloop : ∀ (entries : List (Sigma fun _ : ℕ ↦ SessionPtr))
      (u : EasyBaseServer × List Action), (∀ a ∈ u.2, ∃ c, a = .AsyncDisconnect c) →
      ∀ a ∈ (entries.foldl (fun u entry ↦ ((u.1.Disconnect .WIN32 entry.2).1,
        u.2 ++ (u.1.Disconnect .WIN32 entry.2).2)) u).2, ∃ c, a = .AsyncDisconnect c := by
    intro entries
    induction entries with
    | nil => exact fun u hu ↦ hu
    | cons entry entries ih =>
        intro u hu
        rw [List.foldl_cons]
        apply ih
        intro a ha
        rcases List.mem_append.mp ha with hold | hnew
        · exact hu a hold
        · exact disconnect_actions u.1 entry.2 a hnew
  exact hloop s.m_SessionMap.entries ({ s with m_bReadyForShutdown := true }, [])
    fun a ha ↦ absurd ha List.not_mem_nil

theorem Executes.acts {conns : List ConnID} (h : Executes .WIN32 s e t) (hs : Attached conns s)
    (harray : s.ArrayOk) (hclient : ∀ c, e.1 = .OnDisconnect c → s.client_ c = none ∨ c ∈ conns) :
    Acts conns s e.1 e.2 := by
  rcases e with ⟨command, actions⟩
  rcases h with ⟨d, hd, rfl, -⟩
  have hnil : ∀ a ∈ ([] : List Action), (∃ c, a = .AsyncDisconnect c) ∨
      ∃ c packet, a = .OnPacketReceived c packet := fun a ha ↦ absurd ha List.not_mem_nil
  cases command with
  | OnConnect c =>
      simp only [EasyBaseServer._OnCommand] at hd
      split at hd
      · rw [hd]
        exact .other (fun _ he ↦ by cases he) hnil
      · rcases hd with ⟨memory, rfl⟩
        rcases s.exists_allocates memory with ⟨p, pool, created, o, ha⟩
        rw [EasyBaseServer.onConnect_eq ha]
        exact .other (fun _ he ↦ by cases he) hnil
  | OnDisconnect c =>
      have hd' : d = s._OnCommandOnDisconnect c := hd
      rw [hd']
      rcases hclient c rfl with hnone | hc
      · simp only [EasyBaseServer._OnCommandOnDisconnect, hnone]
        refine .other (fun c' he ↦ ?_) hnil
        cases he
        exact hnone
      · rcases hs.bound c hc with ⟨p, hp, hback, -⟩
        rw [EasyBaseServer.onDisconnect_eq hp, hback]
        exact .close hc
  | OnData c data =>
      simp only [EasyBaseServer._OnCommand] at hd
      split at hd
      · rw [hd]
        exact .other (fun _ he ↦ by cases he) hnil
      · cases hp : s.client_ c with
        | some p =>
            rcases (EasyBaseServer.mem_onData hp).mp hd with ⟨u, -, -, rfl⟩
            refine .other (fun _ he ↦ by cases he) fun a ha ↦ .inr ?_
            rcases List.mem_map.mp ha with ⟨packet, -, rfl⟩
            exact ⟨c, packet, rfl⟩
        | none =>
            simp only [EasyBaseServer._OnCommandOnData, hp, Part.mem_some_iff] at hd
            rw [hd]
            exact .other (fun _ he ↦ by cases he) hnil
  | SendData i r =>
      simp only [EasyBaseServer._OnCommand] at hd
      split at hd
      · rw [hd]
        exact .other (fun _ he ↦ by cases he) hnil
      · rcases hd with ⟨popped, hd⟩
        simp only [EasyBaseServer._OnCommandSendData] at hd
        split at hd
        · rename_i hi
          rcases Option.map_eq_some_iff.mp hd with ⟨r', hr', rfl⟩
          simp only [EasySession.SendData] at hr'
          cases popped with
          | false =>
              cases hr'
              exact .other (fun _ he ↦ by cases he) hnil
          | true =>
              rcases Option.map_eq_some_iff.mp hr' with ⟨c, hback, rfl⟩
              exact .send (hs.back (harray i hi) hback)
        · cases hd
  | Shutdown =>
      have hd' : d = s._OnCommandShutdown .WIN32 := hd
      rw [hd']
      exact .other (fun _ he ↦ by cases he) fun a ha ↦ .inl (shutdown_actions s a ha)
  | Disconnect i =>
      have hd' : s._OnCommandDisconnect .WIN32 i = some d := hd
      simp only [EasyBaseServer._OnCommandDisconnect] at hd'
      split at hd'
      · cases hd'
        exact .other (fun _ he ↦ by cases he) fun a ha ↦ .inl (disconnect_actions s _ a ha)
      · cases hd'

theorem SameSessions.arrayOk (h : SameSessions s t) (harray : s.ArrayOk) : t.ArrayOk := by
  intro i hi
  rw [h.max] at hi
  rw [h.array, h.created]
  exact harray i hi

-- The array stays, and the sessions too.
theorem SessionEffect.arrayOk {conns : List ConnID} {command : EasyCommand}
    (h : SessionEffect s command t) (hs : Attached conns s) (harray : s.ArrayOk) : t.ArrayOk := by
  cases h with
  | connect _ ha => exact fun i hi ↦ Nat.lt_of_lt_of_le (harray i hi) (hs.allocates ha).2.1
  | shutdown ht => exact ht.arrayOk harray
  | data ht => exact ht.arrayOk harray
  | close ht => exact ht.arrayOk harray
  | disconnect => exact harray
  | skipped => exact harray
  | unknown => exact harray
  | send => exact harray

theorem arrayOk_initialized (iMaxSession : ℕ) (memory : SessionPtr → EasySession)
    (array : ℕ → SessionPtr) : (EasyBaseServer.initialized iMaxSession memory array).ArrayOk := by
  intro i hi
  cases iMaxSession with
  | zero => exact absurd hi (Nat.not_lt_zero i)
  | succ k =>
      rw [EasyBaseServer.initialized_succ] at hi ⊢
      show (if i ≤ k then 0 else array i) < 1
      rw [if_pos (Nat.le_of_lt_succ hi)]
      exact Nat.zero_lt_one

end Commands

end Fantuan
