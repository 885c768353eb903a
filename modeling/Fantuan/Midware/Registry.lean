import Fantuan.Midware.Initialize

/-!
# The session registry

The pool, `m_SessionMap` and the connections' sessions fit together as long as no connection is
reported when the pool is dry: a session that is created then has id 0 like any other new one.
-/

open Lib

namespace Fantuan

/-- With the connections `conns` open, their sessions have ids of their own, `m_SessionMap` holds
just these sessions under their ids, none of them is in the pool, and the end of a connection
removes just its own entry. -/
structure RegistryOk (conns : List ConnID) (s : EasyBaseServer) : Prop where
  bound : ∀ c ∈ conns, ∃ p, s.client_ c = some p ∧ (s.object p).m_pConnection = some c
  distinct : ∀ c ∈ conns, ∀ c' ∈ conns, ∀ p p', s.client_ c = some p → s.client_ c' = some p' →
    (s.object p).m_iSessionID = (s.object p').m_iSessionID → c = c'
  mapped : ∀ id p, s.m_SessionMap.lookup id = some p ↔
    ∃ c ∈ conns, s.client_ c = some p ∧ (s.object p).m_iSessionID = id
  apart : ∀ c ∈ conns, ∀ p, s.client_ c = some p → p ∉ s.m_SessionPool.m_ObjectList
  removes : ∀ c ∈ conns, ∀ p, s.client_ c = some p → ∀ id q,
    (s._OnCommandOnDisconnect c).server.m_SessionMap.lookup id = some q ↔
      s.m_SessionMap.lookup id = some q ∧ q ≠ p

/-- A server whose pool holds sessions with the ids below `m_iMaxSession`. -/
structure EasyBaseServer.Prepared (s : EasyBaseServer) : Prop where
  idle : s.Idle
  ids : (s.m_SessionPool.m_ObjectList.map fun p ↦ (s.object p).m_iSessionID).Perm
    (List.range s.m_iMaxSession)
  map_empty : s.m_SessionMap = ∅

/-- A connection is reported only when fewer than `iMaxSession` are open, or none. -/
def HasRoom (iMaxSession : ℕ) (before : List Executed) (e : Executed) : Prop :=
  ∀ c, e.1 = .OnConnect c → (live before).length < max iMaxSession 1

/-! ## 1. The ids -/

namespace EasyBaseServer

variable {s : EasyBaseServer} {p : SessionPtr} {pool : List SessionPtr} {created : ℕ} {c : ConnID}

@[simp] theorem taken_id (q : SessionPtr) :
    ((s.taken p pool created (s.object p) c).object q).m_iSessionID =
      (s.object q).m_iSessionID := by
  by_cases h : q = p
  · rw [h, taken_object]
  · rw [taken_object_of_ne h]

@[simp] theorem released_id (q : SessionPtr) :
    ((s.released p).object q).m_iSessionID = (s.object q).m_iSessionID := by
  by_cases h : q = p
  · rw [h, released_object]
    rfl
  · rw [released_object_of_ne h]

@[simp] theorem received_id (b : RecvBuffer) (q : SessionPtr) :
    ((s.received p b).object q).m_iSessionID = (s.object q).m_iSessionID := by
  by_cases h : q = p
  · rw [h, received_object]
  · rw [received_object_of_ne h]

end EasyBaseServer

/-- The invariant of the registry: all sessions in the pool or in use have ids of their own, and
those in use are the entries of the map. -/
structure Registered (iMaxSession : ℕ) (conns : List ConnID) (s : EasyBaseServer) : Prop where
  owned : Owned conns s
  count : iMaxSession ≤ s.m_SessionPool.m_ObjectList.length + conns.length
  pool_ids : (s.m_SessionPool.m_ObjectList.map fun p ↦ (s.object p).m_iSessionID).Nodup
  live_ids : ∀ c ∈ conns, ∀ c' ∈ conns, ∀ p p', s.client_ c = some p → s.client_ c' = some p' →
    (s.object p).m_iSessionID = (s.object p').m_iSessionID → c = c'
  apart_ids : ∀ q ∈ s.m_SessionPool.m_ObjectList, ∀ c ∈ conns, ∀ p, s.client_ c = some p →
    (s.object q).m_iSessionID ≠ (s.object p).m_iSessionID
  mapped : ∀ id p, s.m_SessionMap.lookup id = some p ↔
    ∃ c ∈ conns, s.client_ c = some p ∧ (s.object p).m_iSessionID = id

namespace Registered

variable {iMaxSession : ℕ} {conns : List ConnID} {s : EasyBaseServer} {memory : EasySession}
  {p : SessionPtr} {pool : List SessionPtr} {c : ConnID}

theorem lookup_of_live (h : Registered iMaxSession conns s) (hc : c ∈ conns)
    (hp : s.client_ c = some p) : s.m_SessionMap.lookup (s.object p).m_iSessionID = some p :=
  (h.mapped _ _).mpr ⟨c, hc, hp, rfl⟩

-- Removing the id of one connection's session removes that session's entry only.
theorem lookup_erase (h : Registered iMaxSession conns s) (hc : c ∈ conns)
    (hp : s.client_ c = some p) (id : ℕ) (q : SessionPtr) :
    (s.m_SessionMap.erase (s.object p).m_iSessionID).lookup id = some q ↔
      s.m_SessionMap.lookup id = some q ∧ q ≠ p := by
  -- under the id itself there was `p` and is nothing now, and `p` is under no other id
  by_cases hid : id = (s.object p).m_iSessionID
  · rw [hid, AList.lookup_erase, h.lookup_of_live hc hp]
    constructor
    · intro h
      cases h
    · rintro ⟨hq, hne⟩
      exact absurd (Option.some.inj hq).symm hne
  · rw [AList.lookup_erase_ne hid]
    constructor
    · intro hq
      refine ⟨hq, ?_⟩
      rintro rfl
      rcases (h.mapped id q).mp hq with ⟨c', -, -, hid'⟩
      exact hid hid'.symm
    · exact fun hq ↦ hq.1

-- An id that no open connection's session has is not in the map.
theorem lookup_insert (h : Registered iMaxSession conns s) {i : ℕ}
    (hi : ∀ c ∈ conns, ∀ p, s.client_ c = some p → (s.object p).m_iSessionID ≠ i) (id : ℕ) :
    (s.insert i p).m_SessionMap.lookup id =
      if id = i then some p else s.m_SessionMap.lookup id := by
  have hnot : i ∉ s.m_SessionMap := by
    intro hmem
    rcases Option.isSome_iff_exists.mp (AList.lookup_isSome.mpr hmem) with ⟨q, hq⟩
    rcases (h.mapped i q).mp hq with ⟨c', hc', hp', hid'⟩
    exact hi c' hc' q hp' hid'
  show (if i ∈ s.m_SessionMap then s.m_SessionMap else s.m_SessionMap.insert i p).lookup id = _
  rw [if_neg hnot]
  split
  · rename_i hid
    rw [hid, AList.lookup_insert]
  · rename_i hid
    rw [AList.lookup_insert_ne hid]

section Connect

variable {created : ℕ} {o : EasySession} {c' : ConnID} {q : SessionPtr}

-- The sessions of the connections once `c` has got `p`.
theorem client_taken (hc : c ∉ conns) (hc' : c' ∈ conns ++ [c])
    (hq : (s.taken p pool created o c).client_ c' = some q) :
    c' ∈ conns ∧ s.client_ c' = some q ∨ c' = c ∧ q = p := by
  rcases List.mem_append.mp hc' with hmem | hmem
  · have hne : c' ≠ c := by
      rintro rfl
      exact hc hmem
    rw [EasyBaseServer.taken_client_of_ne hne] at hq
    exact .inl ⟨hmem, hq⟩
  · cases List.mem_singleton.mp hmem
    rw [EasyBaseServer.taken_client, Option.some.injEq] at hq
    exact .inr ⟨rfl, hq.symm⟩

theorem id_taken : ((s.taken p pool created o c).object p).m_iSessionID = o.m_iSessionID := by
  rw [EasyBaseServer.taken_object]

-- The ids of the other sessions stay.
theorem id_taken_of_pool (h : Registered iMaxSession conns s)
    (ha : Allocates s memory p pool created o) (hq : q ∈ pool) :
    ((s.taken p pool created o c).object q).m_iSessionID = (s.object q).m_iSessionID := by
  rcases h.owned.allocates ha with ⟨-, -, -, -, hnot, -⟩
  rw [EasyBaseServer.taken_object_of_ne]
  rintro rfl
  exact hnot hq

theorem id_taken_of_live (h : Registered iMaxSession conns s)
    (ha : Allocates s memory p pool created o) (hc' : c' ∈ conns) (hq : s.client_ c' = some q) :
    ((s.taken p pool created o c).object q).m_iSessionID = (s.object q).m_iSessionID := by
  rcases h.owned.allocates ha with ⟨-, -, -, -, -, -, -, hfree⟩
  rw [EasyBaseServer.taken_object_of_ne]
  rintro rfl
  exact hfree c' hc' hq

-- The map once the session `p`, whose id no connection's session has, is in use.
theorem mapped_taken (h : Registered iMaxSession conns s) (hc : c ∉ conns)
    (ha : Allocates s memory p pool created o)
    (hlive : ∀ c' ∈ conns, ∀ q, s.client_ c' = some q →
      (s.object q).m_iSessionID ≠ o.m_iSessionID) (id : ℕ) (q : SessionPtr) :
    (s.taken p pool created o c).m_SessionMap.lookup id = some q ↔
      ∃ c' ∈ conns ++ [c], (s.taken p pool created o c).client_ c' = some q ∧
        ((s.taken p pool created o c).object q).m_iSessionID = id := by
  show (s.insert o.m_iSessionID p).m_SessionMap.lookup id = some q ↔ _
  rw [h.lookup_insert hlive]
  -- the new entry is that of `c`, the old ones are those of the other connections
  constructor
  · intro hq
    split at hq
    · rename_i hid
      rw [Option.some.injEq] at hq
      subst hq
      exact ⟨c, List.mem_append_right _ (List.mem_singleton_self c), by simp,
        id_taken.trans hid.symm⟩
    · rcases (h.mapped id q).mp hq with ⟨c', hc', hp', hid'⟩
      have hne : c' ≠ c := by
        rintro rfl
        exact hc hc'
      refine ⟨c', List.mem_append_left _ hc', ?_, (h.id_taken_of_live ha hc' hp').trans hid'⟩
      rw [EasyBaseServer.taken_client_of_ne hne, hp']
  · rintro ⟨c', hc', hp', hid'⟩
    rcases client_taken hc hc' hp' with ⟨hmem, hp''⟩ | ⟨rfl, rfl⟩
    · rw [h.id_taken_of_live ha hmem hp''] at hid'
      have hne : id ≠ o.m_iSessionID := by
        rw [← hid']
        exact hlive c' hmem q hp''
      rw [if_neg hne]
      exact (h.mapped id q).mpr ⟨c', hmem, hp'', hid'⟩
    · rw [id_taken] at hid'
      rw [if_pos hid'.symm]

-- A connection gets a session whose id is not in use.
theorem connect (h : Registered iMaxSession conns s) (hc : c ∉ conns)
    (ha : Allocates s memory p pool created o)
    (hlive : ∀ c' ∈ conns, ∀ q, s.client_ c' = some q →
      (s.object q).m_iSessionID ≠ o.m_iSessionID)
    (hids : ∀ q ∈ pool, (s.object q).m_iSessionID ≠ o.m_iSessionID)
    (hcount : iMaxSession ≤ pool.length + conns.length + 1) :
    Registered iMaxSession (conns ++ [c]) (s.taken p pool created o c) := by
  refine ⟨h.owned.connect hc ha, ?_, ?_, ?_, ?_, h.mapped_taken hc ha hlive⟩
  · show iMaxSession ≤ pool.length + (conns ++ [c]).length
    rw [List.length_append, List.length_singleton]
    exact hcount
  · show (pool.map _).Nodup
    rw [List.map_congr_left fun q hq ↦ h.id_taken_of_pool ha hq]
    cases ha with
    | pooled heq =>
        have hnodup := h.pool_ids
        rw [heq, List.map_cons, List.nodup_cons] at hnodup
        exact hnodup.2
    | new => exact List.nodup_nil
  · intro c₁ hc₁ c₂ hc₂ p₁ p₂ hp₁ hp₂ hid
    -- two connections that were there, the new one and one of them, or the new one twice
    rcases client_taken hc hc₁ hp₁ with ⟨hm₁, hp₁'⟩ | ⟨rfl, rfl⟩ <;>
      rcases client_taken hc hc₂ hp₂ with ⟨hm₂, hp₂'⟩ | ⟨rfl, rfl⟩
    · rw [h.id_taken_of_live ha hm₁ hp₁', h.id_taken_of_live ha hm₂ hp₂'] at hid
      exact h.live_ids c₁ hm₁ c₂ hm₂ p₁ p₂ hp₁' hp₂' hid
    · rw [h.id_taken_of_live ha hm₁ hp₁', id_taken] at hid
      exact absurd hid (hlive c₁ hm₁ p₁ hp₁')
    · rw [h.id_taken_of_live ha hm₂ hp₂', id_taken] at hid
      exact absurd hid.symm (hlive c₂ hm₂ p₂ hp₂')
    · rfl
  · intro q hq c' hc' p' hp'
    rcases h.owned.allocates ha with ⟨-, -, -, -, -, -, hsub, -⟩
    rw [h.id_taken_of_pool ha hq]
    rcases client_taken hc hc' hp' with ⟨hmem, hp''⟩ | ⟨rfl, rfl⟩
    · rw [h.id_taken_of_live ha hmem hp'']
      exact h.apart_ids q (hsub q hq) c' hmem p' hp''
    · rw [id_taken]
      exact hids q hq

end Connect

theorem disconnect (h : Registered iMaxSession conns s) (hnodup : conns.Nodup) (hc : c ∈ conns)
    (hp : s.client_ c = some p) (hback : (s.object p).m_pConnection = some c) :
    Registered iMaxSession (conns.erase c) (s.released p) := by
  have hids : ∀ q, ((s.released p).object q).m_iSessionID = (s.object q).m_iSessionID :=
    EasyBaseServer.released_id
  have hold : ∀ c' ∈ conns.erase c, c' ∈ conns := fun c' ↦ List.mem_of_mem_erase
  have hne : ∀ c' ∈ conns.erase c, c' ≠ c := by
    rintro c' hc' rfl
    exact hnodup.not_mem_erase hc'
  have hcount := h.count
  have hpos : 0 < conns.length := List.length_pos_of_mem hc
  refine ⟨h.owned.disconnect hnodup hc hp hback, ?_, ?_, ?_, ?_, ?_⟩
  · show iMaxSession ≤ (s.m_SessionPool.m_ObjectList ++ [p]).length + (conns.erase c).length
    rw [List.length_append, List.length_singleton, List.length_erase_of_mem hc]
    omega
  · show ((s.m_SessionPool.m_ObjectList ++ [p]).map _).Nodup
    simp only [hids]
    rw [List.map_append, List.nodup_append_comm]
    apply List.nodup_cons.mpr
    refine ⟨fun hmem ↦ ?_, h.pool_ids⟩
    rcases List.mem_map.mp hmem with ⟨q, hq, hid⟩
    exact h.apart_ids q hq c hc p hp hid
  · intro c₁ hc₁ c₂ hc₂ p₁ p₂ hp₁ hp₂ hid
    rw [hids, hids] at hid
    exact h.live_ids c₁ (hold c₁ hc₁) c₂ (hold c₂ hc₂) p₁ p₂ hp₁ hp₂ hid
  · intro q hq c' hc' p' hp'
    rw [hids, hids]
    -- the session that is freed keeps its id, which no other connection's session has
    rcases List.mem_append.mp hq with hq | hq
    · exact h.apart_ids q hq c' (hold c' hc') p' hp'
    · cases List.mem_singleton.mp hq
      exact fun hid ↦ hne c' hc' (h.live_ids c' (hold c' hc') c hc p' p hp' hp hid.symm)
  · intro id q
    show (s.m_SessionMap.erase (s.object p).m_iSessionID).lookup id = some q ↔ _
    rw [h.lookup_erase hc hp, h.mapped]
    constructor
    · rintro ⟨⟨c', hc', hp', hid'⟩, hqp⟩
      refine ⟨c', (List.mem_erase_of_ne ?_).mpr hc', hp', (hids q).trans hid'⟩
      rintro rfl
      exact hqp (Option.some.inj (hp'.symm.trans hp))
    · rintro ⟨c', hc', hp', hid'⟩
      refine ⟨⟨c', hold c' hc', hp', (hids q).symm.trans hid'⟩, ?_⟩
      rintro rfl
      exact hne c' hc' (h.live_ids c' (hold c' hc') c hc q q hp' hp rfl)

theorem data (h : Registered iMaxSession conns s) (hback : (s.object p).m_pConnection = some c)
    (b : RecvBuffer) : Registered iMaxSession conns (s.received p b) := by
  have hids : ∀ q, ((s.received p b).object q).m_iSessionID = (s.object q).m_iSessionID :=
    EasyBaseServer.received_id b
  refine ⟨h.owned.data hback b, h.count, ?_, ?_, ?_, ?_⟩
  · simp only [hids]
    exact h.pool_ids
  · simp only [hids]
    exact h.live_ids
  · simp only [hids]
    exact h.apart_ids
  · simp only [hids]
    exact h.mapped

theorem step {es : List Executed} {e : Executed} {t : EasyBaseServer}
    (h : Registered iMaxSession (live es) s) (hes : Each Reported es)
    (hroom : HasRoom iMaxSession es e) (hst : NetworkStep (live es) s e t) :
    Registered iMaxSession (live (es ++ [e])) t := by
  rw [live_snoc]
  cases hst with
  | @connect c memory p pool created o hc ha =>
      have hlt := hroom c rfl
      have hcount := h.count
      cases ha with
      | @pooled _ _ hpool =>
          have hmem : p ∈ s.m_SessionPool.m_ObjectList := by
            rw [hpool]
            exact List.mem_cons_self
          have hnodup := h.pool_ids
          rw [hpool, List.map_cons, List.nodup_cons] at hnodup
          rw [hpool, List.length_cons] at hcount
          have ha : Allocates s memory p pool s.created (s.object p) := .pooled hpool
          apply h.connect hc ha
          · exact fun c' hc' q hq hid ↦ h.apart_ids p hmem c' hc' q hq hid.symm
          · exact fun q hq hid ↦ hnodup.1 (hid ▸ List.mem_map_of_mem hq)
          · omega
      | new hpool =>
          -- with the pool dry and room left there is no other session
          rw [hpool, List.length_nil] at hcount
          have hnil : live es = [] := List.length_eq_zero_iff.mp (by omega)
          apply h.connect hc (.new hpool)
          · rw [hnil]
            exact fun c' hc' ↦ absurd hc' List.not_mem_nil
          · exact fun q hq ↦ absurd hq List.not_mem_nil
          · rw [List.length_nil]
            omega
  | disconnect hc hp hback => exact h.disconnect (live_spec hes).1 hc hp hback
  | data hc hp hback => exact h.data hback _

theorem ok (h : Registered iMaxSession conns s) : RegistryOk conns s := by
  refine ⟨fun c hc ↦ ?_, h.live_ids, h.mapped, fun c hc p hp hmem ↦ ?_, fun c hc p hp id q ↦ ?_⟩
  · rcases h.owned.bound c hc with ⟨p, hp, hback, -⟩
    exact ⟨p, hp, hback⟩
  · exact h.apart_ids p hmem c hc p hp rfl
  · rw [EasyBaseServer.onDisconnect_eq hp]
    exact h.lookup_erase hc hp id q

end Registered

theorem EasyBaseServer.Prepared.registered {s : EasyBaseServer} (h : s.Prepared) :
    Registered s.m_iMaxSession [] s := by
  have hlen := h.ids.length_eq
  rw [List.length_map, List.length_range] at hlen
  refine ⟨h.idle, ?_, ?_, fun c hc ↦ absurd hc List.not_mem_nil,
    fun q _ c hc ↦ absurd hc List.not_mem_nil, fun id p ↦ ?_⟩
  · rw [hlen]
    exact Nat.le_refl _
  · exact h.ids.nodup_iff.mpr List.nodup_range
  · rw [h.map_empty, AList.lookup_empty]
    constructor
    · intro h
      cases h
    · rintro ⟨c, hc, -⟩
      exact absurd hc List.not_mem_nil

/-- **The registry** is sound after every run of reports in which connections find room. -/
theorem registry_of_room (platform : Platform) (s t : EasyBaseServer) (es : List Executed)
    (hs : s.Prepared) (h : Path (Executes platform) s es t) (hes : Each Reported es)
    (hroom : Each (HasRoom s.m_iMaxSession) es) : RegistryOk (live es) t := by
  have hinv : Registered s.m_iMaxSession (live es) t := by
    refine h.invariant (I := fun es t ↦ Registered s.m_iMaxSession (live es) t)
      (each_and.mpr ⟨hes, hroom⟩) hs.registered fun before s' e t' hbefore hreg he hst ↦ ?_
    rw [each_and] at hbefore
    exact hreg.step hbefore.1 he.2 (hreg.owned.networkStep hbefore.1 he.1 hst)
  exact hinv.ok

/-- The server with one session, as it is before any connection. -/
def oneSession : EasyBaseServer := .initialized 1 (fun _ ↦ zeroSession) fun _ ↦ 0

theorem oneSession_eq : oneSession = .aliased 1 (fun _ ↦ zeroSession) (fun _ ↦ 0) 0 :=
  EasyBaseServer.initialized_succ _ _ 0

theorem oneSession_prepared : oneSession.Prepared := by
  refine ⟨EasyBaseServer.idle_initialized 1 _ _, ?_, ?_⟩ <;> rw [oneSession_eq]
  · exact List.Perm.refl [0]
  · rfl

/-- A server with two sessions in its pool, whose ids are 0 and 1. -/
def twoSessions : EasyBaseServer where
  m_iMaxSession := 2
  m_bReadyForShutdown := false
  m_SessionPool := ⟨[0, 1]⟩
  m_SessionMap := ∅
  m_SessionArray := id
  object p := { zeroSession with m_iSessionID := p }
  created := 2
  client_ _ := none

theorem twoSessions_prepared : twoSessions.Prepared := by
  refine ⟨⟨rfl, by decide, ?_, fun p _ ↦ ⟨rfl, rfl⟩, fun c hc ↦ absurd hc List.not_mem_nil⟩,
    List.Perm.refl [0, 1], rfl⟩
  show ∀ p ∈ [0, 1], p < 2
  decide

/-- Two connections, of which the first one ends. -/
theorem registry_two_connections :
    ∃ t, Path (Executes .LINUX) twoSessions
        ([] ++ [(.OnConnect 7, [])] ++ [(.OnConnect 8, [])] ++ [(.OnDisconnect 7, [.Close 7])]) t ∧
      RegistryOk [8] t := by
  have ha : Allocates twoSessions zeroSession 0 [1] 2 (twoSessions.object 0) := .pooled rfl
  have h₁ : NetworkStep [] twoSessions (.OnConnect 7, [])
      (twoSessions.taken 0 [1] 2 (twoSessions.object 0) 7) := .connect List.not_mem_nil ha
  generalize hs : twoSessions.taken 0 [1] 2 (twoSessions.object 0) 7 = s at h₁
  have hpool : s.m_SessionPool.m_ObjectList = [1] := by rw [← hs]; rfl
  have hb : Allocates s zeroSession 1 [] s.created (s.object 1) := .pooled hpool
  have h₂ : NetworkStep [7] s (.OnConnect 8, []) (s.taken 1 [] s.created (s.object 1) 8) :=
    .connect (by decide) hb
  have hclient : (s.taken 1 [] s.created (s.object 1) 8).client_ 7 = some 0 := by
    rw [EasyBaseServer.taken_client_of_ne (by decide), ← hs, EasyBaseServer.taken_client]
  have hback : ((s.taken 1 [] s.created (s.object 1) 8).object 0).m_pConnection = some 7 := by
    rw [EasyBaseServer.taken_object_of_ne (by decide), ← hs, EasyBaseServer.taken_object]
  have h₃ := NetworkStep.disconnect (by decide : 7 ∈ [7, 8]) hclient hback
  have hrunning : s.m_bReadyForShutdown = false := by rw [← hs]; rfl
  have hpath := ((Path.nil.snoc (h₁.executes .LINUX rfl)).snoc (h₂.executes .LINUX hrunning)).snoc
    (h₃.executes .LINUX hrunning)
  refine ⟨_, hpath, registry_of_room .LINUX twoSessions _ _ twoSessions_prepared hpath ?_ ?_⟩
  · simp only [each_snoc, each_nil, true_and]
    simp [Reported, live, liveAfter]
  · simp only [each_snoc, each_nil, true_and]
    simp [HasRoom, live, liveAfter, twoSessions]

/-- With one session and two connections, both sessions have id 0. -/
theorem registry_dry :
    oneSession.Prepared ∧
      ∃ es t, Path (Executes .LINUX) oneSession es t ∧ Each Reported es ∧
        ¬ RegistryOk (live es) t := by
  refine ⟨oneSession_prepared, ?_⟩
  rw [oneSession_eq]
  generalize hs : EasyBaseServer.aliased 1 (fun _ ↦ zeroSession) (fun _ ↦ 0) 0 = s
  have ha : Allocates s zeroSession 0 [] s.created (s.object 0) := .pooled (by rw [← hs]; rfl)
  have hs₁ : NetworkStep [] s (.OnConnect 0, []) (s.taken 0 [] s.created (s.object 0) 0) :=
    .connect List.not_mem_nil ha
  generalize ht : s.taken 0 [] s.created (s.object 0) 0 = t at hs₁
  have hs₂ : NetworkStep [0] t (.OnConnect 1, [])
      (t.taken t.created [] (t.created + 1) zeroSession.construct 1) :=
    .connect (by decide) (.new (by rw [← ht]; rfl))
  have hnew : t.created = 1 := by
    rw [← ht, ← hs]
    rfl
  refine ⟨_, _, (Path.nil.snoc (hs₁.executes .LINUX ?_)).snoc (hs₂.executes .LINUX ?_), ?_, ?_⟩
  · rw [← hs]
    rfl
  · rw [← ht, ← hs]
    rfl
  · simp only [each_snoc, each_nil, true_and]
    simp [Reported]
  · intro hok
    rw [hnew] at hok
    have hzero : (0 : ConnID) = 1 := by
      apply hok.distinct 0 (by decide) 1 (by decide) 0 1
      · rw [EasyBaseServer.taken_client_of_ne (by decide), ← ht, EasyBaseServer.taken_client]
      · rw [EasyBaseServer.taken_client]
      · rw [EasyBaseServer.taken_object_of_ne (by decide), EasyBaseServer.taken_object, ← ht,
          EasyBaseServer.taken_object, ← hs]
        rfl
    cases hzero

end Fantuan
