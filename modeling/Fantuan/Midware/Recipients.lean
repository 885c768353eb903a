import Fantuan.Midware.Broadcast
import Fantuan.Midware.Registry

/-!
# How many clients get a message

The sessions that `Initialize` leaves in the pool are one session, with the last id; every session
that is created later keeps the id of the constructor.  Sessions of one id cannot be in
`m_SessionMap` together.
-/

open Lib

namespace Fantuan

/-! ## 1. Two ids -/

/-- All sessions have the id 0 or `k`. -/
structure TwoIds (k : ℕ) (s : EasyBaseServer) : Prop where
  ids : ∀ p < s.created, (s.object p).m_iSessionID = 0 ∨ (s.object p).m_iSessionID = k
  pool : ∀ p ∈ s.m_SessionPool.m_ObjectList, p < s.created
  client : ∀ c p, s.client_ c = some p → p < s.created
  keys : ∀ id ∈ s.m_SessionMap, id = 0 ∨ id = k

namespace TwoIds

variable {k : ℕ} {s t : EasyBaseServer} {command : EasyCommand}

theorem init (iMaxSession : ℕ) (memory : SessionPtr → EasySession) (array : ℕ → SessionPtr) :
    TwoIds (iMaxSession - 1) (.initialized iMaxSession memory array) := by
  cases iMaxSession with
  | zero =>
      exact ⟨fun p hp ↦ absurd hp (Nat.not_lt_zero p), fun p hp ↦ absurd hp List.not_mem_nil,
        nofun, fun id hid ↦ absurd hid (AList.notMem_empty id)⟩
  | succ k =>
      rw [EasyBaseServer.initialized_succ]
      refine ⟨fun p hp ↦ .inr ?_, fun p hp ↦ ?_, nofun,
        fun id hid ↦ absurd hid (AList.notMem_empty id)⟩
      · cases Nat.lt_one_iff.mp hp
        simp only [EasyBaseServer.aliased, Function.update_self, Nat.add_sub_cancel]
      · cases List.mem_singleton.mp hp
        exact Nat.zero_lt_one

theorem sameSessions (h : TwoIds k s) (hst : SameSessions s t) : TwoIds k t where
  ids p hp := by
    rw [hst.created] at hp
    rw [hst.ids]
    exact h.ids p hp
  pool := by
    rw [hst.pool, hst.created]
    exact h.pool
  client := by
    rw [hst.client, hst.created]
    exact h.client
  keys := by
    rw [hst.map]
    exact h.keys

theorem taken {memory o : EasySession} {p : SessionPtr} {pool : List SessionPtr} {created : ℕ}
    (h : TwoIds k s) (ha : Allocates s memory p pool created o) (c : ConnID) :
    TwoIds k (s.taken p pool created o c) := by
  have hspec : p < created ∧ s.created ≤ created ∧ (∀ q ∈ pool, q < s.created) ∧
      (o.m_iSessionID = 0 ∨ o.m_iSessionID = k) ∧ ∀ q < created, q = p ∨ q < s.created := by
    cases ha with
    | pooled hpool =>
        have hmem : p ∈ s.m_SessionPool.m_ObjectList := by
          rw [hpool]
          exact List.mem_cons_self
        refine ⟨h.pool p hmem, Nat.le_refl _, fun q hq ↦ h.pool q ?_, h.ids p (h.pool p hmem),
          fun q hq ↦ .inr hq⟩
        rw [hpool]
        exact List.mem_cons_of_mem p hq
    | new hpool =>
        exact ⟨Nat.lt_succ_self _, Nat.le_succ _, fun q hq ↦ absurd hq List.not_mem_nil, .inl rfl,
          fun q hq ↦ by omega⟩
  obtain ⟨hp, hcreated, hpool, hid, hcases⟩ := hspec
  refine ⟨fun q hq ↦ ?_, fun q hq ↦ Nat.lt_of_lt_of_le (hpool q hq) hcreated, fun c' q hq ↦ ?_,
    fun id hid' ↦ ?_⟩
  · by_cases hqp : q = p
    · rw [hqp, EasyBaseServer.taken_object]
      exact hid
    · rw [EasyBaseServer.taken_object_of_ne hqp]
      exact h.ids q ((hcases q hq).resolve_left hqp)
  · by_cases hcc : c' = c
    · rw [hcc, EasyBaseServer.taken_client] at hq
      cases hq
      exact hp
    · rw [EasyBaseServer.taken_client_of_ne hcc] at hq
      exact Nat.lt_of_lt_of_le (h.client c' q hq) hcreated
  · have hmem : id ∈ (if o.m_iSessionID ∈ s.m_SessionMap then s.m_SessionMap
        else s.m_SessionMap.insert o.m_iSessionID p) := hid'
    split at hmem
    · exact h.keys id hmem
    · rcases (AList.mem_insert s.m_SessionMap).mp hmem with rfl | hold
      · exact hid
      · exact h.keys id hold

theorem released {p : SessionPtr} (h : TwoIds k s) (hp : p < s.created) :
    TwoIds k (s.released p) := by
  refine ⟨fun q hq ↦ ?_, fun q hq ↦ ?_, h.client, fun id hid ↦ ?_⟩
  · rw [EasyBaseServer.released_id]
    exact h.ids q hq
  · rcases List.mem_append.mp hq with hq | hq
    · exact h.pool q hq
    · cases List.mem_singleton.mp hq
      exact hp
  · exact h.keys id (AList.mem_erase.mp hid).2

theorem step (h : TwoIds k s) (hst : SessionEffect s command t) : TwoIds k t := by
  cases hst with
  | connect _ ha => exact h.taken ha _
  | skipped => exact h
  | disconnect hp => exact h.released (h.client _ _ hp)
  | unknown => exact h
  | shutdown ht =>
      have hflag : TwoIds k { s with m_bReadyForShutdown := true } :=
        ⟨h.ids, h.pool, h.client, h.keys⟩
      exact hflag.sameSessions ht
  | data ht => exact h.sameSessions ht
  | send => exact h
  | close ht => exact h.sameSessions ht

theorem of_path {platform : Platform} {es : List Executed} (h : TwoIds k s)
    (hpath : Path (Executes platform) s es t) : TwoIds k t :=
  hpath.always (I := fun _ ↦ TwoIds k) h fun _ _ _ _ h hst ↦ h.step hst.sessionEffect

theorem length_le (h : TwoIds k s) : s.m_SessionMap.entries.length ≤ 2 := by
  have hsub : s.m_SessionMap.keys ⊆ [0, k] := by
    intro id hid
    rcases h.keys id (AList.mem_keys.mpr hid) with rfl | rfl
    · exact List.mem_cons_self
    · exact List.mem_cons_of_mem 0 (List.mem_singleton_self _)
  have hlen := (s.m_SessionMap.keys_nodup.subperm hsub).length_le
  rwa [AList.keys, List.keys, List.length_map] at hlen

end TwoIds

/-! ## 2. One message -/

theorem length_chatAck {s : EasyBaseServer} {iLen : ℕ} {message : List UInt8} {p : SessionPtr}
    {sent : List Action} (h : s.chatAck iLen message p = some sent) : sent.length ≤ 1 := by
  rw [EasyBaseServer.chatAck, Option.bind_eq_bind, Option.bind_eq_some_iff] at h
  obtain ⟨request, -, hsend⟩ := h
  cases request with
  | none =>
      cases hsend
      exact Nat.zero_le 1
  | some r =>
      rw [EasyBaseServer.SendPacket, Option.bind_eq_bind, Option.bind_eq_some_iff] at hsend
      obtain ⟨⟨iRet, actions⟩, hactions, he⟩ := hsend
      cases he
      simp only [EasySession.SendData] at hactions
      split at hactions
      · obtain ⟨c, -, hc⟩ := Option.map_eq_some_iff.mp hactions
        cases hc
        exact Nat.le_refl 1
      · cases hactions

theorem length_OnChatReq {s : EasyBaseServer} {iLen : ℕ} {message : List UInt8}
    {calls : List Action} (h : s.OnChatReq iLen message = some calls) :
    calls.length ≤ s.m_SessionMap.entries.length := by
  have hloop : ∀ (entries : List (Sigma fun _ : ℕ ↦ SessionPtr)) (sent : List (List Action)),
      (entries.mapM fun mit ↦ s.chatAck iLen message mit.2) = some sent →
      sent.flatten.length ≤ entries.length := by
    intro entries
    induction entries with
    | nil =>
        intro sent hsent
        cases hsent
        exact Nat.le_refl 0
    | cons mit entries ih =>
        intro sent hsent
        simp only [List.mapM_cons, Option.bind_eq_bind, Option.bind_eq_some_iff,
          Option.pure_def, Option.some.injEq] at hsent
        obtain ⟨first, hfirst, rest, hrest, rfl⟩ := hsent
        have hone := length_chatAck hfirst
        have hmore := ih rest hrest
        rw [List.flatten_cons, List.length_append, List.length_cons]
        omega
  rw [EasyBaseServer.OnChatReq, Option.bind_eq_bind, Option.bind_eq_some_iff] at h
  obtain ⟨sent, hsent, he⟩ := h
  cases he
  exact hloop _ sent hsent

/-- **At most two clients get a message.**  From `Initialize` on, whatever the commands and however
many connections there are, `m_SessionMap` never has more than two entries. -/
theorem at_most_two_recipients (platform : Platform) (iMaxSession : ℕ)
    (memory : SessionPtr → EasySession) (array : ℕ → SessionPtr) (es : List Executed)
    (t : EasyBaseServer)
    (h : Path (Executes platform) (.initialized iMaxSession memory array) es t) :
    t.m_SessionMap.entries.length ≤ 2 ∧
      ∀ iLen message calls, t.OnChatReq iLen message = some calls → calls.length ≤ 2 := by
  have hlen := ((TwoIds.init iMaxSession memory array).of_path h).length_le
  exact ⟨hlen, fun _ _ _ hcalls ↦ Nat.le_trans (length_OnChatReq hcalls) hlen⟩

/-- Two connections, on a server for two sessions. -/
theorem at_most_two_recipients_two : twoConnected.m_SessionMap.entries.length ≤ 2 :=
  (at_most_two_recipients .LINUX 2 (fun _ ↦ zeroSession) (fun _ ↦ 0)
    ([] ++ [(.OnConnect 7, [])] ++ [(.OnConnect 8, [])]) twoConnected (by
      obtain ⟨s, hs, hlast⟩ := path_snoc.mp
        (show Path ChatExecutes _ ([((.OnConnect 7, []), [])] ++ [((.OnConnect 8, []), [])])
          twoConnected from twoConnected_path)
      obtain ⟨u, hu, hfirst⟩ := path_snoc.mp
        (show Path ChatExecutes _ ([] ++ [((.OnConnect 7, []), [])]) s from hs)
      rw [← path_nil.mp hu] at hfirst
      exact (Path.nil.snoc hfirst.1).snoc hlast.1)).1

end Fantuan
