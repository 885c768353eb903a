import Fantuan.Midware.Ownership

/-!
# `_InitializeSessionPool` — the sessions a server starts with

The loop takes a session from the pool and puts it back in every turn.  The first turn creates a
session, and every later turn finds that same session again: all entries of `m_SessionArray` point
to it, it has the last id, and it is all there is in the pool.  This is what was meant for one
session at most.
-/

open Lib

namespace Fantuan

namespace EasyBaseServer

variable (iMaxSession : ℕ) (memory : SessionPtr → EasySession) (array : ℕ → SessionPtr)

/-- The server that `Initialize` leaves. -/
def initialized : EasyBaseServer := (construct iMaxSession memory array)._InitializeSessionPool

/-- The server after `k + 1` turns of the loop. -/
def aliased (k : ℕ) : EasyBaseServer :=
  { construct iMaxSession memory array with
    m_SessionPool := ⟨[0]⟩
    m_SessionArray := fun i ↦ if i ≤ k then 0 else array i
    object := Function.update memory 0 { (memory 0).construct with m_iSessionID := k }
    created := 1 }

theorem initializeSession_first :
    (construct iMaxSession memory array).initializeSession 0 =
      aliased iMaxSession memory array 0 := by
  have harray : Function.update array 0 0 = fun i ↦ if i ≤ 0 then 0 else array i := by
    funext i
    rcases Nat.eq_zero_or_pos i with rfl | hi
    · rw [Function.update_self, if_pos (Nat.le_refl _)]
    · rw [Function.update_of_ne (by omega), if_neg (by omega)]
  simp only [initializeSession, Allocate, EasyPool.Allocate, construct, if_true, EasyPool.Free,
    List.nil_append, Function.update_self, Function.update_idem, harray, aliased]

theorem initializeSession_next (k : ℕ) :
    (aliased iMaxSession memory array k).initializeSession (k + 1) =
      aliased iMaxSession memory array (k + 1) := by
  have harray : Function.update (fun i ↦ if i ≤ k then 0 else array i) (k + 1) 0 =
      fun i ↦ if i ≤ k + 1 then 0 else array i := by
    funext i
    by_cases hi : i = k + 1
    · rw [hi, Function.update_self, if_pos (Nat.le_refl _)]
    · rw [Function.update_of_ne hi]
      by_cases hle : i ≤ k
      · rw [if_pos hle, if_pos (by omega)]
      · rw [if_neg hle, if_neg (by omega)]
  simp only [initializeSession, Allocate, EasyPool.Allocate, aliased, reduceCtorEq, if_false,
    EasyPool.Free, List.nil_append, Function.update_self, Function.update_idem, harray]

-- All the turns of the loop.
theorem initialized_succ (k : ℕ) :
    initialized (k + 1) memory array = aliased (k + 1) memory array k := by
  have hloop : ∀ n j, (List.range (j + 1)).foldl initializeSession (construct n memory array) =
      aliased n memory array j := by
    intro n j
    induction j with
    | zero => exact initializeSession_first n memory array
    | succ j ih =>
        rw [List.range_succ, List.foldl_append, ih]
        exact initializeSession_next n memory array j
  exact hloop (k + 1) k

theorem idle_initialized : (initialized iMaxSession memory array).Idle := by
  cases iMaxSession with
  | zero =>
      exact ⟨rfl, List.nodup_nil, fun p hp ↦ absurd hp List.not_mem_nil,
        fun p hp ↦ absurd hp List.not_mem_nil, fun c hc ↦ absurd hc List.not_mem_nil⟩
  | succ k =>
      rw [initialized_succ]
      refine ⟨rfl, List.nodup_singleton 0, fun p hp ↦ ?_, fun p hp ↦ ?_,
        fun c hc ↦ absurd hc List.not_mem_nil⟩
      · cases List.mem_singleton.mp hp
        exact Nat.zero_lt_one
      · cases List.mem_singleton.mp hp
        simp only [aliased, Function.update_self]
        exact ⟨rfl, rfl⟩

/-! ## What the loop was to do -/

/-- The entries of `m_SessionArray` below `m_iMaxSession` are different sessions, each has its index
for an id and is in the pool once. -/
structure SessionsRight (s : EasyBaseServer) : Prop where
  distinct : ∀ i < s.m_iMaxSession, ∀ j < s.m_iMaxSession,
    s.m_SessionArray i = s.m_SessionArray j → i = j
  ids : ∀ i < s.m_iMaxSession, (s.object (s.m_SessionArray i)).m_iSessionID = i
  pooled : ∀ i < s.m_iMaxSession, s.m_SessionPool.m_ObjectList.count (s.m_SessionArray i) = 1

/-- All the entries of `m_SessionArray` up to `k` are the one session in the pool, with id `k`. -/
structure Shares (k : ℕ) (p : SessionPtr) (s : EasyBaseServer) : Prop where
  pool : s.m_SessionPool = ⟨[p]⟩
  array : ∀ i ≤ k, s.m_SessionArray i = p
  id : (s.object p).m_iSessionID = k

variable {s : EasyBaseServer} {k : ℕ} {p : SessionPtr}

theorem shares_first (h : s.m_SessionPool = ⟨[]⟩) :
    Shares 0 s.created (s.initializeSession 0) := by
  refine ⟨?_, fun i hi ↦ ?_, ?_⟩
  · simp only [initializeSession, Allocate, EasyPool.Allocate, h, if_true, EasyPool.Free,
      List.nil_append]
  · rw [Nat.le_zero.mp hi]
    simp only [initializeSession, Allocate, EasyPool.Allocate, h, if_true, Function.update_self]
  · simp only [initializeSession, Allocate, EasyPool.Allocate, h, if_true, Function.update_self]

-- The next turn takes the session that the last one has put back.
theorem Shares.next (h : Shares k p s) : Shares (k + 1) p (s.initializeSession (k + 1)) := by
  refine ⟨?_, fun i hi ↦ ?_, ?_⟩
  · simp only [initializeSession, Allocate, EasyPool.Allocate, h.pool, reduceCtorEq, if_false,
      EasyPool.Free, List.nil_append]
  · simp only [initializeSession, Allocate, EasyPool.Allocate, h.pool, reduceCtorEq, if_false]
    by_cases hik : i = k + 1
    · rw [hik, Function.update_self]
    · rw [Function.update_of_ne hik]
      exact h.array i (by omega)
  · simp only [initializeSession, Allocate, EasyPool.Allocate, h.pool, reduceCtorEq, if_false,
      Function.update_self]

theorem shares_turns (h : s.m_SessionPool = ⟨[]⟩) (k : ℕ) :
    Shares k s.created ((List.range (k + 1)).foldl initializeSession s) := by
  induction k with
  | zero => exact shares_first h
  | succ k ih =>
      rw [List.range_succ, List.foldl_append]
      exact ih.next

theorem m_iMaxSession_initialize (s : EasyBaseServer) :
    s._InitializeSessionPool.m_iMaxSession = s.m_iMaxSession := by
  have hloop : ∀ (l : List ℕ) (t : EasyBaseServer),
      (l.foldl initializeSession t).m_iMaxSession = t.m_iMaxSession := by
    intro l
    induction l with
    | nil => exact fun t ↦ rfl
    | cons i l ih =>
        intro t
        rw [List.foldl_cons, ih]
        simp only [initializeSession, Allocate]
        split <;> rfl
  exact hloop _ s

/-- **The session pool.**  On an empty pool the loop makes what it was to make exactly for
`iMaxSession` up to 1. -/
theorem sessionsRight_iff (s : EasyBaseServer) (h : s.m_SessionPool = ⟨[]⟩) :
    s._InitializeSessionPool.SessionsRight ↔ s.m_iMaxSession ≤ 1 := by
  have hmax := s.m_iMaxSession_initialize
  cases hn : s.m_iMaxSession with
  | zero =>
      rw [hn] at hmax
      constructor
      · intro _
        exact Nat.zero_le 1
      · intro _
        refine ⟨fun i hi ↦ ?_, fun i hi ↦ ?_, fun i hi ↦ ?_⟩ <;> omega
  | succ k =>
      rw [hn] at hmax
      have hshares : Shares k s.created s._InitializeSessionPool := by
        rw [_InitializeSessionPool, hn]
        exact shares_turns h k
      constructor
      · intro hright
        -- the first two entries are one session
        apply Nat.le_of_not_lt
        intro hk
        have hsame := (hshares.array 0 (by omega)).trans (hshares.array 1 (by omega)).symm
        have := hright.distinct 0 (by omega) 1 (by omega) hsame
        omega
      · intro hk
        have hzero : k = 0 := by omega
        subst hzero
        refine ⟨fun i hi j hj _ ↦ by omega, fun i hi ↦ ?_, fun i hi ↦ ?_⟩
        · have hi' : i = 0 := by omega
          rw [hshares.array i (by omega), hshares.id, hi']
        · rw [hshares.array i (by omega), hshares.pool]
          exact List.count_singleton_self

/-- A server for one session. -/
theorem sessionsRight_one :
    (construct 1 (fun _ ↦ zeroSession) fun _ ↦ 0)._InitializeSessionPool.SessionsRight :=
  (sessionsRight_iff (construct 1 (fun _ ↦ zeroSession) fun _ ↦ 0) rfl).mpr (by decide)

/-- With two sessions both entries of `m_SessionArray` are the same session. -/
theorem not_sessionsRight :
    ¬ (construct 2 (fun _ ↦ zeroSession) fun _ ↦ 0)._InitializeSessionPool.SessionsRight := by
  intro h
  have hshares : Shares 1 0
      (construct 2 (fun _ ↦ zeroSession) fun _ ↦ 0)._InitializeSessionPool :=
    shares_turns (s := construct 2 (fun _ ↦ zeroSession) fun _ ↦ 0) rfl 1
  have hsame := (hshares.array 0 (by decide)).trans (hshares.array 1 (by decide)).symm
  exact absurd (h.distinct 0 (by decide) 1 (by decide) hsame) (by decide)

end EasyBaseServer

end Fantuan
