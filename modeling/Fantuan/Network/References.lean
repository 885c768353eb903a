import Fantuan.Network.Iocp

/-!
# The reference counts of the connections (Windows)
-/

open Lib

namespace Fantuan

namespace Iocp

/-! ## 1. The references -/

/-- The references to `c`: its sends and receives between increment and decrement. -/
def references (c : ConnID) : Weight where
  instr
    | .OnData d _ => about c d 1
    | .PushCommand command =>
        match command with
        | .OnData d _ => about c d 1
        | _ => 0
    | .AsyncRecv d release => about c d release.toNat
    | .WSARecv d release => about c d (1 + release.toNat)
    | .WSASend d _ => about c d 1
    | .Decrement d => about c d 1
    | _ => 0
  op
    | .recv d => about c d 1
    | .send d _ => about c d 1
    | _ => 0
  command _ := 0

theorem exec_references (ok : Bool) (s : Shared) (i : Instr) (c : ConnID) :
    ((exec ok s i).shared.connection c).iorefs_ + (references c).instr i =
      (s.connection c).iorefs_ + (references c).added (exec ok s i) := by
  fun_cases exec ok s i <;>
    first
      | rfl
      | simp [Weight.added, references, about] <;> grind

theorem completed_references (bResult : Bool) (data : EasyCommandOnData) (s : Shared)
    (op : Operation) (c : ConnID) :
    ((completed bResult data s op).map (references c).instr).sum = (references c).op op := by
  apply completed_sum <;> simp [references]

theorem ofAction_references (actions : List Action) (c : ConnID) :
    ((actions.flatMap ofAction).map (references c).instr).sum = 0 := by
  apply ofAction_sum <;> simp [references]

/-! ## 2. The ends of a connection -/

/-- What can still lead to the callback `OnDisconnect` for `c`, but for `connected_`. -/
def ends (c : ConnID) : Weight where
  instr
    | .DisconnectEx d => about c d 1
    | .Disconnected d => about c d 1
    | .OnDisconnect d => about c d 1
    | _ => 0
  op
    | .disconnect d => about c d 1
    | _ => 0
  command _ := 0

/-- How often `OnDisconnect` was called for `c`. -/
def callbacks (c : ConnID) (es : List Event) : ℕ :=
  es.countP fun
    | .Run (.OnDisconnect d) _ => d = c
    | _ => false

/-- How often `connected_` of `c` was set to 1. -/
def connections (c : ConnID) (es : List Event) : ℕ :=
  es.countP fun
    | .Run (.SetConnected d) _ => d = c
    | _ => false

theorem exec_ends (ok : Bool) (s : Shared) (i : Instr) (c : ConnID) :
    (ends c).added (exec ok s i) + ((exec ok s i).shared.connection c).connected_.toNat +
        callbacks c [.Run i ok] ≤
      (ends c).instr i + (s.connection c).connected_.toNat + connections c [.Run i ok] := by
  fun_cases exec ok s i <;>
    first
      | exact Nat.le_refl _
      | simp [Weight.added, ends, about, callbacks, connections] <;> grind [toNat_eq]

theorem completed_ends (bResult : Bool) (data : EasyCommandOnData) (s : Shared) (op : Operation)
    (c : ConnID) :
    ((completed bResult data s op).map (ends c).instr).sum = (ends c).op op := by
  apply completed_sum <;> simp [ends]

theorem ofAction_ends (actions : List Action) (c : ConnID) :
    ((actions.flatMap ofAction).map (ends c).instr).sum = 0 := by
  apply ofAction_sum <;> simp [ends]

/-! ## 3. Runs -/

/-- What holds of `c` after the events `es`. -/
structure Counted (c : ConnID) (es : List Event) (s : State) : Prop where
  refs : (s.shared.connection c).iorefs_ = (references c).total s
  once : callbacks c es + (ends c).total s + (s.shared.connection c).connected_.toNat ≤
    connections c es

section Runs

variable {c : ConnID} {es : List Event} {s t : State} {event : Event}

theorem publicCall_references {i : Instr} (hi : PublicCall i) : (references c).instr i = 0 := by
  fun_cases PublicCall i <;> simp_all [PublicCall, references, about]
  split <;> simp_all [EasyCommand.connId]

theorem publicCall_ends {i : Instr} (hi : PublicCall i) : (ends c).instr i = 0 := by
  fun_cases PublicCall i <;> simp_all [PublicCall, ends]

theorem Counted.step (h : Counted c es s) (hst : Step PublicCall s event t) :
    Counted c (es ++ [event]) t := by
  have hcallbacks : callbacks c (es ++ [event]) = callbacks c es + callbacks c [event] :=
    List.countP_append
  have hconnections : connections c (es ++ [event]) = connections c es + connections c [event] :=
    List.countP_append
  have hrefs := h.refs
  have honce := h.once
  cases hst with
  | @call i hi =>
      have hr := total_start (w := references c) (s := s) [i]
      have he := total_start (w := ends c) (s := s) [i]
      rw [List.map_singleton, List.sum_singleton, publicCall_references hi] at hr
      rw [List.map_singleton, List.sum_singleton, publicCall_ends hi] at he
      constructor
      · rw [hr]
        exact hrefs
      · rw [hcallbacks, hconnections, he]
        exact honce
  | @run i n rest ok hthread =>
      have hr := total_run (w := references c) hthread (exec ok s.shared i)
      have he := total_run (w := ends c) hthread (exec ok s.shared i)
      have hexec := exec_references ok s.shared i c
      have hexec' := exec_ends ok s.shared i c
      constructor
      · show ((exec ok s.shared i).shared.connection c).iorefs_ = _
        omega
      · show _ + _ + ((exec ok s.shared i).shared.connection c).connected_.toNat ≤ _
        omega
  | @complete op bResult data hop =>
      have hr := total_complete (w := references c) hop (completed bResult data s.shared op)
      have he := total_complete (w := ends c) hop (completed bResult data s.shared op)
      rw [completed_references] at hr
      rw [completed_ends] at he
      constructor
      · rw [Nat.add_right_cancel hr]
        exact hrefs
      · rw [hcallbacks, hconnections, Nat.add_right_cancel he]
        exact honce
  | @execute e rest server hidle hlist hex =>
      have hr := total_execute (w := references c) hidle hlist
        (s.shared.executed e.1 server) (e.2.flatMap ofAction)
      have he := total_execute (w := ends c) hidle hlist
        (s.shared.executed e.1 server) (e.2.flatMap ofAction)
      rw [ofAction_references] at hr
      rw [ofAction_ends] at he
      constructor
      · show ((s.shared.executed e.1 server).connection c).iorefs_ = _
        rw [Shared.executed_iorefs, Nat.add_right_cancel hr]
        exact hrefs
      · show _ + _ + ((s.shared.executed e.1 server).connection c).connected_.toNat ≤ _
        rw [hcallbacks, hconnections, Shared.executed_connected, Nat.add_right_cancel he]
        exact honce

end Runs

/-- **The reference count** of a connection is the number of its sends and receives between
increment and decrement, and `OnDisconnect` is called at most as often as `connected_` was set. -/
theorem references_exact (iMaxSession : ℕ) (memory : SessionPtr → EasySession)
    (array : ℕ → SessionPtr) (es : List Event) (s : State)
    (h : Path (Step PublicCall) (init iMaxSession memory array) es s) (c : ConnID) :
    (s.shared.connection c).iorefs_ = (references c).total s ∧
      0 ≤ (s.shared.connection c).iorefs_ ∧
      ((s.shared.connection c).iorefs_ = 0 ↔ (references c).total s = 0) ∧
      callbacks c es ≤ connections c es := by
  have hcounted : Counted c es s := by
    apply h.always (I := Counted c)
    · exact ⟨rfl, Nat.le_refl 0⟩
    · exact fun ls s l t hI hst ↦ hI.step hst
  have hrefs := hcounted.refs
  have honce := hcounted.once
  omega

/-- One receive is on its way. -/
theorem references_exact_receiving :
    ∃ es s, Path (Step PublicCall) (init 1 (fun _ ↦ zeroSession) fun _ ↦ 0) es s ∧
      (s.shared.connection 7).iorefs_ = 1 ∧ (s.shared.connection 7).iorefs_ =
        (references 7).total s := by
  have hcall : Path (Step PublicCall) (init 1 (fun _ ↦ zeroSession) fun _ ↦ 0) _ _ :=
    path_call .nil (.AsyncRecv 7 false) rfl
  have hrun := path_turns hcall [(1, true)]
  exact ⟨_, _, hrun, rfl, (references_exact 1 _ _ _ _ hrun 7).1⟩

end Iocp

end Fantuan
