import Fantuan.Network.Stages

/-!
# The life cycle of the connections (Windows)

What holds of the stages of every connection in every state, as long as no `AcceptEx` fails at once,
no two threads are in `Start` at a time, and no connection ends before its accepting worker has
taken a reference to it.
-/

open Lib

namespace Fantuan

namespace Iocp

/-- Only `Start`, `Stop` and `PushCommand` are called from outside. -/
def OwnCall : Instr → Prop
  | .Start | .Stop => True
  | .PushCommand command => command.connId = none
  | _ => False

/-- What must not happen. -/
structure Orderly (s : State) (event : Event) : Prop where
  /-- `AcceptEx` fails at once. -/
  accept : ∀ c, event ≠ .Run (.AcceptEx c) false
  /-- Two threads are in `Start` behind the loop. -/
  start : ∀ ok, event = .Run .StartWait ok → s.shared.acceptor.iorefs_ = 0 → entering.total s = 0
  /-- The end of a connection begins before the accepting worker has taken its reference. -/
  reference : ∀ c ok, event = .Run (.Disconnected c) ok → (s.shared.connection c).iorefs_ = 0 →
    (unreferenced c).total s = 0

/-- Where `Accept` takes `c` from: the list, of which `free'` are left, or `Create`. -/
inductive Takes (s : Shared) (c : ConnID) : List ConnID → List ConnID → ℕ → Prop
  | popped {free' : List ConnID} : Takes s c (c :: free') free' s.created
  | created (hc : c = s.created) : Takes s c [] [] (s.created + 1)

-- The inversion of `Accept`.
theorem exec_accept (ok : Bool) {s : Shared} {free : List ConnID}
    (h : LinkedStack.Holds free s.acceptor.free_connection_) :
    (∃ c free' stack created k, LinkedStack.Holds free' stack ∧ Takes s c free free' created ∧
      exec ok s .Accept =
        { shared :=
            { s with
              acceptor.free_connection_ := stack
              acceptor.total_connection_ := k
              created }
          next := [.SetConnection c] }) ∨
    exec ok s .Accept = { shared := s, next := [.SetNotRunning] } := by
  rcases h.pop with ⟨hpop, rfl⟩ | ⟨c, free', stack, hpop, rfl, hholds⟩
  · cases ok with
    | true =>
        refine .inl ⟨_, _, _, _, s.acceptor.total_connection_, h, .created rfl, ?_⟩
        simp only [exec, hpop, if_pos]
    | false => exact .inr (by simp [exec, hpop])
  · refine .inl ⟨c, free', stack, _, pred s.acceptor.total_connection_, hholds, .popped, ?_⟩
    simp only [exec, hpop]

/-- The connections `conns` have sessions, and `free` are on the list of the acceptor. -/
structure Staged (conns free : List ConnID) (s : State) : Prop where
  holds : LinkedStack.Holds free s.shared.acceptor.free_connection_
  attached : Attached conns s.shared.server
  array : s.shared.server.ArrayOk
  refs : ∀ c, (s.shared.connection c).iorefs_ = (references c).total s
  accepts : (accepts.total s : ℤ) ≤ s.shared.acceptor.iorefs_
  chain : chain.total s ≤ 1
  posted : ∀ c, 0 < (posting c).total s → s.shared.acceptor.connection_ = some c
  /-- A connection is in one place at most. -/
  stage : ∀ c, (quiet c).total s + (closing c).total s + free.count c +
    (s.shared.connection c).connected_.toNat ≤ 1
  /-- While it receives, it is neither at rest nor taken for the next accept. -/
  receive : ∀ c, (quiet c).total s + (receiving c).total s + free.count c ≤ 1
  /-- It gets its session after the accept, and loses it before it is closed. -/
  session : ∀ c, (unattached c).total s + free.count c + conns.count c ≤ 1
  /-- What is left in `client_` from an earlier session is not looked at any more. -/
  client : ∀ c, s.shared.server.client_ c ≠ none → c ∉ conns →
    (addressable c).total s + (s.shared.connection c).connected_.toNat = 0
  fresh : ∀ c, s.shared.created ≤ c → (mentions c).total s = 0 ∧
    (s.shared.connection c).connected_ = false ∧ c ∉ free ∧ c ∉ conns

namespace Staged

variable {conns free : List ConnID} {s t : State}

/-! ## 1. Steps that leave alone what is shared -/

/-- All the weights that may only fall. -/
def falling (c : ConnID) : List Weight :=
  [quiet c, closing c, receiving c, unattached c, addressable c, mentions c, posting c, Iocp.chain,
    Iocp.accepts]

theorem fall (h : Staged conns free s) (hshared : t.shared = s.shared)
    (hrefs : ∀ c, (references c).total t = (references c).total s)
    (hfall : ∀ c, ∀ w ∈ falling c, w.total t ≤ w.total s) : Staged conns free t := by
  have hquiet : ∀ c, (quiet c).total t ≤ (quiet c).total s := fun c ↦ hfall c _ (by simp [falling])
  have hclosing : ∀ c, (closing c).total t ≤ (closing c).total s :=
    fun c ↦ hfall c _ (by simp [falling])
  have hreceiving : ∀ c, (receiving c).total t ≤ (receiving c).total s :=
    fun c ↦ hfall c _ (by simp [falling])
  have hunattached : ∀ c, (unattached c).total t ≤ (unattached c).total s :=
    fun c ↦ hfall c _ (by simp [falling])
  have haddressable : ∀ c, (addressable c).total t ≤ (addressable c).total s :=
    fun c ↦ hfall c _ (by simp [falling])
  have hmentions : ∀ c, (mentions c).total t ≤ (mentions c).total s :=
    fun c ↦ hfall c _ (by simp [falling])
  have hposting : ∀ c, (posting c).total t ≤ (posting c).total s :=
    fun c ↦ hfall c _ (by simp [falling])
  have hchain : Iocp.chain.total t ≤ Iocp.chain.total s := hfall 0 _ (by simp [falling])
  have haccepts : Iocp.accepts.total t ≤ Iocp.accepts.total s := hfall 0 _ (by simp [falling])
  constructor
  · rw [hshared]
    exact h.holds
  · rw [hshared]
    exact h.attached
  · rw [hshared]
    exact h.array
  · intro c
    rw [hshared, hrefs]
    exact h.refs c
  · rw [hshared]
    have hold := h.accepts
    omega
  · exact hchain.trans h.chain
  · intro c hpos
    rw [hshared]
    exact h.posted c (Nat.lt_of_lt_of_le hpos (hposting c))
  · intro c
    rw [hshared]
    have hold := h.stage c
    have hq := hquiet c
    have hc := hclosing c
    omega
  · intro c
    have hold := h.receive c
    have hq := hquiet c
    have hr := hreceiving c
    omega
  · intro c
    have hold := h.session c
    have hu := hunattached c
    omega
  · intro c hclient hc
    rw [hshared] at hclient ⊢
    have hold := h.client c hclient hc
    have ha := haddressable c
    omega
  · intro c hc
    rw [hshared] at hc ⊢
    have hold := h.fresh c hc
    have hm := hmentions c
    exact ⟨by omega, hold.2⟩

-- The calls from outside count for nothing.
theorem ownCall_falling {i : Instr} (hi : OwnCall i) (c : ConnID) :
    ∀ w ∈ falling c, w.instr i = 0 := by
  have hnone : i.connId = none := by
    cases i <;> simp_all [OwnCall, Instr.connId]
  have hne : i.connId ≠ some c := by
    rw [hnone]
    exact Option.some_ne_none c ∘ Eq.symm
  have hzero : (posting c).instr i = 0 ∧ Iocp.chain.instr i = 0 ∧ Iocp.accepts.instr i = 0 := by
    cases i <;> simp_all [OwnCall, posting, Iocp.chain, Iocp.accepts]
  intro w hw
  simp only [falling, List.mem_cons, List.not_mem_nil, or_false] at hw
  rcases hw with rfl | rfl | rfl | rfl | rfl | rfl | rfl | rfl | rfl
  · exact onlyAbout_quiet.instr i hne
  · exact onlyAbout_closing.instr i hne
  · exact onlyAbout_receiving.instr i hne
  · exact onlyAbout_unattached.instr i hne
  · exact onlyAbout_addressable.instr i hne
  · exact if_neg hne
  · exact hzero.1
  · exact hzero.2.1
  · exact hzero.2.2

theorem call (h : Staged conns free s) {i : Instr} (hi : OwnCall i) :
    Staged conns free (s.start [i]) := by
  have hsame : ∀ w : Weight, w.instr i = 0 → w.total (s.start [i]) = w.total s := by
    intro w hw
    rw [total_start, List.map_singleton, List.sum_singleton, hw, Nat.add_zero]
  apply h.fall (t := s.start [i]) rfl
  · intro c
    apply hsame
    apply onlyAbout_references.instr
    cases i <;> simp_all [OwnCall, Instr.connId]
  · exact fun c w hw ↦ Nat.le_of_eq (hsame w (ownCall_falling hi c w hw))

-- The connection of an accept that completes is the one of `context_`.
theorem completed_falling (h : Staged conns free s) (bResult : Bool) (data : EasyCommandOnData)
    {op : Operation} (hop : op ∈ s.posted) (c : ConnID) :
    ∀ w ∈ falling c, ((completed bResult data s.shared op).map w.instr).sum ≤ w.op op := by
  have haddressed : ∀ d, op = .accept d → s.shared.acceptor.connection_ = some d := by
    rintro d rfl
    have hle := op_le_total (w := posting d) hop
    have hone : (posting d).op (.accept d) = 1 := if_pos rfl
    exact h.posted d (by omega)
  intro w hw
  simp only [falling, List.mem_cons, List.not_mem_nil, or_false] at hw
  fun_cases completed bResult data s.shared op
  case case1 d e he =>
    cases (haddressed d rfl).symm.trans he
    rcases hw with rfl | rfl | rfl | rfl | rfl | rfl | rfl | rfl | rfl <;>
      simp [quiet, closing, receiving, unattached, addressable, mentions, posting, Iocp.chain,
        Iocp.accepts, Instr.connId, Operation.connId, about]
    grind
  case case2 => exact Nat.zero_le _
  all_goals
    rcases hw with rfl | rfl | rfl | rfl | rfl | rfl | rfl | rfl | rfl <;>
      first
        | exact Nat.zero_le _
        | exact Nat.le_refl _
        | simp [mentions, Instr.connId, Operation.connId, about]
    grind

theorem complete (h : Staged conns free s) (bResult : Bool) (data : EasyCommandOnData)
    {op : Operation} (hop : op ∈ s.posted) :
    Staged conns free
      { s.start (completed bResult data s.shared op) with posted := s.posted.erase op } := by
  apply h.fall (t := { s.start (completed bResult data s.shared op) with
    posted := s.posted.erase op }) rfl
  · intro c
    have htotal := total_complete (w := references c) hop (completed bResult data s.shared op)
    rw [completed_references] at htotal
    exact Nat.add_right_cancel htotal
  · intro c w hw
    have htotal := total_complete (w := w) hop (completed bResult data s.shared op)
    have hle := h.completed_falling bResult data hop c w hw
    omega

/-! ## 2. The instructions of `Accept` -/

/-- Nobody has anything to do with `c`. -/
structure Vacant (conns : List ConnID) (c : ConnID) (s : State) : Prop where
  quiet : (quiet c).total s = 0
  closing : (closing c).total s = 0
  receiving : (receiving c).total s = 0
  unattached : (unattached c).total s = 0
  connected : (s.shared.connection c).connected_ = false
  session : c ∉ conns

variable {c : ConnID} {n : ℕ} {rest : List Instr} {ok : Bool} {i : Instr}

theorem vacant_free (h : Staged conns free s) (hc : c ∈ free) :
    Vacant conns c s ∧ free.count c = 1 := by
  have hpos : 0 < free.count c := List.count_pos_iff.mpr hc
  have hstage := h.stage c
  have hreceive := h.receive c
  have hsession := h.session c
  have hflag : (s.shared.connection c).connected_ = false := by
    rw [← Bool.toNat_eq_zero]
    omega
  have hnot : c ∉ conns := by
    rw [← List.count_eq_zero]
    omega
  exact ⟨⟨by omega, by omega, by omega, by omega, hflag, hnot⟩, by omega⟩

theorem vacant_fresh (h : Staged conns free s) (hc : s.shared.created ≤ c) :
    Vacant conns c s := by
  rcases h.fresh c hc with ⟨hnone, hflag, -, hnot⟩
  exact ⟨onlyAbout_quiet.total_eq_zero hnone, onlyAbout_closing.total_eq_zero hnone,
    onlyAbout_receiving.total_eq_zero hnone, onlyAbout_unattached.total_eq_zero hnone, hflag, hnot⟩

-- `Accept` takes a connection.
theorem enters (h : Staged conns free s) (hthread : s.threads[n]? = some (.Accept :: rest))
    (hvacant : Vacant conns c s) {free' : List ConnID} {stack : LinkedStack ConnID}
    (hholds : LinkedStack.Holds free' stack) (hcount : ∀ d, d ≠ c → free'.count d = free.count d)
    (hnot : c ∉ free') {created : ℕ} (hle : s.shared.created ≤ created) (hc : c < created) (k : ℕ) :
    Staged conns free' (s.run n rest
      { shared :=
          { s.shared with
            acceptor.free_connection_ := stack
            acceptor.total_connection_ := k
            created }
        next := [.SetConnection c] }) := by
  generalize ht : s.run n rest _ = t
  have htotal : ∀ w : Weight,
      w.total t + w.instr .Accept = w.total s + w.instr (.SetConnection c) := by
    intro w
    rw [← ht]
    exact total_next hthread _ _
  have hquiet : ∀ d, (quiet d).total t = (quiet d).total s + about d c 1 :=
    fun d ↦ htotal (quiet d)
  have hclosing : ∀ d, (closing d).total t = (closing d).total s := fun d ↦ htotal (closing d)
  have hreceiving : ∀ d, (receiving d).total t = (receiving d).total s :=
    fun d ↦ htotal (receiving d)
  have hunattached : ∀ d, (unattached d).total t = (unattached d).total s + about d c 1 :=
    fun d ↦ htotal (unattached d)
  have haddressable : ∀ d, (addressable d).total t = (addressable d).total s :=
    fun d ↦ htotal (addressable d)
  have hposting : ∀ d, (posting d).total t = (posting d).total s := fun d ↦ htotal (posting d)
  have hzero : free'.count c = 0 := List.count_eq_zero.mpr hnot
  have hshared : t.shared = { s.shared with
      acceptor.free_connection_ := stack
      acceptor.total_connection_ := k
      created } := by
    rw [← ht]
    rfl
  constructor
  · rw [hshared]
    exact hholds
  · rw [hshared]
    exact h.attached
  · rw [hshared]
    exact h.array
  · intro d
    rw [hshared, show (references d).total t = _ from htotal (references d)]
    exact h.refs d
  · rw [hshared, show Iocp.accepts.total t = _ from htotal Iocp.accepts]
    exact h.accepts
  · have hsame : Iocp.chain.total t + 1 = Iocp.chain.total s + 1 := htotal Iocp.chain
    have hchain := h.chain
    omega
  · intro d hpos
    rw [hposting] at hpos
    rw [hshared]
    exact h.posted d hpos
  · intro d
    rw [hshared, hquiet, hclosing]
    show _ + _ + _ + (s.shared.connection d).connected_.toNat ≤ 1
    by_cases hd : d = c
    · rw [hd, hvacant.quiet, hvacant.closing, hvacant.connected, hzero, about, if_pos rfl]
      exact Nat.le_refl 1
    · rw [hcount d hd, about, if_neg (Ne.symm hd)]
      exact h.stage d
  · intro d
    rw [hquiet, hreceiving]
    by_cases hd : d = c
    · rw [hd, hvacant.quiet, hvacant.receiving, hzero, about, if_pos rfl]
    · rw [hcount d hd, about, if_neg (Ne.symm hd)]
      exact h.receive d
  · intro d
    rw [hunattached]
    by_cases hd : d = c
    · rw [hd, hvacant.unattached, hzero, List.count_eq_zero.mpr hvacant.session, about, if_pos rfl]
    · rw [hcount d hd, about, if_neg (Ne.symm hd)]
      exact h.session d
  · intro d hclient hd
    rw [hshared] at hclient ⊢
    rw [haddressable]
    exact h.client d hclient hd
  · intro d hd
    rw [hshared] at hd ⊢
    have hlt : c < d := Nat.lt_of_lt_of_le hc hd
    have hne : d ≠ c := hlt.ne'
    rcases h.fresh d (hle.trans hd) with ⟨hnone, hflag, hfree, hconns⟩
    have hmentions : (mentions d).total t + 0 = (mentions d).total s + _ := htotal (mentions d)
    have hzero : (mentions d).instr (.SetConnection c) = 0 :=
      if_neg fun he ↦ hne (Option.some.inj he).symm
    refine ⟨?_, hflag, ?_, hconns⟩
    · omega
    · rw [← List.count_eq_zero, hcount d hne]
      exact List.count_eq_zero.mpr hfree

theorem taken (h : Staged conns free s) {free' : List ConnID} {created : ℕ}
    (htakes : Takes s.shared c free free' created) :
    Vacant conns c s ∧ (∀ d, d ≠ c → free'.count d = free.count d) ∧ c ∉ free' ∧
      s.shared.created ≤ created ∧ c < created := by
  cases htakes with
  | created hc =>
      rw [hc]
      exact ⟨h.vacant_fresh (Nat.le_refl _), fun _ _ ↦ rfl, List.not_mem_nil, Nat.le_succ _,
        Nat.lt_succ_self _⟩
  | popped =>
      rcases h.vacant_free List.mem_cons_self with ⟨hvacant, hone⟩
      have hnot : c ∉ free' := by
        rw [List.count_cons_self] at hone
        rw [← List.count_eq_zero]
        omega
      have hlt : c < s.shared.created := by
        by_contra hle
        exact (h.fresh c (Nat.le_of_not_lt hle)).2.2.1 List.mem_cons_self
      exact ⟨hvacant, fun d hd ↦ (List.count_cons_of_ne hd.symm).symm, hnot, Nat.le_refl _, hlt⟩

-- There is no memory for a connection.
theorem notAccepted (h : Staged conns free s) (hthread : s.threads[n]? = some (.Accept :: rest)) :
    Staged conns free (s.run n rest { shared := s.shared, next := [.SetNotRunning] }) := by
  apply h.fall (t := s.run n rest ⟨s.shared, [.SetNotRunning], [], []⟩) rfl
  · exact fun c ↦ total_next (w := references c) hthread s.shared .SetNotRunning
  · intro c w hw
    have hfail := total_next (w := w) hthread s.shared .SetNotRunning
    have hzero : w.instr .SetNotRunning = 0 := by
      simp only [falling, List.mem_cons, List.not_mem_nil, or_false] at hw
      rcases hw with rfl | rfl | rfl | rfl | rfl | rfl | rfl | rfl | rfl <;> rfl
    omega

theorem accept (h : Staged conns free s) (hthread : s.threads[n]? = some (.Accept :: rest)) :
    ∃ free', Staged conns free' (s.run n rest (exec ok s.shared .Accept)) := by
  rcases exec_accept ok h.holds with ⟨c, free', stack, created, k, hholds, htakes, he⟩ | he
  · rcases h.taken htakes with ⟨hvacant, hcount, hnot, hle, hlt⟩
    rw [he]
    exact ⟨free', h.enters hthread hvacant hholds hcount hnot hle hlt k⟩
  · rw [he]
    exact ⟨free, h.notAccepted hthread⟩

-- The connection comes back to the list.
theorem pushFree (h : Staged conns free s)
    (hthread : s.threads[n]? = some (.PushFree c :: rest)) :
    Staged conns (c :: free) (s.run n rest (exec ok s.shared (.PushFree c))) := by
  generalize ht : s.run n rest (exec ok s.shared (.PushFree c)) = t
  have htotal : ∀ w : Weight, w.total t + w.instr (.PushFree c) = w.total s := by
    intro w
    rw [← ht, total_run hthread]
    simp [Weight.added, exec]
  have hshared : t.shared = { s.shared with
      acceptor.free_connection_ := s.shared.acceptor.free_connection_.push c } := by
    rw [← ht]
    rfl
  have hquiet : ∀ d, (quiet d).total t + about d c 1 = (quiet d).total s :=
    fun d ↦ htotal (quiet d)
  have hunattached : ∀ d, (unattached d).total t + about d c 1 = (unattached d).total s :=
    fun d ↦ htotal (unattached d)
  have hcount : ∀ d, (c :: free).count d = free.count d + about d c 1 := by
    intro d
    rw [List.count_cons, about]
    grind
  have hnot : c ∉ free := by
    have hone := hquiet c
    have hstage := h.stage c
    rw [about, if_pos rfl] at hone
    rw [← List.count_eq_zero]
    omega
  constructor
  · rw [hshared]
    exact h.holds.push hnot
  · rw [hshared]
    exact h.attached
  · rw [hshared]
    exact h.array
  · intro d
    rw [hshared, show (references d).total t = _ from htotal (references d)]
    exact h.refs d
  · rw [hshared, show Iocp.accepts.total t = _ from htotal Iocp.accepts]
    exact h.accepts
  · rw [show Iocp.chain.total t = _ from htotal Iocp.chain]
    exact h.chain
  · intro d hpos
    rw [show (posting d).total t = _ from htotal (posting d)] at hpos
    rw [hshared]
    exact h.posted d hpos
  · intro d
    have hstage := h.stage d
    rw [hshared, hcount, show (closing d).total t = _ from htotal (closing d), ← hquiet] at *
    show _ + _ + _ + (s.shared.connection d).connected_.toNat ≤ 1
    omega
  · intro d
    have hreceive := h.receive d
    have hq := hquiet d
    rw [hcount, show (receiving d).total t = _ from htotal (receiving d)]
    omega
  · intro d
    have hsession := h.session d
    have hu := hunattached d
    rw [hcount]
    omega
  · intro d hclient hd
    rw [hshared] at hclient ⊢
    rw [show (addressable d).total t = _ from htotal (addressable d)]
    exact h.client d hclient hd
  · intro d hd
    rw [hshared] at hd ⊢
    rcases h.fresh d hd with ⟨hnone, hflag, hfree, hconns⟩
    have hmentions := htotal (mentions d)
    have hne : d ≠ c := by
      rintro rfl
      have hone : (mentions d).instr (.PushFree d) = 1 := if_pos rfl
      omega
    refine ⟨by omega, hflag, ?_, hconns⟩
    rw [List.mem_cons, not_or]
    exact ⟨hne, hfree⟩

-- The connection gets its accept, and its `client_` is forgotten.
theorem setConnection (h : Staged conns free s)
    (hthread : s.threads[n]? = some (.SetConnection c :: rest)) :
    Staged conns free (s.run n rest (exec ok s.shared (.SetConnection c))) := by
  generalize ht : s.run n rest (exec ok s.shared (.SetConnection c)) = t
  have htotal : ∀ w : Weight,
      w.total t + w.instr (.SetConnection c) = w.total s + w.instr (.AcceptIncrement c) := by
    intro w
    rw [← ht]
    exact total_next hthread _ _
  have hshared : t.shared =
      { s.shared with
        acceptor.connection_ := some c
        server.client_ := Function.update s.shared.server.client_ c none } := by
    rw [← ht]
    rfl
  have hsame : ∀ w : Weight, w.instr (.SetConnection c) = w.instr (.AcceptIncrement c) →
      w.total t = w.total s := by
    intro w hw
    exact Nat.add_right_cancel ((htotal w).trans (by rw [hw]))
  have hposting : ∀ d, (posting d).total t = (posting d).total s + about d c 1 :=
    fun d ↦ htotal (posting d)
  have haddressable : ∀ d, (addressable d).total t = (addressable d).total s + about d c 1 :=
    fun d ↦ htotal (addressable d)
  have hchain : Iocp.chain.total t ≤ 1 := by
    rw [hsame Iocp.chain rfl]
    exact h.chain
  have hnot : c ∉ conns := by
    have hle := le_total (w := unattached c) hthread
    have hone : (unattached c).instr (.SetConnection c) = 1 := if_pos rfl
    have hsession := h.session c
    rw [← List.count_eq_zero]
    omega
  constructor
  · rw [hshared]
    exact h.holds
  · rw [hshared]
    refine h.attached.congr_object (fun _ ↦ rfl) (fun _ ↦ rfl) rfl rfl rfl fun d hd ↦ ?_
    have hne : d ≠ c := by
      rintro rfl
      exact hnot hd
    exact Function.update_of_ne hne _ _
  · rw [hshared]
    exact h.array
  · intro d
    rw [hshared, hsame (references d) rfl]
    exact h.refs d
  · rw [hshared, hsame Iocp.accepts rfl]
    exact h.accepts
  · exact hchain
  · intro d hpos
    rw [hshared]
    by_contra hne
    have hcd : c ≠ d := fun he ↦ hne (congrArg some he)
    -- there is no accept but this one
    have hle := posting_add_le hcd t
    have hone := hposting c
    rw [about, if_pos rfl] at hone
    omega
  · intro d
    rw [hshared, hsame (quiet d) rfl, hsame (closing d) rfl]
    exact h.stage d
  · intro d
    rw [hsame (quiet d) rfl, hsame (receiving d) rfl]
    exact h.receive d
  · intro d
    rw [hsame (unattached d) rfl]
    exact h.session d
  · intro d hclient hd
    rw [hshared] at hclient ⊢
    have hclient' : Function.update s.shared.server.client_ c none d ≠ none := hclient
    have hne : d ≠ c := by
      rintro rfl
      exact hclient' (Function.update_self d none s.shared.server.client_)
    rw [Function.update_of_ne hne] at hclient'
    rw [haddressable, about, if_neg hne.symm]
    exact h.client d hclient' hd
  · intro d hd
    rw [hshared] at hd ⊢
    rw [hsame (mentions d) rfl]
    exact h.fresh d hd

/-! ## 3. The other instructions -/

-- `Accept` is called only when there is no accept.
theorem chain_run (h : Staged conns free s) (hthread : s.threads[n]? = some (i :: rest))
    (hC : Orderly s (.Run i ok)) :
    Iocp.chain.total (s.run n rest (exec ok s.shared i)) ≤ 1 := by
  have htotal := total_run (w := Iocp.chain) hthread (exec ok s.shared i)
  have hchain := h.chain
  by_cases hi : i = .StartWait
  · have hle := chain_le s
    have haccepts := h.accepts
    have hadded : s.shared.acceptor.iorefs_ ≠ 0 ∧ Iocp.chain.added (exec ok s.shared i) = 0 ∨
        s.shared.acceptor.iorefs_ = 0 ∧ Iocp.chain.added (exec ok s.shared i) = 1 := by
      rw [hi]
      simp only [exec]
      split
      · rename_i hzero
        exact .inr ⟨hzero, rfl⟩
      · rename_i hpos
        exact .inl ⟨hpos, rfl⟩
    rcases hadded with ⟨-, hadded⟩ | ⟨hzero, hadded⟩
    · omega
    · have hentering := hC.start ok (by rw [hi]) hzero
      omega
  · have hadded := exec_chain ok s.shared i hi
    omega

-- The end of a connection begins when it receives nothing.
theorem receive_run (h : Staged conns free s) (hthread : s.threads[n]? = some (i :: rest))
    (hC : Orderly s (.Run i ok)) (haccept : i ≠ .Accept) (hpush : ∀ d, i ≠ .PushFree d)
    (hfail : ¬ FailsAtOnce ok i) (c : ConnID) :
    (quiet c).total (s.run n rest (exec ok s.shared i)) +
      (receiving c).total (s.run n rest (exec ok s.shared i)) + free.count c ≤ 1 := by
  have hquiet := total_run (w := quiet c) hthread (exec ok s.shared i)
  have hreceiving := total_run (w := receiving c) hthread (exec ok s.shared i)
  have hreceive := h.receive c
  by_cases hend : i = .Disconnected c ∧ (s.shared.connection c).iorefs_ = 0
  · rcases hend with ⟨rfl, hzero⟩
    have hnone := hC.reference c ok rfl hzero
    have hle := receiving_le s c
    have hrefs := h.refs c
    have hstage := h.stage c
    have hclosing := le_total (w := closing c) hthread
    have hone : (closing c).instr (.Disconnected c) = 1 := if_pos rfl
    have hadded : (quiet c).added (exec ok s.shared (.Disconnected c)) = 1 ∧
        (receiving c).added (exec ok s.shared (.Disconnected c)) = 0 := by
      simp [exec, hzero, Weight.added, quiet, receiving, about]
    omega
  · have hadded := exec_receiving ok s.shared i c haccept hpush hfail
      fun hi hzero ↦ hend ⟨hi, hzero⟩
    omega

theorem other (h : Staged conns free s) (hthread : s.threads[n]? = some (i :: rest))
    (hC : Orderly s (.Run i ok)) (haccept : i ≠ .Accept) (hpush : ∀ d, i ≠ .PushFree d)
    (hset : ∀ d, i ≠ .SetConnection d) :
    Staged conns free (s.run n rest (exec ok s.shared i)) := by
  have hfail : ¬ FailsAtOnce ok i := by
    rintro ⟨rfl, c, rfl⟩
    exact hC.accept c rfl
  have hfree := exec_free ok s.shared i haccept hpush
  have hserver := exec_client ok s.shared i hset
  have htotal : ∀ w : Weight, w.total (s.run n rest (exec ok s.shared i)) + w.instr i =
      w.total s + w.added (exec ok s.shared i) := fun w ↦ total_run hthread _
  constructor
  · show LinkedStack.Holds free (exec ok s.shared i).shared.acceptor.free_connection_
    rw [hfree.1]
    exact h.holds
  · show Attached conns (exec ok s.shared i).shared.server
    rw [hserver]
    exact h.attached
  · show (exec ok s.shared i).shared.server.ArrayOk
    rw [hserver]
    exact h.array
  · intro c
    show ((exec ok s.shared i).shared.connection c).iorefs_ = _
    have hexec := exec_references ok s.shared i c
    have hrefs := h.refs c
    have hsum := htotal (references c)
    omega
  · show _ ≤ (exec ok s.shared i).shared.acceptor.iorefs_
    have hexec := exec_accepts ok s.shared i
    have haccepts := h.accepts
    have hsum := htotal Iocp.accepts
    omega
  · exact h.chain_run hthread hC
  · intro c hpos
    show (exec ok s.shared i).shared.acceptor.connection_ = some c
    have hexec := exec_posting ok s.shared i c hset
    have hsum := htotal (posting c)
    rw [hexec.1]
    exact h.posted c (by omega)
  · intro c
    show _ + _ + _ + ((exec ok s.shared i).shared.connection c).connected_.toNat ≤ 1
    have hexec := exec_quiet ok s.shared i c haccept hpush hfail
    have hstage := h.stage c
    have hsum := htotal (quiet c)
    have hsum' := htotal (closing c)
    omega
  · exact h.receive_run hthread hC haccept hpush hfail
  · intro c
    have hexec := exec_unattached ok s.shared i c haccept hpush hfail
    have hsession := h.session c
    have hsum := htotal (unattached c)
    omega
  · intro c hclient hc
    have hexec := exec_addressable ok s.shared i c (hset c)
    have hsum := htotal (addressable c)
    have hclient' : (exec ok s.shared i).shared.server.client_ c ≠ none := hclient
    rw [hserver] at hclient'
    have hold := h.client c hclient' hc
    show _ + ((exec ok s.shared i).shared.connection c).connected_.toNat = 0
    omega
  · intro c hc
    have hc' : (exec ok s.shared i).shared.created ≤ c := hc
    rw [hfree.2] at hc'
    rcases h.fresh c hc' with ⟨hnone, hflag, hrest⟩
    have hle := le_total (w := mentions c) hthread
    have hi : i.connId ≠ some c := by
      intro he
      have hone : (mentions c).instr i = 1 := if_pos he
      omega
    have hexec := exec_mentions ok s.shared i c haccept hi hflag
    have hsum := htotal (mentions c)
    exact ⟨by omega, hexec.2, hrest⟩

theorem run (h : Staged conns free s) (hthread : s.threads[n]? = some (i :: rest))
    (hC : Orderly s (.Run i ok)) :
    ∃ free', Staged conns free' (s.run n rest (exec ok s.shared i)) := by
  by_cases haccept : i = .Accept
  · rw [haccept] at hthread ⊢
    exact h.accept hthread
  by_cases hpush : ∃ c, i = .PushFree c
  · rcases hpush with ⟨c, rfl⟩
    exact ⟨_, h.pushFree hthread⟩
  by_cases hset : ∃ c, i = .SetConnection c
  · rcases hset with ⟨c, rfl⟩
    exact ⟨_, h.setConnection hthread⟩
  exact ⟨_, h.other hthread hC haccept (fun c hi ↦ hpush ⟨c, hi⟩) fun c hi ↦ hset ⟨c, hi⟩⟩

/-! ## 4. The commands -/

section Commands

variable {e : Executed} {commands : List EasyCommand} {server : EasyBaseServer}
  {command : EasyCommand}

theorem command_le_total {w : Weight} (hlist : s.m_CommandList = command :: commands) :
    w.command command ≤ w.total s := by
  unfold Weight.total
  rw [hlist, List.map_cons, List.sum_cons]
  omega

-- The end of a connection that is executed is that of a connection with a session, or does nothing.
theorem ended (h : Staged conns free s) (hlist : s.m_CommandList = .OnDisconnect c :: commands) :
    s.shared.server.client_ c = none ∨ c ∈ conns := by
  by_contra hnot
  rw [not_or] at hnot
  have hle := command_le_total (w := addressable c) hlist
  have hone : (addressable c).command (.OnDisconnect c) = 1 := if_pos rfl
  have hclient := h.client c hnot.1 hnot.2
  omega

theorem unreported (h : Staged conns free s) (hlist : s.m_CommandList = .OnConnect c :: commands) :
    c ∉ conns := by
  have hle := command_le_total (w := unattached c) hlist
  have hone : (unattached c).command (.OnConnect c) = 1 := if_pos rfl
  have hsession := h.session c
  rw [← List.count_eq_zero]
  omega

-- What the command thread executes for the actions that are not `Close` or `AsyncSend`.
theorem ofAction_other {actions : List Action} {w : Weight}
    (hw : ∀ d, w.instr (.AsyncDisconnect d) = 0)
    (hactions : ∀ a ∈ actions, (∃ d, a = .AsyncDisconnect d) ∨
      ∃ d packet, a = .OnPacketReceived d packet) :
    ((actions.flatMap ofAction).map w.instr).sum = 0 := by
  induction actions with
  | nil => rfl
  | cons action actions ih =>
      rw [List.flatMap_cons, List.map_append, List.sum_append,
        ih fun a ha ↦ hactions a (List.mem_cons_of_mem _ ha)]
      rcases hactions action List.mem_cons_self with ⟨d, rfl⟩ | ⟨d, packet, rfl⟩
      · simp [ofAction, hw]
      · rfl

-- The weights that may only fall, but for `unattached` and `mentions`.
theorem acts_falling {actions : List Action} (h : Acts conns s.shared.server command actions)
    (c : ConnID) :
    ∀ w ∈ [quiet c, closing c, receiving c, addressable c, posting c, Iocp.chain, Iocp.accepts,
      references c], ((actions.flatMap ofAction).map w.instr).sum ≤ w.command command := by
  intro w hw
  simp only [List.mem_cons, List.not_mem_nil, or_false] at hw
  cases h with
  | close hc =>
      rcases hw with rfl | rfl | rfl | rfl | rfl | rfl | rfl | rfl <;>
        simp [ofAction, quiet, closing, receiving, addressable, posting, Iocp.chain, Iocp.accepts,
          references]
  | send hc =>
      rcases hw with rfl | rfl | rfl | rfl | rfl | rfl | rfl | rfl <;>
        simp [ofAction, quiet, closing, receiving, addressable, posting, Iocp.chain, Iocp.accepts,
          references]
  | other hnone hactions =>
      have hzero : ∀ d, w.instr (.AsyncDisconnect d) = 0 := by
        rcases hw with rfl | rfl | rfl | rfl | rfl | rfl | rfl | rfl <;> exact fun d ↦ rfl
      rw [ofAction_other hzero hactions]
      exact Nat.zero_le _

-- A connection that gets a session is not without one any more.
theorem acts_unattached {actions : List Action} (h : Acts conns s.shared.server command actions)
    (hclient : ∀ c, s.shared.server.client_ c = none → c ∉ conns) (shutdown : Bool) (c : ConnID) :
    ((actions.flatMap ofAction).map (unattached c).instr).sum +
        (attachedAfter shutdown conns command).count c ≤
      (unattached c).command command + conns.count c := by
  cases h with
  | @close d hd =>
      have hcount : (conns.erase d).count c = conns.count c - about c d 1 := by
        rw [about, List.count_erase]
        simp
      have hpos := List.count_pos_iff.mpr hd
      simp [ofAction, unattached, attachedAfter, hcount, about]
      grind
  | send hd => simp [ofAction, unattached, attachedAfter]
  | other hnone hactions =>
      rw [ofAction_other (fun _ ↦ rfl) hactions]
      cases command with
      | OnConnect d =>
          simp only [attachedAfter, unattached, about]
          split
          · omega
          · simp [List.count_append, List.count_singleton]
            grind
      | OnDisconnect d =>
          have hd : d ∉ conns := hclient d (hnone d rfl)
          simp [attachedAfter, List.erase_of_not_mem hd, unattached]
      | _ => simp [attachedAfter, unattached]

theorem acts_mentions {actions : List Action} (h : Acts conns s.shared.server command actions)
    (hc : c ∉ conns) :
    ((actions.flatMap ofAction).map (mentions c).instr).sum ≤ (mentions c).command command := by
  cases h with
  | close hd => simp [ofAction, mentions, Instr.connId, EasyCommand.connId]
  | @send i r d buf hd =>
      have hne : d ≠ c := by
        rintro rfl
        exact hc hd
      simp [ofAction, mentions, Instr.connId, hne]
  | other hnone hactions =>
      rw [ofAction_other (fun _ ↦ rfl) hactions]
      exact Nat.zero_le _

theorem execute (h : Staged conns free s) (hidle : s.threads[0]? = some [])
    (hlist : s.m_CommandList = e.1 :: commands)
    (hex : Executes .WIN32 s.shared.server e server) :
    Staged (attachedAfter s.shared.server.m_bReadyForShutdown conns e.1) free
      { s with
        shared := s.shared.executed e.1 server
        threads := s.threads.set 0 (e.2.flatMap ofAction)
        m_CommandList := commands } := by
  have hended : ∀ c, e.1 = .OnDisconnect c → s.shared.server.client_ c = none ∨ c ∈ conns :=
    fun c he ↦ h.ended (hlist.trans (by rw [he]))
  have hnew : ∀ c, e.1 = .OnConnect c → c ∉ conns :=
    fun c he ↦ h.unreported (hlist.trans (by rw [he]))
  have heffect := hex.sessionEffect
  have hacts := hex.acts h.attached h.array hended
  have hmem : ∀ c, c ∈ attachedAfter s.shared.server.m_bReadyForShutdown conns e.1 ↔ _ :=
    fun c ↦ mem_attachedAfter h.attached.nodup
  have hnone : ∀ c, s.shared.server.client_ c = none → c ∉ conns := by
    intro c hclient hc
    rcases h.attached.bound c hc with ⟨p, hp, -⟩
    rw [hclient] at hp
    cases hp
  have htotal := fun w : Weight ↦ total_execute (w := w) hidle hlist
    (s.shared.executed e.1 server) (e.2.flatMap ofAction)
  generalize ht : State.mk (s.shared.executed e.1 server) _ s.posted commands = t at htotal
  have hshared : t.shared = s.shared.executed e.1 server := by
    rw [← ht]
  have hfall : ∀ c, ∀ w ∈ [quiet c, closing c, receiving c, addressable c, posting c, Iocp.chain,
      Iocp.accepts, references c], w.total t ≤ w.total s := by
    intro c w hw
    have hle := acts_falling hacts c w hw
    have hsum := htotal w
    omega
  constructor
  · rw [hshared, Shared.executed_acceptor]
    exact h.holds
  · rw [hshared, Shared.executed_server]
    exact h.attached.command heffect hnew hended
  · rw [hshared, Shared.executed_server]
    exact heffect.arrayOk h.attached h.array
  · intro c
    have hsum := htotal (references c)
    rw [ofAction_references] at hsum
    rw [hshared, Shared.executed_iorefs, Nat.add_right_cancel hsum]
    exact h.refs c
  · have haccepts := hfall 0 Iocp.accepts (by simp)
    have hold := h.accepts
    rw [hshared, Shared.executed_acceptor]
    omega
  · exact (hfall 0 Iocp.chain (by simp)).trans h.chain
  · intro c hpos
    rw [hshared, Shared.executed_acceptor]
    exact h.posted c (Nat.lt_of_lt_of_le hpos (hfall c (posting c) (by simp)))
  · intro c
    have hq := hfall c (quiet c) (by simp)
    have hc := hfall c (closing c) (by simp)
    have hstage := h.stage c
    rw [hshared, Shared.executed_connected]
    omega
  · intro c
    have hq := hfall c (quiet c) (by simp)
    have hr := hfall c (receiving c) (by simp)
    have hreceive := h.receive c
    omega
  · intro c
    have hsum := htotal (unattached c)
    have hle := acts_unattached hacts hnone s.shared.server.m_bReadyForShutdown c
    have hsession := h.session c
    omega
  · intro c hclient hc
    rw [hshared, Shared.executed_server] at hclient
    rw [hshared, Shared.executed_connected]
    have ha := hfall c (addressable c) (by simp)
    rcases heffect.client_iff.mp hclient with hold | hreported
    · by_cases hin : c ∈ conns
      · -- the session ends, and with it the stages of the connection
        have he : e.1 = .OnDisconnect c := by
          by_contra hne
          exact hc ((hmem c).mpr (.inl ⟨hin, hne⟩))
        have hsum := htotal (addressable c)
        rw [ofAction_sum e.2 (fun _ _ ↦ rfl) (fun _ ↦ rfl) fun _ ↦ rfl] at hsum
        have hone : (addressable c).command e.1 = 1 := by
          rw [he]
          exact if_pos rfl
        have hle := addressable_le s c
        have hstage := h.stage c
        omega
      · have hclosed := h.client c hold hin
        omega
    · exact absurd ((hmem c).mpr (.inr hreported)) hc
  · intro c hc
    rw [hshared, Shared.executed_created] at hc
    rcases h.fresh c hc with ⟨hzero, hflag, hfree, hconns⟩
    have hle := acts_mentions hacts hconns
    have hsum := htotal (mentions c)
    rw [hshared, Shared.executed_connected]
    refine ⟨by omega, hflag, hfree, fun hin ↦ ?_⟩
    rcases (hmem c).mp hin with ⟨hold, -⟩ | ⟨he, -⟩
    · exact hconns hold
    · have hpos := command_le_total (w := mentions c) hlist
      have hone : (mentions c).command e.1 = 1 := by
        rw [he]
        exact if_pos rfl
      omega

end Commands

/-! ## 5. Runs -/

theorem init (iMaxSession : ℕ) (memory : SessionPtr → EasySession) (array : ℕ → SessionPtr) :
    Staged [] [] (init iMaxSession memory array) := by
  constructor
  · exact LinkedStack.holds_empty
  · exact attached_initialized iMaxSession memory array
  · exact arrayOk_initialized iMaxSession memory array
  · exact fun _ ↦ rfl
  · exact Int.le_refl 0
  · exact Nat.zero_le 1
  · exact fun _ hpos ↦ absurd hpos (Nat.lt_irrefl 0)
  · exact fun _ ↦ Nat.zero_le 1
  · exact fun _ ↦ Nat.zero_le 1
  · exact fun _ ↦ Nat.zero_le 1
  · exact fun _ _ _ ↦ rfl
  · exact fun _ _ ↦ ⟨rfl, rfl, List.not_mem_nil, List.not_mem_nil⟩

theorem step (h : Staged conns free s) {event : Event} (hC : Orderly s event)
    (hst : Step OwnCall s event t) : ∃ conns' free', Staged conns' free' t := by
  cases hst with
  | call hi => exact ⟨_, _, h.call hi⟩
  | run hthread => exact ⟨_, h.run hthread hC⟩
  | @complete op bResult data hop => exact ⟨_, _, h.complete bResult data hop⟩
  | execute hidle hlist hex => exact ⟨_, _, h.execute hidle hlist hex⟩

/-- **The stages of the connections** hold in every state that orderly runs come to. -/
theorem of_path {iMaxSession : ℕ} {memory : SessionPtr → EasySession} {array : ℕ → SessionPtr}
    {es : List Event}
    (h : Path (Guarded Orderly (Step OwnCall)) (Iocp.init iMaxSession memory array) es s) :
    ∃ conns free, Staged conns free s := by
  apply h.always (I := fun _ s ↦ ∃ conns free, Staged conns free s)
  · exact ⟨[], [], init iMaxSession memory array⟩
  · rintro ls s l t ⟨conns, free, hstaged⟩ hst
    exact hstaged.step hst.1 hst.2

end Staged

/-! ## 6. Single runs -/

/-- Events that need no guard: nothing fails, and no connection ends. -/
def Harmless : Event → Bool
  | .Run .StartWait _ | .Run (.Disconnected _) _ | .Run (.OnDisconnect _) _ => false
  | .Run (.Close _) _ | .Execute (.OnDisconnect _, _) => false
  | .Run (.AcceptEx _) ok | .Run (.UpdateAcceptContext _) ok | .Run (.DisconnectEx _) ok => ok
  | .Complete (.accept _) bResult _ => bResult
  | _ => true

theorem Orderly.of_harmless {s : State} {event : Event} (h : Harmless event = true) :
    Orderly s event := by
  refine ⟨fun c he ↦ ?_, fun ok he ↦ ?_, fun c ok he ↦ ?_⟩ <;>
    simp [he, Harmless] at h

theorem Orderly.of_disconnected {s : State} {c : ConnID} {ok : Bool}
    (h : (unreferenced c).total s = 0) : Orderly s (.Run (.Disconnected c) ok) := by
  refine ⟨by simp, by simp, ?_⟩
  rintro d ok he -
  cases he
  exact h

theorem harmless_startEvents :
    ∀ event ∈ startEvents, event ≠ .Run .StartWait true → Harmless event = true := by
  simp [startEvents, Harmless]

/-- The acceptor is started in order. -/
theorem orderly_started :
    Path (Guarded Orderly (Step OwnCall)) (init 1 (fun _ ↦ zeroSession) fun _ ↦ 0) startEvents
      started :=
  guarded_started trivial ⟨by simp, fun _ _ _ ↦ rfl, by simp⟩ fun _ event hevent hne ↦
    .of_harmless (harmless_startEvents event hevent hne)

section Turns

variable {calls : Instr → Prop} {C : State → Event → Prop} {s₀ s : State} {es : List Event}

theorem harmless_turns (h : Path (Guarded C (Step calls)) s₀ es s)
    (hC : ∀ t event, Harmless event = true → C t event) (turns : List (ℕ × Bool))
    (hall : (s.turns turns).1.all Harmless = true) :
    Path (Guarded C (Step calls)) s₀ (es ++ (s.turns turns).1) (s.turns turns).2 :=
  guarded_turns h turns fun t event hevent ↦ hC t event (List.all_eq_true.mp hall event hevent)

end Turns

end Iocp

end Fantuan
