import Fantuan.Network.Contexts
import Fantuan.Network.Lifecycle

/-!
# What is sent (Windows)

`EasySession::SendData` writes a packet into the buffer of a context and gives it to `WSASend`.  The
system reads the buffer until the send completes, and the context comes back to the pool only after
that.
-/

open Lib

namespace Fantuan

namespace Iocp

/-! ## 1. The packets and the buffers -/

/-- A connection, and the packet that is sent on it. -/
abbrev Message := ConnID × List UInt8

/-- What becomes of a packet. -/
inductive Outcome
  /-- `WSASend` has taken it. -/
  | posted
  /-- There was no context for it. -/
  | noContext
  /-- It is longer than an output buffer. -/
  | tooLong
  /-- There were too many references to the connection, or `WSASend` failed. -/
  | refused
deriving DecidableEq

/-- An event of the server, with the packet that it settles. -/
abbrev SendEvent := Event × Option (Message × Outcome)

/-- The packets that `SendData` is called for. -/
def sentBy (actions : List Action) : List Message :=
  actions.filterMap fun
    | .AsyncSend connId buf => some (connId, buf)
    | _ => none

def Event.messages : Event → List Message
  | Execute e => sentBy e.2
  | _ => []

/-- The packets of the executed commands. -/
def asked (es : List SendEvent) : List Message := es.flatMap fun e ↦ e.1.messages

/-- The packets that have been settled. -/
def settled (es : List SendEvent) : List (Message × Outcome) := es.filterMap Prod.snd

/-- The server with what is in the output buffers. -/
structure Output where
  server : State
  /-- The packets that the command thread has still to write into a buffer. -/
  messages : List Message
  /-- `buffer_` of each context, up to `wsabuf_.len`. -/
  buffer_ : ContextPtr → List UInt8
  /-- What `WSASend` was last called with for each context. -/
  given : ContextPtr → List UInt8

namespace Output

variable (o : Output)

/-- What an event of the server does to the packets and to the buffers. -/
def after (event : Event) (server : State) : Output :=
  match event with
  | .Execute e => { o with server, messages := sentBy e.2 }
  | .Run (.SendData c iLen) ok =>
      -- there may be no context
      if (exec ok o.server.shared (.SendData c iLen)).next = [] then
        { o with server, messages := o.messages.tail }
      else { o with server }
  | .Run (.AsyncSendBuffer _ _ k) _ =>
      let packet := (o.messages.head?.map Prod.snd).getD []
      { o with
        server
        buffer_ := Function.update o.buffer_ k packet
        messages := o.messages.tail }
  | .Run (.WSASend _ k) _ => { o with server, given := Function.update o.given k (o.buffer_ k) }
  | _ => { o with server }

/-- The packet that an event of the server settles, and how. -/
def outcome : Event → Option (Message × Outcome)
  | .Run (.SendData c iLen) ok =>
      if (exec ok o.server.shared (.SendData c iLen)).next = [] then
        o.messages.head?.map (·, .noContext)
      else none
  | .Run (.AsyncSendBuffer c len k) ok =>
      if (exec ok o.server.shared (.AsyncSendBuffer c len k)).next = [] then
        o.messages.head?.map (·, .tooLong)
      else none
  | .Run (.AsyncSend c k) ok =>
      if (exec ok o.server.shared (.AsyncSend c k)).next = [.WSASend c k] then none
      else some ((c, o.buffer_ k), .refused)
  | .Run (.WSASend c k) ok => some ((c, o.buffer_ k), if ok then .posted else .refused)
  | _ => none

theorem after_server (event : Event) (server : State) : (o.after event server).server = server := by
  fun_cases after o event server <;> rfl

/-- The command thread has executed `i`. -/
def ran (i : Instr) (rest : List Instr) (ok : Bool) : Output :=
  o.after (.Run i ok) (o.server.run 0 rest (exec ok o.server.shared i))

/-- A step of the server, where only the command thread sends. -/
inductive Step : SendEvent → Output → Prop
  | step {event : Event} {server : State} (h : Iocp.Step OwnCall o.server event server) :
      Step (event, o.outcome event) (o.after event server)

/-- After `Initialize`. -/
def start (iMaxSession : ℕ) (memory : SessionPtr → EasySession) (array : ℕ → SessionPtr) :
    Output :=
  ⟨init iMaxSession memory array, [], fun _ ↦ [], fun _ ↦ []⟩

end Output

namespace Instr

def isSend : Instr → Bool
  | SendData _ _ => true
  | AsyncSendBuffer _ _ _ => true
  | AsyncSend _ _ => true
  | WSASend _ _ => true
  | _ => false

/-- The connection of a packet that has still to be written. -/
def addressee : Instr → Option ConnID
  | SendData c _ => some c
  | AsyncSendBuffer c _ _ => some c
  | _ => none

/-- What an instruction is about to send; `messages` have still to be written. -/
def due (buffer_ : ContextPtr → List UInt8) (messages : List Message) : Instr → List Message
  | SendData _ _ => messages.take 1
  | AsyncSendBuffer _ _ _ => messages.take 1
  | AsyncSend c k => [(c, buffer_ k)]
  | WSASend c k => [(c, buffer_ k)]
  | _ => []

/-- What is left of them behind it. -/
def left (messages : List Message) : Instr → List Message
  | SendData _ _ => messages.tail
  | AsyncSendBuffer _ _ _ => messages.tail
  | _ => messages

end Instr

/-- What a thread is about to send. -/
def due (buffer_ : ContextPtr → List UInt8) : List Instr → List Message → List Message
  | [], _ => []
  | i :: code, messages => i.due buffer_ messages ++ due buffer_ code (i.left messages)

/-- What the command thread is about to send. -/
def Output.due (o : Output) : List Message :=
  Iocp.due o.buffer_ (o.server.threads.headD []) o.messages

/-! ## 2. What is due -/

section Due

variable {buffer_ buffer_' : ContextPtr → List UInt8} {messages : List Message} {i : Instr}
  {code rest : List Instr}

theorem due_nil : due buffer_ [] messages = [] := rfl

theorem due_cons : due buffer_ (i :: code) messages =
    i.due buffer_ messages ++ due buffer_ code (i.left messages) := rfl

-- What does not send.
theorem Instr.due_other (buffer_ : ContextPtr → List UInt8) (messages : List Message)
    (h : i.isSend = false) :
    i.due buffer_ messages = [] ∧ i.left messages = messages ∧ i.addressee = none := by
  cases i <;> first | exact ⟨rfl, rfl, rfl⟩ | cases h

theorem due_append_other (h : ∀ i ∈ code, i.isSend = false) :
    due buffer_ (code ++ rest) messages = due buffer_ rest messages := by
  induction code with
  | nil => rfl
  | cons i code ih =>
      obtain ⟨hdue, hleft, -⟩ := Instr.due_other buffer_ messages (h i List.mem_cons_self)
      rw [List.cons_append, due_cons, hdue, hleft, List.nil_append]
      exact ih fun j hj ↦ h j (List.mem_cons_of_mem i hj)

theorem addressee_append_other (h : ∀ i ∈ code, i.isSend = false) :
    (code ++ rest).filterMap Instr.addressee = rest.filterMap Instr.addressee := by
  have hnil : code.filterMap Instr.addressee = [] :=
    List.filterMap_eq_nil_iff.mpr fun i hi ↦
      (Instr.due_other (fun _ ↦ []) [] (h i hi)).2.2
  rw [List.filterMap_append, hnil, List.nil_append]

-- Only the buffers that the thread holds count.
theorem due_congr (h : ∀ i ∈ code, ∀ k ∈ i.contexts, buffer_ k = buffer_' k) :
    due buffer_ code messages = due buffer_' code messages := by
  induction code generalizing messages with
  | nil => rfl
  | cons i code ih =>
      have hfirst := h i List.mem_cons_self
      have hsame : i.due buffer_ messages = i.due buffer_' messages := by
        cases i with
        | AsyncSend c k => rw [Instr.due, Instr.due, hfirst k List.mem_cons_self]
        | WSASend c k => rw [Instr.due, Instr.due, hfirst k List.mem_cons_self]
        | _ => rfl
      rw [due_cons, due_cons, hsame, ih fun j hj ↦ h j (List.mem_cons_of_mem i hj)]

theorem exec_other (ok : Bool) (s : Shared) (h : i.isSend = false) :
    (∀ j ∈ (exec ok s i).next, j.isSend = false) ∧ ∀ c k, .send c k ∉ (exec ok s i).posted := by
  fun_cases exec ok s i <;> simp_all [Instr.isSend]

theorem completed_other (bResult : Bool) (data : EasyCommandOnData) (s : Shared)
    (op : Operation) : ∀ i ∈ completed bResult data s op, i.isSend = false := by
  fun_cases completed bResult data s op <;> simp [Instr.isSend]

-- What the command thread is about to send after a command.
theorem ofAction_due (buffer_ : ContextPtr → List UInt8) (actions : List Action) :
    due buffer_ (actions.flatMap ofAction) (sentBy actions) = sentBy actions ∧
      (actions.flatMap ofAction).filterMap Instr.addressee = (sentBy actions).map Prod.fst := by
  induction actions with
  | nil => exact ⟨rfl, rfl⟩
  | cons action actions ih =>
      cases action with
      | AsyncSend connId buf => exact ⟨congrArg (_ :: ·) ih.1, congrArg (_ :: ·) ih.2⟩
      | _ => exact ih

end Due

/-! ## 3. One context, one packet -/

section Exclusive

variable {pooled : List ContextPtr} {s : State} {n : ℕ} {i : Instr} {rest : List Instr}
  {k : ContextPtr}

-- The context of an instruction is nowhere else.
theorem Tracked.exclusive (h : Tracked pooled s) (hthread : s.threads[n]? = some (i :: rest))
    (hk : k ∈ i.contexts) :
    (∀ j ∈ rest, k ∉ j.contexts) ∧ ∀ c, .send c k ∉ s.posted := by
  have honce := h.once k
  have hknown : known s.shared.pool k ≤ 1 := by
    unfold known
    split <;> omega
  have hload : (((i :: rest).map (places k).instr).sum) ≤ load (places k).instr s.threads :=
    sum_le_load hthread
  have hone : 0 < (places k).instr i := List.count_pos_iff.mpr hk
  rw [List.map_cons, List.sum_cons] at hload
  unfold Weight.total at honce
  constructor
  · intro j hj hmem
    have hpos : 0 < (places k).instr j := List.count_pos_iff.mpr hmem
    have hle : (places k).instr j ≤ (rest.map (places k).instr).sum :=
      List.single_le_sum (fun _ _ ↦ Nat.zero_le _) _ (List.mem_map_of_mem hj)
    omega
  · intro c hmem
    have hop : (places k).op (.send c k) = 1 := List.count_singleton_self
    have hle : (places k).op (.send c k) ≤ (s.posted.map (places k).op).sum :=
      List.single_le_sum (fun _ _ ↦ Nat.zero_le _) _ (List.mem_map_of_mem hmem)
    omega

theorem Step.sendCall {t : State} {event : Event} (h : Step OwnCall s event t) :
    Step SendCall s event t := by
  cases h with
  | @call i hi =>
      apply Step.call
      cases i <;> first | exact hi | exact trivial | cases hi
  | run hthread => exact .run hthread
  | complete hop => exact .complete hop
  | execute hidle hlist hex => exact .execute hidle hlist hex

end Exclusive

/-! ## 4. Runs -/

/-- The connection has been disconnected by one of the events `later`, or a thread is about to. -/
def Disconnects (c : ConnID) (later : List SendEvent) (s : State) : Prop :=
  (∃ ok outcome, (.Run (.AsyncDisconnect c) ok, outcome) ∈ later) ∨
    .AsyncDisconnect c ∈ s.threads.flatten

theorem Disconnects.step {c : ConnID} {later : List SendEvent} {s t : State} {event : Event}
    {outcome : Option (Message × Outcome)} (h : Disconnects c later s)
    (hst : Step OwnCall s event t) : Disconnects c (later ++ [(event, outcome)]) t := by
  rcases h with ⟨ok, outcome', hmem⟩ | hmem
  · exact .inl ⟨ok, outcome', List.mem_append_left _ hmem⟩
  · cases hst with
    | call hi =>
        refine .inr ?_
        rw [State.start, List.flatten_append]
        exact List.mem_append_left _ hmem
    | @run i n rest ok hthread =>
        by_cases hi : .AsyncDisconnect c = i
        · subst hi
          exact .inl ⟨ok, outcome, List.mem_append_right _ List.mem_cons_self⟩
        · exact .inr (mem_flatten_set hthread hmem fun hcons ↦
            List.mem_append_right _ (List.mem_of_ne_of_mem hi hcons))
    | complete hop =>
        refine .inr ?_
        rw [State.start, List.flatten_append]
        exact List.mem_append_left _ hmem
    | execute hidle hlist hex =>
        exact .inr (mem_flatten_set hidle hmem fun hnil ↦ absurd hnil List.not_mem_nil)

/-- A packet that was refused has had its connection disconnected since. -/
def RefusedDisconnect (es : List SendEvent) (s : State) : Prop :=
  ∀ before event c packet later, es = before ++ (event, some ((c, packet), .refused)) :: later →
    Disconnects c later s

theorem RefusedDisconnect.snoc {es : List SendEvent} {s t : State} {event : Event}
    {outcome : Option (Message × Outcome)} (h : RefusedDisconnect es s)
    (hst : Step OwnCall s event t)
    (hnew : ∀ c packet, outcome = some ((c, packet), .refused) →
      .AsyncDisconnect c ∈ t.threads.flatten) :
    RefusedDisconnect (es ++ [(event, outcome)]) t := by
  intro before event' c packet later he
  rcases List.eq_nil_or_concat later with rfl | ⟨later', last, rfl⟩
  · obtain ⟨-, hlast⟩ := List.append_inj' he rfl
    cases hlast
    exact .inr (hnew c packet rfl)
  · rw [List.concat_eq_append, ← List.cons_append, ← List.append_assoc] at he
    obtain ⟨hes, hlast⟩ := List.append_inj' he rfl
    cases hlast
    rw [List.concat_eq_append]
    exact (h before event' c packet later' hes).step hst

/-- The command thread has `code` still to execute. -/
structure Framed (es : List SendEvent) (code : List Instr) (others : List (List Instr))
    (o : Output) : Prop where
  threads : o.server.threads = code :: others
  others_other : ∀ i ∈ others.flatten, i.isSend = false
  addressed : code.filterMap Instr.addressee = o.messages.map Prod.fst
  order : (settled es).map Prod.fst ++ due o.buffer_ code o.messages = asked es
  posted : ∀ c k, .send c k ∈ o.server.posted → o.buffer_ k = o.given k
  refused : RefusedDisconnect es o.server

namespace Framed

variable {es : List SendEvent} {event : Event} {code code' rest : List Instr}
  {others others' : List (List Instr)} {o : Output} {server : State} {n : ℕ} {i : Instr}
  {ok : Bool}

theorem start (iMaxSession : ℕ) (memory : SessionPtr → EasySession) (array : ℕ → SessionPtr) :
    Framed [] [] [] (.start iMaxSession memory array) where
  threads := rfl
  others_other _ h := absurd h List.not_mem_nil
  addressed := rfl
  order := rfl
  posted _ _ h := absurd h List.not_mem_nil
  refused before _ _ _ later h := by simp at h

theorem asked_snoc {outcome : Option (Message × Outcome)} :
    asked (es ++ [(event, outcome)]) = asked es ++ event.messages := by
  rw [asked, List.flatMap_append, List.flatMap_singleton]
  rfl

theorem asked_eq : asked es = (es.map Prod.fst).flatMap Event.messages := by
  rw [asked, List.flatMap_map]

theorem settled_none : settled (es ++ [(event, none)]) = settled es := by
  rw [settled, List.filterMap_append]
  exact List.append_nil _

theorem settled_some {outcome : Message × Outcome} :
    settled (es ++ [(event, some outcome)]) = settled es ++ [outcome] := by
  rw [settled, List.filterMap_append]
  rfl

-- A step that leaves the buffers alone.
theorem keep (h : Framed es code others o) (hst : Step OwnCall o.server event server)
    (hthreads : server.threads = code' :: others')
    (hothers : ∀ i ∈ others'.flatten, i.isSend = false)
    (haddressed : code'.filterMap Instr.addressee = code.filterMap Instr.addressee)
    (hdue : due o.buffer_ code' o.messages = due o.buffer_ code o.messages)
    (hposted : ∀ c k, .send c k ∈ server.posted → .send c k ∈ o.server.posted)
    (hevent : event.messages = []) :
    Framed (es ++ [(event, none)]) code' others' { o with server } where
  threads := hthreads
  others_other := hothers
  addressed := haddressed.trans h.addressed
  order := by
    rw [asked_snoc, hevent, List.append_nil, settled_none, hdue]
    exact h.order
  posted c k hmem := h.posted c k (hposted c k hmem)
  refused := h.refused.snoc hst fun _ _ he ↦ by cases he

-- The first packet that is due is sent, or is not.
theorem settle (h : Framed es code others o) {o' : Output} {c : ConnID} {packet : List UInt8}
    {outcome : Outcome} (hst : Step OwnCall o.server event o'.server)
    (hthreads : o'.server.threads = code' :: others)
    (haddressed : code'.filterMap Instr.addressee = o'.messages.map Prod.fst)
    (hdue : due o.buffer_ code o.messages = (c, packet) :: due o'.buffer_ code' o'.messages)
    (hposted : ∀ c k, .send c k ∈ o'.server.posted → o'.buffer_ k = o'.given k)
    (hrefused : outcome = .refused → .AsyncDisconnect c ∈ o'.server.threads.flatten)
    (hevent : event.messages = []) :
    Framed (es ++ [(event, some ((c, packet), outcome))]) code' others o' := by
  refine ⟨hthreads, h.others_other, haddressed, ?_, hposted, h.refused.snoc hst ?_⟩
  · rw [asked_snoc, hevent, List.append_nil, settled_some, ← h.order, hdue, List.map_append,
      List.append_assoc]
    rfl
  · intro d bytes he
    cases he
    exact hrefused rfl

-- Whatever a thread executes that does not send.
theorem run_other (h : Framed es code others o) (hthread : o.server.threads[n]? = some (i :: rest))
    (hi : i.isSend = false) :
    ∃ code' others', Framed (es ++ [(.Run i ok, none)]) code' others'
      { o with server := o.server.run n rest (exec ok o.server.shared i) } := by
  obtain ⟨hnext, hnosend⟩ := exec_other ok o.server.shared hi
  have hposted : ∀ c k, .send c k ∈ (o.server.run n rest (exec ok o.server.shared i)).posted →
      .send c k ∈ o.server.posted := by
    intro c k hmem
    exact (List.mem_append.mp hmem).resolve_right (hnosend c k)
  have hset : (o.server.run n rest (exec ok o.server.shared i)).threads =
      (code :: others).set n ((exec ok o.server.shared i).next ++ rest) := by
    rw [← h.threads]
    rfl
  have hst : Step OwnCall o.server (.Run i ok)
      (o.server.run n rest (exec ok o.server.shared i)) := .run hthread
  rw [h.threads] at hthread
  cases n with
  | zero =>
      cases hthread
      obtain ⟨hdue, hleft, haddressee⟩ := Instr.due_other o.buffer_ o.messages hi
      refine ⟨_, others, h.keep hst hset h.others_other ?_ ?_ hposted rfl⟩
      · rw [addressee_append_other hnext, List.filterMap_cons_none haddressee]
      · rw [due_append_other hnext, due_cons, hdue, hleft, List.nil_append]
  | succ n =>
      refine ⟨code, _, h.keep hst hset ?_ rfl rfl hposted rfl⟩
      intro j hj
      rcases List.mem_flatten.mp hj with ⟨thread, hmem, hj⟩
      rcases List.mem_or_eq_of_mem_set hmem with hmem | rfl
      · exact h.others_other j (List.mem_flatten.mpr ⟨thread, hmem, hj⟩)
      · cases List.mem_append.mp hj with
        | inl hj => exact hnext j hj
        | inr hj =>
            exact h.others_other j (List.mem_flatten.mpr
              ⟨_, List.mem_of_getElem? hthread, List.mem_cons_of_mem i hj⟩)

-- Only the command thread sends.
theorem eq_zero (h : Framed es code others o) (hthread : o.server.threads[n]? = some (i :: rest))
    (hi : i.isSend = true) : n = 0 ∧ code = i :: rest := by
  rw [h.threads] at hthread
  cases n with
  | zero => exact ⟨rfl, Option.some.inj hthread⟩
  | succ n =>
      have hfalse := h.others_other i (List.mem_flatten.mpr
        ⟨_, List.mem_of_getElem? hthread, List.mem_cons_self⟩)
      exact absurd (hfalse.symm.trans hi) Bool.false_ne_true

section Send

variable {c : ConnID} {iLen len : ℕ} {k : ContextPtr}

theorem first_thread (h : Framed es (i :: rest) others o) :
    o.server.threads[0]? = some (i :: rest) := by
  rw [h.threads]
  rfl

theorem run_threads (h : Framed es (i :: rest) others o) (e : Effect) :
    (o.server.run 0 rest e).threads = (e.next ++ rest) :: others := by
  rw [State.run, h.threads]
  rfl

-- The packet is there.
theorem first (h : Framed es (i :: rest) others o) (hi : i.addressee = some c) :
    ∃ packet later, o.messages = (c, packet) :: later ∧
      rest.filterMap Instr.addressee = later.map Prod.fst := by
  have haddressed := h.addressed
  rw [List.filterMap_cons_some hi] at haddressed
  cases hm : o.messages with
  | nil =>
      rw [hm] at haddressed
      cases haddressed
  | cons message later =>
      rw [hm, List.map_cons] at haddressed
      obtain ⟨hc, hlater⟩ := List.cons.inj haddressed
      exact ⟨message.2, later, by rw [hc], hlater⟩

theorem exec_sendData (ok : Bool) (s : Shared) (c : ConnID) (iLen : ℕ) :
    (exec ok s (.SendData c iLen)).posted = [] ∧
      ((exec ok s (.SendData c iLen)).next = [] ∧ ok = false ∧
          s.pool.output_context_pool_.pop = none ∨
        ∃ k, (exec ok s (.SendData c iLen)).next =
          [.AsyncSendBuffer c (iLen + PACKET_HEAD) k]) := by
  cases hpop : s.pool.output_context_pool_.pop with
  | none => cases ok <;> simp [exec, hpop]
  | some popped => simp [exec, hpop]

theorem sendData (h : Framed es (.SendData c iLen :: rest) others o) :
    ∃ code', Framed (es ++ [(.Run (.SendData c iLen) ok, o.outcome (.Run (.SendData c iLen) ok))])
      code' others (o.ran (.SendData c iLen) rest ok) := by
  have hst : Step OwnCall o.server (.Run (.SendData c iLen) ok) _ := .run h.first_thread
  obtain ⟨packet, later, hm, hlater⟩ := h.first rfl
  obtain ⟨hposted, hnext⟩ := exec_sendData ok o.server.shared c iLen
  have hthreads := h.run_threads (exec ok o.server.shared (.SendData c iLen))
  have hsame : (o.server.run 0 rest (exec ok o.server.shared (.SendData c iLen))).posted =
      o.server.posted := by
    rw [State.run, hposted, List.append_nil]
  rcases hnext with ⟨hnil, -⟩ | ⟨k, hnext⟩
  · -- there is no context
    rw [hnil, List.nil_append] at hthreads
    rw [Output.ran, Output.after, Output.outcome, if_pos hnil, if_pos hnil, hm]
    refine ⟨rest, h.settle hst hthreads hlater ?_ ?_ (fun he ↦ by cases he) rfl⟩
    · rw [hm]
      rfl
    · intro d k hmem
      rw [hsame] at hmem
      exact h.posted d k hmem
  · have hgoes : (exec ok o.server.shared (.SendData c iLen)).next ≠ [] := by
      rw [hnext]
      exact List.cons_ne_nil _ _
    rw [hnext] at hthreads
    rw [Output.ran, Output.after, Output.outcome, if_neg hgoes, if_neg hgoes]
    refine ⟨_, h.keep hst hthreads h.others_other rfl rfl ?_ rfl⟩
    intro d k hmem
    rwa [hsame] at hmem

theorem exec_asyncSendBuffer {pooled : List ContextPtr} {s : State} (h : Tracked pooled s)
    (hlen : len ≤ MAX_OUTPUT_BUFFER) :
    exec ok s.shared (.AsyncSendBuffer c len k) =
      { shared := s.shared, next := [.AsyncSend c k] } := by
  rw [← h.size] at hlen
  exact if_neg (Nat.not_lt.mpr hlen)

-- The packet is written into a buffer that nothing else uses.
theorem asyncSendBuffer {pooled : List ContextPtr}
    (h : Framed es (.AsyncSendBuffer c len k :: rest) others o) (htracked : Tracked pooled o.server)
    (hlen : len ≤ MAX_OUTPUT_BUFFER) :
    ∃ code', Framed (es ++ [(.Run (.AsyncSendBuffer c len k) ok,
      o.outcome (.Run (.AsyncSendBuffer c len k) ok))]) code' others
      (o.ran (.AsyncSendBuffer c len k) rest ok) := by
  have hst : Step OwnCall o.server (.Run (.AsyncSendBuffer c len k) ok) _ := .run h.first_thread
  obtain ⟨packet, later, hm, hlater⟩ := h.first rfl
  obtain ⟨hrest, hposted⟩ := htracked.exclusive h.first_thread List.mem_cons_self
  have hexec : exec ok o.server.shared (.AsyncSendBuffer c len k) = _ :=
    exec_asyncSendBuffer htracked hlen
  have hthreads := h.run_threads (exec ok o.server.shared (.AsyncSendBuffer c len k))
  have hsame : (o.server.run 0 rest
      (exec ok o.server.shared (.AsyncSendBuffer c len k))).posted = o.server.posted := by
    rw [State.run, hexec, List.append_nil]
  have hnext : (exec ok o.server.shared (.AsyncSendBuffer c len k)).next = [.AsyncSend c k] := by
    rw [hexec]
  have horder := h.order
  rw [due_cons, Instr.due, Instr.left, hm] at horder
  rw [hnext] at hthreads
  rw [Output.ran, Output.after, Output.outcome, if_neg (by rw [hnext]; exact List.cons_ne_nil _ _),
    hm]
  refine ⟨.AsyncSend c k :: rest, hthreads, h.others_other, hlater, ?_, ?_, ?_⟩
  · have hothers : due (Function.update o.buffer_ k packet) rest later =
        due o.buffer_ rest later := by
      apply due_congr
      intro j hj k' hk'
      have hne : k' ≠ k := fun he ↦ hrest j hj (he ▸ hk')
      exact Function.update_of_ne hne _ _
    rw [asked_snoc, settled_none, show Event.messages (.Run _ _) = [] from rfl, List.append_nil,
      ← horder]
    show _ ++ ((c, Function.update o.buffer_ k packet k) ::
      due (Function.update o.buffer_ k packet) rest later) = _
    rw [Function.update_self, hothers]
    rfl
  · intro d k' hmem
    rw [hsame] at hmem
    have hne : k' ≠ k := fun he ↦ hposted d (he ▸ hmem)
    show Function.update o.buffer_ k packet k' = o.given k'
    rw [Function.update_of_ne hne]
    exact h.posted d k' hmem
  · exact h.refused.snoc hst fun _ _ he ↦ by cases he

theorem after_asyncSend :
    o.after (.Run (.AsyncSend c k) ok) server = { o with server } := rfl

theorem asyncSend (h : Framed es (.AsyncSend c k :: rest) others o) :
    ∃ code', Framed (es ++ [(.Run (.AsyncSend c k) ok, o.outcome (.Run (.AsyncSend c k) ok))])
      code' others (o.ran (.AsyncSend c k) rest ok) := by
  have hst : Step OwnCall o.server (.Run (.AsyncSend c k) ok) _ := .run h.first_thread
  have hthreads := h.run_threads (exec ok o.server.shared (.AsyncSend c k))
  by_cases hmax : (o.server.shared.connection c).iorefmax_ < (o.server.shared.connection c).iorefs_
  · -- there are too many references
    have hexec : exec ok o.server.shared (.AsyncSend c k) =
        { shared := o.server.shared, next := [.PushOutputContext k, .AsyncDisconnect c] } :=
      if_pos hmax
    have hstops : (exec ok o.server.shared (.AsyncSend c k)).next ≠ [.WSASend c k] := by
      rw [hexec]
      simp
    rw [Output.ran, after_asyncSend, Output.outcome, if_neg hstops]
    rw [hexec] at hthreads hst ⊢
    refine ⟨_, h.settle hst hthreads h.addressed rfl ?_ ?_ rfl⟩
    · intro d k' hmem
      rw [State.run, List.append_nil] at hmem
      exact h.posted d k' hmem
    · intro _
      show _ ∈ (o.server.run 0 rest _).threads.flatten
      rw [hthreads]
      simp
  · have hexec : exec ok o.server.shared (.AsyncSend c k) =
        { shared := o.server.shared.addRefs c 1, next := [.WSASend c k] } := if_neg hmax
    have hgoes : (exec ok o.server.shared (.AsyncSend c k)).next = [.WSASend c k] := by
      rw [hexec]
    rw [Output.ran, after_asyncSend, Output.outcome, if_pos hgoes]
    rw [hgoes] at hthreads
    refine ⟨_, h.keep hst hthreads h.others_other rfl rfl ?_ rfl⟩
    intro d k' hmem
    rwa [State.run, hexec, List.append_nil] at hmem

theorem wsaSend (h : Framed es (.WSASend c k :: rest) others o) :
    ∃ code', Framed (es ++ [(.Run (.WSASend c k) ok, o.outcome (.Run (.WSASend c k) ok))]) code'
      others (o.ran (.WSASend c k) rest ok) := by
  have hst : Step OwnCall o.server (.Run (.WSASend c k) ok) _ := .run h.first_thread
  have hthreads := h.run_threads (exec ok o.server.shared (.WSASend c k))
  have hnext : ∀ j ∈ (exec ok o.server.shared (.WSASend c k)).next, j.isSend = false := by
    cases ok <;> simp [exec, Instr.isSend]
  refine ⟨_, h.settle hst hthreads ?_ ?_ ?_ ?_ rfl⟩
  · rw [addressee_append_other hnext]
    exact h.addressed
  · rw [due_append_other hnext]
    rfl
  · intro d k' hmem
    show o.buffer_ k' = Function.update o.given k (o.buffer_ k) k'
    by_cases hk : k' = k
    · rw [hk, Function.update_self]
    · rw [Function.update_of_ne hk]
      apply h.posted d
      cases List.mem_append.mp hmem with
      | inl hold => exact hold
      | inr hnew =>
          -- only the context that is given is new
          cases ok with
          | true =>
              cases List.mem_singleton.mp hnew
              exact absurd rfl hk
          | false => exact absurd hnew List.not_mem_nil
  · intro hrefused
    show _ ∈ (o.server.run 0 rest _).threads.flatten
    rw [hthreads]
    cases ok with
    | true => cases hrefused
    | false => simp [exec]

end Send

theorem after_other (hi : i.isSend = false) :
    o.after (.Run i ok) server = { o with server } := by
  cases i <;> first | rfl | cases hi

theorem outcome_other (hi : i.isSend = false) : o.outcome (.Run i ok) = none := by
  cases i <;> first | rfl | cases hi

theorem ownCall_other (hi : OwnCall i) : i.isSend = false := by
  cases i <;> first | rfl | cases hi

theorem run {pooled : List ContextPtr} (h : Framed es code others o)
    (htracked : Tracked pooled o.server) (hfits : Fits (.Run i ok))
    (hthread : o.server.threads[n]? = some (i :: rest)) :
    ∃ code' others', Framed (es ++ [(.Run i ok, o.outcome (.Run i ok))]) code' others'
      (o.after (.Run i ok) (o.server.run n rest (exec ok o.server.shared i))) := by
  by_cases hi : i.isSend = true
  · obtain ⟨rfl, rfl⟩ := h.eq_zero hthread hi
    cases i with
    | SendData c iLen =>
        obtain ⟨code', hcode'⟩ := h.sendData
        exact ⟨code', others, hcode'⟩
    | AsyncSendBuffer c len k =>
        obtain ⟨code', hcode'⟩ := h.asyncSendBuffer htracked (hfits c len k ok rfl)
        exact ⟨code', others, hcode'⟩
    | AsyncSend c k =>
        obtain ⟨code', hcode'⟩ := h.asyncSend
        exact ⟨code', others, hcode'⟩
    | WSASend c k =>
        obtain ⟨code', hcode'⟩ := h.wsaSend
        exact ⟨code', others, hcode'⟩
    | _ => cases hi
  · rw [Bool.not_eq_true] at hi
    rw [after_other hi, outcome_other hi]
    exact h.run_other hthread hi

-- A thread begins with what does not send.
theorem begins (h : Framed es code others o) {new : List Instr}
    (hst : Step OwnCall o.server event server) (hthreads : server.threads =
      o.server.threads ++ [new])
    (hnew : ∀ i ∈ new, i.isSend = false)
    (hposted : ∀ c k, .send c k ∈ server.posted → .send c k ∈ o.server.posted)
    (hevent : event.messages = []) :
    Framed (es ++ [(event, none)]) code (others ++ [new]) { o with server } := by
  rw [h.threads] at hthreads
  refine h.keep hst hthreads ?_ rfl rfl hposted hevent
  intro i hi
  rw [List.flatten_append, List.mem_append] at hi
  cases hi with
  | inl hi => exact h.others_other i hi
  | inr hi => exact hnew i (by simpa using hi)

theorem execute (h : Framed es code others o) {e : Executed} {commands : List EasyCommand}
    {t : EasyBaseServer} (hidle : o.server.threads[0]? = some [])
    (hst : Step OwnCall o.server (.Execute e)
      { o.server with
        shared := o.server.shared.executed e.1 t
        threads := o.server.threads.set 0 (e.2.flatMap ofAction)
        m_CommandList := commands }) :
    Framed (es ++ [(.Execute e, none)]) (e.2.flatMap ofAction) others
      (o.after (.Execute e)
        { o.server with
          shared := o.server.shared.executed e.1 t
          threads := o.server.threads.set 0 (e.2.flatMap ofAction)
          m_CommandList := commands }) := by
  have horder := h.order
  have hcode : code = [] := by
    rw [h.threads] at hidle
    exact Option.some.inj hidle
  rw [hcode, due_nil, List.append_nil] at horder
  obtain ⟨hdue, haddressed⟩ := ofAction_due o.buffer_ e.2
  refine ⟨?_, h.others_other, haddressed, ?_, h.posted, ?_⟩
  · show o.server.threads.set 0 _ = _
    rw [h.threads]
    rfl
  · rw [asked_snoc, settled_none, ← horder]
    exact congrArg (_ ++ ·) hdue
  · exact h.refused.snoc hst fun _ _ he ↦ by cases he

theorem step {pooled : List ContextPtr} {o' : Output} {e : SendEvent} (h : Framed es code others o)
    (htracked : Tracked pooled o.server) (hfits : Fits e.1) (hst : o.Step e o') :
    ∃ code' others', Framed (es ++ [e]) code' others' o' := by
  cases hst with
  | step hst =>
      cases hst with
      | call hi =>
          exact ⟨code, _, h.begins (.call hi) rfl
            (fun j hj ↦ List.mem_singleton.mp hj ▸ ownCall_other hi) (fun _ _ hmem ↦ hmem) rfl⟩
      | run hthread => exact h.run htracked hfits hthread
      | @complete op bResult data hop =>
          exact ⟨code, _, h.begins (.complete hop) rfl
            (completed_other bResult data o.server.shared op)
            (fun _ _ hmem ↦ List.mem_of_mem_erase hmem) rfl⟩
      | execute hidle hlist hex => exact ⟨_, others, h.execute hidle (.execute hidle hlist hex)⟩

end Framed

/-- The steps in which no packet is longer than an output buffer. -/
def FittingStep : Output → SendEvent → Output → Prop := Guarded (fun _ e ↦ Fits e.1) Output.Step

section Runs

variable {iMaxSession : ℕ} {memory : SessionPtr → EasySession} {array : ℕ → SessionPtr}

theorem framed_of_path {es : List SendEvent} {o : Output}
    (h : Path FittingStep (.start iMaxSession memory array) es o) :
    (∃ pooled, Tracked pooled o.server) ∧ ∃ code others, Framed es code others o := by
  apply h.always (I := fun es o ↦
    (∃ pooled, Tracked pooled o.server) ∧ ∃ code others, Framed es code others o)
  · exact ⟨⟨[], tracked_init iMaxSession memory array⟩, [], [], .start iMaxSession memory array⟩
  · rintro es o event o' ⟨⟨pooled, htracked⟩, code, others, hframed⟩ ⟨hfits, hst⟩
    refine ⟨?_, hframed.step htracked hfits hst⟩
    cases hst with
    | step hst =>
        rw [Output.after_server]
        exact htracked.step hst.sendCall hfits

theorem exists_step {es before later : List SendEvent} {l : SendEvent} {o : Output}
    (h : Path FittingStep (.start iMaxSession memory array) es o) (he : es = before ++ l :: later) :
    ∃ u u', Path FittingStep (.start iMaxSession memory array) before u ∧ FittingStep u l u' := by
  have hpre : before ++ [l] <+: es := ⟨later, by rw [he, List.append_assoc]; rfl⟩
  obtain ⟨u', hu'⟩ := h.of_prefix hpre
  obtain ⟨u, hu, hst⟩ := path_snoc.mp hu'
  exact ⟨u, u', hu, hst⟩

theorem Output.Step.inv {o o' : Output} {l : SendEvent} (h : o.Step l o') :
    l.2 = o.outcome l.1 ∧ ∃ server, Iocp.Step OwnCall o.server l.1 server := by
  cases h with
  | step h => exact ⟨rfl, _, h⟩

theorem outcome_noContext {o : Output} {e : Event} {message : Message}
    (h : o.outcome e = some (message, .noContext)) :
    ∃ c iLen ok, e = .Run (.SendData c iLen) ok ∧
      (exec ok o.server.shared (.SendData c iLen)).next = [] ∧ o.messages.head? = some message := by
  unfold Output.outcome at h
  split at h
  · rename_i c iLen ok
    split at h
    · rename_i hnil
      obtain ⟨m, hm, he⟩ := Option.map_eq_some_iff.mp h
      cases he
      exact ⟨c, iLen, ok, rfl, hnil, hm⟩
    · cases h
  · split at h
    · obtain ⟨m, hm, he⟩ := Option.map_eq_some_iff.mp h
      cases he
    · cases h
  · split at h <;> cases h
  · rename_i c k ok
    cases ok <;> cases h
  · cases h

theorem outcome_tooLong {o : Output} {e : Event} {message : Message}
    (h : o.outcome e = some (message, .tooLong)) :
    ∃ c len k ok, e = .Run (.AsyncSendBuffer c len k) ok ∧
      (exec ok o.server.shared (.AsyncSendBuffer c len k)).next = [] := by
  unfold Output.outcome at h
  split at h
  · split at h
    · obtain ⟨m, hm, he⟩ := Option.map_eq_some_iff.mp h
      cases he
    · cases h
  · rename_i c len k ok
    split at h
    · rename_i hnil
      exact ⟨c, len, k, ok, rfl, hnil⟩
    · cases h
  · split at h <;> cases h
  · rename_i c k ok
    cases ok <;> cases h
  · cases h

end Runs

/-- **Packets are posted in order** and as they were written: the packets that were settled, and
then those that the command thread is about to send, are what the executed commands send, in their
order.  The buffer of a send that is under way holds what `WSASend` was called with.  Where a packet
was not given to `WSASend`, its `SendData` found no context and could not make one; where it was
refused, its connection has been disconnected since, or is about to be. -/
theorem packets_posted_in_order (iMaxSession : ℕ) (memory : SessionPtr → EasySession)
    (array : ℕ → SessionPtr) (es : List SendEvent) (o : Output)
    (h : Path FittingStep (.start iMaxSession memory array) es o) :
    (settled es).map Prod.fst ++ o.due = asked es ∧
      (∀ c k, .send c k ∈ o.server.posted → o.buffer_ k = o.given k) ∧
      (∀ before e message later,
        es = before ++ (e, some (message, .noContext)) :: later →
        ∃ iLen u, Path FittingStep (.start iMaxSession memory array) before u ∧
          e = .Run (.SendData message.1 iLen) false ∧
          u.server.shared.pool.output_context_pool_.pop = none) ∧
      (∀ before e message later, es ≠ before ++ (e, some (message, .tooLong)) :: later) ∧
      ∀ before e c packet later, es = before ++ (e, some ((c, packet), .refused)) :: later →
        Disconnects c later o.server := by
  obtain ⟨-, code, others, hframed⟩ := framed_of_path h
  have hdue : o.due = due o.buffer_ code o.messages := by
    rw [Output.due, hframed.threads]
    rfl
  rw [hdue]
  refine ⟨hframed.order, hframed.posted, ?_, ?_, hframed.refused⟩
  · intro before e message later he
    obtain ⟨u, u', hu, -, hst⟩ := exists_step h he
    obtain ⟨-, code', others', hu'⟩ := framed_of_path hu
    obtain ⟨houtcome, server, hserver⟩ := hst.inv
    obtain ⟨c, iLen, ok, rfl, hnil, hhead⟩ := outcome_noContext houtcome.symm
    cases hserver with
    | run hthread =>
        obtain ⟨-, rfl⟩ := hu'.eq_zero hthread rfl
        obtain ⟨packet, rest, hm, -⟩ := hu'.first rfl
        rw [hm] at hhead
        cases hhead
        rcases (Framed.exec_sendData ok u.server.shared c iLen).2 with ⟨-, rfl, hpop⟩ | ⟨k, hk⟩
        · exact ⟨iLen, u, hu, rfl, hpop⟩
        · rw [hnil] at hk
          cases hk
  · intro before e message later he
    obtain ⟨u, u', hu, hfits, hst⟩ := exists_step h he
    obtain ⟨⟨pooled, htracked⟩, -⟩ := framed_of_path hu
    obtain ⟨houtcome, -⟩ := hst.inv
    obtain ⟨c, len, k, ok, rfl, hnil⟩ := outcome_tooLong houtcome.symm
    rw [Framed.exec_asyncSendBuffer htracked (hfits c len k ok rfl)] at hnil
    cases hnil

/-- The server's runs are those of its output. -/
theorem Output.of_server {iMaxSession : ℕ} {memory : SessionPtr → EasySession}
    {array : ℕ → SessionPtr} {es : List Event} {s : State}
    (h : Path (Guarded (fun _ ↦ Fits) (Iocp.Step OwnCall)) (init iMaxSession memory array) es s) :
    ∃ es' o, es'.map Prod.fst = es ∧ o.server = s ∧
      Path FittingStep (.start iMaxSession memory array) es' o := by
  induction h with
  | nil => exact ⟨[], _, rfl, rfl, .nil⟩
  | @snoc es s t event _ hst ih =>
      obtain ⟨es', o, rfl, rfl, ho⟩ := ih
      refine ⟨es' ++ [(event, o.outcome event)], o.after event t, ?_, o.after_server event t,
        ho.snoc ⟨hst.1, .step hst.2⟩⟩
      rw [List.map_append]
      rfl

/-- Events with no packet that is too long. -/
def Short : Event → Bool
  | .Run (.AsyncSendBuffer _ len _) _ => len ≤ MAX_OUTPUT_BUFFER
  | _ => true

theorem Fits.of_short {event : Event} (h : Short event = true) : Fits event := by
  rintro c len k ok rfl
  exact of_decide_eq_true h

/-- A client connects, and a packet is sent to it. -/
theorem packets_posted_in_order_one :
    ∃ es o, Path FittingStep (.start 1 (fun _ ↦ zeroSession) fun _ ↦ 0) es o ∧
      .send 0 0 ∈ o.server.posted ∧ o.buffer_ 0 = o.given 0 ∧
        (settled es).map Prod.fst = [(0, [5, 0, 1, 0, 7])] := by
  have hturns : ∀ {es s} (_ : Path (Guarded (fun _ ↦ Fits) (Step OwnCall))
      (init 1 (fun _ ↦ zeroSession) fun _ ↦ 0) es s) (turns : List (ℕ × Bool)),
      (s.turns turns).1.all Short = true → Path (Guarded (fun _ ↦ Fits) (Step OwnCall))
        (init 1 (fun _ ↦ zeroSession) fun _ ↦ 0) (es ++ (s.turns turns).1) (s.turns turns).2 :=
    fun h turns hall ↦ guarded_turns h turns fun _ event hevent ↦
      .of_short (List.all_eq_true.mp hall event hevent)
  have hstarted : Path (Guarded (fun _ ↦ Fits) (Step OwnCall))
      (init 1 (fun _ ↦ zeroSession) fun _ ↦ 0) startEvents started :=
    path_started trivial fun _ event hevent ↦
      .of_short (List.all_eq_true.mp (rfl : startEvents.all Short = true) event hevent)
  have haccepted := guarded_complete hstarted (.accept 0) true ⟨[], by decide⟩ (by decide)
    (.of_short rfl)
  have hreceiving := hturns haccepted (List.replicate 11 (2, true)) rfl
  have hconnect := guarded_execute hreceiving (.OnConnect 0, []) (.of_short rfl) rfl rfl
    ⟨_, ⟨zeroSession, rfl⟩, rfl, rfl⟩
  -- another thread has the packet sent
  have hcall := guarded_call hconnect (.PushCommand (.SendData 0 ⟨5, [7], by decide, by decide⟩))
    rfl (.of_short rfl)
  have hpushed := hturns hcall [(3, true)] rfl
  have hsend := guarded_execute hpushed
    (.SendData 0 ⟨5, [7], by decide, by decide⟩, [.AsyncSend 0 [5, 0, 1, 0, 7]]) (.of_short rfl)
    rfl rfl ⟨_, ⟨true, rfl⟩, rfl, rfl⟩
  have hposted := hturns hsend (List.replicate 4 (0, true)) rfl
  obtain ⟨es, o, hes, hserver, ho⟩ := Output.of_server hposted
  obtain ⟨horder, hgiven, -⟩ := packets_posted_in_order 1 _ _ _ o ho
  have hmem : .send 0 0 ∈ o.server.posted := by
    rw [hserver]
    decide
  have hdue : o.due = [] := by
    rw [Output.due, hserver]
    rfl
  rw [hdue, List.append_nil, Framed.asked_eq, hes] at horder
  exact ⟨es, o, ho, hmem, hgiven 0 0 hmem, horder⟩

end Iocp

end Fantuan
