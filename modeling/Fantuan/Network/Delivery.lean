import Fantuan.Midware.Isolation
import Fantuan.Midware.Reassembly
import Fantuan.Network.Lifetime
import Fantuan.Network.Received

/-!
# From `recv` to the dispatcher (Linux)

The worker thread reads from the sockets and pushes what it has read; the command thread executes
the commands, and the sessions put the packets together.  Along every run of the two threads, no
byte of a connection gets lost, is repeated or changes its place between the two ends.
-/

open Lib

namespace Fantuan

/-! ## 1. What the commands hold -/

namespace LinuxServer

/-- The handler `OnData` copies what `RecvData` hands over, whatever was in the receive buffer
before: `CopyData` takes a `uint16` length. -/
def Copies (s : LinuxServer) (e : Event) (t : LinuxServer) : Prop :=
  ∀ c r, e = .recv c r → r.bReadOK = true → ∃ (m : ℤ → UInt8) (data : EasyCommandOnData),
    data.m_pData = (r.handedOver m).take (uint16 (uint32 r.len_)) ∧
      t.worker = s.handler (.OnData c data)

/-- A step, with the contents of the commands. -/
def DeliveryStep (s : LinuxServer) (e : Event) (t : LinuxServer) : Prop :=
  Step s e t ∧ s.Copies e t

/-- The command thread executes `OnData` of a session, and a copy leaves `m_RecvBuf`. -/
def Overruns (s : LinuxServer) (e : Event) : Prop :=
  ∃ c data actions later p, e = .exec (.OnData c data, actions) ∧ s.draining = true ∧
    s.m_CommandList = .OnData c data :: later ∧ s.server.m_bReadyForShutdown = false ∧
    s.server.client_ c = some p ∧
    ∃ u ∈ EasySession.OnData (s.server.object p).toRecvBuffer data.m_pData, u.pc ≠ .returned

/-- The steps in which no copy leaves `m_RecvBuf`; where one does, anything may come of it. -/
def DefinedStep : LinuxServer → Event → LinuxServer → Prop :=
  Guarded (fun s e ↦ ¬ s.Overruns e) fun s e t ↦ s.DeliveryStep e t ∨ s.Overruns e

theorem Step.not_overruns {s t : LinuxServer} {e : Event} (h : Step s e t) : ¬ s.Overruns e := by
  rintro ⟨c, data, actions, later, p, rfl, -, -, hflag, hclient, u, hu, hpc⟩
  cases h with
  | exec hlock hlist hd =>
      simp only [EasyBaseServer._OnCommand, hflag, EasyBaseServer._OnCommandOnData, hclient] at hd
      rw [if_neg Bool.false_ne_true, Part.mem_bind_iff] at hd
      obtain ⟨u', hu', hret⟩ := hd
      cases Part.mem_unique hu hu'
      rw [if_neg hpc] at hret
      exact Part.notMem_none _ hret

theorem definedStep_iff {s t : LinuxServer} {e : Event} :
    s.DefinedStep e t ↔ s.DeliveryStep e t :=
  ⟨fun h ↦ h.2.resolve_right h.1, fun h ↦ ⟨h.1.not_overruns, .inl h⟩⟩

theorem path_defined_iff {s t : LinuxServer} {es : List Event} :
    Path DefinedStep s es t ↔ Path DeliveryStep s es t :=
  ⟨fun h ↦ h.mono fun _ _ _ ↦ definedStep_iff.mp, fun h ↦ h.mono fun _ _ _ ↦ definedStep_iff.mpr⟩

end LinuxServer

/-- The bytes that the calls of `recv` returned. -/
def RecvResult.bytes (r : RecvResult) : List UInt8 := (r.writes.map Prod.snd).flatten

/-- Outcomes of the calls of `recv` for which the bytes are kept. -/
def RecvResult.Kept (r : RecvResult) : Prop :=
  ∃ os, OneCall os ∧ Uninterrupted os ∧ (received os).length ≤ 2 * MAXLINE ∧
    EasyConnection.RecvData os = some r

/-- What was read for the connection in a step, up to the call of `OnData`. -/
def readFor (c : ConnID) (e : Event) : List UInt8 :=
  match e with
  | .recv c' r => if c' = c ∧ r.bReadOK = true then r.bytes else []
  | _ => []

def readOn (c : ConnID) (es : List Event) : List UInt8 := es.flatMap (readFor c)

/-- No bytes are lost within a call of `RecvData`. -/
def KeepsBytes (_before : List Event) (e : Event) : Prop :=
  ∀ c r, e = .recv c r → r.bReadOK = true → r.Kept

section Kept

variable {r r' : RecvResult} {os : List RecvOutcome} {n : ℤ}

theorem bytes_snoc {data : List UInt8} {l : ℕ} {ok : Bool} :
    RecvResult.bytes ⟨r.writes ++ [(n, data)], l, ok⟩ = r.bytes ++ data := by
  rw [RecvResult.bytes, List.map_append, List.flatten_append]
  show _ ++ (data ++ []) = _
  rw [List.append_nil]
  rfl

theorem bytes_recvLoop (h : EasyConnection.recvLoop n r os = some r') (hcall : OneCall os) :
    r'.bytes = r.bytes ++ received os := by
  induction os generalizing n r with
  | nil => exact nomatch h
  | cons o os ih =>
      rw [received_cons]
      cases o with
      | bytes data =>
          by_cases hfull : data.length = MAXLINE
          · rw [EasyConnection.recvLoop_full hfull] at h
            rw [ih h hcall.tail, bytes_snoc, List.append_assoc]
            rfl
          · obtain rfl := hcall.eq_nil hfull
            rw [EasyConnection.recvLoop_short hfull, Option.some.injEq] at h
            rw [← h, bytes_snoc]
            exact (congrArg _ (List.append_nil data)).symm
      | EINTR => exact ih h hcall.tail
      | EAGAIN | error | closed =>
          obtain rfl := hcall.eq_nil id
          rw [EasyConnection.recvLoop, Option.some.injEq] at h
          rw [← h]
          exact (List.append_nil _).symm

-- The command holds what was read.
theorem RecvResult.Kept.copied (h : r.Kept) (hok : r.bReadOK = true) (m : ℤ → UInt8) :
    (r.handedOver m).take (uint16 (uint32 r.len_)) = r.bytes := by
  obtain ⟨os, hcall, hu, htotal, hr⟩ := h
  have hbytes : r.bytes = received os := bytes_recvLoop hr hcall
  have hlen : r.len_ = 0 + (received os).length := EasyConnection.recvLoop_len hcall hr
  have hmax : 2 * MAXLINE = 512 := rfl
  have hshort : uint16 (uint32 r.len_) = (received os).length := by
    rw [hlen, Nat.zero_add, uint32_of_lt (by omega), uint16_of_lt (by omega)]
  rw [RecvData_handedOver hcall hu htotal hr hok, hshort, List.take_length, hbytes]

end Kept

/-! ## 2. One step -/

section Step

variable {c : ConnID} {es : List Event} {e : Event} {s t : LinuxServer} {command : EasyCommand}

theorem chunksOf_congr {xs ys : List Executed} (h : xs.map Prod.fst = ys.map Prod.fst) :
    chunksOf c xs = chunksOf c ys := by
  have hmap : ∀ xs : List Executed,
      chunksOf c xs = (xs.map Prod.fst).filterMap fun command ↦ chunkFor c (command, []) := by
    intro xs
    rw [List.filterMap_map]
    rfl
  rw [hmap, hmap, h]

-- A command that the worker makes comes behind all others.
theorem commands_made (command : EasyCommand) (hw : s.worker = .loop) (hexec : executed [e] = [])
    (hlist : t.m_CommandList = s.m_CommandList) (hworker : t.worker = .pushing command) :
    commands (es ++ [e]) t = commands es s ++ [(command, [])] := by
  rw [commands, executed_other hexec, LinuxServer.pending, hlist, hworker, commands,
    LinuxServer.pending, hw]
  simp only [WorkerPc.pushed, List.map_append, List.map_cons, List.map_nil, List.append_nil,
    List.append_assoc]

theorem commands_quiet (hexec : executed [e] = []) (hpending : t.pending = s.pending) :
    commands (es ++ [e]) t = commands es s := by
  rw [commands, executed_other hexec, hpending, commands]

theorem chunksOf_other (h : ∀ data, command ≠ .OnData c data) (xs : List Executed) :
    chunksOf c (xs ++ [(command, [])]) = chunksOf c xs := by
  have hnone : chunkFor c (command, []) = none := by
    cases command with
    | OnData c' data =>
        by_cases hcc : c' = c
        · rw [hcc] at h
          exact absurd rfl (h data)
        · exact if_neg hcc
    | _ => rfl
  rw [chunksOf_snoc, hnone]
  exact List.append_nil _

/-- **One step** brings the bytes that were read for a connection behind those before. -/
theorem Lifetime.delivers (h : Lifetime es s) (hkeeps : KeepsBytes es e)
    (hst : s.DeliveryStep e t) :
    (chunksOf c (commands (es ++ [e]) t)).flatten =
      (chunksOf c (commands es s)).flatten ++ readFor c e := by
  obtain ⟨hst, hcopies⟩ := hst
  cases hst with
  | wait =>
      rw [commands_quiet rfl rfl]
      exact (List.append_nil _).symm
  | @accept c' later hw =>
      rw [commands_made (.OnConnect c') hw]
      · rw [chunksOf_other fun _ he ↦ by cases he]
        exact (List.append_nil _).symm
      · rfl
      · rfl
      · exact h.handler_eq _
  | @data c' later os r data hw _ _ hok =>
      obtain ⟨m, data', hdata, hworker⟩ := hcopies c' r rfl hok
      rw [(hkeeps c' r rfl hok).copied hok] at hdata
      have hsame : data = data' := by
        have hpush : WorkerPc.pushing (.OnData c' data) = .pushing (.OnData c' data') := by
          rw [← h.handler_eq, ← h.handler_eq]
          exact hworker
        cases hpush
        rfl
      rw [commands_made (.OnData c' data) hw]
      · by_cases hcc : c' = c
        · have hread : readFor c (.recv c' r) = r.bytes := if_pos ⟨hcc, hok⟩
          rw [hread, hcc, chunksOf_data, List.flatten_concat, hsame, hdata]
        · have hread : readFor c (.recv c' r) = [] := if_neg fun h ↦ hcc h.1
          have hother : ∀ data', EasyCommand.OnData c' data ≠ .OnData c data' := by
            rintro data' he
            cases he
            exact hcc rfl
          rw [chunksOf_other hother, hread, List.append_nil]
      · rfl
      · rfl
      · exact h.handler_eq _
  | @hangup c' later os r hw _ _ hok =>
      have hread : readFor c (.recv c' r) = [] := if_neg fun h ↦ by
        rw [hok] at h
        exact nomatch h.2
      rw [commands_made (.OnDisconnect c') hw]
      · rw [chunksOf_other (fun _ he ↦ by cases he), hread, List.append_nil]
      · rfl
      · rfl
      · exact h.handler_eq _
  | @push command hw =>
      rw [commands_quiet]
      · exact (List.append_nil _).symm
      · rfl
      · cases command <;> simp only [LinuxServer.pending, hw, WorkerPc.pushed, List.append_nil]
  | returned hw =>
      rw [commands_quiet]
      · exact (List.append_nil _).symm
      · rfl
      · simp only [LinuxServer.pending, hw, WorkerPc.pushed]
  | lock =>
      rw [commands_quiet rfl rfl]
      exact (List.append_nil _).symm
  | @exec command later d _ hlist =>
      refine (congrArg List.flatten (chunksOf_congr ?_)).trans (List.append_nil _).symm
      exact Lifetime.commands_exec hlist rfl rfl
  | unlock =>
      rw [commands_quiet rfl rfl]
      exact (List.append_nil _).symm

-- The commands that are executed are a run of the server.
theorem executed_path (h : Path LinuxServer.Step s es t) :
    Path (Executes .LINUX) s.server (executed es) t.server := by
  induction h with
  | nil => exact .nil
  | snoc _ hst ih =>
      cases hst with
      | exec _ _ hd =>
          rw [executed_exec]
          exact ih.snoc ⟨_, hd, rfl, rfl⟩
      | wait | accept | data | hangup | push | returned | lock | unlock =>
          rw [executed_other rfl]
          exact ih

end Step

/-! ## 3. Runs -/

section Runs

variable {es : List Event} {s t : LinuxServer}

/-- The chunks of the connection that are not executed yet. -/
def LinuxServer.waitingOn (c : ConnID) (s : LinuxServer) : List (List UInt8) :=
  chunksOf c (s.pending.map fun command ↦ (command, []))

theorem chunksOf_commands (c : ConnID) :
    chunksOf c (commands es s) = chunksOf c (executed es) ++ s.waitingOn c := by
  rw [commands, chunksOf, List.filterMap_append]
  rfl

theorem delivered_of_path (hs : s.Started) (h : Path LinuxServer.DeliveryStep s es t)
    (hes : Each NotAfterHangup es) (hkeeps : Each KeepsBytes es) :
    Lifetime es t ∧ Path LinuxServer.Step s es t ∧
      ∀ c, (chunksOf c (commands es t)).flatten = readOn c es := by
  induction h with
  | nil =>
      refine ⟨.start hs, .nil, fun c ↦ ?_⟩
      rw [commands, LinuxServer.pending, hs.list, hs.worker]
      rfl
  | @snoc es t u e _ hst ih =>
      rw [each_snoc] at hes hkeeps
      obtain ⟨hlife, hpath, hread⟩ := ih hes.1 hkeeps.1
      refine ⟨hlife.step hes.2 hst.1, hpath.snoc hst.1, fun c ↦ ?_⟩
      rw [hlife.delivers hkeeps.2 hst, hread, readOn, readOn, List.flatMap_append,
        List.flatMap_singleton]

/-- **From the socket to the session.**  As long as no event of a connection is handled after its
end, no bytes are lost within a call of `RecvData` and no copy of `OnData` leaves `m_RecvBuf`, what
was read for a connection is what its session has received and what is still in commands, in this
order.  If it was read off a stream of packets of at most 1024 bytes, the session has handled those
that have wholly arrived, in order, and no others. -/
theorem delivered_in_order (s t : LinuxServer) (es : List Event) (hs : s.Started)
    (h : Path LinuxServer.DefinedStep s es t) (hes : Each NotAfterHangup es)
    (hkeeps : Each KeepsBytes es) (c : ConnID) :
    readOn c es = (chunksOf c (executed es)).flatten ++ (t.waitingOn c).flatten ∧
      ∀ rs : List SendRequest, (∀ r ∈ rs, r.iLen ≤ MAX_INPUT_BUFFER - PACKET_HEAD) →
        readOn c es <+: stream rs →
        packetsOf c (executed es) =
          (arrived (chunksOf c (executed es)).flatten.length rs).map SendRequest.packet := by
  obtain ⟨hlife, hpath, hread⟩ :=
    delivered_of_path hs (LinuxServer.path_defined_iff.mp h) hes hkeeps
  have hsplit : readOn c es = (chunksOf c (executed es)).flatten ++ (t.waitingOn c).flatten := by
    rw [← hread, chunksOf_commands, List.flatten_append]
  refine ⟨hsplit, fun rs hrs hsent ↦ ?_⟩
  rw [hsplit] at hsent
  obtain ⟨hwrap, hpackets⟩ := packets_of_stream hrs hsent
  rw [← hpackets]
  exact (served_of_path hs.idle (executed_path hpath) hlife.reported.left).handled c hwrap

theorem path_of_noRecv (h : Path LinuxServer.Step s es t) (hes : ∀ e ∈ es, ∀ c r, e ≠ .recv c r) :
    Path LinuxServer.DeliveryStep s es t := by
  induction h with
  | nil => exact .nil
  | snoc _ hst ih =>
      rw [List.forall_mem_append, List.forall_mem_singleton] at hes
      exact (ih hes.1).snoc ⟨hst, fun c r he ↦ absurd he (hes.2 c r)⟩

/-- A packet of one byte that is read in one call. -/
def onePacket : RecvResult := ⟨[(0, [5, 0, 1, 0, 9])], 5, true⟩

theorem kept_onePacket : onePacket.Kept := by
  refine ⟨[.bytes [5, 0, 1, 0, 9]], ⟨?_, ?_⟩, ?_, ?_, rfl⟩
  · simp [RecvOutcome.Possible, MAXLINE]
  · simp
  · exact uninterrupted_of_notMem (by simp)
  · decide

/-- It is in a command once it is read. -/
theorem delivered_one_packet :
    ∃ t, Path LinuxServer.DefinedStep (.start oneSession)
        ([.wait [none], .accept 0, .push (.OnConnect 0), .wait [some 0]] ++ [.recv 0 onePacket]) t ∧
      [5, 0, 1, 0, 9] = (t.waitingOn 0).flatten := by
  have hidle : oneSession.Idle := oneSession_prepared.idle
  have hrun := path_of_noRecv (LinuxServer.accepted_run hidle.running 0) (by simp)
  generalize hu : (⟨oneSession, [.OnConnect 0], false, [0], [], [some 0], .loop⟩ : LinuxServer) = u
    at hrun
  have hrecv : EasyConnection.RecvData [.bytes [5, 0, 1, 0, 9]] = some onePacket := rfl
  have hst : LinuxServer.Step u (.recv 0 onePacket)
      { u with
        events_ := [], worker := u.handler (.OnData 0 ⟨[5, 0, 1, 0, 9], by decide⟩) } :=
    .data (by rw [← hu]) (by rw [← hu]) hrecv rfl rfl
  have hcopies : u.Copies (.recv 0 onePacket)
      { u with
        events_ := [], worker := u.handler (.OnData 0 ⟨[5, 0, 1, 0, 9], by decide⟩) } := by
    rintro c r he hok
    cases he
    exact ⟨fun _ ↦ 0, _, (kept_onePacket.copied hok _).symm, rfl⟩
  have hpath := LinuxServer.path_defined_iff.mpr (hrun.snoc ⟨hst, hcopies⟩)
  refine ⟨_, hpath, (delivered_in_order _ _ _ (LinuxServer.started_start hidle) hpath ?_ ?_ 0).1⟩
  · refine each_snoc.mpr ⟨each_of_mem ?_, ?_⟩
    · simp [NotAfterHangup]
    · simp [NotAfterHangup]
  · refine each_snoc.mpr ⟨each_of_mem ?_, ?_⟩
    · simp [KeepsBytes]
    · rintro c r he -
      cases he
      exact kept_onePacket

end Runs

end Fantuan
