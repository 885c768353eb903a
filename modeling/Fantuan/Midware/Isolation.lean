import Fantuan.Midware.Initialize

/-!
# What one connection's bytes decide

Session objects are used again and again, and `Reset` leaves what stands in `m_RecvBuf`.  Still the
packets that are dispatched for a connection depend on its own chunks alone, whatever was sent on
other connections and whoever had the session before, as long as no header makes `iFullLength` wrap.
-/

open Lib StateTransition

namespace Fantuan

open OnData EasySession

/-! ## 1. What happened on one connection -/

/-- The chunk that `e` delivers on the connection `c`. -/
def chunkFor (c : ConnID) (e : Executed) : Option (List UInt8) :=
  match e.1 with
  | .OnData m_ConnId data => if m_ConnId = c then some data.m_pData else none
  | _ => none

def chunksOf (c : ConnID) (es : List Executed) : List (List UInt8) := es.filterMap (chunkFor c)

/-- The packet that `a` dispatches for the connection `c`. -/
def packetFor (c : ConnID) (a : Action) : Option EasyPacket :=
  match a with
  | .OnPacketReceived connId packet => if connId = c then some packet else none
  | _ => none

def packetsOf (c : ConnID) (es : List Executed) : List EasyPacket :=
  (es.flatMap Prod.snd).filterMap (packetFor c)

/-- In any two runs of reports, one from `s` and one from `s'`, that deliver `chunks` on the
connection `c`, the same packets are dispatched for `c`. -/
def Isolated (platform : Platform) (s s' : EasyBaseServer) (c : ConnID)
    (chunks : List (List UInt8)) : Prop :=
  ∀ es es' t t', Path (Executes platform) s es t → Each Reported es →
    Path (Executes platform) s' es' t' → Each Reported es' →
    chunksOf c es = chunks → chunksOf c es' = chunks → packetsOf c es = packetsOf c es'

section Snoc

variable {c d : ConnID} {es : List Executed}

theorem chunksOf_snoc (c : ConnID) (es : List Executed) (e : Executed) :
    chunksOf c (es ++ [e]) = chunksOf c es ++ (chunkFor c e).toList := by
  rw [chunksOf, List.filterMap_append]
  cases h : chunkFor c e with
  | none => rw [List.filterMap_cons_none h]; rfl
  | some chunk => rw [List.filterMap_cons_some h]; rfl

theorem packetsOf_snoc (c : ConnID) (es : List Executed) (e : Executed) :
    packetsOf c (es ++ [e]) = packetsOf c es ++ e.2.filterMap (packetFor c) := by
  rw [packetsOf, List.flatMap_append, List.filterMap_append, List.flatMap_singleton]
  rfl

-- A command that is not data for `c`, and what it does is not a dispatch for `c`.
theorem unchanged {e : Executed} (hchunk : chunkFor c e = none)
    (hpackets : e.2.filterMap (packetFor c) = []) :
    chunksOf c (es ++ [e]) = chunksOf c es ∧ packetsOf c (es ++ [e]) = packetsOf c es := by
  rw [chunksOf_snoc, packetsOf_snoc, hchunk, hpackets]
  exact ⟨List.append_nil _, List.append_nil _⟩

theorem chunksOf_data (data : EasyCommandOnData) (actions : List Action) :
    chunksOf c (es ++ [(.OnData c data, actions)]) = chunksOf c es ++ [data.m_pData] := by
  rw [chunksOf_snoc]
  show _ ++ (if c = c then some data.m_pData else none).toList = _
  rw [if_pos rfl]
  rfl

theorem packetsOf_data (command : EasyCommand) (ps : List EasyPacket) :
    packetsOf c (es ++ [(command, ps.map (.OnPacketReceived c))]) = packetsOf c es ++ ps := by
  rw [packetsOf_snoc, List.filterMap_map]
  congr 1
  have h : packetFor c ∘ Action.OnPacketReceived c = some := by
    funext packet
    exact if_pos rfl
  rw [h, List.filterMap_some]

theorem unchanged_data (hne : d ≠ c) (data : EasyCommandOnData) (ps : List EasyPacket) :
    chunksOf c (es ++ [(.OnData d data, ps.map (.OnPacketReceived d))]) = chunksOf c es ∧
      packetsOf c (es ++ [(.OnData d data, ps.map (.OnPacketReceived d))]) = packetsOf c es := by
  apply unchanged
  · exact if_neg hne
  · rw [List.filterMap_map]
    have h : packetFor c ∘ Action.OnPacketReceived d = fun _ ↦ none := by
      funext packet
      exact if_neg hne
    rw [h]
    exact List.filterMap_eq_nil_iff.mpr fun _ _ ↦ rfl

end Snoc

/-! ## 2. The sessions of the open connections -/

/-- Every open connection's session has buffered what its own bytes leave, and what was dispatched
for a connection is what its own bytes give. -/
structure Served (es : List Executed) (s : EasyBaseServer) : Prop where
  owned : Owned (live es) s
  unseen : ∀ c, (∀ e ∈ es, e.1 ≠ .OnConnect c) → chunksOf c es = []
  buffered : ∀ c ∈ live es, ∀ p, s.client_ c = some p →
    (s.object p).m_iRecvBufLen ≤ MAX_INPUT_BUFFER ∧
      (s.object p).buffered = packetFraming.rest (chunksOf c es).flatten
  handled : ∀ c, NoWrap (chunksOf c es).flatten →
    packetsOf c es = (packetFraming.frames (chunksOf c es).flatten).map EasyPacket.ofBytes

theorem served_nil {s : EasyBaseServer} (hs : s.Idle) : Served [] s := by
  refine ⟨hs, fun _ _ ↦ rfl, fun c hc ↦ absurd hc List.not_mem_nil, fun c _ ↦ ?_⟩
  show [] = (packetFraming.frames []).map EasyPacket.ofBytes
  rw [frames_nil]
  rfl

namespace Served

variable {es : List Executed} {s : EasyBaseServer} {e : Executed} {t : EasyBaseServer}

-- The pointers of two open connections differ.
theorem ne_of_back (h : Served es s) {c c' : ConnID} {p p' : SessionPtr} (hne : c' ≠ c)
    (hback : (s.object p).m_pConnection = some c) (hc' : c' ∈ live es)
    (hp' : s.client_ c' = some p') : p' ≠ p := by
  rcases h.owned.bound c' hc' with ⟨q, hq, hback', -⟩
  cases hp'.symm.trans hq
  rintro rfl
  cases hback.symm.trans hback'
  exact hne rfl

-- Commands that neither deliver nor dispatch anything leave the two records as they are.
theorem quiet (h : Served es s) (howned : Owned (live (es ++ [e])) t)
    (hsame : ∀ c, chunksOf c (es ++ [e]) = chunksOf c es ∧
      packetsOf c (es ++ [e]) = packetsOf c es)
    (hbuf : ∀ c ∈ live (es ++ [e]), ∀ p, t.client_ c = some p →
      (t.object p).m_iRecvBufLen ≤ MAX_INPUT_BUFFER ∧
        (t.object p).buffered = packetFraming.rest (chunksOf c es).flatten) :
    Served (es ++ [e]) t := by
  refine ⟨howned, fun c hc ↦ ?_, fun c hc p hp ↦ ?_, fun c hwrap ↦ ?_⟩
  · rw [(hsame c).1]
    exact h.unseen c fun e' he' ↦ hc e' (List.mem_append_left _ he')
  · rw [(hsame c).1]
    exact hbuf c hc p hp
  · rw [(hsame c).1] at hwrap ⊢
    rw [(hsame c).2]
    exact h.handled c hwrap

theorem connect {c : ConnID} {memory o : EasySession} {p : SessionPtr} {pool : List SessionPtr}
    {created : ℕ} (h : Served es s) (hes : Each Reported es) (hc : c ∉ live es)
    (hnew : ∀ e ∈ es, e.1 ≠ .OnConnect c) (ha : Allocates s memory p pool created o) :
    Served (es ++ [(.OnConnect c, [])]) (s.taken p pool created o c) := by
  rcases h.owned.allocates ha with ⟨-, hlen, -, -, -, -, -, hfree⟩
  apply h.quiet (h.owned.step hes (.connect hc ha)) fun c' ↦ unchanged rfl rfl
  intro c' hc' q hq
  by_cases hcc : c' = c
  · -- the session taken has nothing buffered, and nothing has come for a new connection
    subst hcc
    rw [EasyBaseServer.taken_client, Option.some.injEq] at hq
    subst hq
    rw [h.unseen c' hnew, List.flatten_nil, rest_nil, EasyBaseServer.taken_object]
    exact ⟨by simp only [hlen, Nat.zero_le], o.buffered_of_eq_zero hlen⟩
  · have hold : c' ∈ live es := by
      rw [live_snoc] at hc'
      exact (List.mem_append.mp hc').resolve_right fun h ↦ hcc (List.mem_singleton.mp h)
    rw [EasyBaseServer.taken_client_of_ne hcc] at hq
    have hne : q ≠ p := by
      rintro rfl
      exact hfree c' hold hq
    rw [EasyBaseServer.taken_object_of_ne hne]
    exact h.buffered c' hold q hq

theorem disconnect {c : ConnID} {p : SessionPtr} (h : Served es s) (hes : Each Reported es)
    (hc : c ∈ live es) (hp : s.client_ c = some p) (hback : (s.object p).m_pConnection = some c) :
    Served (es ++ [(.OnDisconnect c, [.Close c])]) (s.released p) := by
  apply h.quiet (h.owned.step hes (.disconnect hc hp hback)) fun c' ↦ unchanged rfl rfl
  intro c' hc' q hq
  rw [live_snoc] at hc'
  have hcc : c' ≠ c := by
    rintro rfl
    exact (live_spec hes).1.not_mem_erase hc'
  have hold : c' ∈ live es := List.mem_of_mem_erase hc'
  have hne := h.ne_of_back hcc hback hold hq
  rw [EasyBaseServer.released_object_of_ne hne]
  exact h.buffered c' hold q hq

theorem data {c : ConnID} {p : SessionPtr} {data : EasyCommandOnData} {u : State}
    (h : Served es s) (hes : Each Reported es) (hc : c ∈ live es) (hp : s.client_ c = some p)
    (hback : (s.object p).m_pConnection = some c)
    (hu : u ∈ OnData (s.object p).toRecvBuffer data.m_pData) (hpc : u.pc = .returned) :
    Served (es ++ [(.OnData c data, u.handled.map (.OnPacketReceived c))])
      (s.received p u.buf) := by
  rcases h.buffered c hc p hp with ⟨hmax, hbuf⟩
  rcases Receives.spec (h := packetsOf c es) ⟨u, hu, hpc, rfl⟩ hmax data.m_iLen_lt with
    ⟨-, -, hmax', hbuf', hps⟩
  rw [hbuf] at hbuf' hps
  refine ⟨h.owned.step hes (.data hc hp hback hu hpc), fun c' hc' ↦ ?_, fun c' hc' q hq ↦ ?_,
    fun c' hwrap ↦ ?_⟩
  · -- data come for connections that have been reported only
    have hcc : c ≠ c' := by
      rintro rfl
      rcases (live_spec hes).2 c hc with ⟨e', he', hce'⟩
      exact hc' e' (List.mem_append_left _ he') hce'
    rw [(unchanged_data hcc _ _).1]
    exact h.unseen c' fun e' he' ↦ hc' e' (List.mem_append_left _ he')
  · have hold : c' ∈ live es := by
      rwa [live_snoc] at hc'
    by_cases hcc : c' = c
    · -- what was left of the bytes before is cut together with the chunk
      subst hcc
      cases hp.symm.trans hq
      rw [chunksOf_data, List.flatten_concat, EasyBaseServer.received_object]
      rw [← packetFraming.rest_append] at hbuf'
      exact ⟨hmax', hbuf'⟩
    · -- another connection has another session
      have hne := h.ne_of_back hcc hback hold hq
      rw [(unchanged_data (Ne.symm hcc) _ _).1, EasyBaseServer.received_object_of_ne hne]
      exact h.buffered c' hold q hq
  · by_cases hcc : c' = c
    · subst hcc
      rw [chunksOf_data, List.flatten_concat] at hwrap ⊢
      rw [packetsOf_data, packetFraming.frames_append, List.map_append,
        ← h.handled c' hwrap.append_left]
      exact hps (Framing.Always.rest_append _ hwrap)
    · rw [(unchanged_data (Ne.symm hcc) _ _).1] at hwrap ⊢
      rw [(unchanged_data (Ne.symm hcc) _ _).2]
      exact h.handled c' hwrap

theorem step (h : Served es s) (hes : Each Reported es) (he : Reported es e)
    (hst : NetworkStep (live es) s e t) : Served (es ++ [e]) t := by
  cases hst with
  | connect hc ha => exact h.connect hes hc he ha
  | disconnect hc hp hback => exact h.disconnect hes hc hp hback
  | data hc hp hback hu hpc => exact h.data hes hc hp hback hu hpc

end Served

theorem served_of_path {platform : Platform} {s t : EasyBaseServer} {es : List Executed}
    (hs : s.Idle) (h : Path (Executes platform) s es t) (hes : Each Reported es) : Served es t :=
  h.invariant hes (served_nil hs) fun _ _ _ _ hbefore hserved he hst ↦
    hserved.step hbefore he (hserved.owned.networkStep hbefore he hst)

/-- **Isolation.**  A connection whose headers do not wrap is handled as its own bytes say. -/
theorem isolated_of_noWrap (platform : Platform) (s s' : EasyBaseServer) (hs : s.Idle)
    (hs' : s'.Idle) (c : ConnID) (chunks : List (List UInt8)) (h : NoWrap chunks.flatten) :
    Isolated platform s s' c chunks := by
  intro es es' t t' hpath hes hpath' hes' hchunks hchunks'
  have hl := (served_of_path hs hpath hes).handled c (by rwa [hchunks])
  have hr := (served_of_path hs' hpath' hes').handled c (by rwa [hchunks'])
  rw [hl, hr, hchunks, hchunks']

/-- One packet of one byte, on any two servers with one session. -/
theorem isolated_one_packet :
    Isolated .LINUX (EasyBaseServer.initialized 1 (fun _ ↦ zeroSession) fun _ ↦ 0)
      (EasyBaseServer.initialized 1 (fun _ ↦ zeroSession) fun _ ↦ 0) 7 [[5, 0, 1, 0, 9]] :=
  isolated_of_noWrap .LINUX _ _ (EasyBaseServer.idle_initialized 1 _ _)
    (EasyBaseServer.idle_initialized 1 _ _) 7 [[5, 0, 1, 0, 9]]
    ((noWrap_of_front (n := 5) (by decide)).mpr ⟨by decide, noWrap_nil⟩)

/-! ## 3. What a wrapping header shows -/

-- A call that fills the buffer with less than a packet.
theorem onData_incomplete {b : RecvBuffer} {c : List UInt8}
    (hle : b.m_iRecvBufLen + c.length ≤ MAX_INPUT_BUFFER)
    (hfull : ∀ n, packetFraming.frameLen (b.buffered ++ c) = some n →
      b.m_iRecvBufLen + c.length < n) :
    ∃ t ∈ OnData b c, t.pc = .returned ∧ t.handled = [] ∧
      t.buf.m_RecvBuf.data = b.m_RecvBuf.data.take b.m_iRecvBufLen ++ c ++
        b.m_RecvBuf.data.drop (b.m_iRecvBufLen + c.length) := by
  rcases RecvBuffer.copyIn_of_le hle with ⟨m, hcopy, hdata⟩
  rcases RecvBuffer.copyIn_spec hcopy with ⟨k, hk, -, -, hmax, hbuf, -⟩
  rw [copyLen_of_le hle] at hk
  rw [hk, List.take_length] at hbuf
  have hd : ¬ Dispatches ⟨.cut, ⟨b.m_iRecvBufLen + c.length, m⟩, [], []⟩ := by
    rw [dispatches_iff hmax, hbuf]
    rintro ⟨n, hn, hn'⟩
    exact absurd (hfull n hn) (Nat.not_lt.mpr hn')
  refine ⟨⟨.returned, ⟨b.m_iRecvBufLen + c.length, m⟩, [], []⟩, mem_eval.mpr ⟨?_, rfl⟩, rfl, rfl,
    hdata⟩
  exact reaches_of_step (step_copy_some hcopy) (reaches_of_step (step_cut_leave rfl hd) .refl)

/-- A header that announces 65533 bytes. -/
def wrappingHeader : List UInt8 := [0, 0, 253, 255]

-- Such a header is handled at once: the packet shows all of `m_RecvBuf` behind it, whatever stands
-- there.
theorem onData_stale {b : RecvBuffer} (hb : b.m_iRecvBufLen = 0) :
    ∃ t ∈ OnData b wrappingHeader, t.pc = .returned ∧
      t.handled = [⟨0, 65533, b.m_RecvBuf.data.drop 4⟩] := by
  have hle : b.m_iRecvBufLen + wrappingHeader.length ≤ MAX_INPUT_BUFFER := by
    rw [hb]
    decide
  rcases RecvBuffer.copyIn_of_le hle with ⟨m, hcopy, hdata⟩
  rcases RecvBuffer.copyIn_spec hcopy with ⟨k, hk, -, -, hmax, hbuf, -⟩
  rw [copyLen_of_le hle] at hk
  rw [hk, List.take_length, b.buffered_of_eq_zero hb, List.nil_append] at hbuf
  rw [hb, List.take_zero, List.nil_append] at hdata
  rw [hb] at hcopy hbuf hmax
  have hone : packetFraming.frameLen (RecvBuffer.buffered ⟨0 + wrappingHeader.length, m⟩) =
      some 1 := by
    rw [hbuf]
    decide
  rcases step_cut_dispatch (R := []) (h := []) hmax hone (show 1 ≤ 4 by decide) with
    ⟨b', hst, hlen, -⟩
  have hlen' : b'.m_iRecvBufLen = 3 := hlen
  have hd : ¬ Dispatches ⟨.cut, b', [], [] ++ [EasyPacket.ofBytes m.data]⟩ := by
    rintro ⟨hhead, -⟩
    have hhead' : PACKET_HEAD ≤ b'.m_iRecvBufLen := hhead
    rw [hlen'] at hhead'
    exact absurd hhead' (by decide)
  refine ⟨_, mem_eval.mpr ⟨reaches_of_step (step_copy_some hcopy)
      (reaches_of_step hst (reaches_of_step (step_cut_leave rfl hd) .refl)), rfl⟩, rfl, ?_⟩
  have hrest : (b.m_RecvBuf.data.drop 4).length ≤ 65533 := by
    rw [List.length_drop, b.m_RecvBuf.length_data]
    decide
  have hpacket : EasyPacket.ofBytes m.data = ⟨0, 65533, b.m_RecvBuf.data.drop 4⟩ := by
    rw [hdata, EasyPacket.ofBytes, uint16At_append (by decide), uint16At_append (by decide),
      show uint16At wrappingHeader 0 = 0 by decide,
      show uint16At wrappingHeader 2 = 65533 by decide, List.drop_left' (by decide),
      show 0 + wrappingHeader.length = 4 by decide, List.take_of_length_le hrest]
  show [] ++ [EasyPacket.ofBytes m.data] = _
  rw [hpacket]
  rfl

/-- Five bytes of a packet of 13, the last of them `x`. -/
def partOfPacket (x : UInt8) : EasyCommandOnData :=
  ⟨[0, 0, 9, 0, x], (by decide : 5 < 2 ^ 16)⟩

-- Connection 0 leaves the byte `x` in the session that connection 1 gets after it.
theorem stale_run {s : EasyBaseServer} (x : UInt8) (hs : s.m_bReadyForShutdown = false)
    {p : SessionPtr} (hpool : s.m_SessionPool.m_ObjectList = [p])
    (hlen : (s.object p).m_iRecvBufLen = 0) :
    ∃ es t bytes, Path (Executes .LINUX) s es t ∧ Each Reported es ∧
      chunksOf 1 es = [wrappingHeader] ∧ packetsOf 1 es = [⟨0, 65533, x :: bytes⟩] := by
  -- connection 0 sends part of a packet and goes
  rcases connect_run .LINUX (s.object p) hs (.pooled hpool) 0 with
    ⟨s₁, h₁, hs₁, hpool₁, hc₁, hobj₁⟩
  have hlen₁ : (s₁.object p).m_iRecvBufLen = 0 := by rw [hobj₁, hlen]
  rcases onData_incomplete (b := (s₁.object p).toRecvBuffer) (c := (partOfPacket x).m_pData)
    (by rw [hlen₁]; exact (by decide : 5 ≤ MAX_INPUT_BUFFER)) (by
      rw [RecvBuffer.buffered_of_eq_zero _ hlen₁, hlen₁]
      intro n hn
      cases hn
      exact (by decide : 0 + 5 < 13)) with ⟨u, hu, hpc, hnone, hdata⟩
  rcases data_run .LINUX hs₁ hc₁ (by rw [hobj₁]) (partOfPacket x) hu hpc with
    ⟨s₂, h₂, hs₂, hpool₂, hc₂, hobj₂⟩
  rcases disconnect_run .LINUX hs₂ (by rw [hc₂]; exact hc₁) (by rw [hobj₂, hobj₁]) with
    ⟨s₃, h₃, hs₃, hpool₃, hobj₃⟩
  -- connection 1 sends a header only
  have hpool₃' : s₃.m_SessionPool.m_ObjectList = [p] := by
    rw [hpool₃, hpool₂, hpool₁]
    rfl
  rcases connect_run .LINUX (s₃.object p) hs₃ (.pooled hpool₃') 1 with
    ⟨s₄, h₄, hs₄, -, hc₄, hobj₄⟩
  rcases onData_stale (b := (s₄.object p).toRecvBuffer) (by rw [hobj₄, hobj₃]; rfl) with
    ⟨v, hv, hpc', hpackets⟩
  rcases data_run .LINUX hs₄ hc₄ (by rw [hobj₄]) ⟨wrappingHeader, by decide⟩ hv hpc' with
    ⟨s₅, h₅, -⟩
  have hbytes : (s₄.object p).m_RecvBuf.data.drop 4 =
      x :: (s₁.object p).m_RecvBuf.data.drop 5 := by
    rw [hobj₄, hobj₃, hobj₂]
    show (u.buf.m_RecvBuf.data.set 0 0).drop 4 = _
    rw [List.drop_set_of_lt (by decide), hdata, hlen₁]
    rfl
  rw [hnone] at h₂
  rw [hpackets, hbytes] at h₅
  refine ⟨_, s₅, _, ((((Path.nil.snoc h₁).snoc h₂).snoc h₃).snoc h₄).snoc h₅, ?_, rfl, rfl⟩
  simp only [each_snoc, each_nil, true_and]
  simp [Reported, live, liveAfter]

/-- One connection sends a header and nothing else.  What is dispatched for it is what an earlier
connection left in its session. -/
theorem sessions_leak :
    ¬ Isolated .LINUX (EasyBaseServer.initialized 1 (fun _ ↦ zeroSession) fun _ ↦ 0)
      (EasyBaseServer.initialized 1 (fun _ ↦ zeroSession) fun _ ↦ 0) 1 [wrappingHeader] := by
  intro hiso
  rw [EasyBaseServer.initialized_succ] at hiso
  rcases stale_run (s := EasyBaseServer.aliased 1 (fun _ ↦ zeroSession) (fun _ ↦ 0) 0) (p := 0) 7
    rfl rfl rfl with ⟨es, t, bytes, hpath, hes, hchunks, hpackets⟩
  rcases stale_run (s := EasyBaseServer.aliased 1 (fun _ ↦ zeroSession) (fun _ ↦ 0) 0) (p := 0) 8
    rfl rfl rfl with ⟨es', t', bytes', hpath', hes', hchunks', hpackets'⟩
  have h := hiso es es' t t' hpath hes hpath' hes' hchunks hchunks'
  rw [hpackets, hpackets'] at h
  cases h

end Fantuan
