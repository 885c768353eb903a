import Fantuan.Network.Received

/-!
# The end of the stream (Linux)

`RecvData` is called whenever there is something to read, until a call of `recv` returns 0 or an
error.  Whether bytes get lost depends on the sizes of the reads and not on the bytes.
-/

open Lib

namespace Fantuan

open EasyConnection

/-! ## 1. Calls of the handlers -/

inductive HandlerCall
  | OnData (data : List UInt8)
  | OnDisconnect

/-- What the handlers are called with in one call of `RecvData` after the other. -/
def handlerCalls (m : ℤ → UInt8) : List (List RecvOutcome) → List HandlerCall
  | [] => []
  | os :: calls =>
      match RecvData os with
      | none => []
      | some r =>
          (if r.bReadOK then .OnData (r.handedOver m) else .OnDisconnect) ::
            handlerCalls (r.buffer m) calls

/-- The calls of `RecvData` before the one in which the stream ends, and that one. -/
structure Ends (calls : List (List RecvOutcome)) (last : List RecvOutcome) : Prop where
  calls : ∀ os ∈ calls, OneCall os ∧ ∃ o ∈ os.getLast?, o.EndsWithData
  last : OneCall last ∧ ∃ o ∈ last.getLast?, o.EndsConnection

/-- All bytes received are passed to `OnData` before `OnDisconnect` is called. -/
def PassesAll (calls : List (List RecvOutcome)) (last : List RecvOutcome) : Prop :=
  ∀ m, ∃ passed : List (List UInt8),
    handlerCalls m (calls ++ [last]) = passed.map .OnData ++ [.OnDisconnect] ∧
      List.Sublist (received (calls.flatten ++ last)) passed.flatten

/-- The same outcome with other bytes. -/
def RecvOutcome.paint (v : UInt8) : RecvOutcome → RecvOutcome
  | bytes data => bytes (List.replicate data.length v)
  | o => o

/-- Reads of the same sizes. -/
def SameSizes (os os' : List RecvOutcome) : Prop :=
  os.map (RecvOutcome.paint 0) = os'.map (RecvOutcome.paint 0)

namespace RecvOutcome

variable {o : RecvOutcome} {v w : UInt8}

@[simp] theorem paint_paint : (o.paint v).paint w = o.paint w := by
  cases o <;> simp [paint]

@[simp] theorem paint_comp_paint : paint w ∘ paint v = paint w :=
  funext fun _ ↦ paint_paint

@[simp] theorem paint_bytes {data : List UInt8} :
    (bytes data).paint v = bytes (List.replicate data.length v) := rfl

@[simp] theorem paint_EINTR : EINTR.paint v = EINTR := rfl

@[simp] theorem received_paint : (o.paint v).received = List.replicate o.received.length v := by
  cases o <;> rfl

@[simp] theorem possible_paint : (o.paint v).Possible ↔ o.Possible := by
  cases o <;> simp [paint, Possible]

@[simp] theorem continues_paint : (o.paint v).Continues ↔ o.Continues := by
  cases o <;> simp [paint, Continues]

@[simp] theorem endsWithData_paint : (o.paint v).EndsWithData ↔ o.EndsWithData := by
  cases o <;> simp [paint, EndsWithData]

@[simp] theorem endsConnection_paint : (o.paint v).EndsConnection ↔ o.EndsConnection := by
  cases o <;> simp [paint, EndsConnection]

@[simp] theorem paint_eq_EINTR : o.paint v = .EINTR ↔ o = .EINTR := by
  cases o <;> simp [paint]

end RecvOutcome

section

variable {os os' : List RecvOutcome} {v : UInt8}

theorem received_map_paint :
    received (os.map (RecvOutcome.paint v)) = List.replicate (received os).length v := by
  induction os with
  | nil => rfl
  | cons o os ih =>
      rw [List.map_cons, received_cons, received_cons, ih, RecvOutcome.received_paint,
        List.length_append, List.replicate_add]

theorem oneCall_paint : OneCall (os.map (RecvOutcome.paint v)) ↔ OneCall os := by
  constructor
  · intro h
    have hgo := h.goesOn
    rw [List.isChain_map] at hgo
    refine ⟨fun o ho ↦ ?_, hgo.imp fun o _ hc ↦ RecvOutcome.continues_paint.mp hc⟩
    exact RecvOutcome.possible_paint.mp (h.possible _ (List.mem_map_of_mem ho))
  · intro h
    refine ⟨List.forall_mem_map.mpr fun o ho ↦ RecvOutcome.possible_paint.mpr (h.possible o ho), ?_⟩
    rw [List.isChain_map]
    exact h.goesOn.imp fun o _ hc ↦ RecvOutcome.continues_paint.mpr hc

theorem uninterrupted_paint : Uninterrupted (os.map (RecvOutcome.paint v)) ↔ Uninterrupted os := by
  simp [Uninterrupted, List.isChain_map]

theorem SameSizes.oneCall (h : SameSizes os os') (hcall : OneCall os') : OneCall os := by
  unfold SameSizes at h
  rwa [← oneCall_paint (v := 0), h, oneCall_paint]

theorem SameSizes.uninterrupted (h : SameSizes os os') (hu : Uninterrupted os') :
    Uninterrupted os := by
  unfold SameSizes at h
  rwa [← uninterrupted_paint (v := 0), h, uninterrupted_paint]

theorem SameSizes.length_received (h : SameSizes os os') :
    (received os).length = (received os').length := by
  unfold SameSizes at h
  have hlen := congrArg (fun os ↦ (received os).length) h
  simpa only [received_map_paint, List.length_replicate] using hlen

-- How a call ends depends on the sizes only.
theorem SameSizes.getLast? {P : RecvOutcome → Prop} (hP : ∀ o, P (o.paint 0) ↔ P o)
    (h : SameSizes os os') (hlast : ∃ o ∈ os'.getLast?, P o) : ∃ o ∈ os.getLast?, P o := by
  obtain ⟨o', ho', hend⟩ := hlast
  unfold SameSizes at h
  have hmap := congrArg List.getLast? h
  rw [List.getLast?_map, List.getLast?_map, Option.mem_def.mp ho'] at hmap
  obtain ⟨o, ho, hpaint⟩ := Option.map_eq_some_iff.mp hmap
  exact ⟨o, ho, (hP o).mp (hpaint ▸ (hP o').mpr hend)⟩

end

/-! ## 2. When everything is passed -/

variable {calls : List (List RecvOutcome)} {last os post : List RecvOutcome} {data : List UInt8}
  {m : ℤ → UInt8} {n : ℤ} {r r' : RecvResult}

theorem handlerCalls_cons (h : RecvData os = some r) :
    handlerCalls m (os :: calls) =
      (if r.bReadOK then .OnData (r.handedOver m) else .OnDisconnect) ::
        handlerCalls (r.buffer m) calls := by
  rw [handlerCalls, h]

-- Every call of `OnData` is given what its call of `RecvData` received.
theorem handlerCalls_eq (h : Ends calls last)
    (hkept : ∀ os ∈ calls, Uninterrupted os ∧ (received os).length ≤ 2 * MAXLINE) :
    handlerCalls m (calls ++ [last]) =
      (calls.map received).map .OnData ++ [.OnDisconnect] := by
  induction calls generalizing m with
  | nil =>
      obtain ⟨r, hr, hok⟩ := RecvData_of_endsConnection h.last.1 h.last.2
      rw [List.nil_append, handlerCalls_cons hr, hok]
      rfl
  | cons os calls ih =>
      obtain ⟨hcall, hend⟩ := h.calls os List.mem_cons_self
      obtain ⟨hu, htotal⟩ := hkept os List.mem_cons_self
      obtain ⟨r, hr, hok⟩ := RecvData_of_endsWithData hcall hend
      have hlater : Ends calls last :=
        ⟨fun os' hos' ↦ h.calls os' (List.mem_cons_of_mem _ hos'), h.last⟩
      rw [List.cons_append, handlerCalls_cons hr, hok, if_pos rfl,
        RecvData_handedOver hcall hu htotal hr hok,
        ih hlater fun os' hos' ↦ hkept os' (List.mem_cons_of_mem _ hos')]
      rfl

theorem received_flatten : received calls.flatten = (calls.map received).flatten := by
  induction calls with
  | nil => rfl
  | cons os calls ih =>
      rw [List.flatten_cons, received_append, ih, List.map_cons, List.flatten_cons]

theorem passesAll_of_kept (h : Ends calls last)
    (hkept : ∀ os ∈ calls, Uninterrupted os ∧ (received os).length ≤ 2 * MAXLINE)
    (hlast : received last = []) : PassesAll calls last := by
  intro m
  refine ⟨calls.map received, handlerCalls_eq h hkept, ?_⟩
  rw [received_append, received_flatten, hlast, List.append_nil]

/-! ## 3. When a byte gets lost -/

/-- The byte 1, which stands for the one that gets lost, is not in the buffer or behind it. -/
def Clear (m : ℤ → UInt8) : Prop := ∀ x, 0 ≤ x → m x ≠ 1

theorem Clear.write (h : Clear m) (hdata : ∀ i : ℕ, data[i]? = some 1 → n + i < 0) :
    Clear (Memory.write m n data) := by
  intro x hx heq
  rcases Memory.write_cases m n data x with ⟨i, hi, hget⟩ | ⟨-, hout⟩
  · have hneg := hdata i (heq ▸ hget)
    omega
  · exact h x hx (hout.symm.trans heq)

theorem Clear.write_of_notMem (h : Clear m) (hdata : 1 ∉ data) : Clear (Memory.write m n data) :=
  h.write fun _ hi ↦ absurd (List.mem_of_getElem? hi) hdata

theorem Clear.notMem_handedOver (h : Clear (r.buffer m)) : 1 ∉ r.handedOver m := by
  intro hmem
  obtain ⟨i, hi⟩ := List.getElem?_of_mem hmem
  obtain ⟨hlt, -⟩ := List.getElem?_eq_some_iff.mp hi
  rw [RecvResult.handedOver, Memory.length_read] at hlt
  rw [RecvResult.handedOver, Memory.getElem?_read hlt, Option.some.injEq] at hi
  exact h _ (by omega) hi

theorem Clear.reset (h : Clear m) : Clear (RecvResult.buffer m ⟨[], 0, false⟩) :=
  h.write_of_notMem (by decide)

theorem Clear.recvLoop (hm : Clear (r.buffer m)) (hos : 1 ∉ received os)
    (h : recvLoop n r os = some r') : Clear (r'.buffer m) := by
  induction os generalizing n r with
  | nil => exact nomatch h
  | cons o os ih =>
      rw [received_cons, List.mem_append, not_or] at hos
      cases o with
      | bytes data =>
          have hw : Clear (Memory.write (r.buffer m) n data) := hm.write_of_notMem hos.1
          by_cases hfull : data.length = MAXLINE
          · rw [recvLoop_full hfull] at h
            exact ih (buffer_snoc ▸ hw) hos.2 h
          · rw [recvLoop_short hfull, Option.some.injEq] at h
            rw [← h, buffer_snoc]
            exact hw
      | EINTR => exact ih hm hos.2 h
      | EAGAIN | error | closed =>
          rw [EasyConnection.recvLoop, Option.some.injEq] at h
          rw [← h]
          exact hm

-- A read that leaves the buffer clear, and others without the byte behind it.
theorem Clear.recvLoop_read (hw : Clear (Memory.write (r.buffer m) n data))
    (hpost : 1 ∉ received post) (h : EasyConnection.recvLoop n r (.bytes data :: post) = some r') :
    Clear (r'.buffer m) := by
  by_cases hfull : data.length = MAXLINE
  · rw [recvLoop_full hfull] at h
    exact Clear.recvLoop (buffer_snoc ▸ hw) hpost h
  · rw [recvLoop_short hfull, Option.some.injEq] at h
    rw [← h, buffer_snoc]
    exact hw

-- The loop comes to `post` with a clear buffer, or ends before.
theorem Clear.recvLoop_append {pre : List RecvOutcome} (hm : Clear (r.buffer m))
    (hpre : 1 ∉ received pre) (h : EasyConnection.recvLoop n r (pre ++ post) = some r') :
    Clear (r'.buffer m) ∨
      ∃ n r, EasyConnection.recvLoop n r post = some r' ∧ Clear (r.buffer m) := by
  induction pre generalizing n r with
  | nil => exact .inr ⟨n, r, h, hm⟩
  | cons o pre ih =>
      rw [received_cons, List.mem_append, not_or] at hpre
      rw [List.cons_append] at h
      cases o with
      | bytes data =>
          have hw : Clear (Memory.write (r.buffer m) n data) := hm.write_of_notMem hpre.1
          by_cases hfull : data.length = MAXLINE
          · rw [recvLoop_full hfull] at h
            exact ih (buffer_snoc ▸ hw) hpre.2 h
          · rw [recvLoop_short hfull, Option.some.injEq] at h
            rw [← h, buffer_snoc]
            exact .inl hw
      | EINTR => exact ih hm hpre.2 h
      | EAGAIN | error | closed =>
          rw [EasyConnection.recvLoop, Option.some.injEq] at h
          rw [← h]
          exact .inl hm

/-- `RecvData` leaves the buffer without the byte. -/
def KeepsClear (os : List RecvOutcome) : Prop :=
  ∀ m r, Clear m → RecvData os = some r → Clear (r.buffer m)

theorem notMem_received_paint : 1 ∉ received (os.map (RecvOutcome.paint 0)) := by
  rw [received_map_paint]
  exact fun h ↦ absurd (List.eq_of_mem_replicate h) (by decide)

theorem keepsClear_paint : KeepsClear (os.map (RecvOutcome.paint 0)) :=
  fun _ _ hm h ↦ hm.reset.recvLoop notMem_received_paint h

theorem getElem?_one_cons {k i : ℕ} (h : (1 :: List.replicate k (0 : UInt8))[i]? = some 1) :
    i = 0 := by
  cases i with
  | zero => rfl
  | succ i =>
      rw [List.getElem?_cons_succ] at h
      exact absurd (List.eq_of_mem_replicate (List.mem_of_getElem? h)) (by decide)

-- The first byte after an interrupted call comes to stand in front of the buffer.
theorem keepsClear_interrupted {pre : List RecvOutcome} {k : ℕ} (hpre : 1 ∉ received pre)
    (hpost : 1 ∉ received post) :
    KeepsClear (pre ++ .EINTR :: .bytes (1 :: List.replicate k 0) :: post) := by
  intro m r' hm h
  rcases hm.reset.recvLoop_append hpre h with hdone | ⟨n, r, hr, hclear⟩
  · exact hdone
  · refine Clear.recvLoop_read (n := -1) (r := r) (hclear.write fun i hi ↦ ?_) hpost hr
    obtain rfl := getElem?_one_cons hi
    decide

-- What is written over the byte takes it away.
theorem Clear.overwrite {data' : List UInt8} {k : ℕ} (h : Clear m) (hlen : 1 ≤ data'.length)
    (hdata : 1 ∉ data') :
    Clear (Memory.write (Memory.write m n (1 :: List.replicate k 0)) n data') := by
  intro x hx heq
  rcases Memory.write_cases (Memory.write m n (1 :: List.replicate k 0)) n data' x with
    ⟨i, hi, hget⟩ | ⟨hin, hout⟩
  · exact hdata (List.mem_of_getElem? (heq ▸ hget))
  · rw [hout] at heq
    rcases Memory.write_cases m n (1 :: List.replicate k 0) x with ⟨i, hi, hget⟩ | ⟨-, hout₂⟩
    · obtain rfl := getElem?_one_cons (heq ▸ hget)
      omega
    · exact h x hx (hout₂.symm.trans heq)

-- The first byte of the second read is overwritten by the third.
theorem keepsClear_three {k₁ k₂ k₃ : ℕ} (hk₁ : k₁ = MAXLINE) (hk₂ : k₂ + 1 = MAXLINE) (hk₃ : 1 ≤ k₃)
    (hpost : 1 ∉ received post) :
    KeepsClear (.bytes (List.replicate k₁ 0) :: .bytes (1 :: List.replicate k₂ 0) ::
      .bytes (List.replicate k₃ 0) :: post) := by
  have hzero : ∀ k, 1 ∉ List.replicate k (0 : UInt8) :=
    fun k h ↦ absurd (List.eq_of_mem_replicate h) (by decide)
  have hlen₁ : (List.replicate k₁ (0 : UInt8)).length = MAXLINE := by
    rw [List.length_replicate, hk₁]
  have hlen₂ : (1 :: List.replicate k₂ (0 : UInt8)).length = MAXLINE := by
    rw [List.length_cons, List.length_replicate, hk₂]
  intro m r' hm h
  have hfirst : Clear (Memory.write (Memory.write m 0 [10]) 0 (List.replicate k₁ 0)) :=
    hm.reset.write_of_notMem (hzero k₁)
  rw [RecvData, recvLoop_full hlen₁, recvLoop_full hlen₂] at h
  refine Clear.recvLoop_read ?_ hpost h
  rw [buffer_snoc, buffer_snoc]
  exact hfirst.overwrite (by rwa [List.length_replicate]) (hzero k₃)

-- In a call that is not interrupted before bytes, what starts without a read has none.
theorem received_eq_nil (hcall : OneCall os) (hu : Uninterrupted os)
    (hhead : ∀ o ∈ os.head?, o.received = []) : received os = [] := by
  induction os with
  | nil => rfl
  | cons o os ih =>
      rw [received_cons, hhead o rfl, List.nil_append]
      cases o with
      | bytes data =>
          have hnil : data = [] := hhead _ rfl
          exact absurd hcall.head.1 (by rw [hnil]; decide)
      | EINTR => exact ih hcall.tail hu.tail fun o ho ↦ hu.rel_head? ho rfl
      | EAGAIN | error | closed =>
          obtain rfl := hcall.eq_nil id
          rfl

theorem exists_read (hcall : OneCall os) (hu : Uninterrupted os) (h : 0 < (received os).length) :
    ∃ data later, os = .bytes data :: later ∧ 1 ≤ data.length := by
  by_contra hnot
  have hnil : received os = [] := by
    refine received_eq_nil hcall hu fun o ho ↦ ?_
    obtain ⟨later, rfl⟩ := List.head?_eq_some_iff.mp ho
    cases o with
    | bytes data => exact absurd ⟨data, later, rfl, hcall.head.1⟩ hnot
    | EAGAIN | EINTR | error | closed => rfl
  rw [hnil] at h
  exact absurd h (Nat.lt_irrefl 0)

-- Two reads that are followed by a third are full ones.
theorem exists_three (hcall : OneCall os) (hu : Uninterrupted os)
    (h : 2 * MAXLINE < (received os).length) :
    ∃ d₁ d₂ d₃ later, os = .bytes d₁ :: .bytes d₂ :: .bytes d₃ :: later ∧
      d₁.length = MAXLINE ∧ d₂.length = MAXLINE ∧ 1 ≤ d₃.length := by
  have hsplit : ∀ {d : List UInt8} {later : List RecvOutcome},
      (received (.bytes d :: later)).length = d.length + (received later).length :=
    List.length_append
  obtain ⟨d₁, os₁, rfl, -⟩ := exists_read hcall hu (by omega)
  have hle₁ : d₁.length ≤ MAXLINE := hcall.head.2
  rw [hsplit] at h
  obtain ⟨d₂, os₂, rfl, -⟩ := exists_read hcall.tail hu.tail (by omega)
  have hle₂ : d₂.length ≤ MAXLINE := hcall.tail.head.2
  rw [hsplit] at h
  obtain ⟨d₃, os₃, rfl, hpos⟩ := exists_read hcall.tail.tail hu.tail.tail (by omega)
  have hfull₁ : d₁.length = MAXLINE := (List.isChain_cons_cons.mp hcall.goesOn).1
  have hfull₂ : d₂.length = MAXLINE := (List.isChain_cons_cons.mp hcall.tail.goesOn).1
  exact ⟨d₁, d₂, d₃, os₃, rfl, hfull₁, hfull₂, hpos⟩

-- Of reads of these sizes, bytes can get lost.
theorem exists_lost (hcall : OneCall os)
    (hlost : ¬ (Uninterrupted os ∧ (received os).length ≤ 2 * MAXLINE)) :
    ∃ os', SameSizes os' os ∧ 1 ∈ received os' ∧ KeepsClear os' := by
  by_cases hu : Uninterrupted os
  · have hlt : 2 * MAXLINE < (received os).length := by
      rw [← Nat.not_le]
      exact fun hle ↦ hlost ⟨hu, hle⟩
    obtain ⟨d₁, d₂, d₃, post, rfl, hd₁, hd₂, hd₃⟩ := exists_three hcall hu hlt
    obtain ⟨v, data, rfl⟩ : ∃ v data, d₂ = v :: data :=
      List.exists_cons_of_ne_nil fun hnil ↦ absurd (hnil ▸ hd₂) (by decide)
    refine ⟨.bytes (List.replicate d₁.length 0) :: .bytes (1 :: List.replicate data.length 0) ::
      .bytes (List.replicate d₃.length 0) :: post.map (RecvOutcome.paint 0), ?_, ?_,
      keepsClear_three hd₁ hd₂ hd₃ notMem_received_paint⟩
    · simp [SameSizes, List.replicate_succ]
    · simp [received_cons, RecvOutcome.received]
  · unfold Uninterrupted at hu
    rw [List.isChain_iff_forall_rel_of_append_cons_cons] at hu
    push Not at hu
    obtain ⟨o, o', pre, post, rfl, rfl, hbytes⟩ := hu
    obtain ⟨v, data, rfl⟩ : ∃ v data, o' = .bytes (v :: data) := by
      cases o' with
      | bytes data =>
          obtain ⟨v, data, rfl⟩ := List.exists_cons_of_ne_nil hbytes
          exact ⟨v, data, rfl⟩
      | EAGAIN | EINTR | error | closed => exact absurd rfl hbytes
    refine ⟨pre.map (RecvOutcome.paint 0) ++ .EINTR :: .bytes (1 :: List.replicate data.length 0) ::
      post.map (RecvOutcome.paint 0), ?_, ?_,
      keepsClear_interrupted notMem_received_paint notMem_received_paint⟩
    · simp [SameSizes, List.replicate_succ]
    · simp [received_append, received_cons, RecvOutcome.received]

-- A byte that no call of `RecvData` leaves in the buffer is never passed.
theorem notMem_passed (hcalls : ∀ os ∈ calls, KeepsClear os)
    (hlast : ∀ m r, Clear m → RecvData last = some r → r.bReadOK = true → Clear (r.buffer m))
    (hm : Clear m) (hmem : .OnData data ∈ handlerCalls m (calls ++ [last])) : 1 ∉ data := by
  induction calls generalizing m with
  | nil =>
      cases hr : RecvData last with
      | none =>
          rw [List.nil_append, handlerCalls, hr] at hmem
          exact absurd hmem List.not_mem_nil
      | some r =>
          rw [List.nil_append, handlerCalls_cons hr] at hmem
          cases hok : r.bReadOK with
          | false =>
              rw [hok] at hmem
              simp [handlerCalls] at hmem
          | true =>
              rw [hok] at hmem
              obtain rfl : data = r.handedOver m := by simpa [handlerCalls] using hmem
              exact (hlast m r hm hr hok).notMem_handedOver
  | cons os calls ih =>
      cases hr : RecvData os with
      | none =>
          rw [List.cons_append, handlerCalls, hr] at hmem
          exact absurd hmem List.not_mem_nil
      | some r =>
          have hclear := hcalls os List.mem_cons_self m r hm hr
          rw [List.cons_append, handlerCalls_cons hr, List.mem_cons] at hmem
          rcases hmem with hnow | hlater
          · cases hok : r.bReadOK with
            | false =>
                rw [hok] at hnow
                exact nomatch hnow
            | true =>
                rw [hok, if_pos rfl, HandlerCall.OnData.injEq] at hnow
                rw [hnow]
                exact hclear.notMem_handedOver
          · exact ih (fun os' hos' ↦ hcalls os' (List.mem_cons_of_mem _ hos')) hclear hlater

/-! ## 4. Bytes before the end -/

/-- The same sizes of reads in every call of `RecvData`. -/
def AllSameSizes (calls calls' : List (List RecvOutcome)) : Prop :=
  calls.map (List.map (RecvOutcome.paint 0)) = calls'.map (List.map (RecvOutcome.paint 0))

theorem AllSameSizes.exists_mem {calls' : List (List RecvOutcome)} (h : AllSameSizes calls' calls)
    (hos : os ∈ calls') : ∃ os' ∈ calls, SameSizes os os' := by
  have hmem : os.map (RecvOutcome.paint 0) ∈ calls'.map (List.map (RecvOutcome.paint 0)) :=
    List.mem_map_of_mem hos
  unfold AllSameSizes at h
  rw [h] at hmem
  obtain ⟨os', hos', heq⟩ := List.mem_map.mp hmem
  exact ⟨os', hos', heq.symm⟩

theorem Ends.of_sameSizes {calls' : List (List RecvOutcome)} {last' : List RecvOutcome}
    (h : Ends calls last) (hcalls : AllSameSizes calls' calls) (hlast : SameSizes last' last) :
    Ends calls' last' := by
  refine ⟨fun os' hos' ↦ ?_, hlast.oneCall h.last.1,
    hlast.getLast? (fun _ ↦ RecvOutcome.endsConnection_paint) h.last.2⟩
  obtain ⟨os, hos, hsame⟩ := hcalls.exists_mem hos'
  obtain ⟨hcall, hend⟩ := h.calls os hos
  exact ⟨hsame.oneCall hcall, hsame.getLast? (fun _ ↦ RecvOutcome.endsWithData_paint) hend⟩

-- If the byte is received and never left in the buffer, then it is not passed.
theorem not_passesAll (hmem : 1 ∈ received (calls.flatten ++ last))
    (hcalls : ∀ os ∈ calls, KeepsClear os)
    (hlast : ∀ m r, Clear m → RecvData last = some r → r.bReadOK = true → Clear (r.buffer m)) :
    ¬ PassesAll calls last := by
  intro hall
  obtain ⟨passed, heq, hsub⟩ := hall fun _ ↦ 0
  have hclear : Clear fun _ ↦ 0 := fun _ _ ↦ (by decide : (0 : UInt8) ≠ 1)
  obtain ⟨data, hdata, hone⟩ := List.mem_flatten.mp (hsub.mem hmem)
  have hpassed : .OnData data ∈ handlerCalls (fun _ ↦ 0) (calls ++ [last]) := by
    rw [heq]
    exact List.mem_append_left _ (List.mem_map_of_mem hdata)
  exact notMem_passed hcalls hlast hclear hpassed hone

/-- **Bytes before the end of the stream.**  All of them are passed to `OnData`, whatever they are,
exactly if every call of `RecvData` before the last gets at most two reads' bytes and none right
after an interrupted read, and the last one gets none. -/
theorem no_byte_dropped (calls : List (List RecvOutcome)) (last : List RecvOutcome)
    (h : Ends calls last) :
    (∀ calls' last', AllSameSizes calls' calls → SameSizes last' last → PassesAll calls' last') ↔
      (∀ os ∈ calls, Uninterrupted os ∧ (received os).length ≤ 2 * MAXLINE) ∧
        received last = [] := by
  constructor
  · intro hall
    constructor
    · intro os hos
      by_contra hlost
      obtain ⟨os', hsame, hmem, hkeeps⟩ := exists_lost (h.calls os hos).1 hlost
      obtain ⟨before, after, rfl⟩ := List.append_of_mem hos
      unfold SameSizes at hsame
      have hpasses : PassesAll (before.map (List.map (RecvOutcome.paint 0)) ++ os' ::
          after.map (List.map (RecvOutcome.paint 0))) (last.map (RecvOutcome.paint 0)) := by
        apply hall
        · simp [AllSameSizes, hsame]
        · simp [SameSizes]
      refine not_passesAll ?_ ?_ (fun m r hm hr _ ↦ keepsClear_paint m r hm hr) hpasses
      · simp [received_append, hmem]
      · intro os₁ hos₁
        rw [List.mem_append, List.mem_cons] at hos₁
        rcases hos₁ with hbefore | rfl | hafter
        · obtain ⟨_, _, rfl⟩ := List.mem_map.mp hbefore
          exact keepsClear_paint
        · exact hkeeps
        · obtain ⟨_, _, rfl⟩ := List.mem_map.mp hafter
          exact keepsClear_paint
    · by_contra hne
      -- the last call may receive the byte, but it does not call `OnData`
      have hsame : SameSizes (last.map (RecvOutcome.paint 1)) last := by simp [SameSizes]
      have hsames : AllSameSizes (calls.map (List.map (RecvOutcome.paint 0))) calls := by
        simp [AllSameSizes]
      have hends := (h.of_sameSizes hsames hsame).last
      obtain ⟨r, hr, hok⟩ := RecvData_of_endsConnection hends.1 hends.2
      have hmem : 1 ∈ received (last.map (RecvOutcome.paint 1)) := by
        rw [received_map_paint]
        exact List.mem_replicate.mpr ⟨fun hlen ↦ hne (List.length_eq_zero_iff.mp hlen), rfl⟩
      refine not_passesAll ?_ ?_ ?_ (hall _ _ hsames hsame)
      · rw [received_append]
        exact List.mem_append_right _ hmem
      · intro os hos
        obtain ⟨_, _, rfl⟩ := List.mem_map.mp hos
        exact keepsClear_paint
      · intro m r' _ hr' hok'
        obtain rfl : r = r' := Option.some.inj (hr.symm.trans hr')
        rw [hok] at hok'
        exact nomatch hok'
  · rintro ⟨hkept, hlast⟩ calls' last' hcalls hsame
    refine passesAll_of_kept (h.of_sameSizes hcalls hsame) (fun os' hos' ↦ ?_) ?_
    · obtain ⟨os, hos, hsame'⟩ := hcalls.exists_mem hos'
      obtain ⟨hu, htotal⟩ := hkept os hos
      exact ⟨hsame'.uninterrupted hu, hsame'.length_received ▸ htotal⟩
    · rw [← List.length_eq_zero_iff, hsame.length_received, hlast]
      rfl

/-- A short read, and the end in the next call of `RecvData`. -/
theorem no_byte_dropped_short_read : PassesAll [[.bytes [7, 8]]] [.closed] := by
  have hends : Ends [[.bytes [7, 8]]] [.closed] := by
    refine ⟨fun os hos ↦ ?_, ⟨by simp [RecvOutcome.Possible], by simp⟩, .closed, rfl, trivial⟩
    obtain rfl := List.mem_singleton.mp hos
    refine ⟨⟨by simp [RecvOutcome.Possible, MAXLINE], by simp⟩, _, rfl, ?_⟩
    simp [RecvOutcome.EndsWithData, MAXLINE]
  refine (no_byte_dropped _ _ hends).mpr ⟨fun os hos ↦ ?_, rfl⟩ _ _ rfl rfl
  obtain rfl := List.mem_singleton.mp hos
  exact ⟨List.isChain_singleton _, by decide⟩

/-- A read of `MAXLINE` bytes before the end is dropped. -/
theorem byte_dropped_full_read : ¬ ∀ calls last, Ends calls last → PassesAll calls last := by
  intro h
  have hlen : (List.replicate MAXLINE (1 : UInt8)).length = MAXLINE := List.length_replicate
  have hends : Ends [] [.bytes (List.replicate MAXLINE 1), .closed] := by
    refine ⟨fun os hos ↦ absurd hos List.not_mem_nil, ⟨?_, ?_⟩, .closed, rfl, trivial⟩
    · intro o ho
      rcases List.mem_pair.mp ho with rfl | rfl
      · show 1 ≤ _ ∧ _ ≤ MAXLINE
        rw [hlen]
        decide
      · exact trivial
    · rw [List.isChain_pair]
      exact hlen
  have hdata : RecvData [.bytes (List.replicate MAXLINE 1), .closed] =
      some ⟨[(0, List.replicate MAXLINE 1)], MAXLINE, false⟩ := by
    rw [RecvData, recvLoop_full hlen, hlen, Nat.zero_add]
    rfl
  refine not_passesAll ?_ (fun os hos ↦ absurd hos List.not_mem_nil) (fun m r _ hr hok ↦ ?_)
    (h _ _ hends)
  · rw [List.flatten_nil, List.nil_append, received_cons]
    exact List.mem_append_left _ (List.mem_replicate.mpr ⟨by decide, rfl⟩)
  · rw [hdata, Option.some.injEq] at hr
    rw [← hr] at hok
    exact nomatch hok

end Fantuan
