import Mathlib.Data.List.Chain
import Fantuan.Lib.Memory
import Fantuan.Network.Receive

/-!
# What is received and what the handler is given (Linux)

`RecvData` reads into `recv_context_->buffer_`, at the offset that the last call of `recv` returned.
The buffer is the memory from offset 0 on; there is memory on either side of it.
-/

open Lib

namespace Fantuan

/-! ## 1. Outcomes of one call -/

namespace RecvOutcome

def received : RecvOutcome → List UInt8
  | bytes data => data
  | _ => []

/-- `recv` is given room for `MAXLINE` bytes, and 0 bytes are the end. -/
def Possible : RecvOutcome → Prop
  | bytes data => 1 ≤ data.length ∧ data.length ≤ MAXLINE
  | _ => True

/-- The loop goes on after a full read and after an interrupted one. -/
def Continues : RecvOutcome → Prop
  | bytes data => data.length = MAXLINE
  | EINTR => True
  | _ => False

/-- The loop ends and `OnData` is called. -/
def EndsWithData : RecvOutcome → Prop
  | bytes data => data.length ≠ MAXLINE
  | EAGAIN => True
  | _ => False

/-- The loop ends and `OnDisconnect` is called. -/
def EndsConnection : RecvOutcome → Prop
  | error => True
  | closed => True
  | _ => False

theorem EndsWithData.not_continues {o : RecvOutcome} (h : o.EndsWithData) : ¬ o.Continues := by
  cases o with
  | bytes data => exact h
  | EAGAIN => exact id
  | EINTR | error | closed => exact nomatch h

theorem EndsConnection.not_continues {o : RecvOutcome} (h : o.EndsConnection) :
    ¬ o.Continues := by
  cases o with
  | error | closed => exact id
  | bytes data | EAGAIN | EINTR => exact nomatch h

theorem EndsConnection.not_endsWithData {o : RecvOutcome} (h : o.EndsConnection) :
    ¬ o.EndsWithData := by
  cases o with
  | error | closed => exact id
  | bytes data | EAGAIN | EINTR => exact nomatch h

end RecvOutcome

/-- The bytes that calls of `recv` returned. -/
def received (os : List RecvOutcome) : List UInt8 := os.flatMap RecvOutcome.received

/-- Outcomes, in order, in one call of `RecvData`. -/
structure OneCall (os : List RecvOutcome) : Prop where
  possible : ∀ o ∈ os, o.Possible
  goesOn : os.IsChain fun o _ ↦ o.Continues

/-- No bytes come right after an interrupted call. -/
def Uninterrupted (os : List RecvOutcome) : Prop :=
  os.IsChain fun o o' ↦ o = .EINTR → o'.received = []

theorem received_cons {o : RecvOutcome} {os : List RecvOutcome} :
    received (o :: os) = o.received ++ received os := List.flatMap_cons

theorem received_append {os os' : List RecvOutcome} :
    received (os ++ os') = received os ++ received os' := List.flatMap_append

theorem OneCall.head {o : RecvOutcome} {os : List RecvOutcome} (h : OneCall (o :: os)) :
    o.Possible :=
  h.possible o List.mem_cons_self

theorem OneCall.tail {o : RecvOutcome} {os : List RecvOutcome} (h : OneCall (o :: os)) :
    OneCall os :=
  ⟨fun o' ho' ↦ h.possible o' (List.mem_cons_of_mem _ ho'), h.goesOn.tail⟩

/-- Nothing follows an outcome that ends the loop. -/
theorem OneCall.eq_nil {o : RecvOutcome} {os : List RecvOutcome} (h : OneCall (o :: os))
    (ho : ¬ o.Continues) : os = [] := by
  cases os with
  | nil => rfl
  | cons o' os => exact absurd (List.isChain_cons_cons.mp h.goesOn).1 ho

/-! ## 2. The buffer -/

namespace RecvResult

/-- The memory after the call, from the memory before it; the first byte of the buffer is reset to a
newline. -/
def buffer (m : ℤ → UInt8) (r : RecvResult) : ℤ → UInt8 :=
  r.writes.foldl (fun m w ↦ Memory.write m w.1 w.2) (Memory.write m 0 [10])

/-- The bytes that `OnData` is given; the length is passed as a `uint32`. -/
def handedOver (m : ℤ → UInt8) (r : RecvResult) : List UInt8 :=
  Memory.read (r.buffer m) 0 (uint32 r.len_)

end RecvResult

namespace EasyConnection

/-- The offsets at which the calls of `recv` may write `MAXLINE` bytes, also of the call that is
still to return. -/
def recvDestinations (recvNum : ℤ) : List RecvOutcome → List ℤ
  | [] => [recvNum]
  | .bytes data :: later =>
      recvNum :: if data.length = MAXLINE then recvDestinations data.length later else []
  | .EINTR :: later => recvNum :: recvDestinations (-1) later
  | _ :: _ => [recvNum]

variable {n : ℤ} {r r' : RecvResult} {os : List RecvOutcome} {m : ℤ → UInt8}

theorem recvLoop_full {data : List UInt8} (h : data.length = MAXLINE) :
    recvLoop n r (.bytes data :: os) =
      recvLoop MAXLINE ⟨r.writes ++ [(n, data)], r.len_ + data.length, r.bReadOK⟩ os := by
  rw [recvLoop, if_pos h, h]

theorem recvLoop_short {data : List UInt8} (h : data.length ≠ MAXLINE) :
    recvLoop n r (.bytes data :: os) =
      some ⟨r.writes ++ [(n, data)], r.len_ + data.length, true⟩ := by
  rw [recvLoop, if_neg h]

theorem buffer_snoc {data : List UInt8} {l : ℕ} {ok : Bool} :
    RecvResult.buffer m ⟨r.writes ++ [(n, data)], l, ok⟩ = Memory.write (r.buffer m) n data := by
  rw [RecvResult.buffer, List.foldl_append]
  rfl

/-! ## 3. How the loop ends -/

-- Every byte is counted.
theorem recvLoop_len (hcall : OneCall os) (h : recvLoop n r os = some r') :
    r'.len_ = r.len_ + (received os).length := by
  induction os generalizing n r with
  | nil => exact nomatch h
  | cons o os ih =>
      rw [received_cons, List.length_append]
      cases o with
      | bytes data =>
          by_cases hfull : data.length = MAXLINE
          · rw [recvLoop_full hfull] at h
            have hlen := ih hcall.tail h
            rw [hlen, Nat.add_assoc]
            rfl
          · obtain rfl := hcall.eq_nil hfull
            rw [recvLoop_short hfull, Option.some.injEq] at h
            rw [← h]
            rfl
      | EINTR =>
          have hlen := ih hcall.tail h
          rw [hlen]
          show r.len_ + (received os).length = r.len_ + (0 + (received os).length)
          rw [Nat.zero_add]
      | EAGAIN | error | closed =>
          obtain rfl := hcall.eq_nil id
          rw [recvLoop, Option.some.injEq] at h
          rw [← h]
          rfl

-- There is a result when the last outcome ends the loop, which decides what is called.
theorem recvLoop_some (hcall : OneCall os) (hr : r.bReadOK = false)
    (h : recvLoop n r os = some r') :
    ∃ o, os.getLast? = some o ∧ ¬ o.Continues ∧ (r'.bReadOK = true ↔ o.EndsWithData) := by
  induction os generalizing n r with
  | nil => exact nomatch h
  | cons o os ih =>
      have hlater : ∀ n r, recvLoop n r os = some r' → r.bReadOK = false →
          ∃ o', (o :: os).getLast? = some o' ∧ ¬ o'.Continues ∧
            (r'.bReadOK = true ↔ o'.EndsWithData) := by
        intro n r h hr
        obtain ⟨o', hlast, hend⟩ := ih hcall.tail hr h
        have hne : os ≠ [] := fun hnil ↦ by rw [hnil] at hlast; exact nomatch hlast
        exact ⟨o', (List.getLast?_cons_of_ne_nil hne).trans hlast, hend⟩
      cases o with
      | bytes data =>
          by_cases hfull : data.length = MAXLINE
          · rw [recvLoop_full hfull] at h
            exact hlater _ _ h hr
          · obtain rfl := hcall.eq_nil hfull
            rw [recvLoop_short hfull, Option.some.injEq] at h
            rw [← h]
            exact ⟨_, rfl, hfull, fun _ ↦ hfull, fun _ ↦ rfl⟩
      | EINTR => exact hlater _ _ h hr
      | EAGAIN =>
          obtain rfl := hcall.eq_nil id
          rw [recvLoop, Option.some.injEq] at h
          rw [← h]
          exact ⟨_, rfl, id, fun _ ↦ trivial, fun _ ↦ rfl⟩
      | error | closed =>
          obtain rfl := hcall.eq_nil id
          rw [recvLoop, Option.some.injEq] at h
          rw [← h, hr]
          exact ⟨_, rfl, id, nofun, nofun⟩

theorem recvLoop_of_ends {o : RecvOutcome} (hlast : os.getLast? = some o) (hend : ¬ o.Continues) :
    ∃ r', recvLoop n r os = some r' := by
  induction os generalizing n r with
  | nil => exact nomatch hlast
  | cons o' os ih =>
      have hlater : o'.Continues → ∀ n r, ∃ r', recvLoop n r os = some r' := by
        intro ho' n r
        cases os with
        | nil =>
            obtain rfl := Option.some.inj hlast
            exact absurd ho' hend
        | cons o'' os => exact ih (List.getLast?_cons_cons.symm.trans hlast)
      cases o' with
      | bytes data =>
          by_cases hfull : data.length = MAXLINE
          · rw [recvLoop_full hfull]
            exact hlater hfull _ _
          · exact ⟨_, recvLoop_short hfull⟩
      | EINTR => exact hlater trivial _ _
      | EAGAIN | error | closed => exact ⟨_, rfl⟩

/-! ## 4. What `OnData` is given -/

-- As long as at most two reads' bytes are received, and none right after an interrupted call, the
-- bytes of the buffer that are counted are those received.  They are written at offset 0 and then
-- at `MAXLINE`, which is where the first full read ends.
theorem recvLoop_buffer (hcall : OneCall os) (hu : Uninterrupted os)
    (h : recvLoop n r os = some r') (hr : r.bReadOK = false) (hok : r'.bReadOK = true)
    (hn : (∀ o ∈ os.head?, o.received = []) ∨ n = min r.len_ MAXLINE) (hdvd : MAXLINE ∣ r.len_)
    (htotal : r.len_ + (received os).length ≤ 2 * MAXLINE) :
    Memory.read (r'.buffer m) 0 r'.len_ = Memory.read (r.buffer m) 0 r.len_ ++ received os := by
  induction os generalizing n r with
  | nil => exact nomatch h
  | cons o os ih =>
      rw [received_cons] at htotal ⊢
      cases o with
      | bytes data =>
          have hpos : 1 ≤ data.length := hcall.head.1
          have hle : data.length ≤ MAXLINE := hcall.head.2
          have hsum : r.len_ + (data.length + (received os).length) ≤ 2 * MAXLINE := by
            rwa [List.length_append] at htotal
          have hmin : n = min r.len_ MAXLINE := by
            rcases hn with hnone | hmin
            · have hnil : data = [] := hnone (.bytes data) rfl
              rw [hnil] at hpos
              exact absurd hpos (by decide)
            · exact hmin
          -- there is at most one full read before these bytes
          have hbehind : n = 0 + r.len_ := by
            obtain ⟨k, hk⟩ := hdvd
            unfold MAXLINE at *
            omega
          have hwrite : Memory.read (Memory.write (r.buffer m) n data) 0 (r.len_ + data.length) =
              Memory.read (r.buffer m) 0 r.len_ ++ data := by
            rw [hbehind]
            exact Memory.read_write_append
          by_cases hfull : data.length = MAXLINE
          · have hdvd' : MAXLINE ∣ r.len_ + data.length := by
              rw [hfull]
              exact Nat.dvd_add_self_right.mpr hdvd
            have hmin' : (MAXLINE : ℤ) = min (r.len_ + data.length : ℕ) MAXLINE := by omega
            rw [← Nat.add_assoc] at hsum
            rw [recvLoop_full hfull] at h
            rw [ih hcall.tail hu.tail h hr (.inr hmin') hdvd' hsum, buffer_snoc, hwrite,
              List.append_assoc]
            rfl
          · obtain rfl := hcall.eq_nil hfull
            rw [recvLoop_short hfull, Option.some.injEq] at h
            rw [← h, buffer_snoc, hwrite]
            exact (congrArg _ (List.append_nil data)).symm
      | EINTR =>
          have hhead : ∀ o ∈ os.head?, o.received = [] := fun o ho ↦ hu.rel_head? ho rfl
          exact ih hcall.tail hu.tail h hr (.inl hhead) hdvd htotal
      | EAGAIN =>
          obtain rfl := hcall.eq_nil id
          rw [recvLoop, Option.some.injEq] at h
          rw [← h]
          exact (List.append_nil _).symm
      | error | closed =>
          obtain rfl := hcall.eq_nil id
          rw [recvLoop, Option.some.injEq] at h
          rw [← h, hr] at hok
          exact nomatch hok

-- Nothing is written behind the second read.
theorem recvLoop_beyond {x : ℤ} (hcall : OneCall os) (hn : n ≤ MAXLINE)
    (h : recvLoop n r os = some r') (hx : (2 * MAXLINE : ℕ) ≤ x) :
    r'.buffer m x = r.buffer m x := by
  induction os generalizing n r with
  | nil => exact nomatch h
  | cons o os ih =>
      cases o with
      | bytes data =>
          have hle : data.length ≤ MAXLINE := hcall.head.2
          have hwrite : Memory.write (r.buffer m) n data x = r.buffer m x :=
            Memory.write_of_le (by omega)
          by_cases hfull : data.length = MAXLINE
          · rw [recvLoop_full hfull] at h
            rw [ih hcall.tail (Int.le_refl _) h, buffer_snoc, hwrite]
          · rw [recvLoop_short hfull, Option.some.injEq] at h
            rw [← h, buffer_snoc, hwrite]
      | EINTR => exact ih hcall.tail (by omega) h
      | EAGAIN =>
          rw [recvLoop, Option.some.injEq] at h
          rw [← h]
          rfl
      | error | closed =>
          rw [recvLoop, Option.some.injEq] at h
          rw [h]

/-- Where a call of `recv` may write is in the buffer. -/
def InBuffer (d : ℤ) : Prop := 0 ≤ d ∧ d + MAXLINE ≤ MAX_INPUT_BUFFER

theorem inBuffer_of_le (h₀ : 0 ≤ n) (h : n ≤ MAXLINE) : InBuffer n := by
  have hmax : (MAX_INPUT_BUFFER : ℤ) = 4 * MAXLINE := rfl
  exact ⟨h₀, by omega⟩

-- Only the call after an interrupted one may write outside the buffer, and it always may.
theorem recvDestinations_inBuffer (hcall : OneCall os) (h₀ : 0 ≤ n) (hn : n ≤ MAXLINE) :
    (∀ d ∈ recvDestinations n os, InBuffer d) ↔ .EINTR ∉ os := by
  have hin : InBuffer n := inBuffer_of_le h₀ hn
  induction os generalizing n with
  | nil => simp [recvDestinations, hin]
  | cons o os ih =>
      cases o with
      | bytes data =>
          by_cases hfull : data.length = MAXLINE
          · have hnext := ih hcall.tail (Int.natCast_nonneg data.length) (by omega)
              (inBuffer_of_le (by omega) (by omega))
            simp [recvDestinations, hfull, hin, ← hnext]
          · obtain rfl := hcall.eq_nil hfull
            simp [recvDestinations, hfull, hin]
      | EINTR =>
          have hnext : -1 ∈ recvDestinations (-1) os := by
            cases os with
            | nil => exact List.mem_cons_self
            | cons o' os => cases o' <;> exact List.mem_cons_self
          refine iff_of_false (fun hall ↦ ?_) (fun hnot ↦ hnot List.mem_cons_self)
          have hneg := (hall (-1) (List.mem_cons_of_mem _ hnext)).1
          omega
      | EAGAIN | error | closed =>
          obtain rfl := hcall.eq_nil id
          simp [recvDestinations, hin]

end EasyConnection

/-! ## 5. `RecvData` -/

open EasyConnection

/-- Every call of `recv` may write in the buffer only, and the bytes given to `OnData` are those
received, whatever the memory held before. -/
structure HandsOverReceived (os : List RecvOutcome) : Prop where
  inside : ∀ d ∈ recvDestinations 0 os, InBuffer d
  exact : ∀ m r, RecvData os = some r → r.bReadOK = true →
    uint32 r.len_ ≤ MAX_INPUT_BUFFER ∧ r.handedOver m = received os

variable {os : List RecvOutcome} {r : RecvResult} {m : ℤ → UInt8}

theorem uninterrupted_of_notMem (h : .EINTR ∉ os) : Uninterrupted os := by
  apply List.isChain_iff_forall_rel_of_append_cons_cons.mpr
  intro o o' pre later hos ho
  rw [hos, ho] at h
  exact absurd (List.mem_append_right _ List.mem_cons_self) h

theorem RecvData_of_endsWithData (hcall : OneCall os) (hend : ∃ o ∈ os.getLast?, o.EndsWithData) :
    ∃ r, RecvData os = some r ∧ r.bReadOK = true := by
  obtain ⟨o, hlast, hdata⟩ := hend
  obtain ⟨r, hr⟩ := recvLoop_of_ends (n := 0) (r := ⟨[], 0, false⟩) hlast hdata.not_continues
  obtain ⟨o', hlast', -, hok⟩ := recvLoop_some hcall rfl hr
  obtain rfl : o = o' := Option.some.inj (hlast.symm.trans hlast')
  exact ⟨r, hr, hok.mpr hdata⟩

theorem RecvData_of_endsConnection (hcall : OneCall os)
    (hend : ∃ o ∈ os.getLast?, o.EndsConnection) :
    ∃ r, RecvData os = some r ∧ r.bReadOK = false := by
  obtain ⟨o, hlast, hconn⟩ := hend
  obtain ⟨r, hr⟩ := recvLoop_of_ends (n := 0) (r := ⟨[], 0, false⟩) hlast hconn.not_continues
  obtain ⟨o', hlast', -, hok⟩ := recvLoop_some hcall rfl hr
  obtain rfl : o = o' := Option.some.inj (hlast.symm.trans hlast')
  exact ⟨r, hr, Bool.eq_false_iff.mpr fun h ↦ hconn.not_endsWithData (hok.mp h)⟩

theorem RecvData_handedOver (hcall : OneCall os) (hu : Uninterrupted os)
    (htotal : (received os).length ≤ 2 * MAXLINE) (h : RecvData os = some r)
    (hok : r.bReadOK = true) : r.handedOver m = received os := by
  have hlen := recvLoop_len hcall h
  rw [Nat.zero_add] at hlen
  have hsmall : 2 * MAXLINE < 2 ^ 32 := by decide
  have hread := recvLoop_buffer (m := m) hcall hu h rfl hok (.inr rfl) (Nat.dvd_zero _)
    (by rwa [Nat.zero_add])
  rw [RecvResult.handedOver, uint32_of_lt (by omega), hread]
  rfl

/-- **`RecvData` hands over what was received.**  It does so exactly if no call of `recv` is
interrupted and `OnData` is not called with more than two reads' bytes. -/
theorem RecvData_hands_over (os : List RecvOutcome) (hcall : OneCall os) :
    HandsOverReceived os ↔
      .EINTR ∉ os ∧
        ((∃ o ∈ os.getLast?, o.EndsWithData) → (received os).length ≤ 2 * MAXLINE) := by
  constructor
  · intro h
    refine ⟨(recvDestinations_inBuffer hcall (Int.le_refl 0) (by decide)).mp h.inside, ?_⟩
    rintro ⟨o, hlast, hend⟩
    obtain ⟨r, hr, hok⟩ := RecvData_of_endsWithData hcall ⟨o, hlast, hend⟩
    by_contra hlt
    rw [Nat.not_le] at hlt
    -- the byte behind the second read would be one that was there before
    have hbyte : ∀ m : ℤ → UInt8, (received os)[2 * MAXLINE]? = some (m (2 * MAXLINE : ℕ)) := by
      intro m
      have hread := (h.exact m r hr hok).2
      have hlen : uint32 r.len_ = (received os).length := by
        rw [← hread, RecvResult.handedOver, Memory.length_read]
      have hreset : Memory.write m 0 [10] (2 * MAXLINE : ℕ) = m (2 * MAXLINE : ℕ) :=
        Memory.write_of_le (by decide)
      have hkeep : r.buffer m (2 * MAXLINE : ℕ) = m (2 * MAXLINE : ℕ) := by
        rw [recvLoop_beyond hcall (by decide) hr (Int.le_refl _)]
        exact hreset
      rw [← hread, RecvResult.handedOver, Memory.getElem?_read (by rwa [hlen]), Int.zero_add, hkeep]
    exact absurd ((hbyte fun _ ↦ 0).symm.trans (hbyte fun _ ↦ 1)) (by decide)
  · rintro ⟨hnot, htotal⟩
    refine ⟨(recvDestinations_inBuffer hcall (Int.le_refl 0) (by decide)).mpr hnot, ?_⟩
    intro m r hr hok
    obtain ⟨o, hlast, -, hend⟩ := recvLoop_some hcall rfl hr
    have hle := htotal ⟨o, hlast, hend.mp hok⟩
    have hread : r.handedOver m = received os :=
      RecvData_handedOver hcall (uninterrupted_of_notMem hnot) hle hr hok
    have hmax : 2 * MAXLINE ≤ MAX_INPUT_BUFFER := by decide
    refine ⟨?_, hread⟩
    rw [← hread, RecvResult.handedOver, Memory.length_read] at hle
    omega

/-- A full read and a short one. -/
theorem hands_over_short_read :
    HandsOverReceived [.bytes (List.replicate MAXLINE 5), .bytes [7, 8]] := by
  have hfull : (List.replicate MAXLINE (5 : UInt8)).length = MAXLINE := List.length_replicate
  have hcall : OneCall [.bytes (List.replicate MAXLINE 5), .bytes [7, 8]] := by
    constructor
    · intro o ho
      rw [List.mem_cons, List.mem_singleton] at ho
      rcases ho with rfl | rfl
      · show 1 ≤ (List.replicate MAXLINE (5 : UInt8)).length ∧ _
        rw [hfull]
        decide
      · show 1 ≤ 2 ∧ 2 ≤ MAXLINE
        decide
    · exact List.isChain_cons_cons.mpr ⟨hfull, .singleton _⟩
  refine (RecvData_hands_over _ hcall).mpr ⟨by simp, fun _ ↦ ?_⟩
  show (List.replicate MAXLINE (5 : UInt8) ++ [7, 8]).length ≤ 2 * MAXLINE
  rw [List.length_append, hfull]
  decide

/-- After an interrupted call the next one may write in front of the buffer. -/
theorem not_hands_over_EINTR : ¬ ∀ os, OneCall os → HandsOverReceived os := by
  intro h
  have hcall : OneCall [.EINTR, .EAGAIN] := by
    constructor
    · simp [RecvOutcome.Possible]
    · simp [RecvOutcome.Continues]
  have hin := (h _ hcall).inside (-1) (by decide)
  exact absurd hin.1 (by decide)

end Fantuan
