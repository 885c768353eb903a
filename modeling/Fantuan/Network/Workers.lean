import Fantuan.Network.Iocp
import Mathlib.Data.Bool.Count
import Mathlib.Data.List.ReduceOption

/-!
# easy_worker.cpp — the worker threads and their end

The threads of an `EasyWorker` take packets off the completion port.  `~EasyWorker` posts a packet
without an `OVERLAPPED` as long as `thread_count_` is not 0, and then closes the port; a thread that
takes one of these leaves its loop and decrements `thread_count_`.  This is the `EasyWorker` for
Windows.
-/

open Lib

namespace Fantuan.Iocp

/-! ## 1. The threads and the destructor -/

/-- What a worker thread has still to execute: of the loop of `WorkerThread`, up to the call of
`GetQueuedCompletionStatus`, and behind it. -/
inductive LoopInstr (ι : Type)
  | handle (pContext : ι)
  | GetQueuedCompletionStatus
  | InterlockedDecrement

/-- Where `~EasyWorker` is, once it is called. -/
inductive DestructorPc
  | absent
  | test
  | PostQueuedCompletionStatus
  | CloseHandle
  | returned
deriving DecidableEq

/-- `ι` are the contexts. -/
structure EasyWorker (ι : Type) where
  /-- The packets of the port, the oldest first; `none`: `lpOverlapped` is `NULL`. -/
  iocp_ : List (Option ι)
  thread_count_ : ℕ
  threads : List (List (LoopInstr ι))
  destructor : DestructorPc

inductive WorkerEvent (ι : Type)
  /-- An operation completes, or a thread posts its packet again. -/
  | completes (pContext : ι)
  | takes (packet : Option ι)
  | handles (pContext : ι)
  | decrements
  | destroys
  | tests
  | posts
  | closes

namespace EasyWorker

variable {ι : Type}

/-- One turn of the loop of the constructor.  `created`: `_beginthreadex` succeeds. -/
def beginThread (s : EasyWorker ι) (created : Bool) : EasyWorker ι :=
  { s with
    threads := if created then s.threads ++ [[.GetQueuedCompletionStatus]] else s.threads
    thread_count_ := succ s.thread_count_ }

/-- The constructor, for as many threads as there are turns, where `CreateIoCompletionPort`
succeeds. -/
def construct (created : List Bool) : EasyWorker ι := created.foldl beginThread ⟨[], 0, [], .absent⟩

/-- What a thread goes on with after `GetQueuedCompletionStatus`. -/
def dequeued : Option ι → List (LoopInstr ι)
  | some pContext => [.handle pContext, .GetQueuedCompletionStatus]
  | none => [.InterlockedDecrement]

/-- Where the destructor goes on, where it finds `thread_count_`. -/
def tested (thread_count_ : ℕ) : DestructorPc :=
  if thread_count_ = 0 then .CloseHandle else .PostQueuedCompletionStatus

/-- Any of the threads gets the oldest packet.  Nothing comes through the closed port. -/
inductive Step (s : EasyWorker ι) : WorkerEvent ι → EasyWorker ι → Prop
  | completes {pContext : ι} (hopen : s.destructor ≠ .returned) :
      Step s (.completes pContext) { s with iocp_ := s.iocp_ ++ [some pContext] }
  | takes {n : ℕ} {packet : Option ι} {later : List (Option ι)} {rest : List (LoopInstr ι)}
      (hthread : s.threads[n]? = some (.GetQueuedCompletionStatus :: rest))
      (hport : s.iocp_ = packet :: later) (hopen : s.destructor ≠ .returned) :
      Step s (.takes packet)
        { s with iocp_ := later, threads := s.threads.set n (dequeued packet ++ rest) }
  | handles {n : ℕ} {pContext : ι} {rest : List (LoopInstr ι)}
      (hthread : s.threads[n]? = some (.handle pContext :: rest)) :
      Step s (.handles pContext) { s with threads := s.threads.set n rest }
  | decrements {n : ℕ} {rest : List (LoopInstr ι)}
      (hthread : s.threads[n]? = some (.InterlockedDecrement :: rest)) :
      Step s .decrements
        { s with thread_count_ := pred s.thread_count_, threads := s.threads.set n rest }
  | destroys (h : s.destructor = .absent) : Step s .destroys { s with destructor := .test }
  | tests (h : s.destructor = .test) :
      Step s .tests { s with destructor := tested s.thread_count_ }
  | posts (h : s.destructor = .PostQueuedCompletionStatus) :
      Step s .posts { s with iocp_ := s.iocp_ ++ [none], destructor := .test }
  | closes (h : s.destructor = .CloseHandle) : Step s .closes { s with destructor := .returned }

end EasyWorker

/-! ## 2. Packets and threads -/

section Packets

variable {ι : Type}

/-- The packets that came to the port. -/
def queuedPackets (es : List (WorkerEvent ι)) : List (Option ι) :=
  es.filterMap fun
    | .completes pContext => some (some pContext)
    | .posts => some none
    | _ => none

/-- The packets that threads took. -/
def takenPackets (es : List (WorkerEvent ι)) : List (Option ι) :=
  es.filterMap fun
    | .takes packet => some packet
    | _ => none

def handledContexts (es : List (WorkerEvent ι)) : List ι :=
  es.filterMap fun
    | .handles pContext => some pContext
    | _ => none

namespace LoopInstr

def contexts : LoopInstr ι → List ι
  | .handle pContext => [pContext]
  | _ => []

/-- In the loop. -/
def looping : LoopInstr ι → ℕ
  | .GetQueuedCompletionStatus => 1
  | _ => 0

/-- Out of the loop. -/
def leaving : LoopInstr ι → ℕ
  | .InterlockedDecrement => 1
  | _ => 0

end LoopInstr

/-- What a thread has between two calls. -/
def AtCall (code : List (LoopInstr ι)) : Prop :=
  code = [] ∨ code = [.GetQueuedCompletionStatus] ∨ code = [.InterlockedDecrement] ∨
    ∃ pContext, code = [.handle pContext, .GetQueuedCompletionStatus]

/-- Packets and threads are accounted for, where `_beginthreadex` has answered `created`. -/
structure Manned (created : List Bool) (es : List (WorkerEvent ι)) (s : EasyWorker ι) : Prop where
  fifo : queuedPackets es = takenPackets es ++ s.iocp_
  -- each packet without an `OVERLAPPED` takes a thread out of the loop
  loops : (takenPackets es).countP Option.isNone + load LoopInstr.looping s.threads =
    created.count true
  -- a thread that was not created is never counted down
  count : s.thread_count_ =
    created.count false + load LoopInstr.looping s.threads + load LoopInstr.leaving s.threads
  handled : (s.threads.flatten.flatMap LoopInstr.contexts ++ handledContexts es).Perm
    (takenPackets es).reduceOption
  codes : ∀ code ∈ s.threads, AtCall code
  posted : s.destructor = .absent → ∀ packet ∈ queuedPackets es, packet ≠ none
  ended : s.destructor = .CloseHandle ∨ s.destructor = .returned → s.thread_count_ = 0

variable {created : List Bool} {es : List (WorkerEvent ι)} {e : WorkerEvent ι}
  {s t : EasyWorker ι}

theorem queuedPackets_snoc : queuedPackets (es ++ [e]) = queuedPackets es ++ queuedPackets [e] :=
  List.filterMap_append

theorem takenPackets_snoc : takenPackets (es ++ [e]) = takenPackets es ++ takenPackets [e] :=
  List.filterMap_append

theorem handledContexts_snoc :
    handledContexts (es ++ [e]) = handledContexts es ++ handledContexts [e] :=
  List.filterMap_append

theorem construct_spec (h : created.length < 2 ^ 32) :
    (EasyWorker.construct created : EasyWorker ι) =
      ⟨[], created.length, List.replicate (created.count true) [.GetQueuedCompletionStatus],
        .absent⟩ := by
  induction created using List.reverseRecOn with
  | nil => rfl
  | append_singleton created ok ih =>
      rw [List.length_append, List.length_singleton] at h
      have hcount : succ created.length = created.length + 1 := uint32_of_lt h
      rw [EasyWorker.construct, List.foldl_append, ← EasyWorker.construct, ih (by omega)]
      simp only [List.foldl_cons, List.foldl_nil, EasyWorker.beginThread, hcount,
        List.length_append, List.length_singleton]
      cases ok with
      | false => rw [List.count_append, List.count_cons_of_ne (by decide)]; rfl
      | true => rw [List.count_append, List.count_cons_self, List.replicate_add]; rfl

namespace Manned

theorem start (h : created.length < 2 ^ 32) :
    Manned created [] (EasyWorker.construct created : EasyWorker ι) := by
  rw [construct_spec h]
  have hflat : (List.replicate (created.count true)
      [(LoopInstr.GetQueuedCompletionStatus : LoopInstr ι)]).flatten =
      List.replicate (created.count true) .GetQueuedCompletionStatus :=
    List.flatten_replicate_singleton
  have hload : ∀ w : LoopInstr ι → ℕ, load w (List.replicate (created.count true)
      [.GetQueuedCompletionStatus]) = created.count true * w .GetQueuedCompletionStatus := by
    intro w
    rw [load, hflat, List.map_replicate, List.sum_replicate_nat]
  constructor
  · rfl
  · rw [hload]
    show 0 + _ * 1 = _
    omega
  · rw [hload, hload]
    show created.length = _ + _ * 1 + _ * 0
    have hlen := List.count_true_add_count_false created
    omega
  · show ((List.replicate _ _).flatten.flatMap _ ++ []).Perm []
    rw [hflat, List.append_nil, List.flatMap_replicate]
    simp [LoopInstr.contexts]
  · intro code hcode
    exact .inr (.inl (List.eq_of_mem_replicate hcode))
  · exact fun _ packet hpacket ↦ absurd hpacket List.not_mem_nil
  · rintro (hd | hd) <;> cases hd

-- A step that no worker thread takes.
theorem keep (h : Manned created es s) (hthreads : t.threads = s.threads)
    (hcount : t.thread_count_ = s.thread_count_) (htaken : takenPackets [e] = [])
    (hhandled : handledContexts [e] = []) (hport : t.iocp_ = s.iocp_ ++ queuedPackets [e])
    (hposted : t.destructor = .absent →
      s.destructor = .absent ∧ ∀ packet ∈ queuedPackets [e], packet ≠ none)
    (hended : t.destructor = .CloseHandle ∨ t.destructor = .returned → s.thread_count_ = 0) :
    Manned created (es ++ [e]) t := by
  have htakes : takenPackets (es ++ [e]) = takenPackets es := by
    rw [takenPackets_snoc, htaken, List.append_nil]
  constructor
  · rw [htakes, hport, queuedPackets_snoc, h.fifo, List.append_assoc]
  · rw [htakes, hthreads]
    exact h.loops
  · rw [hcount, hthreads]
    exact h.count
  · rw [htakes, hthreads, handledContexts_snoc, hhandled, List.append_nil]
    exact h.handled
  · rw [hthreads]
    exact h.codes
  · intro habsent
    obtain ⟨hbefore, hnew⟩ := hposted habsent
    rw [queuedPackets_snoc, List.forall_mem_append]
    exact ⟨h.posted hbefore, hnew⟩
  · rw [hcount]
    exact hended

theorem takes (h : Manned created es s) {n : ℕ} {packet : Option ι} {later : List (Option ι)}
    {rest : List (LoopInstr ι)}
    (hthread : s.threads[n]? = some (.GetQueuedCompletionStatus :: rest))
    (hport : s.iocp_ = packet :: later) :
    Manned created (es ++ [.takes packet])
      { s with
        iocp_ := later, threads := s.threads.set n (EasyWorker.dequeued packet ++ rest) } := by
  have hrest : rest = [] := by
    rcases h.codes _ (List.mem_of_getElem? hthread) with he | he | he | ⟨_, he⟩ <;> cases he
    rfl
  subst hrest
  have hloops := load_step (w := LoopInstr.looping) hthread (EasyWorker.dequeued packet)
  have hleaves := load_step (w := LoopInstr.leaving) hthread (EasyWorker.dequeued packet)
  have hcontexts := flatMap_set_perm LoopInstr.contexts hthread
    (EasyWorker.dequeued packet ++ [])
  have htaken : takenPackets (es ++ [.takes packet]) = takenPackets es ++ [packet] :=
    takenPackets_snoc
  have hqueued : queuedPackets (es ++ [.takes packet]) = queuedPackets es := by
    rw [queuedPackets_snoc]
    exact List.append_nil _
  constructor
  · rw [hqueued, htaken, h.fifo, hport, List.append_assoc]
    rfl
  · have hbefore := h.loops
    rw [htaken, List.countP_append]
    cases packet <;> simp [EasyWorker.dequeued, LoopInstr.looping] at hloops ⊢ <;> omega
  · have hbefore := h.count
    have hone : 0 < load LoopInstr.looping s.threads := le_load (w := LoopInstr.looping) hthread
    cases packet <;>
      simp [EasyWorker.dequeued, LoopInstr.looping, LoopInstr.leaving] at hloops hleaves ⊢ <;> omega
  · have hnew : ((EasyWorker.dequeued packet ++ []).flatMap LoopInstr.contexts) =
        packet.toList := by
      cases packet <;> rfl
    rw [hnew] at hcontexts
    rw [htaken, List.reduceOption_append, handledContexts_snoc]
    have hone : [packet].reduceOption = packet.toList := by
      cases packet <;> rfl
    rw [hone]
    show (((s.threads.set n _).flatten.flatMap _) ++ (handledContexts es ++ [])).Perm _
    rw [List.append_nil (handledContexts es)]
    have hin := hcontexts.append_right (handledContexts es)
    rw [List.append_assoc packet.toList] at hin
    exact hin.trans ((h.handled.append_left packet.toList).trans List.perm_append_comm)
  · intro code hcode
    rcases List.mem_or_eq_of_mem_set hcode with hold | rfl
    · exact h.codes code hold
    · cases packet with
      | none => exact .inr (.inr (.inl rfl))
      | some pContext => exact .inr (.inr (.inr ⟨pContext, rfl⟩))
  · rw [hqueued]
    exact h.posted
  · exact h.ended

theorem handles (h : Manned created es s) {n : ℕ} {pContext : ι} {rest : List (LoopInstr ι)}
    (hthread : s.threads[n]? = some (.handle pContext :: rest)) :
    Manned created (es ++ [.handles pContext]) { s with threads := s.threads.set n rest } := by
  have hrest : rest = [.GetQueuedCompletionStatus] := by
    rcases h.codes _ (List.mem_of_getElem? hthread) with he | he | he | ⟨_, he⟩ <;> cases he
    rfl
  subst hrest
  have hloops := load_step (w := LoopInstr.looping) hthread []
  have hleaves := load_step (w := LoopInstr.leaving) hthread []
  have hcontexts := flatMap_set_perm LoopInstr.contexts hthread
    [.GetQueuedCompletionStatus]
  have htaken : takenPackets (es ++ [.handles pContext]) = takenPackets es := by
    rw [takenPackets_snoc]
    exact List.append_nil _
  have hqueued : queuedPackets (es ++ [.handles pContext]) = queuedPackets es := by
    rw [queuedPackets_snoc]
    exact List.append_nil _
  constructor
  · rw [hqueued, htaken]
    exact h.fifo
  · rw [htaken, ← h.loops]
    exact congrArg _ hloops
  · show s.thread_count_ = _ + load _ (s.threads.set n _) + load _ (s.threads.set n _)
    rw [h.count]
    exact congrArg₂ (_ + · + ·) hloops.symm hleaves.symm
  · rw [htaken, handledContexts_snoc]
    show ((s.threads.set n _).flatten.flatMap _ ++ (handledContexts es ++ [pContext])).Perm _
    rw [← List.append_assoc]
    apply (List.perm_append_singleton _ _).trans
    exact (hcontexts.append_right (handledContexts es)).trans h.handled
  · intro code hcode
    rcases List.mem_or_eq_of_mem_set hcode with hold | rfl
    · exact h.codes code hold
    · exact .inr (.inl rfl)
  · rw [hqueued]
    exact h.posted
  · exact h.ended

theorem decrements (h : Manned created es s) {n : ℕ} {rest : List (LoopInstr ι)}
    (hthread : s.threads[n]? = some (.InterlockedDecrement :: rest)) :
    Manned created (es ++ [.decrements])
      { s with
        thread_count_ := pred s.thread_count_, threads := s.threads.set n rest } := by
  have hrest : rest = [] := by
    rcases h.codes _ (List.mem_of_getElem? hthread) with he | he | he | ⟨_, he⟩ <;> cases he
    rfl
  subst hrest
  have hloops := load_step (w := LoopInstr.looping) hthread []
  have hleaves := load_step (w := LoopInstr.leaving) hthread []
  have hcontexts := flatMap_set_perm LoopInstr.contexts hthread []
  have htaken : takenPackets (es ++ [.decrements]) = takenPackets es := by
    rw [takenPackets_snoc]
    exact List.append_nil _
  have hqueued : queuedPackets (es ++ [.decrements]) = queuedPackets es := by
    rw [queuedPackets_snoc]
    exact List.append_nil _
  -- the thread is still counted
  have hcounted : 1 ≤ load LoopInstr.leaving s.threads := le_load (w := LoopInstr.leaving) hthread
  have hcount := h.count
  constructor
  · rw [hqueued, htaken]
    exact h.fifo
  · rw [htaken, ← h.loops]
    exact congrArg _ hloops
  · show pred s.thread_count_ = _ + load _ (s.threads.set n []) + load _ (s.threads.set n [])
    have hpred : pred s.thread_count_ = s.thread_count_ - 1 := if_neg (by omega)
    have hloops' : load LoopInstr.looping (s.threads.set n []) =
        load LoopInstr.looping s.threads := hloops
    have hleaves' : load LoopInstr.leaving (s.threads.set n []) + 1 =
        load LoopInstr.leaving s.threads := hleaves
    omega
  · rw [htaken, handledContexts_snoc]
    show ((s.threads.set n _).flatten.flatMap _ ++ (handledContexts es ++ [])).Perm _
    rw [List.append_nil]
    exact (hcontexts.append_right (handledContexts es)).trans h.handled
  · intro code hcode
    rcases List.mem_or_eq_of_mem_set hcode with hold | rfl
    · exact h.codes code hold
    · exact .inl rfl
  · rw [hqueued]
    exact h.posted
  · intro hd
    have hzero := h.ended hd
    omega

theorem step (h : Manned created es s) (hst : s.Step e t) : Manned created (es ++ [e]) t := by
  cases hst with
  | @completes pContext hopen =>
      apply h.keep (t := { s with iocp_ := s.iocp_ ++ [some pContext] }) rfl rfl rfl rfl rfl
      · intro habsent
        exact ⟨habsent, List.forall_mem_singleton.mpr (Option.some_ne_none pContext)⟩
      · exact h.ended
  | takes hthread hport _ => exact h.takes hthread hport
  | handles hthread => exact h.handles hthread
  | decrements hthread => exact h.decrements hthread
  | destroys hd =>
      apply h.keep (t := { s with destructor := .test }) rfl rfl rfl rfl (List.append_nil _).symm
      · intro habsent
        cases habsent
      · rintro (hend | hend) <;> cases hend
  | tests hd =>
      apply h.keep (t := { s with destructor := EasyWorker.tested s.thread_count_ }) rfl rfl rfl rfl
        (List.append_nil _).symm
      · intro habsent
        have hne : EasyWorker.tested s.thread_count_ ≠ .absent := by
          unfold EasyWorker.tested
          split <;> decide
        exact absurd habsent hne
      · intro hend
        by_contra hne
        have hpost : EasyWorker.tested s.thread_count_ = .PostQueuedCompletionStatus := if_neg hne
        rw [hpost] at hend
        rcases hend with hend | hend <;> cases hend
  | posts hd =>
      apply h.keep (t := { s with iocp_ := s.iocp_ ++ [none], destructor := .test }) rfl rfl rfl
        rfl rfl
      · intro habsent
        cases habsent
      · rintro (hend | hend) <;> cases hend
  | closes hd =>
      apply h.keep (t := { s with destructor := .returned }) rfl rfl rfl rfl
        (List.append_nil _).symm
      · intro habsent
        cases habsent
      · exact fun _ ↦ h.ended (.inl hd)

theorem path {later : List (WorkerEvent ι)} (h : Manned created es s)
    (hpath : Path EasyWorker.Step s later t) : Manned created (es ++ later) t := by
  induction hpath with
  | nil =>
      rw [List.append_nil]
      exact h
  | snoc _ hst ih =>
      rw [← List.append_assoc]
      exact ih.step hst

theorem of_path (hcount : created.length < 2 ^ 32)
    (h : Path EasyWorker.Step (EasyWorker.construct created) es s) : Manned created es s := by
  have hpath := (start hcount).path h
  rwa [List.nil_append] at hpath

-- No thread is left that could call anything.
theorem returned (h : Manned created es s) (hclosed : s.destructor = .returned) :
    created.count false = 0 ∧ load LoopInstr.looping s.threads = 0 ∧
      ∀ code ∈ s.threads, code = [] := by
  have hzero := h.ended (.inr hclosed)
  have hcount := h.count
  refine ⟨by omega, by omega, fun code hcode ↦ ?_⟩
  obtain ⟨n, hn⟩ := List.getElem?_of_mem hcode
  have hloops : (code.map LoopInstr.looping).sum ≤ load LoopInstr.looping s.threads :=
    sum_le_load hn
  have hleaves : (code.map LoopInstr.leaving).sum ≤ load LoopInstr.leaving s.threads :=
    sum_le_load hn
  rcases h.codes code hcode with rfl | rfl | rfl | ⟨pContext, rfl⟩
  · rfl
  · have hone : (([.GetQueuedCompletionStatus] : List (LoopInstr ι)).map
        LoopInstr.looping).sum = 1 := rfl
    omega
  · have hone : (([.InterlockedDecrement] : List (LoopInstr ι)).map
        LoopInstr.leaving).sum = 1 := rfl
    omega
  · have hone : (([.handle pContext, .GetQueuedCompletionStatus] : List (LoopInstr ι)).map
        LoopInstr.looping).sum = 1 := rfl
    omega

end Manned

/-! ## 3. The end -/

-- One turn of the loop of the destructor.
theorem exists_post (hd : s.destructor = .test ∨ s.destructor = .PostQueuedCompletionStatus)
    (hne : s.thread_count_ ≠ 0) :
    ∃ es, Path EasyWorker.Step s es { s with iocp_ := s.iocp_ ++ [none], destructor := .test } := by
  rcases hd with htest | hpost
  · have htested : EasyWorker.tested s.thread_count_ = .PostQueuedCompletionStatus := if_neg hne
    have hfirst := (Path.nil (R := EasyWorker.Step)).snoc (.tests htest)
    rw [htested] at hfirst
    exact ⟨_, hfirst.snoc (.posts rfl)⟩
  · exact ⟨_, Path.nil.snoc (.posts hpost)⟩

-- Once all threads are counted down.
theorem exists_close (hzero : s.thread_count_ = 0) (hcalled : s.destructor ≠ .absent) :
    ∃ es t, Path EasyWorker.Step s es t ∧ t.destructor = .returned := by
  have htested : EasyWorker.tested s.thread_count_ = .CloseHandle := if_pos hzero
  have htest : ∀ u : EasyWorker ι, u.thread_count_ = s.thread_count_ → u.destructor = .test →
      ∃ es t, Path EasyWorker.Step u es t ∧ t.destructor = .returned := by
    intro u hu hd
    have hfirst := (Path.nil (R := EasyWorker.Step)).snoc (.tests hd)
    rw [hu, htested] at hfirst
    exact ⟨_, _, hfirst.snoc (.closes rfl), rfl⟩
  cases hd : s.destructor with
  | absent => exact absurd hd hcalled
  | test => exact htest s rfl hd
  | PostQueuedCompletionStatus =>
      obtain ⟨es, t, ht, hclosed⟩ :=
        htest { s with iocp_ := s.iocp_ ++ [none], destructor := .test } rfl rfl
      exact ⟨_, t, (Path.nil.snoc (.posts hd)).append ht, hclosed⟩
  | CloseHandle => exact ⟨_, _, Path.nil.snoc (.closes hd), rfl⟩
  | returned => exact ⟨[], s, .nil, hd⟩

/-- What a worker thread has still to do, at most. -/
def LoopInstr.work : LoopInstr ι → ℕ
  | .handle _ => 1
  | .GetQueuedCompletionStatus => 2
  | .InterlockedDecrement => 1

-- Induction on what the threads and the port hold; only where a thread waits at the empty port does
-- the destructor post.
theorem Manned.exists_end (h : Manned created es s) (hall : created.count false = 0)
    (hcalled : s.destructor ≠ .absent) :
    ∃ later t, Path EasyWorker.Step s later t ∧ t.destructor = .returned := by
  induction hm : load LoopInstr.work s.threads + 2 * s.iocp_.length using Nat.strongRecOn
    generalizing es s with
  | ind m ih =>
  by_cases hzero : s.thread_count_ = 0
  · exact exists_close hzero hcalled
  have hcount := h.count
  have hfirst : ∀ {e t}, s.Step e t → t.destructor ≠ .absent →
      load LoopInstr.work t.threads + 2 * t.iocp_.length < m →
      ∃ later t, Path EasyWorker.Step s later t ∧ t.destructor = .returned := by
    intro e t hst ht hlt
    obtain ⟨later, u, hu, hclosed⟩ := ih _ hlt (h.step hst) ht rfl
    exact ⟨_, u, (Path.nil.snoc hst).append hu, hclosed⟩
  have hsome : ∃ code ∈ s.threads, code ≠ [] := by
    by_contra hnone
    have hempty : s.threads.flatten = [] := List.flatten_eq_nil_iff.mpr fun code hcode ↦
      by_contra fun hne ↦ hnone ⟨code, hcode, hne⟩
    have hload : ∀ w : LoopInstr ι → ℕ, load w s.threads = 0 := by
      intro w
      rw [load, hempty]
      rfl
    rw [hall, hload, hload] at hcount
    exact hzero hcount
  obtain ⟨code, hcode, hne⟩ := hsome
  obtain ⟨n, hn⟩ := List.getElem?_of_mem hcode
  rcases h.codes code hcode with rfl | rfl | rfl | ⟨pContext, rfl⟩
  · exact absurd rfl hne
  · have hopen : s.destructor ≠ .returned := fun hd ↦ hzero (h.ended (.inr hd))
    cases hport : s.iocp_ with
    | cons packet later =>
        have hload := load_step (w := LoopInstr.work) hn (EasyWorker.dequeued packet)
        have hmore : load LoopInstr.work (s.threads.set n (EasyWorker.dequeued packet ++ [])) ≤
            load LoopInstr.work s.threads + 1 := by
          have hget : LoopInstr.work (LoopInstr.GetQueuedCompletionStatus : LoopInstr ι) = 2 := rfl
          have hle : ((EasyWorker.dequeued packet).map LoopInstr.work).sum ≤ 3 := by
            cases packet with
            | none => exact (by decide : 1 ≤ 3)
            | some _ => exact Nat.le_refl 3
          omega
        apply hfirst (.takes hn hport hopen) hcalled
        show load LoopInstr.work (s.threads.set n (EasyWorker.dequeued packet ++ [])) +
          2 * later.length < m
        rw [hport, List.length_cons] at hm
        omega
    | nil =>
        have hd : s.destructor = .test ∨ s.destructor = .PostQueuedCompletionStatus := by
          cases hd : s.destructor with
          | absent => exact absurd hd hcalled
          | test => exact .inl rfl
          | PostQueuedCompletionStatus => exact .inr rfl
          | CloseHandle => exact absurd (h.ended (.inl hd)) hzero
          | returned => exact absurd hd hopen
        obtain ⟨posts, hposts⟩ := exists_post hd hzero
        rw [hport, List.nil_append] at hposts
        have hreturned : DestructorPc.test ≠ .returned := by decide
        have habsent : DestructorPc.test ≠ .absent := by decide
        have htakes := hposts.snoc (.takes hn rfl hreturned)
        have hload := load_step (w := LoopInstr.work) hn (EasyWorker.dequeued none)
        have hless : load LoopInstr.work (s.threads.set n (EasyWorker.dequeued none ++ [])) + 2 =
            load LoopInstr.work s.threads + 1 := hload
        have hlt : load LoopInstr.work (s.threads.set n (EasyWorker.dequeued none ++ [])) +
            2 * 0 < m := by omega
        obtain ⟨later, u, hu, hclosed⟩ := ih _ hlt (h.path htakes) habsent rfl
        exact ⟨_, u, htakes.append hu, hclosed⟩
  · have hload := load_step (w := LoopInstr.work) hn []
    apply hfirst (.decrements hn) hcalled
    have hless : load LoopInstr.work (s.threads.set n []) + 1 = load LoopInstr.work s.threads :=
      hload
    show load LoopInstr.work (s.threads.set n []) + 2 * s.iocp_.length < m
    omega
  · have hload := load_step (w := LoopInstr.work) hn []
    apply hfirst (.handles hn) hcalled
    have hless : load LoopInstr.work (s.threads.set n [.GetQueuedCompletionStatus]) + 1 =
      load LoopInstr.work s.threads := hload
    show load LoopInstr.work (s.threads.set n [.GetQueuedCompletionStatus]) +
      2 * s.iocp_.length < m
    omega

/-- **What the destructor leaves behind.**  In every interleaving, when `~EasyWorker` has closed the
port, all threads were created and have returned.  Each took one packet without an `OVERLAPPED`; the
packets before the last of these were taken in order, and their contexts handled, each once.  All
that came before the destructor was called is among them, if there is a thread at all. -/
theorem port_closed (created : List Bool) (hcount : created.length < 2 ^ 32)
    (es : List (WorkerEvent ι)) (s : EasyWorker ι)
    (h : Path EasyWorker.Step (EasyWorker.construct created) es s)
    (hclosed : s.destructor = .returned) :
    (∀ ok ∈ created, ok = true) ∧ (∀ code ∈ s.threads, code = []) ∧
      takenPackets es <+: queuedPackets es ∧
      (takenPackets es).countP Option.isNone = created.length ∧
      (handledContexts es).Perm (takenPackets es).reduceOption ∧
      (created ≠ [] → ∀ before, before ++ [.destroys] <+: es →
        (queuedPackets before).reduceOption.Subperm (handledContexts es)) := by
  have hmanned := Manned.of_path hcount h
  obtain ⟨hfalse, hloops, hcodes⟩ := hmanned.returned hclosed
  have hlen := List.count_true_add_count_false created
  have hquits : (takenPackets es).countP Option.isNone = created.length := by
    have hbalance := hmanned.loops
    omega
  have hhandled : (handledContexts es).Perm (takenPackets es).reduceOption := by
    have hflat : s.threads.flatten = [] := List.flatten_eq_nil_iff.mpr hcodes
    have hall := hmanned.handled
    rwa [hflat] at hall
  have hprefix : takenPackets es <+: queuedPackets es := ⟨s.iocp_, hmanned.fifo.symm⟩
  refine ⟨?_, hcodes, hprefix, hquits, hhandled, ?_⟩
  · intro ok hok
    cases ok with
    | true => rfl
    | false => exact absurd hok (List.count_eq_zero.mp hfalse)
  · rintro hne before hbefore
    obtain ⟨u, hu⟩ := h.of_prefix hbefore
    obtain ⟨v, hv, hst⟩ := path_snoc.mp hu
    have habsent : v.destructor = .absent := by
      cases hst with
      | destroys hd => exact hd
    -- nothing without an `OVERLAPPED` has come so far
    have hnone : (queuedPackets before).countP Option.isNone = 0 := by
      rw [List.countP_eq_zero]
      intro packet hpacket
      have hsome := (Manned.of_path hcount hv).posted habsent packet hpacket
      simpa [Option.isNone_iff_eq_none] using hsome
    have hfront : queuedPackets before <+: queuedPackets es :=
      (List.prefix_append before _).trans hbefore |>.filterMap _
    have hearly : queuedPackets before <+: takenPackets es := by
      rcases List.prefix_or_prefix_of_prefix hfront hprefix with hle | hle
      · exact hle
      · have hzero := hle.sublist.countP_le (p := Option.isNone)
        have hpos : 0 < created.length := List.length_pos_of_ne_nil hne
        omega
    exact (hearly.sublist.filterMap id).subperm.trans hhandled.symm.subperm

/-- The context 7 is handled by one of two threads, which the other one outlives. -/
def sevenEvents : List (WorkerEvent ℕ) :=
  [.completes 7, .destroys, .takes (some 7), .tests, .posts, .handles 7, .takes none, .decrements,
    .tests, .posts, .takes none, .decrements, .tests, .closes]

theorem seven_run :
    Path EasyWorker.Step (EasyWorker.construct [true, true]) sevenEvents
      ⟨[], 0, [[], []], .returned⟩ := by
  have hcompletes := (Path.nil (R := EasyWorker.Step) (s := EasyWorker.construct [true, true])).snoc
    (l := .completes 7) (.completes (by decide))
  have hdestroys := hcompletes.snoc (.destroys rfl)
  have htakes := hdestroys.snoc (l := .takes (some 7)) (.takes (n := 0) rfl rfl (by decide))
  have hposts := (htakes.snoc (.tests rfl)).snoc (.posts rfl)
  have hhandles := hposts.snoc (l := .handles 7) (.handles (n := 0) rfl)
  have hleaves := hhandles.snoc (l := .takes none) (.takes (n := 0) rfl rfl (by decide))
  have hone := hleaves.snoc (l := .decrements) (.decrements (n := 0) rfl)
  have hagain := (hone.snoc (.tests rfl)).snoc (.posts rfl)
  have hlast := hagain.snoc (l := .takes none) (.takes (n := 1) rfl rfl (by decide))
  have hnone := hlast.snoc (l := .decrements) (.decrements (n := 1) rfl)
  exact (hnone.snoc (.tests rfl)).snoc (.closes rfl)

/-- The context that came before the destructor was called. -/
theorem port_closed_seven :
    Path EasyWorker.Step (EasyWorker.construct [true, true]) sevenEvents
        ⟨[], 0, [[], []], .returned⟩ ∧
      (takenPackets sevenEvents).countP Option.isNone = 2 ∧
      [7].Subperm (handledContexts sevenEvents) := by
  have hall := port_closed [true, true] (by decide) sevenEvents _ seven_run rfl
  exact ⟨seven_run, hall.2.2.2.1, hall.2.2.2.2.2 (by decide) [.completes 7] ⟨_, rfl⟩⟩

/-- **When the destructor comes to its end.**  Wherever a run has come to since `~EasyWorker` was
called, it can go on to where the port is closed if and only if `_beginthreadex` succeeded each
time: a thread that was not created is counted. -/
theorem destructor_ends_iff (created : List Bool) (hcount : created.length < 2 ^ 32)
    (es : List (WorkerEvent ι)) (s : EasyWorker ι)
    (h : Path EasyWorker.Step (EasyWorker.construct created) es s)
    (hcalled : s.destructor ≠ .absent) :
    (∃ later t, Path EasyWorker.Step s later t ∧ t.destructor = .returned) ↔
      ∀ ok ∈ created, ok = true := by
  have hmanned := Manned.of_path hcount h
  have hfalse : created.count false = 0 ↔ ∀ ok ∈ created, ok = true := by
    rw [List.count_eq_zero]
    constructor
    · intro hnot ok hok
      cases ok with
      | true => rfl
      | false => exact absurd hok hnot
    · intro hall hmem
      exact Bool.false_ne_true (hall false hmem)
  rw [← hfalse]
  constructor
  · rintro ⟨later, t, ht, hclosed⟩
    exact ((hmanned.path ht).returned hclosed).1
  · exact fun hall ↦ hmanned.exists_end hall hcalled

/-- One of two threads was not created. -/
theorem destructor_ends_one :
    ¬ ∃ later t, Path EasyWorker.Step
      { (EasyWorker.construct [true, false] : EasyWorker ℕ) with destructor := .test } later t ∧
        t.destructor = .returned := by
  have hcalled := (Path.nil (R := EasyWorker.Step)
    (s := (EasyWorker.construct [true, false] : EasyWorker ℕ))).snoc (.destroys rfl)
  rw [destructor_ends_iff [true, false] (by decide) _ _ hcalled (by decide)]
  decide

end Packets

end Fantuan.Iocp
