import Jos.Mmu
import Mathlib.Data.List.Induction
import Mathlib.Data.List.Nodup
import Mathlib.Data.List.Perm.Subperm

/-!
# `net/serv.c`: the buffers of the network server

The main loop takes a buffer before it knows what comes in, and a buffer goes back
when the thread of its request is done.  Threads do not preempt each other: others run
while the loop yields, which it does before it takes a buffer and while it answers the
timer.  What `ipc_recv` returns, and whether memory is found, is part of a message.

A buffer is lost if a message comes without a page, or the thread for it cannot be
created.
-/

namespace Jos

/-- `QUEUE_SIZE`. -/
def queueSize : Nat := 20

/-- `REQVA`. -/
def reqva : U32 := 0x0FFFF000#32 - BitVec.ofNat 32 (queueSize * 4096)

/-- `NSREQ_INPUT`. -/
def nsreqInput : U32 := 10#32

/-- `NSREQ_TIMER`. -/
def nsreqTimer : U32 := 12#32

/-- The address of buffer `i`. -/
def bufferAt (i : Nat) : U32 := reqva + BitVec.ofNat 32 (i * 4096)

/-- The index that `put_buffer` finds. -/
def bufferIndex (va : U32) : Nat := (va - reqva).toNat / 4096

/-- A message as `ipc_recv` returns it, and whether `malloc` finds memory for it and
`thread_create` succeeds. -/
structure Message where
  reqno : U32
  whom : U32
  perm : U32
  argsOk : Bool
  threadOk : Bool

/-- A `serve_thread` that has not finished. -/
structure ServeThread where
  reqno : U32
  whom : U32
  req : U32

/-- Where `serve` is. -/
inductive ServeAt where
  /-- It is about to call `get_buffer`. -/
  | head
  /-- It is in `ipc_recv` with a buffer. -/
  | receiving (va : U32)
  /-- It is in `process_timer`. -/
  | timer (va : U32)
  /-- `get_buffer` has panicked. -/
  | overflow
  /-- It has panicked elsewhere. -/
  | panicked

/-- `buse`, the main loop and the threads. -/
structure NetServer where
  buse : Nat → Bool
  loc : ServeAt
  threads : List ServeThread

inductive ServerEvent where
  | getBuffer
  | message (m : Message)
  /-- `process_timer` returns, or its `ipc_send` panics. -/
  | timerDone (ok : Bool)
  /-- Thread `k` runs to its end, or its `ipc_send` panics. -/
  | finish (k : Nat) (ok : Bool)

namespace NetServer

/-- The loop of `get_buffer`. -/
def freeBuffer (s : NetServer) : Option Nat :=
  (List.range queueSize).find? (fun i => s.buse i = false)

/-- `get_buffer`. -/
def getBuffer (s : NetServer) : NetServer :=
  match s.freeBuffer with
  | none => { s with loc := .overflow }
  | some i => { s with buse := Function.update s.buse i true, loc := .receiving (bufferAt i) }

/-- `put_buffer`. -/
def putBuffer (s : NetServer) (va : U32) : NetServer :=
  { s with buse := Function.update s.buse (bufferIndex va) false }

/-- What the loop does with a message that came into the buffer at `va`. -/
def serveMessage (s : NetServer) (va : U32) (m : Message) : NetServer :=
  if m.reqno = nsreqTimer then { s with loc := .timer va }
  else if m.perm &&& pteP = 0#32 then { s with loc := .head }
  else if m.argsOk = false then { s with loc := .panicked }
  else if m.threadOk = false then { s with loc := .head }
  else { s with loc := .head, threads := s.threads ++ [⟨m.reqno, m.whom, va⟩] }

/-- `serve_thread` of thread `k` comes to its end. -/
def finish (s : NetServer) (k : Nat) (ok : Bool) : NetServer :=
  match s.threads[k]? with
  | none => s
  | some t =>
      if t.reqno ≠ nsreqInput ∧ ok = false then { s with loc := .panicked }
      else { s.putBuffer t.req with threads := s.threads.eraseIdx k }

def step (s : NetServer) : ServerEvent → NetServer
  | .getBuffer =>
      match s.loc with
      | .head => s.getBuffer
      | _ => s
  | .message m =>
      match s.loc with
      | .receiving va => s.serveMessage va m
      | _ => s
  | .timerDone ok =>
      match s.loc with
      | .timer va =>
          if ok then { s.putBuffer va with loc := .head } else { s with loc := .panicked }
      | _ => s
  | .finish k ok =>
      match s.loc with
      | .head => s.finish k ok
      | .timer _ => s.finish k ok
      | _ => s

def start : NetServer := ⟨fun _ => false, .head, []⟩

def run (s : NetServer) (es : List ServerEvent) : NetServer := es.foldl step s

end NetServer

/-- When `get_buffer` is called, the buffers in use are those of the threads; and if it
panics, there are as many. -/
structure BuffersHeld (s : NetServer) : Prop where
  head : s.loc = .head → ∀ i, i < queueSize →
    (s.buse i = true ↔ ∃ t, t ∈ s.threads ∧ t.req = bufferAt i)
  overflow : s.loc = .overflow → queueSize ≤ s.threads.length

/-- The message is from the timer, or has a page, and a thread is created if there is
memory for its arguments. -/
def Message.Clean (m : Message) : Prop :=
  m.reqno = nsreqTimer ∨
    m.perm &&& pteP ≠ 0#32 ∧ (m.argsOk = true → m.threadOk = true)

/-- The buffer that the main loop has. -/
def ServeAt.buffer : ServeAt → Option U32
  | receiving va => some va
  | timer va => some va
  | _ => none

/-- Every buffer in use has one owner. -/
structure BufferInv (s : NetServer) : Prop where
  valid : ∀ t, t ∈ s.threads → ∃ i, i < queueSize ∧ t.req = bufferAt i
  nodup : (s.threads.map ServeThread.req).Nodup
  own : ∀ va, s.loc.buffer = some va →
    (∃ i, i < queueSize ∧ va = bufferAt i) ∧ va ∉ s.threads.map ServeThread.req
  used : s.loc ≠ .panicked → ∀ i, i < queueSize →
    (s.buse i = true ↔
      bufferAt i ∈ s.threads.map ServeThread.req ∨ s.loc.buffer = some (bufferAt i))
  overflow : s.loc = .overflow → queueSize ≤ s.threads.length

section Lists

variable {α β : Type} {f : α → β} {l : List α} {k : Nat} {x y : α}

theorem map_eraseIdx : (l.eraseIdx k).map f = (l.map f).eraseIdx k := by
  rw [List.eraseIdx_eq_take_drop_succ, List.eraseIdx_eq_take_drop_succ, List.map_append,
    List.map_take, List.map_drop]

/-- What is left when an element is removed that is there once. -/
theorem mem_eraseIdx_of_nodup (h : l.Nodup) (hk : l[k]? = some y) :
    x ∈ l.eraseIdx k ↔ x ∈ l ∧ x ≠ y := by
  rw [List.mem_eraseIdx_iff_getElem?, List.mem_iff_getElem?]
  constructor
  · rintro ⟨i, hik, hi⟩
    refine ⟨⟨i, hi⟩, ?_⟩
    rintro rfl
    have hlt := (List.getElem?_eq_some_iff.mp hi).1
    exact hik ((List.getElem?_inj hlt h).mp (hi.trans hk.symm))
  · rintro ⟨⟨i, hi⟩, hne⟩
    refine ⟨i, ?_, hi⟩
    rintro rfl
    exact hne (Option.some.inj (hi.symm.trans hk))

end Lists

section Buffers

variable {s : NetServer} {i j k : Nat} {va : U32} {m : Message} {ok : Bool}

theorem bufferIndex_bufferAt (hi : i < queueSize) : bufferIndex (bufferAt i) = i := by
  have hlt : i * 4096 < 2 ^ 32 := by
    unfold queueSize at hi
    omega
  unfold bufferIndex bufferAt
  rw [BitVec.add_comm, BitVec.add_sub_cancel, BitVec.toNat_ofNat, Nat.mod_eq_of_lt hlt]
  omega

theorem bufferAt_inj (hi : i < queueSize) (hj : j < queueSize)
    (h : bufferAt i = bufferAt j) : i = j := by
  rw [← bufferIndex_bufferAt hi, h, bufferIndex_bufferAt hj]

theorem BufferInv.start : BufferInv .start where
  valid := fun _ ht => absurd ht List.not_mem_nil
  nodup := List.nodup_nil
  own := fun _ h => nomatch h
  used := fun _ i _ => by
    unfold NetServer.start ServeAt.buffer
    simp
  overflow := fun h => nomatch h

theorem mem_reqs : va ∈ s.threads.map ServeThread.req ↔ ∃ t, t ∈ s.threads ∧ t.req = va :=
  List.mem_map

theorem BufferInv.held (h : BufferInv s) : BuffersHeld s where
  head := fun hhead i hi => by
    rw [h.used (by simp [hhead]) i hi, hhead, mem_reqs]
    unfold ServeAt.buffer
    simp
  overflow := h.overflow

/-- `get_buffer` finds no buffer only if all are taken. -/
theorem freeBuffer_eq_none : s.freeBuffer = none ↔ ∀ i, i < queueSize → s.buse i = true := by
  unfold NetServer.freeBuffer
  rw [List.find?_eq_none]
  simp

theorem freeBuffer_eq_some (h : s.freeBuffer = some i) : i < queueSize ∧ s.buse i = false := by
  unfold NetServer.freeBuffer at h
  have hmem := List.mem_of_find?_eq_some h
  have hfree := List.find?_some h
  exact ⟨List.mem_range.mp hmem, by simpa using hfree⟩

/-- If every buffer is that of a thread, there are as many threads. -/
theorem threads_of_all (h : ∀ i, i < queueSize → bufferAt i ∈ s.threads.map ServeThread.req) :
    queueSize ≤ s.threads.length := by
  have hsub : (List.range queueSize).map bufferAt ⊆ s.threads.map ServeThread.req := by
    intro va hva
    obtain ⟨i, hi, rfl⟩ := List.mem_map.mp hva
    exact h i (List.mem_range.mp hi)
  have hnodup : ((List.range queueSize).map bufferAt).Nodup := by
    refine List.Nodup.map_on (fun i hi j hj => ?_) List.nodup_range
    exact bufferAt_inj (List.mem_range.mp hi) (List.mem_range.mp hj)
  have hle := (List.subperm_of_subset hnodup hsub).length_le
  simpa using hle

theorem BufferInv.get_buffer (h : BufferInv s) (hhead : s.loc = .head) :
    BufferInv s.getBuffer := by
  have hused : ∀ i, i < queueSize →
      (s.buse i = true ↔ bufferAt i ∈ s.threads.map ServeThread.req) := by
    intro i hi
    rw [h.used (by simp [hhead]) i hi, hhead]
    unfold ServeAt.buffer
    simp
  unfold NetServer.getBuffer
  cases hfree : s.freeBuffer with
  | none =>
      have hall := freeBuffer_eq_none.mp hfree
      refine ⟨h.valid, h.nodup, fun va hva => (nomatch hva), fun _ i hi => ?_, fun _ => ?_⟩
      · unfold ServeAt.buffer
        simpa using hused i hi
      · exact threads_of_all (fun i hi => (hused i hi).mp (hall i hi))
  | some i =>
      obtain ⟨hi, hno⟩ := freeBuffer_eq_some hfree
      refine ⟨h.valid, h.nodup, fun va hva => ?_, fun _ j hj => ?_, fun hov => nomatch hov⟩
      · obtain rfl : bufferAt i = va := Option.some.inj hva
        refine ⟨⟨i, hi, rfl⟩, fun hmem => ?_⟩
        rw [(hused i hi).mpr hmem] at hno
        cases hno
      · unfold ServeAt.buffer
        by_cases hji : j = i
        · subst hji
          simp
        · have hne : bufferAt i ≠ bufferAt j := fun heq => hji (bufferAt_inj hj hi heq.symm)
          simp [Function.update_of_ne hji, hused j hj, hne]

/-- A buffer is given back. -/
theorem putBuffer_buse (hi : i < queueSize) :
    (s.putBuffer (bufferAt i)).buse j = true ↔ s.buse j = true ∧ j ≠ i := by
  unfold NetServer.putBuffer
  rw [bufferIndex_bufferAt hi]
  by_cases hji : j = i
  · subst hji
    simp
  · simp [hji]

theorem BufferInv.message (h : BufferInv s) (hrecv : s.loc = .receiving va) (hm : m.Clean) :
    BufferInv (s.serveMessage va m) := by
  obtain ⟨⟨i, hi, rfl⟩, hfresh⟩ := h.own va (by rw [hrecv]; rfl)
  have hused : ∀ j, j < queueSize → (s.buse j = true ↔
      bufferAt j ∈ s.threads.map ServeThread.req ∨ bufferAt i = bufferAt j) := by
    intro j hj
    rw [h.used (by simp [hrecv]) j hj, hrecv]
    unfold ServeAt.buffer
    simp
  unfold NetServer.serveMessage
  split
  · refine ⟨h.valid, h.nodup, fun va hva => ?_, fun _ j hj => ?_, fun hov => nomatch hov⟩
    · obtain rfl : bufferAt i = va := Option.some.inj hva
      exact ⟨⟨i, hi, rfl⟩, hfresh⟩
    · unfold ServeAt.buffer
      simpa using hused j hj
  · rename_i hreq
    obtain ⟨hpage, hthread⟩ := hm.resolve_left hreq
    rw [if_neg hpage]
    split
    · exact ⟨h.valid, h.nodup, fun va hva => (nomatch hva), fun hno => absurd rfl hno,
        fun hov => nomatch hov⟩
    · rename_i hargs
      rw [if_neg (by rw [hthread (by simpa using hargs)]; decide)]
      refine ⟨fun t ht => ?_, ?_, fun va hva => (nomatch hva), fun _ j hj => ?_,
        fun hov => nomatch hov⟩
      · rcases List.mem_append.mp ht with ht | ht
        · exact h.valid t ht
        · rw [List.mem_singleton.mp ht]
          exact ⟨i, hi, rfl⟩
      · rw [List.map_append]
        exact h.nodup.append (List.nodup_singleton _) (List.disjoint_singleton.mpr hfresh)
      · rw [List.map_append, List.mem_append, hused j hj]
        unfold ServeAt.buffer
        simp [eq_comm]

theorem BufferInv.timer_done (h : BufferInv s) (htimer : s.loc = .timer va) :
    BufferInv { s.putBuffer va with loc := .head } := by
  obtain ⟨⟨i, hi, rfl⟩, hfresh⟩ := h.own va (by rw [htimer]; rfl)
  refine ⟨h.valid, h.nodup, fun va hva => (nomatch hva), fun _ j hj => ?_,
    fun hov => nomatch hov⟩
  change (s.putBuffer (bufferAt i)).buse j = true ↔ _
  rw [putBuffer_buse hi, h.used (by simp [htimer]) j hj, htimer]
  unfold ServeAt.buffer
  constructor
  · rintro ⟨hmem | heq, hne⟩
    · exact Or.inl hmem
    · exact absurd (bufferAt_inj hi hj (Option.some.inj heq)).symm hne
  · rintro (hmem | hno)
    · refine ⟨Or.inl hmem, ?_⟩
      rintro rfl
      exact hfresh hmem
    · cases hno

/-- The thread gives its buffer back. -/
theorem BufferInv.finish (h : BufferInv s) (hrun : s.loc ≠ .panicked)
    (hov : s.loc ≠ .overflow) : BufferInv (s.finish k ok) := by
  unfold NetServer.finish
  cases hk : s.threads[k]? with
  | none => exact h
  | some t =>
      dsimp only
      split
      · exact ⟨h.valid, h.nodup, fun va hva => (nomatch hva), fun hno => absurd rfl hno,
          fun hov => nomatch hov⟩
      · obtain ⟨i, hi, hreq⟩ := h.valid t (List.mem_of_getElem? hk)
        have hleft : ∀ va, va ∈ (s.threads.eraseIdx k).map ServeThread.req ↔
            va ∈ s.threads.map ServeThread.req ∧ va ≠ bufferAt i := by
          intro va
          rw [map_eraseIdx]
          refine mem_eraseIdx_of_nodup h.nodup ?_
          rw [List.getElem?_map, hk, Option.map_some, hreq]
        refine ⟨fun t ht => h.valid t (List.mem_of_mem_eraseIdx ht), ?_, fun va hva => ?_,
          fun _ j hj => ?_, fun hno => absurd hno hov⟩
        · rw [map_eraseIdx]
          exact h.nodup.eraseIdx k
        · obtain ⟨hvalid, hfresh⟩ := h.own va hva
          exact ⟨hvalid, fun hmem => hfresh ((hleft va).mp hmem).1⟩
        · change (s.putBuffer t.req).buse j = true ↔ _ ∨ s.loc.buffer = some (bufferAt j)
          rw [hreq, putBuffer_buse hi, h.used hrun j hj, hleft]
          have hne : bufferAt j ≠ bufferAt i ↔ j ≠ i :=
            not_congr ⟨bufferAt_inj hj hi, congrArg bufferAt⟩
          rw [hne]
          constructor
          · rintro ⟨hmem | hloc, hji⟩
            · exact Or.inl ⟨hmem, hji⟩
            · exact Or.inr hloc
          · rintro (⟨hmem, hji⟩ | hloc)
            · exact ⟨Or.inl hmem, hji⟩
            · refine ⟨Or.inr hloc, ?_⟩
              rintro rfl
              have hmem : bufferAt j ∈ s.threads.map ServeThread.req :=
                List.mem_map.mpr ⟨t, List.mem_of_getElem? hk, hreq⟩
              exact (h.own _ hloc).2 hmem

/-- Whatever happens, unless a message comes that is not clean. -/
theorem BufferInv.step (h : BufferInv s) {ev : ServerEvent}
    (hclean : ∀ m va, ev = .message m → s.loc = .receiving va → m.Clean) :
    BufferInv (s.step ev) := by
  unfold NetServer.step
  cases ev with
  | getBuffer =>
      cases hloc : s.loc with
      | head => exact h.get_buffer hloc
      | _ => exact h
  | message m =>
      cases hloc : s.loc with
      | receiving va => exact h.message hloc (hclean m va rfl hloc)
      | _ => exact h
  | timerDone ok =>
      cases hloc : s.loc with
      | timer va =>
          dsimp only
          split
          · exact h.timer_done hloc
          · exact ⟨h.valid, h.nodup, fun va hva => (nomatch hva), fun hno => absurd rfl hno,
              fun hov => nomatch hov⟩
      | _ => exact h
  | finish k ok =>
      cases hloc : s.loc with
      | head => exact h.finish (by simp [hloc]) (by simp [hloc])
      | timer va => exact h.finish (by simp [hloc]) (by simp [hloc])
      | _ => exact h

/-- A message that is not clean loses its buffer. -/
theorem BufferInv.lost (h : BufferInv s) (hrecv : s.loc = .receiving va) (hm : ¬ m.Clean) :
    ¬ BuffersHeld (s.serveMessage va m) := by
  obtain ⟨⟨i, hi, rfl⟩, hfresh⟩ := h.own va (by rw [hrecv]; rfl)
  have hused : s.buse i = true := by
    rw [h.used (by simp [hrecv]) i hi, hrecv]
    exact Or.inr rfl
  have hlost : s.serveMessage (bufferAt i) m = { s with loc := .head } := by
    unfold Message.Clean at hm
    rw [not_or, not_and_or, not_not, Classical.not_imp] at hm
    obtain ⟨htimer, hpage | ⟨hargs, hthread⟩⟩ := hm
    · unfold NetServer.serveMessage
      rw [if_neg htimer, if_pos hpage]
    · unfold NetServer.serveMessage
      rw [if_neg htimer, hargs, Bool.eq_false_of_not_eq_true hthread]
      simp
  rw [hlost]
  intro hacc
  obtain ⟨t, ht, hreq⟩ := (hacc.head rfl i hi).mp hused
  exact hfresh (mem_reqs.mpr ⟨t, ht, hreq⟩)

theorem NetServer.run_snoc {es : List ServerEvent} {ev : ServerEvent} :
    s.run (es ++ [ev]) = (s.run es).step ev := by
  unfold NetServer.run
  rw [List.foldl_append]
  rfl

theorem BufferInv.run (es : List ServerEvent)
    (hclean : ∀ pre m va, pre ++ [.message m] <+: es → BufferInv (NetServer.start.run pre) →
      (NetServer.start.run pre).loc = .receiving va → m.Clean) :
    BufferInv (NetServer.start.run es) := by
  induction es using List.reverseRecOn with
  | nil => exact BufferInv.start
  | append_singleton es ev ih =>
      have hinv := ih (fun pre m va hpre =>
        hclean pre m va (hpre.trans (List.prefix_append es [ev])))
      rw [NetServer.run_snoc]
      refine hinv.step (fun m va hev hloc => ?_)
      subst hev
      exact hclean es m va (List.prefix_refl _) hinv hloc

end Buffers

/-- The buffers are accounted for in every state of a run if and only if every message
that comes is clean. -/
theorem buffers_accounted (es : List ServerEvent) :
    (∀ pre, pre <+: es → BuffersHeld (NetServer.start.run pre)) ↔
    (∀ pre m va, pre ++ [.message m] <+: es →
      (NetServer.start.run pre).loc = .receiving va → m.Clean) := by
  constructor
  · intro h pre m va hpre hloc
    by_contra hm
    have hinv : BufferInv (NetServer.start.run pre) := by
      refine BufferInv.run pre (fun pre' m' va' hpre' hinv' hloc' => ?_)
      by_contra hm'
      have hacc := h _ (hpre'.trans ((List.prefix_append pre _).trans hpre))
      rw [NetServer.run_snoc] at hacc
      unfold NetServer.step at hacc
      rw [hloc'] at hacc
      exact hinv'.lost hloc' hm' hacc
    have hacc := h _ hpre
    rw [NetServer.run_snoc] at hacc
    unfold NetServer.step at hacc
    rw [hloc] at hacc
    exact hinv.lost hloc hm hacc
  · intro h pre hpre
    have hinv := BufferInv.run pre (fun pre' m va hpre' _ hloc =>
      h pre' m va (hpre'.trans hpre) hloc)
    exact hinv.held

/-- A message without a page keeps its buffer. -/
theorem not_buffers_accounted : ¬ ∀ es : List ServerEvent,
    BuffersHeld (NetServer.start.run es) := by
  intro h
  have hleft := (h [.getBuffer, .message ⟨7#32, 0x1001#32, 0#32, true, true⟩]).head
  have hnone := (hleft rfl 0 (by decide)).mp rfl
  obtain ⟨t, ht, -⟩ := hnone
  exact List.not_mem_nil ht

end Jos
