import Jos.Lib.Ring
import Jos.Mmu
import Jos.SysArch

/-!
# Messages between the threads of the network server, `net/lwip/jos/arch/sys_arch.c`

A mailbox is a ring of `MBOXSLOTS` slots with two semaphores, one that counts the messages and
one that counts the free slots.  A thread that waits for a semaphore sleeps in `thread_wait`,
until the word that holds the counter differs from what it was, or a signal has set its
`tc_wakeup`, or its time is over.

Only one thread runs at a time, and it gives the processor away in `thread_yield` only:
inside of the functions of this module, that is in the loop of `thread_wait`.
-/

namespace Jos

namespace Mailbox

open SysArch

/-- `SYS_ARCH_TIMEOUT`. -/
def sysArchTimeout : U32 := 0xffffffff#32

/-- `SYS_ARCH_NOWAIT`. -/
def sysArchNowait : U32 := 0xfffffffe#32

/-- `ERR_OK` and `ERR_MEM`. -/
def errOk : Int := 0

def errMem : Int := -1

/-- `sys_mbox_trypost`, `sys_mbox_post` and `sys_arch_mbox_fetch`. -/
inductive Call where
  | trypost (msg : U32)
  | post (msg : U32)
  | fetch (tm : U32)
deriving DecidableEq

/-- The time for which `sys_arch_sem_wait` is called. -/
def Call.tm : Call → U32
  | .trypost _ => 0#32
  | .post _ => 0#32
  | .fetch tm => tm

/-- What a call has returned; a fetch without a message returns `SYS_ARCH_TIMEOUT`. -/
inductive Answer where
  | posted (r : Int)
  | fetched (msg : Option U32) (waited : U32)
deriving DecidableEq

/-- The variables of `sys_arch_sem_wait` that do not change, and whom it works for. -/
structure Waiter where
  call : Call
  sem : Int
  gen : U32
deriving DecidableEq

/-- The arguments of `thread_wait`, and when it was called. -/
structure Sleep where
  val : U32
  msec : U32
  start : U32
deriving DecidableEq

/-- Where a thread is. -/
inductive Point where
  /-- outside of the functions of this module, with what the last call has returned -/
  | outside (last : Option Answer)
  /-- at the condition of the loop of `sys_arch_sem_wait` -/
  | sem (w : Waiter) (waited : U32)
  /-- behind `a = sys_time_msec()` -/
  | timed (w : Waiter) (waited a : U32)
  /-- at the condition of the loop of `thread_wait` -/
  | waiting (w : Waiter) (waited a : U32) (z : Sleep) (p : U32)
  /-- in `thread_yield` -/
  | yielded (w : Waiter) (waited a : U32) (z : Sleep)
  /-- behind `thread_wait` -/
  | woken (w : Waiter) (waited a : U32)
deriving DecidableEq

/-- The network server: its mailboxes and semaphores, the clock of the kernel, the thread that
runs, where each thread is, and its `tc_wait_addr`, which points to the word of a semaphore,
and `tc_wakeup`.  The last two fields are the messages that were posted and fetched so far, in
the order in which the calls have returned. -/
structure Server where
  pools : Pools
  ticks : U32
  cur : Nat
  points : Nat → Point
  waitAddr : Nat → Option Int
  wakeup : Nat → Bool
  posted : List U32
  fetched : List U32

/-- `sys_mbox_trypost` puts a message in the slot `nextq`. -/
def enqueue (msg : U32) (m : SysMboxEntry) : SysMboxEntry :=
  { m with
    nextq := (m.nextq + 1) % mboxslots
    msg := Function.update m.msg m.nextq.toNat msg
    head := if m.head = -1 then m.nextq else m.head }

/-- `sys_arch_mbox_fetch` takes the message out of the slot `head`. -/
def dequeue (m : SysMboxEntry) : SysMboxEntry :=
  { m with
    head := if (m.head + 1) % mboxslots = m.nextq then -1 else (m.head + 1) % mboxslots }

/-- The semaphore for which a call waits. -/
def semOf (m : SysMboxEntry) : Call → Int
  | .trypost _ => m.freeMsg
  | .post _ => m.freeMsg
  | .fetch _ => m.queuedMsg

/-- The word `v` of a semaphore. -/
def wordOf (e : SysSemEntry) : U32 := e.waiters ++ e.counter

/-! ## The functions -/

namespace Server

/-- `sys_time_msec`. -/
def timeMsec (s : Server) : U32 := s.ticks * 10#32

/-- `time_tick`; nothing when it panics. -/
def timeTick (s : Server) : Option Server :=
  if (s.ticks + 1) * 10#32 < s.ticks + 1 then none else some { s with ticks := s.ticks + 1 }

def setSem (i : Int) (e : SysSemEntry) (s : Server) : Server :=
  { s with pools := { s.pools with sems := Function.update s.pools.sems i e } }

def setMbox (i : Int) (e : SysMboxEntry) (s : Server) : Server :=
  { s with pools := { s.pools with mboxes := Function.update s.pools.mboxes i e } }

/-- The current thread goes on somewhere else. -/
def goto (p : Point) (s : Server) : Server :=
  { s with points := Function.update s.points s.cur p }

/-- `thread_wakeup`: all threads but the current one are on `thread_queue`. -/
def threadWakeup (sem : Int) (s : Server) : Server :=
  { s with wakeup := fun t =>
      if t ≠ s.cur ∧ s.waitAddr t = some sem then true else s.wakeup t }

/-- `sys_sem_signal`. -/
def sysSemSignal (sem : Int) (s : Server) : Option Server :=
  let e := s.pools.sems sem
  if e.freed then none
  else
    let e' := { e with counter := e.counter + 1 }
    if e'.waiters ≠ 0 then some ((s.setSem sem { e' with waiters := 0 }).threadWakeup sem)
    else some (s.setSem sem e')

/-- `sys_mbox_trypost`, behind `sys_arch_sem_wait`, with what it returns. -/
def trypostRest (mbox : Int) (msg : U32) (s : Server) : Option (Int × Server) :=
  let m := s.pools.mboxes mbox
  if m.nextq = m.head then some (errMem, s)
  else
    ((s.setMbox mbox (enqueue msg m)).sysSemSignal m.queuedMsg).map (fun s => (errOk, s))

/-- `sys_arch_mbox_fetch`, behind `sys_arch_sem_wait`, with the message. -/
def fetchRest (mbox : Int) (waited : U32) (s : Server) : Option (Option U32 × Server) :=
  if waited = sysArchTimeout then some (none, s)
  else
    let m := s.pools.mboxes mbox
    if m.head = -1 then none
    else
      ((s.setMbox mbox (dequeue m)).sysSemSignal m.freeMsg).map
        (fun s => (some (m.msg m.head.toNat), s))

/-- A call that posts a message returns. -/
def postReturns (msg : U32) (r : Int) (s : Server) : Server :=
  { s with posted := if r = errOk then s.posted ++ [msg] else s.posted }.goto
    (.outside (some (.posted r)))

/-- A call that fetches a message returns. -/
def fetchReturns (msg : Option U32) (waited : U32) (s : Server) : Server :=
  { s with fetched := s.fetched ++ msg.toList }.goto (.outside (some (.fetched msg waited)))

/-- `sys_arch_sem_wait` returns `waited`, and its caller goes on to its end. -/
def finish (mbox : Int) (c : Call) (waited : U32) (s : Server) : Option Server :=
  match c with
  | .trypost msg => (s.trypostRest mbox msg).map (fun x => x.2.postReturns msg x.1)
  | .post msg =>
      -- assert
      (s.trypostRest mbox msg).bind (fun x =>
        if x.1 = errOk then some (x.2.postReturns msg x.1) else none)
  | .fetch _ => (s.fetchRest mbox waited).map (fun x => x.2.fetchReturns x.1 waited)

/-- The beginning of a call, to the loop of `sys_arch_sem_wait`. -/
def enter (mbox : Int) (c : Call) (s : Server) : Option Server :=
  let m := s.pools.mboxes mbox
  if m.freed then none
  else
    let sem := semOf m c
    if (s.pools.sems sem).freed then none
    else some (s.goto (.sem ⟨c, sem, (s.pools.sems sem).gen⟩ 0#32))

/-- The loop of `sys_arch_sem_wait`, to where it takes a unit or reads the time. -/
def semLoop (mbox : Int) (w : Waiter) (waited : U32) (s : Server) : Option Server :=
  let tm := w.call.tm
  let e := s.pools.sems w.sem
  if tm = 0#32 ∨ waited < tm then
    if 0 < e.counter then
      (s.setSem w.sem { e with counter := e.counter - 1 }).finish mbox w.call waited
    else if tm = sysArchNowait then s.finish mbox w.call sysArchTimeout
    else some (s.goto (.timed w waited s.timeMsec))
  else s.finish mbox w.call sysArchTimeout

/-- From the time on to the loop of `thread_wait`. -/
def fallAsleep (w : Waiter) (waited a : U32) (s : Server) : Server :=
  let tm := w.call.tm
  let sleepUntil := if tm ≠ 0#32 then a + (tm - waited) else ~~~0#32
  let e := { s.pools.sems w.sem with waiters := 1 }
  let p := s.timeMsec
  let s := s.setSem w.sem e
  { s with
    waitAddr := Function.update s.waitAddr s.cur (some w.sem)
    wakeup := Function.update s.wakeup s.cur false }.goto
      (.waiting w waited a ⟨wordOf e, sleepUntil, p⟩ p)

/-- The loop of `thread_wait`: another thread may run, or it ends. -/
def waitLoop (w : Waiter) (waited a : U32) (z : Sleep) (p : U32) (s : Server) : Server :=
  if p < z.msec ∧ ¬ p < z.start ∧ wordOf (s.pools.sems w.sem) = z.val ∧ s.wakeup s.cur = false then
    s.goto (.yielded w waited a z)
  else
    { s with
      waitAddr := Function.update s.waitAddr s.cur none
      wakeup := Function.update s.wakeup s.cur false }.goto (.woken w waited a)

/-- Behind `thread_wait`. -/
def semWoken (mbox : Int) (w : Waiter) (waited a : U32) (s : Server) : Option Server :=
  if w.gen ≠ (s.pools.sems w.sem).gen then s.finish mbox w.call sysArchTimeout
  else some (s.goto (.sem w (waited + (s.timeMsec - a))))

/-- The current thread goes on, inside of a call. -/
def go (mbox : Int) (s : Server) : Option Server :=
  match s.points s.cur with
  | .outside _ => some s
  | .sem w waited => s.semLoop mbox w waited
  | .timed w waited a => some (s.fallAsleep w waited a)
  | .waiting w waited a z p => some (s.waitLoop w waited a z p)
  | .yielded _ _ _ _ => some s
  | .woken w waited a => s.semWoken mbox w waited a

/-- `thread_yield` returns to the thread `t`. -/
def resume (t : Nat) (s : Server) : Server :=
  match s.points t with
  | .yielded w waited a z => { s with cur := t }.goto (.waiting w waited a z s.timeMsec)
  | _ => { s with cur := t }

end Server

/-! ## Runs -/

/-- What happens next. -/
inductive Event where
  /-- the clock -/
  | tick
  /-- the current thread goes on -/
  | go
  /-- the current thread begins a call -/
  | call (c : Call)
  /-- the current thread gives the processor to the thread `t` -/
  | switch (t : Nat)
  /-- the current thread does something with other mailboxes and semaphores -/
  | other (pools : Pools)

/-- The thread is inside of a call and does not yield. -/
def Point.Busy : Point → Prop
  | .outside _ => False
  | .yielded _ _ _ _ => False
  | _ => True

def Point.IsOutside : Point → Prop
  | .outside _ => True
  | _ => False

/-- The mailbox and its semaphores are the same. -/
structure SameBox (mbox : Int) (p p' : Pools) : Prop where
  box : p'.mboxes mbox = p.mboxes mbox
  queued : p'.sems (p.mboxes mbox).queuedMsg = p.sems (p.mboxes mbox).queuedMsg
  free : p'.sems (p.mboxes mbox).freeMsg = p.sems (p.mboxes mbox).freeMsg

/-- What can happen: a thread keeps the processor until it yields. -/
def Enabled (mbox : Int) (s : Server) : Event → Prop
  | .tick => True
  | .go => (s.points s.cur).Busy
  | .call _ => (s.points s.cur).IsOutside
  | .switch _ => ¬ (s.points s.cur).Busy
  | .other pools => (s.points s.cur).IsOutside ∧ SameBox mbox s.pools pools

/-- What an event does; nothing where the program or the kernel panics. -/
def step (mbox : Int) (s : Server) : Event → Option Server
  | .tick => s.timeTick
  | .go => s.go mbox
  | .call c => s.enter mbox c
  | .switch t => some (s.resume t)
  | .other pools => some { s with pools := pools }

/-- A mailbox that was just made, and nobody uses it yet. -/
structure Fresh (mbox : Int) (s : Server) : Prop where
  mailbox : (s.pools.mboxes mbox).freed = false ∧ (s.pools.mboxes mbox).head = -1 ∧
    (s.pools.mboxes mbox).nextq = 0
  apart : (s.pools.mboxes mbox).queuedMsg ≠ (s.pools.mboxes mbox).freeMsg
  queued : (s.pools.sems (s.pools.mboxes mbox).queuedMsg).freed = false ∧
    (s.pools.sems (s.pools.mboxes mbox).queuedMsg).counter = 0
  free : (s.pools.sems (s.pools.mboxes mbox).freeMsg).freed = false ∧
    (s.pools.sems (s.pools.mboxes mbox).freeMsg).counter = 32
  clock : s.ticks.toNat * 10 < 4294967296
  points : ∀ t, s.points t = .outside none
  logs : s.posted = [] ∧ s.fetched = []

/-- The states that can be reached. -/
inductive Runs (mbox : Int) : Server → Prop where
  | start {s : Server} : Fresh mbox s → Runs mbox s
  | step {s t : Server} (e : Event) : Runs mbox s → Enabled mbox s e → step mbox s e = some t →
      Runs mbox t

/-! ## The ring -/

/-- The slots of the mailbox hold the messages. -/
def RingOf (m : SysMboxEntry) (xs : List U32) : Prop :=
  ∃ h : Nat, h < 32 ∧ m.nextq = ((h + xs.length) % 32 : Nat) ∧
    m.head = (if xs = [] then -1 else (h : Int)) ∧ Ring.Span (fun c x => m.msg c = x) 32 h xs

variable {mbox : Int} {s t : Server} {p p' : Pools} {m : SysMboxEntry} {xs : List U32} {x msg : U32}

/-- There is room for one more message. -/
theorem RingOf.enqueue (h : RingOf m xs) (msg : U32) (hroom : xs.length < 32) :
    m.nextq ≠ m.head ∧ RingOf (enqueue msg m) (xs ++ [msg]) := by
  obtain ⟨i, hi, hnext, hhead, hspan⟩ := h
  have hslot : m.nextq.toNat = (i + xs.length) % 32 := by
    rw [hnext, Int.toNat_natCast]
  have hne : m.nextq ≠ m.head := by
    rw [hnext, hhead]
    split
    · omega
    · have hpos : 0 < xs.length := List.length_pos_iff.mpr ‹_›
      omega
  refine ⟨hne, i, hi, ?_, ?_, ?_⟩
  · show (m.nextq + 1) % 32 = _
    rw [hnext, List.length_append, List.length_singleton]
    omega
  · rw [if_neg (by simp)]
    show (if m.head = -1 then m.nextq else m.head) = i
    rw [hhead, hnext]
    by_cases hnil : xs = []
    · subst hnil
      rw [if_pos rfl, if_pos rfl, List.length_nil]
      omega
    · rw [if_neg hnil, if_neg (by omega)]
  · refine hspan.push hroom (fun c y hc hy => ?_) ?_
    · show Function.update m.msg m.nextq.toNat msg c = y
      rw [hslot, Function.update_of_ne hc]
      exact hy
    · show Function.update m.msg m.nextq.toNat msg _ = msg
      rw [hslot, Function.update_self]

/-- The first message is taken. -/
theorem RingOf.dequeue (h : RingOf m (x :: xs)) (hlen : xs.length < 32) :
    m.head ≠ -1 ∧ m.msg m.head.toNat = x ∧ RingOf (dequeue m) xs := by
  obtain ⟨i, hi, hnext, hhead, hspan⟩ := h
  rw [if_neg (List.cons_ne_nil x xs)] at hhead
  rw [List.length_cons] at hnext
  refine ⟨by omega, ?_, (i + 1) % 32, by omega, ?_, ?_, ?_⟩
  · rw [hhead, Int.toNat_natCast]
    have hfirst := hspan.1
    rwa [Nat.mod_eq_of_lt hi] at hfirst
  · show m.nextq = _
    rw [hnext]
    omega
  · show (if (m.head + 1) % 32 = m.nextq then -1 else (m.head + 1) % 32) = _
    rw [hhead, hnext]
    by_cases hnil : xs = []
    · subst hnil
      rw [if_pos rfl, if_pos (by simp only [List.length_nil]; omega)]
    · have hpos : 0 < xs.length := List.length_pos_iff.mpr hnil
      rw [if_neg hnil, if_neg (by omega)]
      omega
  · exact hspan.2.rebase (Nat.mod_mod _ _)

/-- The other slots are left alone. -/
theorem RingOf.enqueue_kept (h : RingOf m xs) (hroom : xs.length < 32) {i : Nat}
    (hi : i < xs.length) :
    (Mailbox.enqueue msg m).msg ((m.head.toNat + i) % 32) = m.msg ((m.head.toNat + i) % 32) := by
  obtain ⟨k, hk, hnext, hhead, -⟩ := h
  have hne : xs ≠ [] := List.length_pos_iff.mp (by omega)
  rw [if_neg hne] at hhead
  have hslot : m.nextq.toNat = (k + xs.length) % 32 := by
    rw [hnext, Int.toNat_natCast]
  rw [hhead, Int.toNat_natCast]
  show Function.update m.msg m.nextq.toNat msg _ = _
  rw [hslot]
  exact Function.update_of_ne (Ring.mod_ne (by omega) (by omega)) _ _

/-! ## The semaphores -/

/-- The messages `xs` are in the mailbox, and the semaphores count them. -/
structure Pending (mbox : Int) (p : Pools) (xs : List U32) : Prop where
  live : (p.mboxes mbox).freed = false
  queuedLive : (p.sems (p.mboxes mbox).queuedMsg).freed = false
  freeLive : (p.sems (p.mboxes mbox).freeMsg).freed = false
  apart : (p.mboxes mbox).queuedMsg ≠ (p.mboxes mbox).freeMsg
  ring : RingOf (p.mboxes mbox) xs
  queued : (p.sems (p.mboxes mbox).queuedMsg).counter.toNat = xs.length
  free : (p.sems (p.mboxes mbox).freeMsg).counter.toNat + xs.length = 32

/-- The mailbox keeps its semaphores, and no semaphore has been freed. -/
structure SameSems (mbox : Int) (p p' : Pools) : Prop where
  queuedMsg : (p'.mboxes mbox).queuedMsg = (p.mboxes mbox).queuedMsg
  freeMsg : (p'.mboxes mbox).freeMsg = (p.mboxes mbox).freeMsg
  queuedGen : (p'.sems (p.mboxes mbox).queuedMsg).gen = (p.sems (p.mboxes mbox).queuedMsg).gen
  freeGen : (p'.sems (p.mboxes mbox).freeMsg).gen = (p.sems (p.mboxes mbox).freeMsg).gen

/-- Only the pools and the flags differ. -/
structure Frame (s t : Server) : Prop where
  ticks : t.ticks = s.ticks
  cur : t.cur = s.cur
  points : t.points = s.points
  posted : t.posted = s.posted
  fetched : t.fetched = s.fetched

theorem sysSemSignal_spec {i : Int} (hlive : (s.pools.sems i).freed = false) :
    ∃ e t, s.sysSemSignal i = some t ∧ Frame s t ∧ t.pools = (s.setSem i e).pools ∧
      e.freed = false ∧ e.gen = (s.pools.sems i).gen ∧
      e.counter = (s.pools.sems i).counter + 1 := by
  unfold Server.sysSemSignal
  dsimp only
  rw [if_neg (by simp [hlive])]
  by_cases hw : (s.pools.sems i).waiters = 0
  · rw [if_neg (not_not.mpr hw)]
    exact ⟨{ s.pools.sems i with counter := (s.pools.sems i).counter + 1 }, _, rfl,
      ⟨rfl, rfl, rfl, rfl, rfl⟩, rfl, hlive, rfl, rfl⟩
  · rw [if_pos hw]
    exact ⟨{ s.pools.sems i with counter := (s.pools.sems i).counter + 1, waiters := 0 }, _, rfl,
      ⟨rfl, rfl, rfl, rfl, rfl⟩, rfl, hlive, rfl, rfl⟩

/-- A unit is taken of a semaphore. -/
def takeUnit (i : Int) (s : Server) : Server :=
  s.setSem i { s.pools.sems i with counter := (s.pools.sems i).counter - 1 }

theorem counter_pred {c : BitVec 16} (h : 0 < c) : (c - 1).toNat + 1 = c.toNat := by
  bv_omega

theorem counter_succ {c : BitVec 16} (h : c.toNat < 65535) : (c + 1).toNat = c.toNat + 1 := by
  bv_omega

/-- A unit goes from one semaphore to another, and the mailbox changes. -/
theorem exchange_spec {src dst : Int} (mbox : Int) (m' : SysMboxEntry) (hne : src ≠ dst)
    (hlive : (s.pools.sems dst).freed = false) :
    ∃ t, ((takeUnit src s).setMbox mbox m').sysSemSignal dst = some t ∧ Frame s t ∧
      t.pools.mboxes mbox = m' ∧
      t.pools.sems src =
        { s.pools.sems src with counter := (s.pools.sems src).counter - 1 } ∧
      (t.pools.sems dst).freed = false ∧
      (t.pools.sems dst).gen = (s.pools.sems dst).gen ∧
      (t.pools.sems dst).counter = (s.pools.sems dst).counter + 1 := by
  have hsems : ((takeUnit src s).setMbox mbox m').pools.sems dst = s.pools.sems dst :=
    Function.update_of_ne hne.symm _ _
  have hlive' : (((takeUnit src s).setMbox mbox m').pools.sems dst).freed = false := by
    rw [hsems]
    exact hlive
  obtain ⟨e, t, hsignal, hframe, hpools, hfreed, hgen, hcount⟩ := sysSemSignal_spec hlive'
  rw [hsems] at hgen hcount
  have hdst : t.pools.sems dst = e := by
    rw [hpools]
    exact Function.update_self _ _ _
  refine ⟨t, hsignal, ⟨hframe.ticks, hframe.cur, hframe.points, hframe.posted, hframe.fetched⟩,
    ?_, ?_, ?_, ?_, ?_⟩
  · rw [hpools]
    exact Function.update_self _ _ _
  · rw [hpools]
    exact (Function.update_of_ne hne _ _).trans (Function.update_self _ _ _)
  · rw [hdst, hfreed]
  · rw [hdst, hgen]
  · rw [hdst, hcount]

/-- A free slot was taken: the message is put into it. -/
theorem trypostRest_spec (msg : U32) (h : Pending mbox s.pools xs)
    (hfree : 0 < (s.pools.sems (s.pools.mboxes mbox).freeMsg).counter) :
    ∃ t, (takeUnit (s.pools.mboxes mbox).freeMsg s).trypostRest mbox msg = some (errOk, t) ∧
      Frame s t ∧ SameSems mbox s.pools t.pools ∧ Pending mbox t.pools (xs ++ [msg]) ∧
      t.pools.mboxes mbox = enqueue msg (s.pools.mboxes mbox) := by
  have hpred := counter_pred hfree
  have hcount := h.free
  have hqueued := h.queued
  obtain ⟨hne, hring⟩ := h.ring.enqueue msg (by omega)
  obtain ⟨t, hsignal, hframe, hmbox, hsrc, hlive, hgen, hsucc⟩ := exchange_spec mbox
    (enqueue msg (s.pools.mboxes mbox)) h.apart.symm h.queuedLive
  have hqmsg : (t.pools.mboxes mbox).queuedMsg = (s.pools.mboxes mbox).queuedMsg := by
    rw [hmbox]
    rfl
  have hfmsg : (t.pools.mboxes mbox).freeMsg = (s.pools.mboxes mbox).freeMsg := by
    rw [hmbox]
    rfl
  refine ⟨t, ?_, hframe, ⟨hqmsg, hfmsg, hgen, by rw [hsrc]⟩, ?_, hmbox⟩
  · unfold Server.trypostRest
    refine (if_neg hne).trans ?_
    have hsame : (takeUnit (s.pools.mboxes mbox).freeMsg s).pools.mboxes = s.pools.mboxes := rfl
    rw [hsame, hsignal]
    rfl
  · constructor
    · rw [hmbox]
      exact h.live
    · rw [hqmsg, hlive]
    · rw [hfmsg, hsrc]
      exact h.freeLive
    · rw [hqmsg, hfmsg]
      exact h.apart
    · rw [hmbox]
      exact hring
    · rw [hqmsg, hsucc, counter_succ (by omega), hqueued]
      simp
    · rw [hfmsg, hsrc, List.length_append, List.length_singleton]
      simp only
      omega

/-- A message was counted: it is taken out of the mailbox. -/
theorem fetchRest_spec {waited : U32} (h : Pending mbox s.pools xs)
    (hqueued : 0 < (s.pools.sems (s.pools.mboxes mbox).queuedMsg).counter)
    (hw : waited ≠ sysArchTimeout) :
    ∃ x ys t, xs = x :: ys ∧
      (takeUnit (s.pools.mboxes mbox).queuedMsg s).fetchRest mbox waited = some (some x, t) ∧
      Frame s t ∧ SameSems mbox s.pools t.pools ∧ Pending mbox t.pools ys ∧
      t.pools.mboxes mbox = dequeue (s.pools.mboxes mbox) := by
  have hpred := counter_pred hqueued
  have hcount := h.queued
  have hfree := h.free
  cases xs with
  | nil =>
      rw [List.length_nil] at hcount
      omega
  | cons x ys =>
      rw [List.length_cons] at hcount hfree
      obtain ⟨hne, hmsg, hring⟩ := h.ring.dequeue (by omega)
      obtain ⟨t, hsignal, hframe, hmbox, hsrc, hlive, hgen, hsucc⟩ := exchange_spec mbox
        (dequeue (s.pools.mboxes mbox)) h.apart h.freeLive
      have hqmsg : (t.pools.mboxes mbox).queuedMsg = (s.pools.mboxes mbox).queuedMsg := by
        rw [hmbox]
        rfl
      have hfmsg : (t.pools.mboxes mbox).freeMsg = (s.pools.mboxes mbox).freeMsg := by
        rw [hmbox]
        rfl
      refine ⟨x, ys, t, rfl, ?_, hframe, ⟨hqmsg, hfmsg, by rw [hsrc], hgen⟩, ?_,
        hmbox⟩
      · unfold Server.fetchRest
        refine (if_neg hw).trans ((if_neg hne).trans ?_)
        have hsame : (takeUnit (s.pools.mboxes mbox).queuedMsg s).pools.mboxes =
            s.pools.mboxes := rfl
        rw [hsame, hsignal, hmsg]
        rfl
      · constructor
        · rw [hmbox]
          exact h.live
        · rw [hqmsg, hsrc]
          exact h.queuedLive
        · rw [hfmsg, hlive]
        · rw [hqmsg, hfmsg]
          exact h.apart
        · rw [hmbox]
          exact hring
        · rw [hqmsg, hsrc]
          simp only
          omega
        · rw [hfmsg, hsucc, counter_succ (by omega)]
          omega

/-! ## The invariant -/

theorem wordOf_counter (e : SysSemEntry) : (wordOf e).setWidth 16 = e.counter := by
  unfold wordOf
  ext i hi
  rw [BitVec.getElem_setWidth, BitVec.getLsbD_append]
  simp [hi]

/-- The semaphore is the one of the call, and was not freed. -/
structure WaiterOk (mbox : Int) (p : Pools) (w : Waiter) : Prop where
  sem : w.sem = semOf (p.mboxes mbox) w.call
  gen : w.gen = (p.sems w.sem).gen

/-- What is known of a thread by the place where it is. -/
def PointOk (mbox : Int) (p : Pools) (now : U32) : Point → Prop
  | .outside last => last ≠ some (.posted errMem)
  | .sem w waited => WaiterOk mbox p w ∧ waited.toNat ≤ now.toNat
  | .timed w waited a => WaiterOk mbox p w ∧ waited.toNat ≤ a.toNat ∧ a.toNat ≤ now.toNat ∧
      (p.sems w.sem).counter = 0
  | .waiting w waited a z _ => WaiterOk mbox p w ∧ waited.toNat ≤ a.toNat ∧
      a.toNat ≤ now.toNat ∧ z.val.setWidth 16 = 0#16
  | .yielded w waited a z => WaiterOk mbox p w ∧ waited.toNat ≤ a.toNat ∧
      a.toNat ≤ now.toNat ∧ z.val.setWidth 16 = 0#16
  | .woken w waited a => WaiterOk mbox p w ∧ waited.toNat ≤ a.toNat ∧ a.toNat ≤ now.toNat

/-- What is so between two events. -/
structure Inv (mbox : Int) (s : Server) : Prop where
  pending : ∃ xs, s.posted = s.fetched ++ xs ∧ Pending mbox s.pools xs
  clock : s.ticks.toNat * 10 < 4294967296
  points : ∀ t, PointOk mbox s.pools s.timeMsec (s.points t)
  parked : ∀ t, t ≠ s.cur → ¬ (s.points t).Busy

/-- The current thread goes to another place. -/
structure Goes (mbox : Int) (s t : Server) (pt : Point) : Prop where
  ticks : t.ticks = s.ticks
  cur : t.cur = s.cur
  points : t.points = Function.update s.points s.cur pt
  same : SameSems mbox s.pools t.pools
  pending : ∃ xs, t.posted = t.fetched ++ xs ∧ Pending mbox t.pools xs
  slots : ∀ xs, Pending mbox s.pools xs → ∀ i, i < xs.length →
    (t.pools.mboxes mbox).msg (((s.pools.mboxes mbox).head.toNat + i) % 32) =
      (s.pools.mboxes mbox).msg (((s.pools.mboxes mbox).head.toNat + i) % 32)

variable {w : Waiter} {waited a pnow now now' : U32} {z : Sleep} {pt : Point} {c : Call}

theorem SameSems.semOf (h : SameSems mbox p p') (c : Call) :
    Mailbox.semOf (p'.mboxes mbox) c = Mailbox.semOf (p.mboxes mbox) c := by
  cases c with
  | trypost msg => exact h.freeMsg
  | post msg => exact h.freeMsg
  | fetch tm => exact h.queuedMsg

theorem SameSems.gen (h : SameSems mbox p p') (c : Call) :
    (p'.sems (Mailbox.semOf (p.mboxes mbox) c)).gen =
      (p.sems (Mailbox.semOf (p.mboxes mbox) c)).gen := by
  cases c with
  | trypost msg => exact h.freeGen
  | post msg => exact h.freeGen
  | fetch tm => exact h.queuedGen

theorem WaiterOk.congr (hw : WaiterOk mbox p w) (h : SameSems mbox p p') : WaiterOk mbox p' w where
  sem := by
    rw [h.semOf, hw.sem]
  gen := by
    rw [hw.gen, hw.sem, h.gen]

/-- A thread that does not run does not mind what the others do. -/
theorem PointOk.congr (h : PointOk mbox p now pt) (hbusy : ¬ pt.Busy)
    (hsame : SameSems mbox p p') (hnow : now.toNat ≤ now'.toNat) : PointOk mbox p' now' pt := by
  cases pt with
  | outside last => exact h
  | sem w waited => exact absurd trivial hbusy
  | timed w waited a => exact absurd trivial hbusy
  | waiting w waited a z p => exact absurd trivial hbusy
  | yielded w waited a z => exact ⟨h.1.congr hsame, h.2.1, h.2.2.1.trans hnow, h.2.2.2⟩
  | woken w waited a => exact absurd trivial hbusy

theorem Inv.goes (hi : Inv mbox s) (h : Goes mbox s t pt)
    (hpt : PointOk mbox t.pools t.timeMsec pt) : Inv mbox t where
  pending := h.pending
  clock := by
    rw [h.ticks]
    exact hi.clock
  points := fun x => by
    rw [h.points]
    by_cases hx : x = s.cur
    · subst hx
      rw [Function.update_self]
      exact hpt
    · have hnow : t.timeMsec = s.timeMsec := by
        unfold Server.timeMsec
        rw [h.ticks]
      rw [Function.update_of_ne hx, hnow]
      exact (hi.points x).congr (hi.parked x hx) h.same (Nat.le_refl _)
  parked := fun x hx => by
    rw [h.cur] at hx
    rw [h.points, Function.update_of_ne hx]
    exact hi.parked x hx

theorem SameSems.refl : SameSems mbox p p := ⟨rfl, rfl, rfl, rfl⟩

theorem timeMsec_toNat (h : s.ticks.toNat * 10 < 4294967296) :
    s.timeMsec.toNat = s.ticks.toNat * 10 := by
  unfold Server.timeMsec
  rw [BitVec.toNat_mul]
  simp only [BitVec.toNat_ofNat]
  omega

/-- The clock is far from the value that means a timeout. -/
theorem Inv.ne_timeout (hi : Inv mbox s) (h : waited.toNat ≤ s.timeMsec.toNat) :
    waited ≠ sysArchTimeout := by
  rintro rfl
  have hnow := timeMsec_toNat hi.clock
  have hmax : sysArchTimeout.toNat = 4294967295 := rfl
  have hclock := hi.clock
  omega

/-! ## The current thread goes on -/

/-- Nothing of the mailbox changes. -/
theorem Inv.goes_same (hi : Inv mbox s) (hticks : t.ticks = s.ticks) (hcur : t.cur = s.cur)
    (hpoints : t.points = Function.update s.points s.cur pt) (hpools : t.pools = s.pools)
    (hposted : t.posted = s.posted) (hfetched : t.fetched = s.fetched) : Goes mbox s t pt where
  ticks := hticks
  cur := hcur
  points := hpoints
  same := hpools ▸ SameSems.refl
  pending := by
    rw [hposted, hfetched, hpools]
    exact hi.pending
  slots := fun _ _ _ _ => by rw [hpools]

/-- A call that has taken a unit returns. -/
structure Took (mbox : Int) (s t : Server) (c : Call) : Prop where
  returned : ∃ last, Goes mbox s t (.outside (some last)) ∧ last ≠ .posted errMem
  counter : (t.pools.sems (semOf (s.pools.mboxes mbox) c)).counter.toNat + 1 =
    (s.pools.sems (semOf (s.pools.mboxes mbox) c)).counter.toNat
  logs : t.posted.length + t.fetched.length = s.posted.length + s.fetched.length + 1

/-- The end of `sys_mbox_trypost` and of `sys_mbox_post`. -/
theorem Inv.post_took (hi : Inv mbox s) (msg : U32)
    (hcount : 0 < (s.pools.sems (s.pools.mboxes mbox).freeMsg).counter) :
    ∃ u, (takeUnit (s.pools.mboxes mbox).freeMsg s).trypostRest mbox msg = some (errOk, u) ∧
      ∀ c, semOf (s.pools.mboxes mbox) c = (s.pools.mboxes mbox).freeMsg →
        Took mbox s (u.postReturns msg errOk) c := by
  obtain ⟨xs, hlog, hpending⟩ := hi.pending
  obtain ⟨u, hrun, hframe, hsame, hpending', hmbox⟩ :=
    trypostRest_spec msg hpending hcount
  have hposted : (u.postReturns msg errOk).posted = s.posted ++ [msg] := by
    show u.posted ++ [msg] = _
    rw [hframe.posted]
  have hfetched : (u.postReturns msg errOk).fetched = s.fetched := hframe.fetched
  have hfree := hpending.free
  have hfree' := hpending'.free
  rw [hsame.freeMsg, List.length_append, List.length_singleton] at hfree'
  refine ⟨u, hrun, fun c hc => ⟨⟨.posted errOk, ⟨hframe.ticks, hframe.cur, ?_, hsame, ?_, ?_⟩,
    by decide⟩, ?_, ?_⟩⟩
  · show Function.update u.points u.cur _ = _
    rw [hframe.points, hframe.cur]
  · refine ⟨xs ++ [msg], ?_, hpending'⟩
    rw [hposted, hfetched, hlog, List.append_assoc]
  · intro ys hys i hlt
    have hys' := hys.free
    show (u.pools.mboxes mbox).msg _ = _
    rw [hmbox]
    refine hys.ring.enqueue_kept ?_ hlt
    have hpos : 0 < (s.pools.sems (s.pools.mboxes mbox).freeMsg).counter.toNat := hcount
    omega
  · rw [hc]
    show (u.pools.sems _).counter.toNat + 1 = _
    omega
  · rw [hposted, hfetched, List.length_append, List.length_singleton]
    omega

/-- The end of `sys_arch_mbox_fetch`, with a message. -/
theorem Inv.fetch_took (hi : Inv mbox s)
    (hcount : 0 < (s.pools.sems (s.pools.mboxes mbox).queuedMsg).counter)
    (hw : waited ≠ sysArchTimeout) :
    ∃ x u, (takeUnit (s.pools.mboxes mbox).queuedMsg s).fetchRest mbox waited =
        some (some x, u) ∧
      ∀ tm, Took mbox s (u.fetchReturns (some x) waited) (.fetch tm) := by
  obtain ⟨xs, hlog, hpending⟩ := hi.pending
  obtain ⟨x, ys, u, hxs, hrun, hframe, hsame, hpending', hmbox⟩ :=
    fetchRest_spec hpending hcount hw
  have hposted : (u.fetchReturns (some x) waited).posted = s.posted := hframe.posted
  have hfetched : (u.fetchReturns (some x) waited).fetched = s.fetched ++ [x] := by
    show u.fetched ++ [x] = _
    rw [hframe.fetched]
  have hqueued := hpending.queued
  have hqueued' := hpending'.queued
  rw [hsame.queuedMsg] at hqueued'
  rw [hxs, List.length_cons] at hqueued
  refine ⟨x, u, hrun, fun tm => ⟨⟨.fetched (some x) waited, ⟨hframe.ticks, hframe.cur, ?_, hsame,
    ?_, ?_⟩, by simp⟩, ?_, ?_⟩⟩
  · show Function.update u.points u.cur _ = _
    rw [hframe.points, hframe.cur]
  · refine ⟨ys, ?_, hpending'⟩
    rw [hposted, hfetched, hlog, hxs, List.append_assoc]
    rfl
  · intro zs hzs i hlt
    show (u.pools.mboxes mbox).msg _ = _
    rw [hmbox]
    rfl
  · show (u.pools.sems (s.pools.mboxes mbox).queuedMsg).counter.toNat + 1 =
      (s.pools.sems (s.pools.mboxes mbox).queuedMsg).counter.toNat
    omega
  · rw [hposted, hfetched, List.length_append, List.length_singleton]
    omega

/-- A call takes a unit and returns. -/
theorem Inv.finish_took (hi : Inv mbox s)
    (hcount : 0 < (s.pools.sems (semOf (s.pools.mboxes mbox) c)).counter)
    (hw : waited ≠ sysArchTimeout) :
    ∃ t, (takeUnit (semOf (s.pools.mboxes mbox) c) s).finish mbox c waited = some t ∧
      Took mbox s t c := by
  cases c with
  | trypost msg =>
      obtain ⟨u, hrun, htook⟩ := hi.post_took msg hcount
      refine ⟨_, ?_, htook _ rfl⟩
      exact congrArg (Option.map (fun x => Server.postReturns msg x.1 x.2)) hrun
  | post msg =>
      obtain ⟨u, hrun, htook⟩ := hi.post_took msg hcount
      refine ⟨_, ?_, htook _ rfl⟩
      exact congrArg (fun o => Option.bind o (fun x : Int × Server =>
        if x.1 = errOk then some (x.2.postReturns msg x.1) else none)) hrun
  | fetch tm =>
      obtain ⟨x, u, hrun, htook⟩ := hi.fetch_took hcount hw
      refine ⟨_, ?_, htook tm⟩
      exact congrArg (Option.map (fun x => Server.fetchReturns x.1 waited x.2)) hrun

/-- Only a fetch can time out. -/
theorem Inv.finish_timeout (hi : Inv mbox s) (htm : c.tm ≠ 0#32) :
    ∃ t last, s.finish mbox c sysArchTimeout = some t ∧
      Goes mbox s t (.outside (some last)) ∧ last ≠ .posted errMem := by
  cases c with
  | trypost msg => exact absurd rfl htm
  | post msg => exact absurd rfl htm
  | fetch tm =>
      refine ⟨s.fetchReturns none sysArchTimeout, .fetched none sysArchTimeout, ?_, ?_, by simp⟩
      · have hrun : s.fetchRest mbox sysArchTimeout = some (none, s) := if_pos rfl
        exact congrArg (Option.map (fun x => Server.fetchReturns x.1 sysArchTimeout x.2)) hrun
      · exact hi.goes_same rfl rfl rfl rfl rfl (List.append_nil _)

/-- With a unit to take, the loop of `sys_arch_sem_wait` ends. -/
theorem Inv.semLoop_took (hi : Inv mbox s) (hpt : s.points s.cur = .sem w waited)
    (hcond : w.call.tm = 0#32 ∨ waited < w.call.tm) (hcount : 0 < (s.pools.sems w.sem).counter) :
    ∃ t, s.semLoop mbox w waited = some t ∧ Took mbox s t w.call := by
  have hok := hi.points s.cur
  rw [hpt] at hok
  obtain ⟨hw, hnow⟩ := hok
  rw [hw.sem] at hcount
  obtain ⟨t, hrun, htook⟩ := hi.finish_took hcount (hi.ne_timeout hnow)
  refine ⟨t, ?_, htook⟩
  unfold Server.semLoop
  dsimp only
  rw [if_pos hcond, hw.sem, if_pos hcount]
  exact hrun

theorem Inv.semLoop_goes (hi : Inv mbox s) (hpt : s.points s.cur = .sem w waited) :
    ∃ t pt, s.semLoop mbox w waited = some t ∧ Goes mbox s t pt ∧
      PointOk mbox t.pools t.timeMsec pt := by
  have hok := hi.points s.cur
  rw [hpt] at hok
  obtain ⟨hw, hnow⟩ := hok
  by_cases hcond : w.call.tm = 0#32 ∨ waited < w.call.tm
  · by_cases hcount : 0 < (s.pools.sems w.sem).counter
    · obtain ⟨t, hrun, ⟨last, hgoes, hlast⟩, -, -⟩ := hi.semLoop_took hpt hcond hcount
      refine ⟨t, _, hrun, hgoes, fun heq => hlast (Option.some.inj heq)⟩
    · have hrun : s.semLoop mbox w waited =
          if w.call.tm = sysArchNowait then s.finish mbox w.call sysArchTimeout
          else some (s.goto (.timed w waited s.timeMsec)) := by
        unfold Server.semLoop
        dsimp only
        rw [if_pos hcond, if_neg hcount]
      rw [hrun]
      by_cases hnowait : w.call.tm = sysArchNowait
      · rw [if_pos hnowait]
        have htm : w.call.tm ≠ 0#32 := by
          rw [hnowait]
          decide
        obtain ⟨t, last, hrun, hgoes, hlast⟩ := hi.finish_timeout htm
        exact ⟨t, _, hrun, hgoes, fun heq => hlast (Option.some.inj heq)⟩
      · rw [if_neg hnowait]
        refine ⟨_, _, rfl, hi.goes_same rfl rfl rfl rfl rfl rfl, hw, hnow, Nat.le_refl _, ?_⟩
        have hzero : (s.pools.sems w.sem).counter.toNat = 0 := Nat.eq_zero_of_not_pos hcount
        exact BitVec.eq_of_toNat_eq hzero
  · -- the time is over
    have htm : w.call.tm ≠ 0#32 := fun h0 => hcond (Or.inl h0)
    obtain ⟨t, last, hrun, hgoes, hlast⟩ := hi.finish_timeout htm
    refine ⟨t, _, ?_, hgoes, fun heq => hlast (Option.some.inj heq)⟩
    unfold Server.semLoop
    dsimp only
    rw [if_neg hcond]
    exact hrun

/-- The flag of a semaphore does not matter. -/
theorem Pending.setWaiters {i : Int} {e : SysSemEntry} (h : Pending mbox p xs)
    (hfreed : e.freed = (p.sems i).freed) (hcounter : e.counter = (p.sems i).counter) :
    Pending mbox { p with sems := Function.update p.sems i e } xs := by
  have hsame : ∀ j, (Function.update p.sems i e j).freed = (p.sems j).freed ∧
      (Function.update p.sems i e j).counter = (p.sems j).counter := by
    intro j
    by_cases hj : j = i
    · subst hj
      rw [Function.update_self]
      exact ⟨hfreed, hcounter⟩
    · rw [Function.update_of_ne hj]
      exact ⟨rfl, rfl⟩
  refine ⟨h.live, ?_, ?_, h.apart, h.ring, ?_, ?_⟩
  · exact (hsame _).1.trans h.queuedLive
  · exact (hsame _).1.trans h.freeLive
  · exact (congrArg BitVec.toNat (hsame _).2).trans h.queued
  · have hfree := h.free
    rwa [← (hsame _).2] at hfree

theorem Inv.fallAsleep_goes (hi : Inv mbox s) (hpt : s.points s.cur = .timed w waited a) :
    ∃ pt, Goes mbox s (s.fallAsleep w waited a) pt ∧
      PointOk mbox (s.fallAsleep w waited a).pools (s.fallAsleep w waited a).timeMsec pt := by
  have hok := hi.points s.cur
  rw [hpt] at hok
  obtain ⟨hw, hwa, hnow, hzero⟩ := hok
  obtain ⟨xs, hlog, hpending⟩ := hi.pending
  have hgen : ∀ j, ((s.fallAsleep w waited a).pools.sems j).gen = (s.pools.sems j).gen := by
    intro j
    show (Function.update s.pools.sems w.sem _ j).gen = _
    by_cases hj : j = w.sem
    · subst hj
      rw [Function.update_self]
    · rw [Function.update_of_ne hj]
  have hsame : SameSems mbox s.pools (s.fallAsleep w waited a).pools :=
    ⟨rfl, rfl, hgen _, hgen _⟩
  refine ⟨_, ⟨rfl, rfl, rfl, hsame, ⟨xs, hlog, hpending.setWaiters rfl rfl⟩,
    fun _ _ _ _ => rfl⟩, hw.congr hsame, hwa, hnow, ?_⟩
  exact (wordOf_counter _).trans hzero

theorem Inv.waitLoop_goes (hi : Inv mbox s) {pnow : U32}
    (hpt : s.points s.cur = .waiting w waited a z pnow) :
    ∃ pt, Goes mbox s (s.waitLoop w waited a z pnow) pt ∧
      PointOk mbox (s.waitLoop w waited a z pnow).pools
        (s.waitLoop w waited a z pnow).timeMsec pt := by
  have hok := hi.points s.cur
  rw [hpt] at hok
  obtain ⟨hw, hwa, hnow, hval⟩ := hok
  unfold Server.waitLoop
  split
  · exact ⟨_, hi.goes_same rfl rfl rfl rfl rfl rfl, hw, hwa, hnow, hval⟩
  · exact ⟨_, hi.goes_same rfl rfl rfl rfl rfl rfl, hw, hwa, hnow⟩

theorem Inv.semWoken_run (hi : Inv mbox s) (hpt : s.points s.cur = .woken w waited a) :
    s.semWoken mbox w waited a = some (s.goto (.sem w (waited + (s.timeMsec - a)))) := by
  have hok := hi.points s.cur
  rw [hpt] at hok
  exact if_neg (not_not.mpr hok.1.gen)

theorem Inv.semWoken_goes (hi : Inv mbox s) (hpt : s.points s.cur = .woken w waited a) :
    ∃ pt, Goes mbox s (s.goto (.sem w (waited + (s.timeMsec - a)))) pt ∧
      PointOk mbox s.pools s.timeMsec pt := by
  have hok := hi.points s.cur
  rw [hpt] at hok
  obtain ⟨hw, hwa, hnow⟩ := hok
  refine ⟨_, hi.goes_same rfl rfl rfl rfl rfl rfl, hw, ?_⟩
  bv_omega

/-- The current thread goes on, and the program does not panic. -/
theorem Inv.go_goes (hi : Inv mbox s) (hbusy : (s.points s.cur).Busy) :
    ∃ t pt, s.go mbox = some t ∧ Goes mbox s t pt ∧ PointOk mbox t.pools t.timeMsec pt := by
  unfold Server.go
  cases hpt : s.points s.cur with
  | outside last =>
      rw [hpt] at hbusy
      exact absurd hbusy id
  | sem w waited => exact hi.semLoop_goes hpt
  | timed w waited a =>
      obtain ⟨pt, hgoes, hok⟩ := hi.fallAsleep_goes hpt
      exact ⟨_, pt, rfl, hgoes, hok⟩
  | waiting w waited a z pnow =>
      obtain ⟨pt, hgoes, hok⟩ := hi.waitLoop_goes hpt
      exact ⟨_, pt, rfl, hgoes, hok⟩
  | yielded w waited a z =>
      rw [hpt] at hbusy
      exact absurd hbusy id
  | woken w waited a =>
      obtain ⟨pt, hgoes, hok⟩ := hi.semWoken_goes hpt
      exact ⟨_, pt, hi.semWoken_run hpt, hgoes, hok⟩

/-! ## The events -/

/-- The slots that hold messages are left alone. -/
def KeepsSlots (mbox : Int) (s t : Server) : Prop :=
  ∀ xs, s.posted = s.fetched ++ xs → ∀ i, i < xs.length →
    (t.pools.mboxes mbox).msg (((s.pools.mboxes mbox).head.toNat + i) % 32) =
      (s.pools.mboxes mbox).msg (((s.pools.mboxes mbox).head.toNat + i) % 32)

theorem KeepsSlots.of_mboxes (h : t.pools.mboxes mbox = s.pools.mboxes mbox) :
    KeepsSlots mbox s t := fun _ _ _ _ => by rw [h]

theorem Goes.keepsSlots (h : Goes mbox s t pt) (hi : Inv mbox s) : KeepsSlots mbox s t := by
  obtain ⟨xs, hlog, hpending⟩ := hi.pending
  intro ys hys
  obtain rfl : ys = xs := List.append_cancel_left (hys.symm.trans hlog)
  exact h.slots ys hpending

/-- The clock moves on. -/
theorem Inv.tick (hi : Inv mbox s) (h : s.timeTick = some t) :
    Inv mbox t ∧ t = { s with ticks := s.ticks + 1 } := by
  unfold Server.timeTick at h
  split at h
  · cases h
  · rename_i hover
    cases h
    have hclock := hi.clock
    have hnext : (s.ticks + 1).toNat = s.ticks.toNat + 1 := by bv_omega
    -- the product wraps around for the first time where it is smaller than its factor
    have hlt : (s.ticks + 1).toNat * 10 < 4294967296 := by
      by_contra hge
      refine hover ?_
      rw [BitVec.lt_def, BitVec.toNat_mul]
      simp only [BitVec.toNat_ofNat]
      omega
    have hlater : s.timeMsec.toNat ≤
        (({ s with ticks := s.ticks + 1 } : Server).timeMsec).toNat := by
      rw [timeMsec_toNat hclock, timeMsec_toNat (s := { s with ticks := s.ticks + 1 }) hlt]
      simp only
      omega
    refine ⟨⟨hi.pending, hlt, fun x => ?_, hi.parked⟩, rfl⟩
    have hok := hi.points x
    show PointOk mbox s.pools _ (s.points x)
    cases hpt : s.points x with
    | outside last =>
        rw [hpt] at hok
        exact hok
    | sem w waited =>
        rw [hpt] at hok
        exact ⟨hok.1, hok.2.trans hlater⟩
    | timed w waited a =>
        rw [hpt] at hok
        exact ⟨hok.1, hok.2.1, hok.2.2.1.trans hlater, hok.2.2.2⟩
    | waiting w waited a z pnow =>
        rw [hpt] at hok
        exact ⟨hok.1, hok.2.1, hok.2.2.1.trans hlater, hok.2.2.2⟩
    | yielded w waited a z =>
        rw [hpt] at hok
        exact ⟨hok.1, hok.2.1, hok.2.2.1.trans hlater, hok.2.2.2⟩
    | woken w waited a =>
        rw [hpt] at hok
        exact ⟨hok.1, hok.2.1, hok.2.2.trans hlater⟩

/-- A call begins. -/
theorem Inv.enter (hi : Inv mbox s) (c : Call) :
    ∃ t pt, s.enter mbox c = some t ∧ Goes mbox s t pt ∧ PointOk mbox t.pools t.timeMsec pt := by
  obtain ⟨xs, hlog, hpending⟩ := hi.pending
  have hlive : (s.pools.sems (semOf (s.pools.mboxes mbox) c)).freed = false := by
    cases c with
    | trypost msg => exact hpending.freeLive
    | post msg => exact hpending.freeLive
    | fetch tm => exact hpending.queuedLive
  refine ⟨s.goto (.sem ⟨c, semOf (s.pools.mboxes mbox) c,
    (s.pools.sems (semOf (s.pools.mboxes mbox) c)).gen⟩ 0#32), _, ?_,
    hi.goes_same rfl rfl rfl rfl rfl rfl, ⟨rfl, rfl⟩, Nat.zero_le _⟩
  unfold Server.enter
  dsimp only
  rw [if_neg (by simp [hpending.live]), if_neg (by simp [hlive])]

/-- Another thread runs. -/
theorem Inv.resume (hi : Inv mbox s) (hcur : ¬ (s.points s.cur).Busy) (x : Nat) :
    Inv mbox (s.resume x) := by
  have hparked : ∀ y, ¬ (s.points y).Busy := by
    intro y
    by_cases hy : y = s.cur
    · subst hy
      exact hcur
    · exact hi.parked y hy
  unfold Server.resume
  cases hpt : s.points x with
  | outside last => exact ⟨hi.pending, hi.clock, hi.points, fun y _ => hparked y⟩
  | sem w waited => exact ⟨hi.pending, hi.clock, hi.points, fun y _ => hparked y⟩
  | timed w waited a => exact ⟨hi.pending, hi.clock, hi.points, fun y _ => hparked y⟩
  | waiting w waited a z pnow => exact ⟨hi.pending, hi.clock, hi.points, fun y _ => hparked y⟩
  | woken w waited a => exact ⟨hi.pending, hi.clock, hi.points, fun y _ => hparked y⟩
  | yielded w waited a z =>
      refine ⟨hi.pending, hi.clock, fun y => ?_, fun y hy => ?_⟩
      · show PointOk mbox s.pools s.timeMsec (Function.update s.points x _ y)
        by_cases hyx : y = x
        · subst hyx
          have hok := hi.points y
          rw [hpt] at hok
          rw [Function.update_self]
          exact hok
        · rw [Function.update_of_ne hyx]
          exact hi.points y
      · have hyx : y ≠ x := hy
        show ¬ (Function.update s.points x _ y).Busy
        rw [Function.update_of_ne hyx]
        exact hparked y

/-- Something happens to other mailboxes and semaphores. -/
theorem Inv.other (hi : Inv mbox s) (hcur : (s.points s.cur).IsOutside)
    (h : SameBox mbox s.pools p) : Inv mbox { s with pools := p } := by
  obtain ⟨xs, hlog, hpending⟩ := hi.pending
  have hq : p.sems (p.mboxes mbox).queuedMsg = s.pools.sems (s.pools.mboxes mbox).queuedMsg := by
    rw [h.box, h.queued]
  have hf : p.sems (p.mboxes mbox).freeMsg = s.pools.sems (s.pools.mboxes mbox).freeMsg := by
    rw [h.box, h.free]
  have hsame : SameSems mbox s.pools p := by
    refine ⟨by rw [h.box], by rw [h.box], ?_, ?_⟩
    · rw [h.queued]
    · rw [h.free]
  have hparked : ∀ y, ¬ (s.points y).Busy := by
    intro y
    by_cases hy : y = s.cur
    · subst hy
      cases hpt : s.points s.cur <;> rw [hpt] at hcur <;> first | exact id | exact hcur.elim
    · exact hi.parked y hy
  refine ⟨⟨xs, hlog, ?_⟩, hi.clock,
    fun y => (hi.points y).congr (hparked y) hsame (Nat.le_refl _), hi.parked⟩
  constructor
  · show (p.mboxes mbox).freed = false
    rw [h.box]
    exact hpending.live
  · show (p.sems (p.mboxes mbox).queuedMsg).freed = false
    rw [hq]
    exact hpending.queuedLive
  · show (p.sems (p.mboxes mbox).freeMsg).freed = false
    rw [hf]
    exact hpending.freeLive
  · show (p.mboxes mbox).queuedMsg ≠ (p.mboxes mbox).freeMsg
    rw [h.box]
    exact hpending.apart
  · show RingOf (p.mboxes mbox) xs
    rw [h.box]
    exact hpending.ring
  · show (p.sems (p.mboxes mbox).queuedMsg).counter.toNat = xs.length
    rw [hq]
    exact hpending.queued
  · show (p.sems (p.mboxes mbox).freeMsg).counter.toNat + xs.length = 32
    rw [hf]
    exact hpending.free

theorem Fresh.inv (h : Fresh mbox s) : Inv mbox s where
  pending := by
    refine ⟨[], by rw [h.logs.1, h.logs.2]; rfl, h.mailbox.1, h.queued.1, h.free.1, h.apart,
      ⟨0, by decide, ?_, ?_, trivial⟩, ?_, ?_⟩
    · rw [h.mailbox.2.2]
      rfl
    · rw [h.mailbox.2.1]
      rfl
    · rw [h.queued.2]
      rfl
    · rw [h.free.2]
      rfl
  clock := h.clock
  points := fun x => by
    rw [h.points x]
    exact fun heq => nomatch heq
  parked := fun x _ => by
    rw [h.points x]
    exact id

/-- A mailbox is fresh when `sys_mbox_new` returns it. -/
theorem fresh_of_sysMboxNew {size i q f : Int} {rest sems : List Int} (hp : PoolsOk p)
    (hsize : size < mboxslots) (hmbox : p.mboxFree = i :: rest)
    (hsems : p.semFree = q :: f :: sems) (hticks : s.ticks.toNat * 10 < 4294967296)
    (hpoints : ∀ x, s.points x = .outside none) (hlogs : s.posted = [] ∧ s.fetched = []) :
    ∃ p', (sysMboxNew size).run p = .ret i p' ∧ Fresh i { s with pools := p' } := by
  obtain ⟨p', hrun, -, hnew⟩ := sysMboxNew_ok hp hsize hmbox hsems
  have hq := hnew.sems.1
  have hf := hnew.sems.2
  refine ⟨p', hrun, hnew.mailbox, ?_, ?_, ?_, hticks, hpoints, hlogs⟩
  · rw [hq, hf]
    exact hnew.apart
  · rw [hq]
    exact hnew.queued
  · rw [hf]
    exact hnew.free

/-- An event keeps the invariant and the slots that hold messages. -/
theorem Inv.event (hi : Inv mbox s) {e : Event} (he : Enabled mbox s e)
    (h : step mbox s e = some t) : Inv mbox t ∧ KeepsSlots mbox s t := by
  cases e with
  | tick =>
      obtain ⟨hinv, rfl⟩ := hi.tick h
      exact ⟨hinv, .of_mboxes rfl⟩
  | go =>
      obtain ⟨u, pt, hrun, hgoes, hok⟩ := hi.go_goes he
      obtain rfl : u = t := Option.some.inj (hrun.symm.trans h)
      exact ⟨hi.goes hgoes hok, hgoes.keepsSlots hi⟩
  | call c =>
      obtain ⟨u, pt, hrun, hgoes, hok⟩ := hi.enter c
      obtain rfl : u = t := Option.some.inj (hrun.symm.trans h)
      exact ⟨hi.goes hgoes hok, hgoes.keepsSlots hi⟩
  | switch x =>
      obtain rfl : s.resume x = t := Option.some.inj h
      refine ⟨hi.resume he x, .of_mboxes ?_⟩
      unfold Server.resume
      split <;> rfl
  | other p =>
      obtain rfl : { s with pools := p } = t := Option.some.inj h
      exact ⟨hi.other he.1 he.2, .of_mboxes he.2.box⟩

/-- Nothing but the clock can make an event fail. -/
theorem Inv.no_panic (hi : Inv mbox s) {e : Event} (he : Enabled mbox s e) (hne : e ≠ .tick) :
    step mbox s e ≠ none := by
  cases e with
  | tick => exact absurd rfl hne
  | go =>
      obtain ⟨u, pt, hrun, -, -⟩ := hi.go_goes he
      exact fun hnone => nomatch hrun.symm.trans hnone
  | call c =>
      obtain ⟨u, pt, hrun, -, -⟩ := hi.enter c
      exact fun hnone => nomatch hrun.symm.trans hnone
  | switch x => exact fun hnone => nomatch hnone
  | other p => exact fun hnone => nomatch hnone

theorem Runs.inv (hr : Runs mbox s) : Inv mbox s := by
  induction hr with
  | start h => exact h.inv
  | step e _ he h ih => exact (ih.event he h).1

/-! ## No wake-up is lost -/

/-- The clock moves on. -/
def Ticks : Server → Server → Prop := Relation.ReflTransGen (fun s t => s.timeTick = some t)

/-- The current thread goes on, after any number of ticks. -/
def Moves (mbox : Int) (s t : Server) : Prop := ∃ u, Ticks s u ∧ u.go mbox = some t

theorem Inv.ticks (hi : Inv mbox s) (h : Ticks s t) :
    Inv mbox t ∧ t.pools = s.pools ∧ t.cur = s.cur ∧ t.points = s.points ∧
      t.posted = s.posted ∧ t.fetched = s.fetched := by
  induction h with
  | refl => exact ⟨hi, rfl, rfl, rfl, rfl, rfl⟩
  | tail _ hstep ih =>
      obtain ⟨hu, hpools, hcur, hpoints, hposted, hfetched⟩ := ih
      obtain ⟨hinv, rfl⟩ := hu.tick hstep
      exact ⟨hinv, hpools, hcur, hpoints, hposted, hfetched⟩

/-- What stays the same while a thread comes back to the loop of `sys_arch_sem_wait`. -/
structure Still (s t : Server) : Prop where
  pools : t.pools = s.pools
  cur : t.cur = s.cur
  posted : t.posted = s.posted
  fetched : t.fetched = s.fetched

theorem Still.trans {u : Server} (h : Still s t) (h' : Still t u) : Still s u :=
  ⟨h'.pools.trans h.pools, h'.cur.trans h.cur, h'.posted.trans h.posted,
    h'.fetched.trans h.fetched⟩

/-- A thread that finds the counter positive leaves `thread_wait`. -/
theorem Inv.leaves (hi : Inv mbox s) {pnow : U32}
    (hpt : s.points s.cur = .waiting w waited a z pnow)
    (hcount : 0 < (s.pools.sems w.sem).counter) (h : Moves mbox s t) :
    Inv mbox t ∧ Still s t ∧ t.points t.cur = .woken w waited a := by
  obtain ⟨u, hticks, hgo⟩ := h
  obtain ⟨hu, hpools, hcur, hpoints, hposted, hfetched⟩ := hi.ticks hticks
  have hptu : u.points u.cur = .waiting w waited a z pnow := by
    rw [hpoints, hcur]
    exact hpt
  have hok := hu.points u.cur
  rw [hptu] at hok
  obtain ⟨-, -, -, hval⟩ := hok
  have hrun : u.waitLoop w waited a z pnow = t := by
    unfold Server.go at hgo
    rw [hptu] at hgo
    exact Option.some.inj hgo
  have hne : wordOf (u.pools.sems w.sem) ≠ z.val := by
    intro heq
    have hzero := wordOf_counter (u.pools.sems w.sem)
    rw [heq, hval, hpools] at hzero
    rw [← hzero] at hcount
    exact absurd hcount (by decide)
  obtain ⟨pt, hgoes, hpok⟩ := hu.waitLoop_goes hptu
  rw [hrun] at hgoes hpok
  have hinv := hu.goes hgoes hpok
  unfold Server.waitLoop at hrun
  rw [if_neg (fun hcond => hne hcond.2.2.1)] at hrun
  refine ⟨hinv, ?_, ?_⟩
  · rw [← hrun]
    exact ⟨hpools, hcur, hposted, hfetched⟩
  · rw [← hrun]
    exact Function.update_self _ _ _

/-- It goes back to the loop of `sys_arch_sem_wait`. -/
theorem Inv.returns (hi : Inv mbox s) (hpt : s.points s.cur = .woken w waited a)
    (h : Moves mbox s t) :
    Inv mbox t ∧ Still s t ∧ ∃ waited', t.points t.cur = .sem w waited' := by
  obtain ⟨u, hticks, hgo⟩ := h
  obtain ⟨hu, hpools, hcur, hpoints, hposted, hfetched⟩ := hi.ticks hticks
  have hptu : u.points u.cur = .woken w waited a := by
    rw [hpoints, hcur]
    exact hpt
  have hrun : u.goto (.sem w (waited + (u.timeMsec - a))) = t := by
    unfold Server.go at hgo
    rw [hptu] at hgo
    exact Option.some.inj ((hu.semWoken_run hptu).symm.trans hgo)
  obtain ⟨pt, hgoes, hpok⟩ := hu.semWoken_goes hptu
  rw [hrun] at hgoes
  have hticks' : t.timeMsec = u.timeMsec ∧ t.pools = u.pools := by
    rw [← hrun]
    exact ⟨rfl, rfl⟩
  rw [← hticks'.1, ← hticks'.2] at hpok
  refine ⟨hu.goes hgoes hpok, ?_, waited + (u.timeMsec - a), ?_⟩
  · rw [← hrun]
    exact ⟨hpools, hcur, hposted, hfetched⟩
  · rw [← hrun]
    exact Function.update_self _ _ _

/-- There it takes a unit. -/
theorem Inv.takes (hi : Inv mbox s) (hpt : s.points s.cur = .sem w waited)
    (htm : w.call.tm = 0#32) (hcount : 0 < (s.pools.sems w.sem).counter)
    (h : Moves mbox s t) :
    (∃ last, t.points s.cur = .outside (some last)) ∧
      (t.pools.sems w.sem).counter.toNat + 1 = (s.pools.sems w.sem).counter.toNat ∧
      t.posted.length + t.fetched.length = s.posted.length + s.fetched.length + 1 := by
  obtain ⟨u, hticks, hgo⟩ := h
  obtain ⟨hu, hpools, hcur, hpoints, hposted, hfetched⟩ := hi.ticks hticks
  have hptu : u.points u.cur = .sem w waited := by
    rw [hpoints, hcur]
    exact hpt
  rw [← hpools] at hcount
  obtain ⟨v, hrun, ⟨last, hgoes, -⟩, hcounter, hlogs⟩ :=
    hu.semLoop_took hptu (Or.inl htm) hcount
  have hvt : v = t := by
    unfold Server.go at hgo
    rw [hptu] at hgo
    exact Option.some.inj (hrun.symm.trans hgo)
  have hsem : w.sem = semOf (u.pools.mboxes mbox) w.call := by
    have hok := hu.points u.cur
    rw [hptu] at hok
    exact hok.1.sem
  rw [← hsem, hpools] at hcounter
  rw [hposted, hfetched] at hlogs
  rw [← hvt]
  refine ⟨⟨last, ?_⟩, hcounter, hlogs⟩
  rw [hgoes.points, ← hcur, Function.update_self]

/-- A thread `x` that waits for a semaphore without a timeout, and that the scheduler resumes
while the counter is positive, leaves `thread_wait` at its first move and takes a unit at its
third. -/
def NoLostWakeup (mbox : Int) (s : Server) : Prop :=
  ∀ x w waited a z, s.points x = .yielded w waited a z → w.call.tm = 0#32 →
    ¬ (s.points s.cur).Busy → 0 < (s.pools.sems w.sem).counter →
    ∀ s1 s2 s3, Moves mbox (s.resume x) s1 → Moves mbox s1 s2 → Moves mbox s2 s3 →
      s1.points x = .woken w waited a ∧ (∃ last, s3.points x = .outside (some last)) ∧
      (s3.pools.sems w.sem).counter.toNat + 1 = (s.pools.sems w.sem).counter.toNat ∧
      s3.posted.length + s3.fetched.length = s.posted.length + s.fetched.length + 1

theorem Inv.noLostWakeup (hi : Inv mbox s) : NoLostWakeup mbox s := by
  intro x w waited a z hpt htm hcur hcount s1 s2 s3 h1 h2 h3
  have h0 := hi.resume hcur x
  have hresume : s.resume x =
      { s with cur := x }.goto (.waiting w waited a z s.timeMsec) := by
    unfold Server.resume
    rw [hpt]
  have hstill0 : Still { s with cur := x } (s.resume x) := by
    rw [hresume]
    exact ⟨rfl, rfl, rfl, rfl⟩
  have hpt0 : (s.resume x).points (s.resume x).cur = .waiting w waited a z s.timeMsec := by
    rw [hresume]
    exact Function.update_self _ _ _
  have hcount0 : 0 < ((s.resume x).pools.sems w.sem).counter := by
    rw [hstill0.pools]
    exact hcount
  obtain ⟨hi1, hstill1, hpt1⟩ := h0.leaves hpt0 hcount0 h1
  obtain ⟨hi2, hstill2, waited', hpt2⟩ := hi1.returns hpt1 h2
  have hall := (hstill0.trans hstill1).trans hstill2
  have hcount2 : 0 < (s2.pools.sems w.sem).counter := by
    rw [hall.pools]
    exact hcount
  obtain ⟨hout, hcounter, hlogs⟩ := hi2.takes hpt2 htm hcount2 h3
  have hcur1 : s1.cur = x := (hstill0.trans hstill1).cur
  have hcur2 : s2.cur = x := hall.cur
  rw [hcur1] at hpt1
  rw [hcur2] at hout
  rw [hall.pools] at hcounter
  rw [hall.posted, hall.fetched] at hlogs
  exact ⟨hpt1, hout, hcounter, hlogs⟩

/-! ## The mailbox -/

/-- What is so in every state: the messages that were fetched are the first of those that were
posted, in the same order, and the others are in the slots; no post has failed. -/
structure Sound (mbox : Int) (s : Server) : Prop where
  messages : ∃ xs, s.posted = s.fetched ++ xs ∧ RingOf (s.pools.mboxes mbox) xs ∧
    (s.pools.sems (s.pools.mboxes mbox).queuedMsg).counter.toNat = xs.length ∧
    (s.pools.sems (s.pools.mboxes mbox).freeMsg).counter.toNat + xs.length = 32
  posts : ∀ x, s.points x ≠ .outside (some (.posted errMem))

/-- However the threads run, what is fetched from a mailbox is what was posted, once and in the
order of the posts; a slot with a message is not overwritten, nothing panics, and no wake-up is
lost. -/
theorem mailbox_sound (hr : Runs mbox s) :
    Sound mbox s ∧
      (∀ e t, Enabled mbox s e → step mbox s e = some t → KeepsSlots mbox s t) ∧
      (∀ e, Enabled mbox s e → e ≠ .tick → step mbox s e ≠ none) ∧
      NoLostWakeup mbox s := by
  have hi := hr.inv
  obtain ⟨xs, hlog, hpending⟩ := hi.pending
  refine ⟨⟨⟨xs, hlog, hpending.ring, hpending.queued, hpending.free⟩, fun x hx => ?_⟩,
    fun e t he h => (hi.event he h).2, fun e he hne => hi.no_panic he hne, hi.noLostWakeup⟩
  have hok := hi.points x
  rw [hx] at hok
  exact hok rfl

/-- A mailbox with the semaphores 0 and 1, and nobody uses it. -/
def quiet : Server where
  pools := {
    sems := fun i => ⟨false, 1#32, if i = 1 then 32 else 0, 0⟩
    semFree := []
    mboxes := fun _ => ⟨false, -1, 0, fun _ => 0#32, 0, 1⟩
    mboxFree := []
    touched := [] }
  ticks := 0#32
  cur := 0
  points := fun _ => .outside none
  waitAddr := fun _ => none
  wakeup := fun _ => false
  posted := []
  fetched := []

theorem quiet_fresh : Fresh 0 quiet :=
  ⟨⟨rfl, rfl, rfl⟩, by decide, ⟨rfl, rfl⟩, ⟨rfl, rfl⟩, by decide, fun _ => rfl, rfl, rfl⟩

/-- Thread 0 waits for a message, thread 1 posts one, and thread 0 takes it. -/
theorem mailbox_sound_seven : ∃ s, Runs 0 s ∧ s.posted = [7#32] ∧ s.fetched = [7#32] ∧
    Sound 0 s ∧
      (∀ e t, Enabled 0 s e → step 0 s e = some t → KeepsSlots 0 s t) ∧
      (∀ e, Enabled 0 s e → e ≠ .tick → step 0 s e ≠ none) ∧
      NoLostWakeup 0 s := by
  have h0 : Runs 0 quiet := .start quiet_fresh
  have h1 := h0.step (.call (.fetch 0#32)) trivial rfl
  have h2 := h1.step .go trivial rfl
  have h3 := h2.step .go trivial rfl
  have h4 := h3.step .tick trivial rfl
  have h5 := h4.step .go trivial rfl
  have h6 := h5.step (.switch 1) (fun h => h) rfl
  have h7 := h6.step (.call (.post 7#32)) trivial rfl
  have h8 := h7.step .go trivial rfl
  have h9 := h8.step (.switch 0) (fun h => h) rfl
  have h10 := h9.step .go trivial rfl
  have h11 := h10.step .go trivial rfl
  have h12 := h11.step .go trivial rfl
  exact ⟨_, h12, rfl, rfl, mailbox_sound h12⟩

end Mailbox

end Jos
