import Jos.Lib.Prog
import Jos.Lib.TailQueue
import Jos.Mmu

/-!
# User threads of the network server, `net/lwip/jos/arch/thread.c`

A thread runs until it yields or halts.  The ones that wait are on `thread_queue`, and the
one that halted last is on `kill_queue`: it ran on the stack that is to be freed, so that
the next thread that halts has to free it.

A context or a stack is a block that `malloc` has given.  A program stops where it follows a
null pointer or one to a block that was freed.
-/

namespace Jos

namespace UserThreads

open Programs TailQueue

/-- `struct jos_jmp_buf`. -/
structure JmpBuf where
  eip : U32
  esp : U32
  ebp : U32
  ebx : U32
  esi : U32
  edi : U32
deriving DecidableEq

/-- `THREAD_NUM_ONHALT`. -/
def threadNumOnhalt : Nat := 4

/-- `stack_size`. -/
def stackSize : Nat := 4096

/-- `E_NO_MEM`. -/
def eNoMem : Int := 4

/-- `struct thread_context`, without `tc_queue_link`. -/
structure ThreadContext where
  tid : U32
  stackBottom : Nat
  entry : U32
  arg : U32
  jb : JmpBuf
  onhalt : Nat → U32
  nonhalt : Nat

/-- A block that `malloc` has given. -/
inductive Block where
  | context (tc : ThreadContext)
  | stack

/-- The two queues. -/
inductive QueueName where
  | threadQueue
  | killQueue
deriving DecidableEq

/-- The variables of `thread.c`, the blocks in use with the links of the contexts, the context
in the processor, and what `malloc` finds next.

The last three fields say what has been done so far: the functions that `thread_clean` has
called, the blocks that were freed, and the contexts that were loaded. -/
structure Threads where
  maxTid : U32
  curTc : Option Nat
  queues : QueueName → Queue Nat
  heap : Nat → Option Block
  queueLink : Nat → Option Nat
  regs : JmpBuf
  mallocs : Nat → Option Nat
  called : List (U32 × U32)
  freed : List Nat
  resumed : List (U32 × JmpBuf)

/-! ## Blocks -/

/-- All bytes of a context are null. -/
def ThreadContext.null : ThreadContext :=
  ⟨0#32, 0, 0#32, 0#32, ⟨0#32, 0#32, 0#32, 0#32, 0#32, 0#32⟩, fun _ => 0#32, 0⟩

def Threads.setBlock (a : Nat) (b : Option Block) (s : Threads) : Threads :=
  { s with heap := Function.update s.heap a b }

/-- What `malloc` finds is a block that is not in use, or nothing. -/
def Threads.found (s : Threads) : Option Nat :=
  match s.mallocs 0 with
  | none => none
  | some a => if (s.heap a).isNone then some a else none

def Threads.asked (s : Threads) : Threads := { s with mallocs := fun k => s.mallocs (k + 1) }

/-- `malloc`, with what the block is for. -/
def malloc (b : Block) : Prog Threads (Option Nat) := do
  let s ← Prog.get
  Prog.modify Threads.asked
  match s.found with
  | none => pure none
  | some a => do
      Prog.modify (Threads.setBlock a (some b))
      pure (some a)

/-- `free`. -/
def free (a : Nat) : Prog Threads Unit := do
  let s ← Prog.get
  match s.heap a with
  | none => Prog.stop
  | some _ => Prog.modify (fun s => { s.setBlock a none with freed := s.freed ++ [a] })

/-- A context is read. -/
def deref (a : Nat) : Prog Threads ThreadContext := do
  let s ← Prog.get
  match s.heap a with
  | some (.context tc) => pure tc
  | _ => Prog.stop

/-- A pointer that is followed. -/
def nonnull (a : Option Nat) : Prog Threads Nat :=
  match a with
  | none => Prog.stop
  | some a => pure a

/-- Fields of a context are set. -/
def setContext (a : Nat) (f : ThreadContext → ThreadContext) : Prog Threads Unit := do
  let tc ← deref a
  Prog.modify (Threads.setBlock a (some (.context (f tc))))

def Threads.setLink (a : Nat) (b : Option Nat) (s : Threads) : Threads :=
  { s with queueLink := Function.update s.queueLink a b }

/-- `tc_queue_link` of a context is set. -/
def setQueueLink (a : Nat) (b : Option Nat) : Prog Threads Unit := do
  let _ ← deref a
  Prog.modify (Threads.setLink a b)

/-! ## `threadq.h` -/

def Threads.setQueue (tq : QueueName) (q : Queue Nat) (s : Threads) : Threads :=
  { s with queues := Function.update s.queues tq q }

/-- `threadq_push`. -/
def threadqPush (tq : QueueName) (tc : Nat) : Prog Threads Unit := do
  setQueueLink tc none
  let s ← Prog.get
  match (s.queues tq).first with
  | none => Prog.modify (Threads.setQueue tq ⟨some tc, some tc⟩)
  | some first => do
      let last ← nonnull (s.queues tq).last
      setQueueLink last (some tc)
      Prog.modify (Threads.setQueue tq ⟨some first, some tc⟩)

/-- `threadq_pop`. -/
def threadqPop (tq : QueueName) : Prog Threads (Option Nat) := do
  let s ← Prog.get
  match (s.queues tq).first with
  | none => pure none
  | some tc => do
      let _ ← deref tc
      Prog.modify (Threads.setQueue tq ⟨s.queueLink tc, (s.queues tq).last⟩)
      setQueueLink tc none
      pure (some tc)

/-! ## `thread.c` -/

/-- `thread_onhalt`. -/
def threadOnhalt (fn : U32) : Prog Threads Int := do
  let s ← Prog.get
  let cur ← nonnull s.curTc
  let tc ← deref cur
  if threadNumOnhalt ≤ tc.nonhalt then pure (-eNoMem)
  else do
    setContext cur (fun tc =>
      { tc with onhalt := Function.update tc.onhalt tc.nonhalt fn, nonhalt := tc.nonhalt + 1 })
    pure 0

/-- `alloc_tid`. -/
def allocTid : Prog Threads U32 := do
  let s ← Prog.get
  Prog.modify (fun s => { s with maxTid := s.maxTid + 1 })
  Prog.when (s.maxTid + 1 = ~~~0#32) Prog.stop
  pure s.maxTid

/-- The context in which a thread starts, on its stack, at the address of `thread_entry`. -/
def entryContext (threadEntry : U32) (stack : Nat) : JmpBuf :=
  ⟨threadEntry, BitVec.ofNat 32 (stack + stackSize - 4), 0#32, 0#32, 0#32, 0#32⟩

/-- `thread_create`. -/
def threadCreate (threadEntry entry arg : U32) : Prog Threads Int := do
  let tc ← malloc (.context .null)
  match tc with
  | none => pure (-eNoMem)
  | some tc => do
      let tid ← allocTid
      setContext tc (fun c => { c with tid := tid })
      let stack ← malloc .stack
      match stack with
      | none => do
          free tc
          pure (-eNoMem)
      | some stack => do
          setContext tc (fun c =>
            { c with
              stackBottom := stack
              jb := entryContext threadEntry stack
              entry := entry
              arg := arg })
          threadqPush .threadQueue tc
          pure 0

/-- `thread_clean`. -/
def threadClean (tc : Option Nat) : Prog Threads Unit :=
  match tc with
  | none => pure ()
  | some a => do
      let tc ← deref a
      Prog.forRange 0 tc.nonhalt (fun i =>
        Prog.modify (fun s => { s with called := s.called ++ [(tc.onhalt i, tc.tid)] }))
      free tc.stackBottom
      free a

/-- `jos_longjmp(&tc->tc_jb, 1)`, to the thread that is current now. -/
def longjmp (a : Nat) : Prog Threads Unit := do
  let tc ← deref a
  Prog.modify (fun s => { s with regs := tc.jb, resumed := s.resumed ++ [(tc.tid, tc.jb)] })

/-- `thread_yield`, where `jos_setjmp` finds the context `jb`.  The value says whether another
thread runs now; if not, `thread_yield` returns. -/
def threadYield (jb : JmpBuf) : Prog Threads Bool := do
  let next ← threadqPop .threadQueue
  match next with
  | none => pure false
  | some next => do
      let s ← Prog.get
      match s.curTc with
      | none => pure ()
      | some cur => do
          setContext cur (fun tc => { tc with jb := jb })
          threadqPush .threadQueue cur
      Prog.modify (fun s => { s with curTc := some next })
      longjmp next
      pure true

/-- `thread_halt`. -/
def threadHalt (jb : JmpBuf) : Prog Threads Unit := do
  let last ← threadqPop .killQueue
  threadClean last
  let s ← Prog.get
  let cur ← nonnull s.curTc
  threadqPush .killQueue cur
  Prog.modify (fun s => { s with curTc := none })
  let switched ← threadYield jb
  if switched then pure () else Prog.exit

/-- The context at an address. -/
def Threads.context (s : Threads) (a : Nat) : ThreadContext :=
  match s.heap a with
  | some (.context tc) => tc
  | _ => .null

def Threads.tid (s : Threads) (a : Nat) : U32 := (s.context a).tid

/-! ## The shape of the queues -/

/-- A context and the stack of its thread are in use. -/
def Threads.IsThread (s : Threads) (a : Nat) : Prop :=
  ∃ tc, s.heap a = some (.context tc) ∧ s.heap tc.stackBottom = some .stack

/-- All threads: those that are held by a variable and those on the queues. -/
def everyone (held : List Nat) (l : QueueName → List Nat) : List Nat :=
  held ++ (l .threadQueue ++ l .killQueue)

/-- The queues hold the threads of `l`, and there are those of `held` besides. -/
structure Shape (s : Threads) (held : List Nat) (l : QueueName → List Nat) : Prop where
  holds : ∀ tq, Carries s.queueLink (s.queues tq) (l tq)
  once : (everyone held l).Nodup
  threads : ∀ a, a ∈ everyone held l → s.IsThread a
  ownStack : ∀ a b, a ∈ everyone held l → b ∈ everyone held l →
    (s.context a).stackBottom = (s.context b).stackBottom → a = b

variable {s t : Threads} {held q rest : List Nat} {l : QueueName → List Nat} {tq tq' : QueueName}
  {a b cur : Nat} {tc : ThreadContext} {jb : JmpBuf}

theorem context_eq (h : s.heap a = some (.context tc)) : s.context a = tc := by
  unfold Threads.context
  rw [h]

theorem Threads.IsThread.context_heap (h : s.IsThread a) :
    s.heap a = some (.context (s.context a)) := by
  obtain ⟨tc, hc, -⟩ := h
  rw [context_eq hc, hc]

theorem Threads.IsThread.stack (h : s.IsThread a) :
    s.heap (s.context a).stackBottom = some .stack := by
  obtain ⟨tc, hc, hstack⟩ := h
  rw [context_eq hc]
  exact hstack

theorem mem_everyone : a ∈ everyone held l ↔ a ∈ held ∨ ∃ tq, a ∈ l tq := by
  unfold everyone
  rw [List.mem_append, List.mem_append]
  refine or_congr_right ⟨fun hmem => ?_, fun ⟨tq, hmem⟩ => ?_⟩
  · exact hmem.elim (fun h => ⟨_, h⟩) (fun h => ⟨_, h⟩)
  · cases tq with
    | threadQueue => exact Or.inl hmem
    | killQueue => exact Or.inr hmem

theorem everyone_pop (h : l tq = a :: rest) :
    (everyone (a :: held) (Function.update l tq rest)).Perm (everyone held l) := by
  unfold everyone
  cases tq with
  | threadQueue =>
      rw [Function.update_self, Function.update_of_ne (by decide), h]
      exact List.perm_middle.symm
  | killQueue =>
      rw [Function.update_self, Function.update_of_ne (by decide), h, ← List.append_assoc,
        ← List.append_assoc]
      exact List.perm_middle.symm

theorem everyone_push :
    (everyone held (Function.update l tq (l tq ++ [a]))).Perm (everyone (a :: held) l) := by
  unfold everyone
  cases tq with
  | threadQueue =>
      rw [Function.update_self, Function.update_of_ne (by decide)]
      simp only [List.append_assoc, List.cons_append]
      rw [← List.append_assoc, ← List.append_assoc]
      exact List.perm_middle
  | killQueue =>
      rw [Function.update_self, Function.update_of_ne (by decide)]
      simp only [← List.append_assoc]
      exact List.perm_append_singleton a _

namespace Shape

theorem isThread (hs : Shape s held l) (h : a ∈ l tq) : s.IsThread a :=
  hs.threads a (mem_everyone.mpr (Or.inr ⟨tq, h⟩))

theorem held_apart (hs : Shape s held l) (h : a ∈ held) : a ∉ l tq := by
  have hdisjoint := (List.nodup_append.mp hs.once).2.2
  intro hmem
  refine hdisjoint a h a ?_ rfl
  cases tq with
  | threadQueue => exact List.mem_append_left _ hmem
  | killQueue => exact List.mem_append_right _ hmem

theorem apart (hs : Shape s held l) (hne : tq' ≠ tq) (h : a ∈ l tq) : a ∉ l tq' := by
  have hdisjoint := (List.nodup_append.mp (List.nodup_append.mp hs.once).2.1).2.2
  intro hmem
  cases tq with
  | threadQueue =>
      cases tq' with
      | threadQueue => exact hne rfl
      | killQueue => exact hdisjoint a h a hmem rfl
  | killQueue =>
      cases tq' with
      | threadQueue => exact hdisjoint a hmem a h rfl
      | killQueue => exact hne rfl

/-- The same threads, held or on the queues in another way. -/
theorem rearrange {held' : List Nat} {l' : QueueName → List Nat} (hs : Shape s held l)
    (hperm : (everyone held' l').Perm (everyone held l)) (hheap : t.heap = s.heap)
    (hholds : ∀ tq, Carries t.queueLink (t.queues tq) (l' tq)) : Shape t held' l' where
  holds := hholds
  once := hperm.nodup_iff.mpr hs.once
  threads := fun a ha => by
    unfold Threads.IsThread
    rw [hheap]
    exact hs.threads a (hperm.mem_iff.mp ha)
  ownStack := fun a b ha hb => by
    unfold Threads.context
    rw [hheap]
    exact hs.ownStack a b (hperm.mem_iff.mp ha) (hperm.mem_iff.mp hb)

end Shape

/-! ## The queues -/

theorem deref_run (h : s.heap a = some (.context tc)) : (deref a).run s = .ret tc s := by
  unfold deref
  rw [Prog.run_bind_ret (Prog.run_get s)]
  simp only [h]
  rfl

theorem setQueueLink_run (h : s.IsThread a) (b : Option Nat) :
    (setQueueLink a b).run s = .ret () (s.setLink a b) := by
  unfold setQueueLink
  rw [Prog.run_bind_ret (deref_run h.context_heap)]
  rfl

theorem setContext_run (h : s.heap a = some (.context tc)) (f : ThreadContext → ThreadContext) :
    (setContext a f).run s = .ret () (s.setBlock a (some (.context (f tc)))) := by
  unfold setContext
  rw [Prog.run_bind_ret (deref_run h)]
  rfl

/-- Only links and queues differ. -/
def Threads.relink (s : Threads) (links : Nat → Option Nat) (qs : QueueName → Queue Nat) :
    Threads :=
  { s with queueLink := links, queues := qs }

theorem threadqPop_none (h : (s.queues tq).first = none) :
    (threadqPop tq).run s = .ret none s := by
  unfold threadqPop
  rw [Prog.run_bind_ret (Prog.run_get s), h]
  rfl

theorem threadqPop_some (hs : Shape s held l) (hl : l tq = a :: rest) :
    ∃ links qs, (threadqPop tq).run s = .ret (some a) (s.relink links qs) ∧
      Shape (s.relink links qs) (a :: held) (Function.update l tq rest) := by
  have hholds := hs.holds tq
  rw [hl] at hholds
  have hmem : a ∈ l tq := by
    rw [hl]
    exact List.mem_cons_self
  have hthread : s.IsThread a := hs.isThread hmem
  refine ⟨Function.update s.queueLink a none,
    Function.update s.queues tq ⟨s.queueLink a, (s.queues tq).last⟩, ?_, ?_⟩
  · unfold threadqPop
    rw [Prog.run_bind_ret (Prog.run_get s), hholds.chain.1]
    dsimp only
    rw [Prog.run_bind_ret (deref_run hthread.context_heap),
      Prog.run_bind_ret (Prog.run_modify _ s)]
    have hthread' : (s.setQueue tq ⟨s.queueLink a, (s.queues tq).last⟩).IsThread a := hthread
    rw [Prog.run_bind_ret (setQueueLink_run hthread' none)]
    rfl
  · refine hs.rearrange (everyone_pop hl) rfl (fun tq' => ?_)
    show Carries (Function.update s.queueLink a none) (Function.update s.queues tq _ tq')
      (Function.update l tq rest tq')
    by_cases heq : tq' = tq
    · subst heq
      rw [Function.update_self, Function.update_self]
      exact hholds.pop
    · rw [Function.update_of_ne heq, Function.update_of_ne heq]
      refine (hs.holds tq').congr (fun b hb => Function.update_of_ne ?_ _ _)
      rintro rfl
      exact hs.apart heq hmem hb

theorem threadqPush_run (tq : QueueName) (hs : Shape s (a :: held) l) :
    ∃ links qs, (threadqPush tq a).run s = .ret () (s.relink links qs) ∧
      Shape (s.relink links qs) held (Function.update l tq (l tq ++ [a])) := by
  have hholds := hs.holds tq
  have hthread : s.IsThread a := hs.threads a (mem_everyone.mpr (Or.inl List.mem_cons_self))
  have hnew : ∀ tq', a ∉ l tq' := fun tq' => hs.held_apart List.mem_cons_self
  unfold threadqPush
  rw [Prog.run_bind_ret (setQueueLink_run hthread none), Prog.run_bind_ret (Prog.run_get _)]
  have hqueues : (s.setLink a none).queues = s.queues := rfl
  rw [hqueues]
  cases hfirst : (s.queues tq).first with
  | none =>
      -- the queue is empty: its last pointer does not matter
      have hempty : l tq = [] := hholds.nil_iff.mp hfirst
      refine ⟨_, _, rfl, hs.rearrange everyone_push rfl (fun tq' => ?_)⟩
      show Carries (Function.update s.queueLink a none)
        (Function.update s.queues tq ⟨some a, some a⟩ tq') _
      by_cases heq : tq' = tq
      · subst heq
        rw [Function.update_self, Function.update_self, hempty]
        exact Carries.push_first
      · rw [Function.update_of_ne heq, Function.update_of_ne heq]
        refine (hs.holds tq').congr (fun b hb => Function.update_of_ne ?_ _ _)
        rintro rfl
        exact hnew tq' hb
  | some first =>
      have hne : l tq ≠ [] := fun hempty => by
        rw [hholds.nil_iff.mpr hempty] at hfirst
        cases hfirst
      obtain ⟨b, hb⟩ : ∃ b, (l tq).getLast? = some b :=
        Option.isSome_iff_exists.mp (List.getLast?_isSome.mpr hne)
      have hbmem : b ∈ l tq := List.mem_of_getLast? hb
      have hbthread : (s.setLink a none).IsThread b := hs.isThread hbmem
      dsimp only
      rw [hholds.last b hb]
      refine ⟨Function.update (Function.update s.queueLink a none) b (some a),
        Function.update s.queues tq ⟨some first, some a⟩, ?_,
        hs.rearrange everyone_push rfl (fun tq' => ?_)⟩
      · unfold nonnull
        rw [Prog.run_bind_ret (Prog.run_pure b _),
          Prog.run_bind_ret (setQueueLink_run hbthread (some a))]
        rfl
      · show Carries (Function.update (Function.update s.queueLink a none) b (some a))
          (Function.update s.queues tq ⟨some first, some a⟩ tq') _
        by_cases heq : tq' = tq
        · subst heq
          rw [Function.update_self, Function.update_self, ← hfirst]
          exact hholds.push hb (hnew tq')
        · rw [Function.update_of_ne heq, Function.update_of_ne heq]
          refine (hs.holds tq').congr (fun c hc => ?_)
          have hcb : c ≠ b := by
            rintro rfl
            exact hs.apart heq hbmem hc
          have hca : c ≠ a := by
            rintro rfl
            exact hnew tq' hc
          rw [Function.update_of_ne hcb, Function.update_of_ne hca]

/-! ## The blocks -/

theorem context_setBlock_self : (s.setBlock a (some (.context tc))).context a = tc :=
  context_eq (Function.update_self a _ s.heap)

theorem context_setBlock_of_ne {x : Option Block} (h : b ≠ a) :
    (s.setBlock a x).context b = s.context b := by
  have hheap : (s.setBlock a x).heap b = s.heap b := Function.update_of_ne h _ _
  unfold Threads.context
  rw [hheap]

/-- A stack is not a context. -/
theorem Threads.IsThread.stack_ne (ha : s.IsThread a) (hb : s.IsThread b) :
    (s.context b).stackBottom ≠ a := by
  intro heq
  have hstack := hb.stack
  rw [heq, ha.context_heap] at hstack
  cases hstack

/-- A block that no thread uses changes. -/
theorem Threads.IsThread.setBlock_of_ne {x : Option Block} (hb : s.IsThread b) (hne : b ≠ a)
    (hstack : (s.context b).stackBottom ≠ a) : (s.setBlock a x).IsThread b := by
  refine ⟨s.context b, ?_, ?_⟩
  · exact (Function.update_of_ne hne _ _).trans hb.context_heap
  · exact (Function.update_of_ne hstack _ _).trans hb.stack

theorem Shape.setContext (hs : Shape s held l) (ha : a ∈ everyone held l) (tc : ThreadContext)
    (hstack : tc.stackBottom = (s.context a).stackBottom) :
    Shape (s.setBlock a (some (.context tc))) held l where
  holds := hs.holds
  once := hs.once
  threads := fun b hb => by
    have hthread := hs.threads a ha
    by_cases heq : b = a
    · subst heq
      refine ⟨tc, Function.update_self b _ s.heap, ?_⟩
      rw [hstack]
      exact (Function.update_of_ne (hthread.stack_ne hthread) _ _).trans hthread.stack
    · exact (hs.threads b hb).setBlock_of_ne heq (hthread.stack_ne (hs.threads b hb))
  ownStack := fun b c hb hc heq => by
    have hsame : ∀ x, ((s.setBlock a (some (.context tc))).context x).stackBottom =
        (s.context x).stackBottom := by
      intro x
      by_cases hx : x = a
      · subst hx
        rw [context_setBlock_self, hstack]
      · rw [context_setBlock_of_ne hx]
    rw [hsame, hsame] at heq
    exact hs.ownStack b c hb hc heq

/-! ## `thread_yield` -/

/-- The current thread saves its context. -/
def Threads.save (jb : JmpBuf) (s : Threads) : Threads :=
  match s.curTc with
  | none => s
  | some cur => s.setBlock cur (some (.context { s.context cur with jb := jb }))

theorem save_context : (s.save jb).context b =
    if s.curTc = some b then { s.context b with jb := jb } else s.context b := by
  unfold Threads.save
  cases hcur : s.curTc with
  | none => rfl
  | some cur =>
      by_cases heq : b = cur
      · subst heq
        rw [if_pos rfl]
        exact context_setBlock_self
      · rw [if_neg (fun h => heq (Option.some.inj h).symm)]
        exact context_setBlock_of_ne heq

/-- The thread at `a` runs. -/
def Threads.resume (a : Nat) (s : Threads) : Threads :=
  { s with
    curTc := some a
    regs := (s.context a).jb
    resumed := s.resumed ++ [(s.tid a, (s.context a).jb)] }

theorem longjmp_run (h : s.IsThread a) :
    (longjmp a).run { s with curTc := some a } = .ret () (s.resume a) := by
  have hheap : ({ s with curTc := some a } : Threads).heap a = some (.context (s.context a)) :=
    h.context_heap
  unfold longjmp
  rw [Prog.run_bind_ret (deref_run hheap)]
  rfl

theorem threadYield_none (h : (s.queues .threadQueue).first = none) :
    (threadYield jb).run s = .ret false s := by
  unfold threadYield
  rw [Prog.run_bind_ret (threadqPop_none h)]
  rfl

/-- The current thread, if there is one, is put behind the others, and the first one runs. -/
theorem threadYield_some (jb : JmpBuf) (hs : Shape s s.curTc.toList l)
    (hl : l .threadQueue = a :: rest) :
    ∃ links qs, (threadYield jb).run s = .ret true (((s.save jb).relink links qs).resume a) ∧
      Shape (((s.save jb).relink links qs).resume a) [a]
        (Function.update l .threadQueue (rest ++ s.curTc.toList)) := by
  obtain ⟨links, qs, hpop, hshape⟩ := threadqPop_some hs hl
  have hcur : (s.relink links qs).curTc = s.curTc := rfl
  unfold threadYield
  rw [Prog.run_bind_ret hpop]
  dsimp only
  rw [Prog.run_bind_ret (Prog.run_get _), hcur]
  unfold Threads.save
  cases hc : s.curTc with
  | none =>
      rw [hc] at hshape
      dsimp only
      rw [Prog.run_bind_ret (Prog.run_modify _ _)]
      have hthread : (s.relink links qs).IsThread a :=
        hshape.threads a (mem_everyone.mpr (Or.inl List.mem_cons_self))
      rw [Prog.run_bind_ret (longjmp_run hthread)]
      refine ⟨links, qs, rfl, ?_⟩
      rw [Option.toList_none, List.append_nil]
      exact hshape.rearrange (List.Perm.refl _) rfl hshape.holds
  | some cur =>
      rw [hc] at hshape
      have hmem : cur ∈ everyone [a, cur] (Function.update l .threadQueue rest) :=
        mem_everyone.mpr (Or.inl (by simp))
      have hsaved := hshape.setContext hmem { (s.relink links qs).context cur with jb := jb } rfl
      have hswap : Shape _ [cur, a] (Function.update l .threadQueue rest) :=
        hsaved.rearrange ((List.Perm.swap a cur []).append_right _) rfl hsaved.holds
      obtain ⟨links', qs', hpush, hshape'⟩ := threadqPush_run .threadQueue hswap
      have hthread := hshape'.threads a (mem_everyone.mpr (Or.inl List.mem_cons_self))
      dsimp only
      have hset : (UserThreads.setContext cur (fun tc => { tc with jb := jb })).run
          (s.relink links qs) = .ret () _ := setContext_run (hshape.threads cur hmem).context_heap _
      rw [Prog.run_bind_ret hset, Prog.run_bind_ret hpush,
        Prog.run_bind_ret (Prog.run_modify _ _), Prog.run_bind_ret (longjmp_run hthread)]
      refine ⟨links', qs', rfl, ?_⟩
      rw [Function.update_self, Function.update_idem] at hshape'
      exact hshape'.rearrange (List.Perm.refl _) rfl hshape'.holds

/-! ## `thread_create` -/

section Create

variable {threadEntry entry arg : U32} {st : Nat} {x : Block}

theorem found_free (h : s.found = some a) : s.heap a = none := by
  unfold Threads.found at h
  split at h
  · cases h
  · split at h
    · obtain rfl := Option.some.inj h
      exact Option.isNone_iff_eq_none.mp ‹_›
    · cases h

theorem found_mallocs (h : s.found = some a) : s.mallocs 0 = some a := by
  unfold Threads.found at h
  split at h
  · cases h
  · split at h
    · rwa [← h]
    · cases h

theorem malloc_none (h : s.found = none) : (malloc x).run s = .ret none s.asked := by
  unfold malloc
  rw [Prog.run_bind_ret (Prog.run_get s), Prog.run_bind_ret (Prog.run_modify _ s), h]
  rfl

theorem malloc_some (h : s.found = some a) :
    (malloc x).run s = .ret (some a) (s.asked.setBlock a (some x)) := by
  unfold malloc
  rw [Prog.run_bind_ret (Prog.run_get s), Prog.run_bind_ret (Prog.run_modify _ s), h]
  rfl

theorem free_run (h : s.heap a = some x) :
    (free a).run s = .ret () { s.setBlock a none with freed := s.freed ++ [a] } := by
  unfold free
  rw [Prog.run_bind_ret (Prog.run_get s), h]
  rfl

def Threads.nextTid (s : Threads) : Threads := { s with maxTid := s.maxTid + 1 }

theorem allocTid_run (h : s.maxTid + 1 ≠ ~~~0#32) :
    allocTid.run s = .ret s.maxTid s.nextTid := by
  unfold allocTid
  rw [Prog.run_bind_ret (Prog.run_get s), Prog.run_bind_ret (Prog.run_modify _ s),
    Prog.run_bind_ret (Prog.run_when_false h)]
  rfl

theorem allocTid_stop (h : s.maxTid + 1 = ~~~0#32) : allocTid.run s = .stop s.nextTid := by
  unfold allocTid
  rw [Prog.run_bind_ret (Prog.run_get s), Prog.run_bind_ret (Prog.run_modify _ s), Prog.run_bind,
    Prog.run_when_true h]
  rfl

/-- Nothing that belongs to a thread has changed. -/
structure Untouched (s t : Threads) : Prop where
  curTc : t.curTc = s.curTc
  queues : t.queues = s.queues
  heap : t.heap = s.heap
  queueLink : t.queueLink = s.queueLink
  called : t.called = s.called
  resumed : t.resumed = s.resumed

/-- A block is freed only if it was not in use. -/
def FreesNew (s t : Threads) : Prop :=
  ∃ bs, t.freed = s.freed ++ bs ∧ ∀ b, b ∈ bs → s.heap b = none

/-- `a` is a new thread. -/
structure Created (threadEntry : U32) (s t : Threads) (a st : Nat) : Prop where
  new : s.heap a = none ∧ s.heap st = none
  context : ∃ tc, t.heap a = some (.context tc) ∧ tc.tid = s.maxTid ∧ tc.stackBottom = st ∧
    tc.jb = entryContext threadEntry st ∧ tc.nonhalt = 0
  stack : t.heap st = some .stack
  others : ∀ b, b ≠ a → b ≠ st → t.heap b = s.heap b
  mallocs : s.mallocs 1 = some st
  curTc : t.curTc = s.curTc
  maxTid : t.maxTid = s.maxTid + 1
  called : t.called = s.called
  freed : t.freed = s.freed
  resumed : t.resumed = s.resumed

/-- A thread that was there is not the new one. -/
theorem Created.ne (hc : Created threadEntry s t a st) (hb : s.IsThread b) : b ≠ a ∧ b ≠ st := by
  have hheap := hb.context_heap
  constructor
  · rintro rfl
    rw [hc.new.1] at hheap
    cases hheap
  · rintro rfl
    rw [hc.new.2] at hheap
    cases hheap

theorem Created.context_eq (hc : Created threadEntry s t a st) (hb : s.IsThread b) :
    t.context b = s.context b := by
  obtain ⟨hne, hne'⟩ := hc.ne hb
  unfold Threads.context
  rw [hc.others b hne hne']

theorem Created.relink (hc : Created threadEntry s t a st) (links : Nat → Option Nat)
    (qs : QueueName → Queue Nat) : Created threadEntry s (t.relink links qs) a st :=
  ⟨hc.new, hc.context, hc.stack, hc.others, hc.mallocs, hc.curTc, hc.maxTid, hc.called, hc.freed,
    hc.resumed⟩

/-- The new thread is held by a variable. -/
theorem Created.shape (hc : Created threadEntry s t a st) (hs : Shape s held l)
    (hlink : t.queueLink = s.queueLink) (hqueues : t.queues = s.queues) :
    Shape t (a :: held) l := by
  obtain ⟨tc, hheap, -, hstack, -⟩ := hc.context
  have hold : ∀ b, b ∈ everyone held l →
      t.IsThread b ∧ (t.context b).stackBottom = (s.context b).stackBottom ∧
        (s.context b).stackBottom ≠ st := by
    intro b hb
    have hthread := hs.threads b hb
    obtain ⟨hne, hne'⟩ := hc.ne hthread
    have hstacks : (s.context b).stackBottom ≠ a ∧ (s.context b).stackBottom ≠ st := by
      have hin := hthread.stack
      constructor
      · intro heq
        rw [heq, hc.new.1] at hin
        cases hin
      · intro heq
        rw [heq, hc.new.2] at hin
        cases hin
    refine ⟨⟨s.context b, ?_, ?_⟩, ?_, hstacks.2⟩
    · rw [hc.others b hne hne']
      exact hthread.context_heap
    · rw [hc.others _ hstacks.1 hstacks.2]
      exact hthread.stack
    · rw [hc.context_eq hthread]
  have hnew : (t.context a).stackBottom = st := by
    rw [UserThreads.context_eq hheap, hstack]
  refine ⟨fun tq => ?_, ?_, ?_, ?_⟩
  · rw [hlink, hqueues]
    exact hs.holds tq
  · refine List.nodup_cons.mpr ⟨fun hmem => ?_, hs.once⟩
    exact (hc.ne (hs.threads a hmem)).1 rfl
  · intro b hb
    rcases List.mem_cons.mp hb with rfl | hb
    · exact ⟨tc, hheap, hstack ▸ hc.stack⟩
    · exact (hold b hb).1
  · intro b c hb hb' heq
    rcases List.mem_cons.mp hb with hba | hb <;> rcases List.mem_cons.mp hb' with hca | hb'
    · rw [hba, hca]
    · rw [hba, hnew, (hold c hb').2.1] at heq
      exact absurd heq.symm (hold c hb').2.2
    · rw [hca, hnew, (hold b hb).2.1] at heq
      exact absurd heq (hold b hb).2.2
    · rw [(hold b hb).2.1, (hold c hb').2.1] at heq
      exact hs.ownStack b c hb hb' heq

/-- The block at `a` is a context with the next number. -/
def Threads.numbered (a : Nat) (s : Threads) : Threads :=
  (s.asked.setBlock a (some (.context .null))).nextTid.setBlock a
    (some (.context { ThreadContext.null with tid := s.maxTid }))

theorem numbered_heap :
    (s.numbered a).heap =
      Function.update s.heap a (some (.context { ThreadContext.null with tid := s.maxTid })) :=
  Function.update_idem _ _ s.heap

theorem numbered_context :
    (s.numbered a).heap a = some (.context { ThreadContext.null with tid := s.maxTid }) := by
  rw [numbered_heap, Function.update_self]

/-- The context that `thread_create` fills in. -/
def ThreadContext.made (threadEntry entry arg : U32) (st : Nat) (tc : ThreadContext) :
    ThreadContext :=
  { tc with
    stackBottom := st
    jb := entryContext threadEntry st
    entry := entry
    arg := arg }

/-- The context at `a` has the stack at `st`. -/
def Threads.stacked (threadEntry entry arg : U32) (a st : Nat) (s : Threads) : Threads :=
  ((s.numbered a).asked.setBlock st (some .stack)).setBlock a
    (some (.context (.made threadEntry entry arg st { ThreadContext.null with tid := s.maxTid })))

theorem stacked_created (hfirst : s.found = some a) (hsecond : (s.numbered a).found = some st) :
    Created threadEntry s (s.stacked threadEntry entry arg a st) a st := by
  have hfree := found_free hfirst
  have hst := found_free hsecond
  have hne : st ≠ a := by
    rintro rfl
    rw [numbered_context] at hst
    cases hst
  rw [numbered_heap, Function.update_of_ne hne] at hst
  exact {
    new := ⟨hfree, hst⟩
    context := ⟨_, Function.update_self a _ _, rfl, rfl, rfl, rfl⟩
    stack := (Function.update_of_ne hne _ _).trans (Function.update_self st _ _)
    others := fun b hb hb' => by
      have hkept : (s.numbered a).heap b = s.heap b := by
        rw [numbered_heap, Function.update_of_ne hb]
      rw [← hkept]
      exact (Function.update_of_ne hb _ _).trans (Function.update_of_ne hb' _ _)
    mallocs := found_mallocs hsecond
    curTc := rfl
    maxTid := rfl
    called := rfl
    freed := rfl
    resumed := rfl }

/-- Without a stack the context is given back. -/
theorem numbered_untouched (hfirst : s.found = some a) :
    Untouched s { (s.numbered a).asked.setBlock a none with freed := s.freed ++ [a] } := by
  refine ⟨rfl, rfl, ?_, rfl, rfl, rfl⟩
  show Function.update (s.numbered a).heap a none = s.heap
  rw [numbered_heap, Function.update_idem, ← found_free hfirst, Function.update_eq_self]

/-- `thread_create` makes a thread, which waits behind the others, or it fails and nothing
changes; it panics when there are no more numbers. -/
theorem threadCreate_spec (threadEntry entry arg : U32) (hs : Shape s held l) :
    (∃ t, (threadCreate threadEntry entry arg).run s = .ret (-eNoMem) t ∧ Untouched s t ∧
      FreesNew s t ∧
      (t.maxTid = s.maxTid ∨ (t.maxTid = s.maxTid + 1 ∧ s.maxTid + 1 ≠ ~~~0#32))) ∨
    (∃ t, (threadCreate threadEntry entry arg).run s = .stop t ∧ s.maxTid + 1 = ~~~0#32) ∨
    (∃ t a st, (threadCreate threadEntry entry arg).run s = .ret 0 t ∧
      Created threadEntry s t a st ∧ s.maxTid + 1 ≠ ~~~0#32 ∧
      Shape t held (Function.update l .threadQueue (l .threadQueue ++ [a]))) := by
  unfold threadCreate
  cases hfirst : s.found with
  | none =>
      rw [Prog.run_bind_ret (malloc_none hfirst)]
      exact Or.inl ⟨_, rfl, ⟨rfl, rfl, rfl, rfl, rfl, rfl⟩,
        ⟨[], (List.append_nil _).symm, fun _ hb => absurd hb List.not_mem_nil⟩, Or.inl rfl⟩
  | some a =>
      rw [Prog.run_bind_ret (malloc_some hfirst)]
      dsimp only
      by_cases htid : s.maxTid + 1 = ~~~0#32
      · refine Or.inr (Or.inl ?_)
        have hstop : allocTid.run (s.asked.setBlock a (some (.context .null))) = .stop _ :=
          allocTid_stop htid
        rw [Prog.run_bind, hstop]
        exact ⟨_, rfl, htid⟩
      have halloc : allocTid.run (s.asked.setBlock a (some (.context .null))) =
          .ret s.maxTid _ := allocTid_run htid
      have hheap : (s.asked.setBlock a (some (.context .null))).nextTid.heap a =
          some (.context .null) := Function.update_self a _ s.heap
      have hset : (setContext a (fun c => { c with tid := s.maxTid })).run
          (s.asked.setBlock a (some (.context .null))).nextTid = .ret () (s.numbered a) :=
        setContext_run hheap _
      rw [Prog.run_bind_ret halloc, Prog.run_bind_ret hset]
      cases hsecond : (s.numbered a).found with
      | none =>
          have hasked : (s.numbered a).asked.heap a = _ := numbered_context
          rw [Prog.run_bind_ret (malloc_none hsecond)]
          dsimp only
          rw [Prog.run_bind_ret (free_run hasked)]
          refine Or.inl ⟨_, rfl, numbered_untouched hfirst, ⟨[a], rfl, fun b hb => ?_⟩,
            Or.inr ⟨rfl, htid⟩⟩
          rw [List.mem_singleton.mp hb]
          exact found_free hfirst
      | some st =>
          have hcreated : Created threadEntry s (s.stacked threadEntry entry arg a st) a st :=
            stacked_created hfirst hsecond
          have hkept : ((s.numbered a).asked.setBlock st (some .stack)).heap a = _ :=
            (Function.update_of_ne (fun heq => by
              have hst := found_free hsecond
              rw [← heq, numbered_context] at hst
              cases hst) _ _).trans numbered_context
          have hmade : (setContext a (.made threadEntry entry arg st)).run
              ((s.numbered a).asked.setBlock st (some .stack)) =
                .ret () (s.stacked threadEntry entry arg a st) := setContext_run hkept _
          obtain ⟨links, qs, hpush, hshape⟩ :=
            threadqPush_run .threadQueue (hcreated.shape hs rfl rfl)
          rw [Prog.run_bind_ret (malloc_some hsecond)]
          dsimp only
          refine Or.inr (Or.inr ⟨_, a, st, ?_, hcreated.relink links qs, htid, hshape⟩)
          refine (Prog.run_bind_ret hmade).trans ?_
          rw [Prog.run_bind_ret hpush]
          rfl

end Create

/-! ## `thread_halt` -/

/-- The functions that a thread has registered, with its number. -/
def ThreadContext.calls (tc : ThreadContext) : List (U32 × U32) :=
  (List.range tc.nonhalt).map (fun i => (tc.onhalt i, tc.tid))

theorem called_run (f : Nat → U32 × U32) (i n : Nat) :
    (Prog.forRange i n (fun i =>
      Prog.modify (fun s => { s with called := s.called ++ [f i] }))).run s =
      .ret () { s with called := s.called ++ (List.range' i n).map f } := by
  induction n generalizing i s with
  | zero =>
      rw [List.range'_zero, List.map_nil, List.append_nil]
      rfl
  | succ n ih =>
      unfold Prog.forRange
      rw [Prog.run_bind_ret (Prog.run_modify _ s), ih, List.range'_succ, List.map_cons]
      simp only [List.append_assoc, List.singleton_append]

/-- A thread is cleaned up. -/
def Threads.cleaned (b : Nat) (s : Threads) : Threads :=
  { s with
    heap := Function.update (Function.update s.heap (s.context b).stackBottom none) b none
    called := s.called ++ (s.context b).calls
    freed := s.freed ++ [(s.context b).stackBottom, b] }

theorem threadClean_run (hb : s.IsThread b) :
    (threadClean (some b)).run s = .ret () (s.cleaned b) := by
  have hne : b ≠ (s.context b).stackBottom := (hb.stack_ne hb).symm
  have hstack := free_run (s := { s with
    called := s.called ++ (List.range' 0 (s.context b).nonhalt).map
      (fun i => ((s.context b).onhalt i, (s.context b).tid)) }) hb.stack
  unfold threadClean
  rw [Prog.run_bind_ret (deref_run hb.context_heap), Prog.run_bind_ret (called_run _ _ _),
    Prog.run_bind_ret hstack]
  have hheap : Function.update s.heap (s.context b).stackBottom none b =
      some (.context (s.context b)) :=
    (Function.update_of_ne hne none s.heap).trans hb.context_heap
  have hfree := free_run (s := { s with
    heap := Function.update s.heap (s.context b).stackBottom none
    called := s.called ++ (List.range' 0 (s.context b).nonhalt).map
      (fun i => ((s.context b).onhalt i, (s.context b).tid))
    freed := s.freed ++ [(s.context b).stackBottom] }) hheap
  refine hfree.trans ?_
  unfold Threads.cleaned ThreadContext.calls Threads.setBlock
  simp only [List.append_assoc, List.singleton_append, List.range_eq_range']

/-- The others keep their blocks. -/
theorem cleaned_heap (ha : s.IsThread a) (hb : s.IsThread b) (hab : a ≠ b) :
    (s.cleaned b).heap a = s.heap a :=
  (Function.update_of_ne hab _ _).trans (Function.update_of_ne (ha.stack_ne hb).symm _ _)

theorem cleaned_context (ha : s.IsThread a) (hb : s.IsThread b) (hab : a ≠ b) :
    (s.cleaned b).context a = s.context a := by
  unfold Threads.context
  rw [cleaned_heap ha hb hab]

theorem cleaned_stack (ha : s.IsThread a) (hb : s.IsThread b)
    (hab : (s.context a).stackBottom ≠ (s.context b).stackBottom) :
    (s.cleaned b).heap (s.context a).stackBottom = some .stack :=
  (Function.update_of_ne (hb.stack_ne ha) _ _).trans
    ((Function.update_of_ne hab _ _).trans ha.stack)

theorem Shape.cleaned (hs : Shape s (b :: held) l) : Shape (s.cleaned b) held l := by
  have hb := hs.threads b List.mem_cons_self
  obtain ⟨hnew, honce⟩ := List.nodup_cons.mp hs.once
  have hmem : ∀ a, a ∈ everyone held l → s.IsThread a ∧ a ≠ b := by
    intro a ha
    refine ⟨hs.threads a (List.mem_cons_of_mem b ha), ?_⟩
    rintro rfl
    exact hnew ha
  refine ⟨hs.holds, honce, fun a ha => ?_, fun a c ha hc heq => ?_⟩
  · obtain ⟨hthread, hab⟩ := hmem a ha
    refine ⟨s.context a, (cleaned_heap hthread hb hab).trans hthread.context_heap,
      cleaned_stack hthread hb (fun heq => ?_)⟩
    exact hab (hs.ownStack a b (List.mem_cons_of_mem b ha) List.mem_cons_self heq)
  · rw [cleaned_context (hmem a ha).1 hb (hmem a ha).2,
      cleaned_context (hmem c hc).1 hb (hmem c hc).2] at heq
    exact hs.ownStack a c (List.mem_cons_of_mem b ha) (List.mem_cons_of_mem b hc) heq

/-- The thread that has halted before, if there is one, is cleaned up. -/
def Threads.cleanedLast (k : List Nat) (s : Threads) : Threads :=
  match k with
  | [] => s
  | b :: _ => s.cleaned b

/-- The first half of `thread_halt`. -/
theorem threadClean_last (hs : Shape s held l) (hk : (l .killQueue).length ≤ 1) :
    ∃ links qs, (do
        let last ← threadqPop .killQueue
        threadClean last).run s =
          .ret () ((s.relink links qs).cleanedLast (l .killQueue)) ∧
      Shape ((s.relink links qs).cleanedLast (l .killQueue)) held
        (Function.update l .killQueue []) := by
  match hl : l .killQueue with
  | [] =>
      have hempty := (hs.holds .killQueue).nil_iff.mpr hl
      refine ⟨s.queueLink, s.queues, ?_, ?_⟩
      · rw [Prog.run_bind_ret (threadqPop_none hempty)]
        rfl
      · rw [← hl, Function.update_eq_self, hl]
        exact hs
  | [b] =>
      obtain ⟨links, qs, hpop, hshape⟩ := threadqPop_some hs hl
      refine ⟨links, qs, ?_, hshape.cleaned⟩
      rw [Prog.run_bind_ret hpop]
      exact threadClean_run (hshape.threads b List.mem_cons_self)
  | _ :: _ :: _ =>
      simp only [hl, List.length_cons] at hk
      omega

/-- The current thread is on `kill_queue`. -/
def Threads.left (k : List Nat) (s : Threads) : Threads := { s.cleanedLast k with curTc := none }

theorem cleanedLast_relink (k : List Nat) (links : Nat → Option Nat)
    (qs : QueueName → Queue Nat) :
    (s.relink links qs).cleanedLast k = (s.cleanedLast k).relink links qs := by
  cases k <;> rfl

theorem cleanedLast_curTc (k : List Nat) : (s.cleanedLast k).curTc = s.curTc := by
  cases k <;> rfl

/-- The threads that are not on `kill_queue` keep their contexts. -/
theorem Shape.cleanedLast_context (hs : Shape s held l) (ha : a ∈ held ∨ a ∈ l .threadQueue) :
    (s.cleanedLast (l .killQueue)).context a = s.context a := by
  have hthread : s.IsThread a := hs.threads a (mem_everyone.mpr (ha.imp id (fun h => ⟨_, h⟩)))
  cases hl : l .killQueue with
  | nil => rfl
  | cons b k =>
      have hb : b ∈ l .killQueue := by
        rw [hl]
        exact List.mem_cons_self
      refine cleaned_context hthread (hs.isThread hb) ?_
      rintro rfl
      exact ha.elim (fun h => hs.held_apart h hb) (fun h => hs.apart (by decide) h hb)

/-- `thread_halt` gives the processor to the first of the threads that wait, if there is
one. -/
theorem threadHalt_spec (jb : JmpBuf) (hs : Shape s s.curTc.toList l) (hcur : s.curTc = some cur)
    (hk : (l .killQueue).length ≤ 1) :
    (l .threadQueue = [] → ∃ links qs,
      (threadHalt jb).run s = .exit ((s.left (l .killQueue)).relink links qs) ∧
        (qs .threadQueue).first = none) ∧
    (∀ a rest, l .threadQueue = a :: rest → ∃ links qs,
      (threadHalt jb).run s =
          .ret () (((s.left (l .killQueue)).relink links qs).resume a) ∧
        Shape (((s.left (l .killQueue)).relink links qs).resume a) [a]
          (Function.update (Function.update l .killQueue [cur]) .threadQueue rest)) := by
  obtain ⟨links, qs, hclean, hshape⟩ := threadClean_last hs hk
  rw [cleanedLast_relink] at hclean hshape
  rw [hcur] at hshape
  obtain ⟨links', qs', hpush, hshape'⟩ := threadqPush_run .killQueue hshape
  rw [Function.update_self, List.nil_append, Function.update_idem] at hshape'
  have hcur' : ((s.cleanedLast (l .killQueue)).relink links qs).curTc = some cur :=
    (cleanedLast_curTc _).trans hcur
  have hrun : (threadHalt jb).run s = (do
      let switched ← threadYield jb
      if switched then pure () else Prog.exit : Prog Threads Unit).run
        ((s.left (l .killQueue)).relink links' qs') := by
    unfold threadHalt
    rw [← Prog.bind_assoc, Prog.run_bind_ret hclean, Prog.run_bind_ret (Prog.run_get _), hcur']
    unfold nonnull
    rw [Prog.run_bind_ret (Prog.run_pure cur _), Prog.run_bind_ret hpush,
      Prog.run_bind_ret (Prog.run_modify _ _)]
    rfl
  have hleft : Shape ((s.left (l .killQueue)).relink links' qs')
      ((s.left (l .killQueue)).relink links' qs').curTc.toList
      (Function.update l .killQueue [cur]) :=
    hshape'.rearrange (List.Perm.refl _) rfl hshape'.holds
  have hthread : Function.update l .killQueue [cur] .threadQueue = l .threadQueue :=
    Function.update_of_ne (by decide) _ _
  rw [hrun]
  constructor
  · intro hempty
    have hnone := (hleft.holds .threadQueue).nil_iff.mpr (hthread.trans hempty)
    refine ⟨links', qs', ?_, hnone⟩
    rw [Prog.run_bind_ret (threadYield_none hnone)]
    rfl
  · intro a rest hl
    obtain ⟨links'', qs'', hyield, hshape''⟩ :=
      threadYield_some jb hleft (hthread.trans hl)
    refine ⟨links'', qs'', ?_, ?_⟩
    · rw [Prog.run_bind_ret hyield]
      rfl
    · have hnone : ((s.left (l .killQueue)).relink links' qs').curTc.toList = [] := rfl
      rw [hnone, List.append_nil] at hshape''
      exact hshape''

/-! ## `thread_onhalt` -/

/-- A function is registered. -/
def ThreadContext.register (fn : U32) (tc : ThreadContext) : ThreadContext :=
  { tc with onhalt := Function.update tc.onhalt tc.nonhalt fn, nonhalt := tc.nonhalt + 1 }

theorem register_calls (fn : U32) : (tc.register fn).calls = tc.calls ++ [(fn, tc.tid)] := by
  unfold ThreadContext.calls ThreadContext.register
  rw [List.range_succ, List.map_append]
  refine congrArg₂ _ (List.map_congr_left (fun i hi => ?_)) ?_
  · have hlt := List.mem_range.mp hi
    simp only [Function.update_of_ne hlt.ne]
  · simp

theorem threadOnhalt_spec (hs : Shape s s.curTc.toList l) (hcur : s.curTc = some cur) (fn : U32) :
    (threadOnhalt fn).run s = .ret (-eNoMem) s ∨
    (threadOnhalt fn).run s =
      .ret 0 (s.setBlock cur (some (.context ((s.context cur).register fn)))) := by
  have hheap : s.heap cur = some (.context (s.context cur)) :=
    (hs.threads cur (mem_everyone.mpr (Or.inl (by simp [hcur])))).context_heap
  unfold threadOnhalt
  rw [Prog.run_bind_ret (Prog.run_get s), hcur]
  unfold nonnull
  rw [Prog.run_bind_ret (Prog.run_pure cur s), Prog.run_bind_ret (deref_run hheap)]
  by_cases hfull : threadNumOnhalt ≤ (s.context cur).nonhalt
  · rw [if_pos hfull]
    exact Or.inl rfl
  · rw [if_neg hfull, Prog.run_bind_ret (setContext_run hheap _)]
    exact Or.inr rfl

end UserThreads

end Jos
