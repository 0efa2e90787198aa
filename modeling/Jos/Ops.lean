import Jos.LoadIcode
import Jos.Scheduling
import Jos.Trap

/-!
# What the kernel does for an environment

A system call does at most one thing to the address spaces (`VmOp`) and after
it at most one thing to the table of environments (`EnvOp`); after the first
there may be `Quiet` changes, which concern devices only.

`Does` gives the meaning of an operation by the functions of the kernel that
carry it out, so nothing is assumed here about the state in which it is done.
-/

namespace Jos

open Programs

/-! ## Changes that concern devices -/

/-- The environments and the processors are the same. -/
structure SameProcs (k k' : Kernel) : Prop where
  envs : k'.envs = k.envs
  envFreeList : k'.envFreeList = k.envFreeList
  cpus : k'.cpus = k.cpus
  ncpu : k'.ncpu = k.ncpu
  kernelLock : k'.kernelLock = k.kernelLock

/-- What concerns neither environments, nor processors, nor memory: the
console, the network card, the clock, the trace, and the address that
`user_mem_check` notes. -/
structure Quiet (k k' : Kernel) : Prop where
  procs : SameProcs k k'
  memory : ∃ a, k'.vm = { k.vm with userMemCheckAddr := a }

section Quiet

variable {k k' k'' : Kernel} {c : Nat}

theorem SameProcs.refl (k : Kernel) : SameProcs k k := ⟨rfl, rfl, rfl, rfl, rfl⟩

theorem SameProcs.trans (h : SameProcs k k') (h' : SameProcs k' k'') :
    SameProcs k k'' :=
  ⟨h'.envs.trans h.envs, h'.envFreeList.trans h.envFreeList,
    h'.cpus.trans h.cpus, h'.ncpu.trans h.ncpu,
    h'.kernelLock.trans h.kernelLock⟩

theorem SameProcs.curenv (h : SameProcs k k') : k'.curenv c = k.curenv c := by
  unfold Kernel.curenv
  rw [h.cpus]

theorem sameProcs_setVm (vm : PhysMem) : SameProcs k (k.setVm vm) :=
  ⟨rfl, rfl, rfl, rfl, rfl⟩

theorem Quiet.refl (k : Kernel) : Quiet k k :=
  ⟨.refl k, k.vm.userMemCheckAddr, rfl⟩

theorem Quiet.trans (h : Quiet k k') (h' : Quiet k' k'') : Quiet k k'' := by
  obtain ⟨a, ha⟩ := h.memory
  obtain ⟨b, hb⟩ := h'.memory
  refine ⟨h.procs.trans h'.procs, b, ?_⟩
  rw [hb, ha]

/-- A change that leaves environments, processors and memory alone. -/
theorem quiet_of_same (hp : SameProcs k k') (hv : k'.vm = k.vm) :
    Quiet k k' :=
  ⟨hp, k.vm.userMemCheckAddr, hv⟩

theorem quiet_log (ev : MemEvent) : Quiet k (k.log ev) :=
  quiet_of_same ⟨rfl, rfl, rfl, rfl, rfl⟩ rfl

theorem quiet_putch (ch : U8) : Quiet k (k.putch ch) :=
  quiet_of_same ⟨rfl, rfl, rfl, rfl, rfl⟩ rfl

theorem quiet_modifyNic (f : E1000 → E1000) : Quiet k (k.modifyNic f) :=
  quiet_of_same ⟨rfl, rfl, rfl, rfl, rfl⟩ rfl

end Quiet

/-! ## Operations on address spaces -/

inductive VmOp where
  /-- `sys_page_alloc`. -/
  | newPage (e : Nat) (va perm : U32)
  /-- The page that `src` maps at `srcva` is mapped by `e` as well. -/
  | share (src : Nat) (srcva : U32) (e : Nat) (va perm : U32)
  /-- `sys_page_unmap`. -/
  | unmap (e : Nat) (va : U32)
  /-- The stores of `sys_env_set_trapframe`. -/
  | patch (tf : U32)
  /-- The exception stack frame is written. -/
  | pushFrame (utr : U32) (words : List U32)
  /-- `sys_pkt_recv`. -/
  | receive (addr len : U32)

/-- The stores of `sys_env_set_trapframe`. -/
def patchTf (c : Nat) (tf : U32) : Prog Kernel Unit := do
  storeU32 c (tf + 56#32) flIf
  let eflags ← loadU32 c (tf + 56#32)
  storeU32 c (tf + 56#32) (eflags &&& ~~~flIoplMask)
  storeU16 c (tf + 52#32) (gdUt ||| 3#16)

/-- What processor `c` does to memory in an operation. -/
def VmOp.Does (c : Nat) (k k' : Kernel) : VmOp → Prop
  | newPage e va perm => ∃ d pg m₁ m₂,
      (k.envs e).envPgdir = some d ∧
      (pageAlloc true).run k.vm = .ret (some pg) m₁ ∧
      (((pageInsert (k.thisCpu c) d pg va perm).run m₁ = .ret 0 m₂ ∧
          k' = k.setVm m₂) ∨
        (∃ r m₃, r ≠ 0 ∧
          (pageInsert (k.thisCpu c) d pg va perm).run m₁ = .ret r m₃ ∧
          (pageFree pg).run m₃ = .ret () m₂ ∧ k' = k.setVm m₂))
  | share src srcva e va perm => ∃ ds d w r m,
      (k.envs src).envPgdir = some ds ∧ (k.envs e).envPgdir = some d ∧
      entryOf k.vm.mem ds (pdx srcva) (ptx srcva) = some w ∧
      (pageInsert (k.thisCpu c) d (pgnum w) va perm).run k.vm = .ret r m ∧
      k' = k.setVm m
  | unmap e va => ∃ d m,
      (k.envs e).envPgdir = some d ∧
      (pageRemove (k.thisCpu c) d va).run k.vm = .ret () m ∧ k' = k.setVm m
  | patch tf => (patchTf c tf).run k = .ret () k'
  | pushFrame utr words =>
      (storeBytes c utr (words.flatMap bytesOfU32)).run k = .ret () k'
  | receive addr len => ∃ r, (e1000Receive c addr len).run k = .ret r k'

/-! ## Operations on environments -/

inductive EnvOp where
  /-- `sys_env_set_trapframe`. -/
  | setTf (e : Nat) (tf : Trapframe)
  | setUpcall (e : Nat) (func : U32)
  | setStatus (e : Nat) (st : EnvStatus)
  /-- `sys_exofork`. -/
  | fork (e : Nat)
  /-- `env_destroy` of an environment that this processor does not run. -/
  | kill (e : Nat)
  /-- A message is delivered, and a page if `perm` is given. -/
  | deliver (rcv : Nat) (value : U32) (perm : Option U32)

/-- A message arrives with a page. -/
def Env.takePage (v : Env) : Option U32 → Env
  | none => v
  | some perm => { v with envIpcPerm := perm }

/-- The end of `sys_exofork`: the child is a copy that is not yet runnable. -/
def Kernel.asChild (k : Kernel) (e : Nat) (tf : Trapframe) : Kernel :=
  k.modifyEnv e (fun v =>
    { v with envTf := tf.setEax 0#32, envStatus := .notRunnable })

/-- What processor `c` does to the table in an operation for `cur`. -/
def EnvOp.Does (c cur : Nat) (k k' : Kernel) : EnvOp → Prop
  | setTf e tf => k' = k.modifyEnv e (fun v => { v with envTf := tf })
  | setUpcall e func =>
      k' = k.modifyEnv e (fun v => { v with envPgfaultUpcall := func })
  | setStatus e st => k' = k.setStatus e st
  | fork e => ∃ k₁, (envAlloc (k.envs cur).envId).run k = .ret (.ok e) k₁ ∧
      k' = k₁.asChild e (k₁.envs cur).envTf
  | kill e => k.curenv c ≠ some e ∧
      (((k.envs e).envStatus = .running ∧ k' = k.setStatus e .dying) ∨
        ((k.envs e).envStatus ≠ .running ∧ (envFree c e).run k = .ret () k'))
  | deliver rcv value perm => k' = k.modifyEnv rcv (fun v =>
      (v.takePage perm).deliver (k.envs cur).envId value)

/-- The current environment is gone. -/
def Dies (c cur : Nat) (k k' : Kernel) : Prop :=
  ∃ k₁, k.curenv c = some cur ∧ (envFree c cur).run k = .ret () k₁ ∧
    k' = k₁.setCurenv c none

/-- The current environment waits for a message. -/
def Kernel.blocked (k : Kernel) (cur : Nat) (dstva : U32) : Kernel :=
  k.modifyEnv cur (fun v =>
    { v with
      envIpcRecving := true
      envStatus := .notRunnable
      envIpcDstva := dstva })

/-! ## Service -/

/-- A change of memory by at most one operation out of `asked`, and quiet
changes. -/
inductive VmServed (c : Nat) (asked : VmOp → Prop) (k k' : Kernel) : Prop where
  | quiet : Quiet k k' → VmServed c asked k k'
  | op (op : VmOp) (k₁ : Kernel) :
      asked op → op.Does c k k₁ → Quiet k₁ k' → VmServed c asked k k'

/-- A change by at most one operation on memory, and then at most one on the
table. -/
inductive Served (c cur : Nat) (vmAsked : VmOp → Prop) (envAsked : EnvOp → Prop)
    (k k' : Kernel) : Prop where
  | memory : VmServed c vmAsked k k' → Served c cur vmAsked envAsked k k'
  | envs (op : EnvOp) (k₁ : Kernel) :
      VmServed c vmAsked k k₁ → envAsked op → op.Does c cur k₁ k' →
      Served c cur vmAsked envAsked k k'

end Jos
