import Jos.PageOps

/-!
# `kern/env.c`: environments and their life

`envid2env`, `env_init`, `env_setup_vm`, `env_alloc` and `env_free`, as the
source has them.  A `struct Env *` is a slot number below `NENV`.

A function that stores its result through a pointer and returns `0` or an
error code is a program with result `Except Int _`: the error code, or the
value stored.
-/

namespace Jos

open Programs

/-- `1 << ENVGENSHIFT`. -/
def envGen : U32 := 1#32 <<< 12

/-- `envid2env`.  On behalf of no environment the source follows a null `curenv`:
it checks the parent, or its caller uses what was found. -/
def envid2env (c : Nat) (envid : U32) (checkperm : Bool) :
    Prog Kernel (Except Int Nat) := do
  let k ← Prog.get
  if envid = 0#32 then
    match k.curenv c with
    | none => Prog.stop
    | some cur => pure (.ok cur)
  else
    let e := envx envid
    if (k.envs e).envStatus = .free ∨ (k.envs e).envId ≠ envid then
      pure (.error (-eBadEnv))
    else if checkperm = true ∧ k.curenv c ≠ some e then
      match k.curenv c with
      | none => Prog.stop
      | some cur =>
          if (k.envs e).envParentId ≠ (k.envs cur).envId then
            pure (.error (-eBadEnv))
          else
            pure (.ok e)
    else
      pure (.ok e)

/-- `env_init`: every slot is free, and the free list has them in order. -/
def envInit (k : Kernel) : Kernel :=
  { k with
    envs := fun e =>
      { k.envs e with
        envStatus := .free
        envId := 0#32
        envLink := if e + 1 < nenv then some (e + 1) else (k.envs e).envLink }
    envFreeList := some 0 }

/-- `env_setup_vm`. -/
def envSetupVm (e : Nat) : Prog Kernel (Except Int Unit) := do
  match ← onVm (pageAlloc true) with
  | none => pure (.error (-eNoMem))
  | some p => do
      let pgdir ← onVm (page2kva p)
      Prog.modify (fun k => k.setPgdir e (some pgdir))
      onVm (pageIncref p)
      -- memcpy(e->env_pgdir, kern_pgdir, PGSIZE)
      onVm (Prog.modify (fun m => m.setPage pgdir (m.mem m.kernPgdir)))
      onVm (writePte ⟨pgdir, pdx uvpt⟩ (page2pa pgdir ||| pteP ||| pteU))
      pure (.ok ())

/-- The id that `env_alloc` gives to slot `e`: the next generation, kept
positive as a signed number. -/
def nextEnvId (envId : U32) (e : Nat) : U32 :=
  let generation := (envId + envGen) &&& ~~~(BitVec.ofNat 32 (nenv - 1))
  (if generation.toInt ≤ 0 then envGen else generation) ||| BitVec.ofNat 32 e

/-- The trap frame of a new environment. -/
def initialTf : Trapframe :=
  { Trapframe.zero with
    tfDs := gdUd ||| 3#16
    tfEs := gdUd ||| 3#16
    tfSs := gdUd ||| 3#16
    tfEsp := ustacktop
    tfCs := gdUt ||| 3#16
    tfEflags := flIf }

/-- The fields that `env_alloc` fills in once the address space is there. -/
def freshEnv (old : Env) (e : Nat) (parentId : U32) : Env :=
  { old with
    envId := nextEnvId old.envId e
    envParentId := parentId
    envType := .user
    envStatus := .runnable
    envRuns := 0#32
    envTf := initialTf
    envPgfaultUpcall := 0#32
    envIpcRecving := false }

/-- `env_alloc`. -/
def envAlloc (parentId : U32) : Prog Kernel (Except Int Nat) := do
  let k ← Prog.get
  match k.envFreeList with
  | none => pure (.error (-eNoFreeEnv))
  | some e => do
      match ← envSetupVm e with
      | .error r => pure (.error r)
      | .ok () => do
          Prog.modify (fun k => k.setEnv e (freshEnv (k.envs e) e parentId))
          -- commit the allocation
          Prog.modify (fun k => { k with envFreeList := (k.envs e).envLink })
          pure (.ok e)

/-- The inner loop of `env_free`: unmap every page of one page table. -/
def envFreeEntries (tc : ThisCpu) (pgdir pdeno pt : Nat) :
    Prog PhysMem Unit :=
  Prog.forRange 0 nptentries (fun pteno => do
    let pte ← readPte ⟨pt, pteno⟩
    Prog.when (HasFlag pte pteP)
      (pageRemove tc pgdir (pgaddr pdeno pteno 0)))

/-- One turn of the outer loop of `env_free`. -/
def envFreeTable (tc : ThisCpu) (pgdir pdeno : Nat) : Prog PhysMem Unit := do
  let pde ← readPte ⟨pgdir, pdeno⟩
  Prog.when (HasFlag pde pteP) (do
    let pt ← kaddr (pteAddr pde)
    envFreeEntries tc pgdir pdeno pt
    -- free the page table itself
    writePte ⟨pgdir, pdeno⟩ 0#32
    let pp ← pa2page (pteAddr pde)
    pageDecref pp)

/-- `env_free`, run by processor `c`. -/
def envFree (c e : Nat) : Prog Kernel Unit := do
  let k ← Prog.get
  match (k.envs e).envPgdir with
  | none => Prog.stop
  | some pgdir => do
      Prog.when (k.curenv c = some e) (onVm (lcr3 c k.vm.kernPgdir))
      onVm (Prog.forRange 0 userPdes (envFreeTable (k.thisCpu c) pgdir))
      -- free the page directory
      Prog.modify (fun k => k.setPgdir e none)
      let pp ← onVm (pa2page (page2pa pgdir))
      onVm (pageDecref pp)
      -- return the environment to the free list
      Prog.modify (fun k =>
        { k.setEnv e
            { k.envs e with envStatus := .free, envLink := k.envFreeList } with
          envFreeList := some e })

end Jos
