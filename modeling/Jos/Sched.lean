import Jos.Env

/-!
# Running and leaving environments

The kernel lock, `env_run`, `env_destroy` and `kern/sched.c`, as the source
has them, for processor `c`.  None of `env_run`, `sched_yield` and `sched_halt`
returns: the first two leave the kernel for user code, the last for the `hlt`
loop, or it stops in the monitor when there is nothing left to run.
-/

namespace Jos

open Programs

/-- `lock_kernel`, for a lock that nobody is about to release: a processor
that finds it taken spins for ever. -/
def lockKernel (c : Nat) : Prog Kernel Unit := do
  let k ← Prog.get
  if k.kernelLock = none then
    Prog.modify (fun k => k.setLock (some c))
  else
    Prog.stop

/-- `unlock_kernel`; releasing a lock one does not hold is a panic. -/
def unlockKernel (c : Nat) : Prog Kernel Unit := do
  let k ← Prog.get
  if k.kernelLock = some c then
    Prog.modify (fun k => k.setLock none)
  else
    Prog.stop

/-- `env_pop_tf`: note the processor, and drop into user mode. -/
def envPopTf (c e : Nat) : Prog Kernel Unit := do
  Prog.modify (fun k => k.modifyEnv e (fun v => { v with envCpunum := c }))
  Prog.modify (fun k => k.setPlace c .user)
  Prog.exit

/-- The current environment goes back to `ENV_RUNNABLE` if it is running. -/
def Kernel.preempt (k : Kernel) (c : Nat) : Kernel :=
  match k.curenv c with
  | none => k
  | some cur =>
      if (k.envs cur).envStatus = .running then k.setStatus cur .runnable else k

/-- `env_run`. -/
def envRun (c e : Nat) : Prog Kernel Unit := do
  Prog.modify (fun k => k.preempt c)
  Prog.modify (fun k => k.setCurenv c (some e))
  Prog.modify (fun k => k.setStatus e .running)
  Prog.modify (fun k =>
    k.modifyEnv e (fun v => { v with envRuns := v.envRuns + 1#32 }))
  let k ← Prog.get
  match (k.envs e).envPgdir with
  | none => Prog.stop
  | some pgdir => do
      onVm (lcr3 c pgdir)
      unlockKernel c
      envPopTf c e

/-- Some environment is running, about to run, or dying. -/
def Kernel.Busy (k : Kernel) : Prop :=
  ∃ e, e < nenv ∧ ((k.envs e).envStatus = .runnable ∨
    (k.envs e).envStatus = .running ∨ (k.envs e).envStatus = .dying)

@[irreducible] instance decidableBusy (k : Kernel) : Decidable k.Busy :=
  inferInstanceAs (Decidable (∃ e, e < nenv ∧ _))

/-- `sched_halt`. -/
def schedHalt (c : Nat) : Prog Kernel Unit := do
  let k ← Prog.get
  if k.Busy then do
    Prog.modify (fun k => k.setCurenv c none)
    onVm (lcr3 c k.vm.kernPgdir)
    Prog.modify (fun k => k.setCpuStatus c .halted)
    unlockKernel c
    Prog.modify (fun k => k.setPlace c .idle)
    Prog.exit
  else
    -- the monitor is never left
    Prog.stop

/-- Where `sched_yield` starts to look: behind the environment this processor
was last running. -/
def schedStart (k : Kernel) (c : Nat) : Nat :=
  match k.curenv c with
  | none => 0
  | some cur => envx (k.envs cur).envId + 1

/-- `sched_yield`. -/
def schedYield (c : Nat) : Prog Kernel Unit := do
  let k ← Prog.get
  let start := schedStart k c
  Prog.forRange 0 nenv (fun i => do
    let j := (start + i) % nenv
    let k ← Prog.get
    Prog.when ((k.envs j).envStatus = .runnable) (envRun c j))
  match k.curenv c with
  | none => pure ()
  | some cur =>
      Prog.when ((k.envs cur).envStatus = .running) (envRun c cur)
  schedHalt c

/-- `env_destroy`. -/
def envDestroy (c e : Nat) : Prog Kernel Unit := do
  let k ← Prog.get
  if (k.envs e).envStatus = .running ∧ k.curenv c ≠ some e then
    Prog.modify (fun k => k.setStatus e .dying)
  else do
    envFree c e
    let k ← Prog.get
    Prog.when (k.curenv c = some e) (do
      Prog.modify (fun k => k.setCurenv c none)
      schedYield c)

end Jos
