import Jos.Syscall

/-!
# `kern/trap.c`: entering the kernel

`trap` and what it calls, as processor `c` runs them.  A trap from user mode
takes the kernel lock; a processor that was halted takes it on waking up.  No
trap ends by returning: the processor leaves the kernel through `env_run` or
`sched_halt`.
-/

namespace Jos

open Programs

/-- `T_BRKPT`. -/
def tBrkpt : U32 := 3#32

/-- `T_PGFLT`. -/
def tPgflt : U32 := 14#32

/-- `T_SYSCALL`. -/
def tSyscall : U32 := 48#32

/-- `IRQ_OFFSET`. -/
def irqOffset : U32 := 32#32

/-- `IRQ_TIMER`. -/
def irqTimer : U32 := 0#32

/-- `IRQ_KBD`. -/
def irqKbd : U32 := 1#32

/-- `IRQ_SERIAL`. -/
def irqSerial : U32 := 4#32

/-- `IRQ_SPURIOUS`. -/
def irqSpurious : U32 := 7#32

/-- A trap frame was saved in user mode: `(tf->tf_cs & 3) == 3`. -/
def Trapframe.FromUser (tf : Trapframe) : Prop := tf.tfCs &&& 3#16 = 3#16

instance (tf : Trapframe) : Decidable tf.FromUser :=
  inferInstanceAs (Decidable (_ = _))

/-- `time_tick`. -/
def timeTick : Prog Kernel Unit := do
  Prog.modify (fun k => { k with ticks := k.ticks + 1#32 })
  let k ← Prog.get
  if k.ticks * 10#32 < k.ticks then Prog.stop else pure ()

/-- `sizeof(struct UTrapframe)`. -/
def utrapframeSize : U32 := 52#32

/-- The words of a `struct UTrapframe`, in the order of the assignments. -/
def utrapframeWords (faultVa : U32) (tf : Trapframe) : List U32 :=
  [faultVa, tf.tfErr, tf.tfRegs.regEdi, tf.tfRegs.regEsi, tf.tfRegs.regEbp,
    tf.tfRegs.regOesp, tf.tfRegs.regEbx, tf.tfRegs.regEdx, tf.tfRegs.regEcx,
    tf.tfRegs.regEax, tf.tfEip, tf.tfEflags, tf.tfEsp]

/-- Where the exception stack frame goes: below the frame the environment was
on, or at the top of the exception stack. -/
def exceptionStackTop (esp : U32) : U32 :=
  if uxstacktop - pgsize < esp ∧ esp < uxstacktop then esp else uxstacktop

/-- `page_fault_handler`; `e` is the environment that `tf` belongs to, if it
was saved in user mode. -/
def pageFaultHandler (io : Inputs) (c : Nat) (tf : Trapframe) :
    Prog Kernel Unit := do
  if tf.tfCs &&& 3#16 = 0#16 then
    Prog.stop
  else do
    let cur ← theCurenv c
    let k ← Prog.get
    if (k.envs cur).envPgfaultUpcall ≠ 0#32 then do
      let size := utrapframeSize + 4#32
      let utr := exceptionStackTop tf.tfEsp - size
      userMemAssert c cur utr size (pteU ||| pteW)
      storeBytes c utr ((utrapframeWords io.cr2 tf).flatMap bytesOfU32)
      Prog.modify (fun k => k.modifyEnv cur (fun v =>
        { v with
          envTf := { v.envTf with tfEip := v.envPgfaultUpcall, tfEsp := utr } }))
      envRun c cur
    else do
      envDestroy c cur

/-- `trap_dispatch`. -/
def trapDispatch (io : Inputs) (c : Nat) (tf : Trapframe) :
    Prog Kernel Unit := do
  if tf.tfTrapno = tPgflt then
    pageFaultHandler io c tf
  else if tf.tfTrapno = tBrkpt then
    -- the monitor is never left
    Prog.stop
  else if tf.tfTrapno = tSyscall then do
    let cur ← theCurenv c
    let r ← syscall io c tf.tfRegs.regEax tf.tfRegs.regEdx tf.tfRegs.regEcx
      tf.tfRegs.regEbx tf.tfRegs.regEdi tf.tfRegs.regEsi
    Prog.modify (fun k => k.modifyEnv cur (fun v =>
      { v with envTf := v.envTf.setEax (BitVec.ofInt 32 r) }))
  else if tf.tfTrapno = irqOffset + irqSpurious then
    pure ()
  else if tf.tfTrapno = irqOffset + irqTimer then do
    timeTick
    schedYield c
  else if tf.tfTrapno = irqOffset + irqKbd then
    pure ()
  else if tf.tfTrapno = irqOffset + irqSerial then
    pure ()
  else if tf.tfCs = gdKt then
    Prog.stop
  else do
    let cur ← theCurenv c
    envDestroy c cur

/-- The first part of `trap`, for a trap from user mode: a zombie is freed, and
the trap frame is saved. -/
def trapFromUser (c : Nat) (tf : Trapframe) : Prog Kernel Unit := do
  lockKernel c
  let cur ← theCurenv c
  let k ← Prog.get
  Prog.when ((k.envs cur).envStatus = .dying) (do
    envFree c cur
    Prog.modify (fun k => k.setCurenv c none)
    schedYield c)
  Prog.modify (fun k => k.modifyEnv cur (fun v => { v with envTf := tf }))

/-- The end of `trap`: back to the environment, if it is still running. -/
def trapReturn (c : Nat) : Prog Kernel Unit := do
  let k ← Prog.get
  match k.curenv c with
  | none => schedYield c
  | some cur =>
      if (k.envs cur).envStatus = .running then envRun c cur
      else schedYield c

/-- `trap`. -/
def trap (io : Inputs) (c : Nat) (tf : Trapframe) : Prog Kernel Unit := do
  let k ← Prog.get
  Prog.modify (fun k => (k.setPlace c .kernel).setCpuStatus c .started)
  Prog.when ((k.cpus c).cpuStatus = .halted) (lockKernel c)
  Prog.when tf.FromUser (trapFromUser c tf)
  trapDispatch io c tf
  trapReturn c

/-- The first entry of a processor into the scheduler, at the end of
`i386_init` and of `mp_main`. -/
def startSched (c : Nat) : Prog Kernel Unit := do
  Prog.modify (fun k => k.setPlace c .kernel)
  lockKernel c
  schedYield c

end Jos
