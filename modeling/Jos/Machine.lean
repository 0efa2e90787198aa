import Jos.Lib.Prog
import Jos.Mmu

/-!
# The state of the machine

`PhysMem` is what `kern/pmap.c` owns: the `pages` array with its free list,
the contents of physical memory, and the paging hardware of each processor.
`Kernel` adds the environments, the processors and the devices.

A pointer into an array is the index it points at: a `struct PageInfo *` is a
page number, a `struct Env *` an index into `envs`.  A page directory is named
by the page that holds it, since `KADDR` and `PADDR` only add and subtract
`KERNBASE`; a `pte_t *` is a page and an index into it.

The kernel's own arrays (`pages`, `envs`, `cpus`, the device rings) are fields
of their own and not contents of `mem`; `mem` holds page directories, page
tables and the pages that environments map.
-/

namespace Jos

open Programs

/-! ## Physical memory -/

/-- `struct PageInfo`. -/
structure PageInfo where
  ppLink : Option Nat
  ppRef : U16
deriving DecidableEq

/-- The data of `kern/pmap.c`, and for each processor the page directory it
has loaded and its cached translations, by virtual page number. -/
structure PhysMem where
  npages : Nat
  pages : Nat → PageInfo
  pageFreeList : Option Nat
  kernPgdir : Nat
  /-- The words of each physical page. -/
  mem : Nat → Nat → U32
  userMemCheckAddr : U32
  cr3 : Nat → Nat
  tlb : Nat → Nat → Option U32

/-- A `pte_t *`: the page that holds the table, and the index into it. -/
structure PtePtr where
  page : Nat
  idx : Nat
deriving DecidableEq

/-- What `kern/pmap.c` reads of the running processor: its number, and the
`env_pgdir` of its `curenv` if it has one. -/
structure ThisCpu where
  cpu : Nat
  curPgdir : Option (Option Nat)

namespace PhysMem

def setLink (m : PhysMem) (pp : Nat) (l : Option Nat) : PhysMem :=
  { m with pages := Function.update m.pages pp { m.pages pp with ppLink := l } }

def setRef (m : PhysMem) (pp : Nat) (r : U16) : PhysMem :=
  { m with pages := Function.update m.pages pp { m.pages pp with ppRef := r } }

def setFreeList (m : PhysMem) (l : Option Nat) : PhysMem :=
  { m with pageFreeList := l }

def setPage (m : PhysMem) (p : Nat) (words : Nat → U32) : PhysMem :=
  { m with mem := Function.update m.mem p words }

def setWord (m : PhysMem) (p i : Nat) (w : U32) : PhysMem :=
  m.setPage p (Function.update (m.mem p) i w)

end PhysMem

/-! ## Environments -/

/-- `struct PushRegs`. -/
structure PushRegs where
  regEdi : U32
  regEsi : U32
  regEbp : U32
  regOesp : U32
  regEbx : U32
  regEdx : U32
  regEcx : U32
  regEax : U32
deriving DecidableEq

/-- `struct Trapframe`. -/
structure Trapframe where
  tfRegs : PushRegs
  tfEs : U16
  tfPadding1 : U16
  tfDs : U16
  tfPadding2 : U16
  tfTrapno : U32
  tfErr : U32
  tfEip : U32
  tfCs : U16
  tfPadding3 : U16
  tfEflags : U32
  tfEsp : U32
  tfSs : U16
  tfPadding4 : U16
deriving DecidableEq

/-- The all-zero trap frame. -/
def Trapframe.zero : Trapframe :=
  ⟨⟨0, 0, 0, 0, 0, 0, 0, 0⟩, 0, 0, 0, 0, 0, 0, 0, 0, 0, 0, 0, 0, 0⟩

/-- Values of `env_status`. -/
inductive EnvStatus where
  | free
  | dying
  | runnable
  | running
  | notRunnable
deriving DecidableEq

/-- The C value of a status. -/
def EnvStatus.code : EnvStatus → U32
  | .free => 0
  | .dying => 1
  | .runnable => 2
  | .running => 3
  | .notRunnable => 4

/-- `enum EnvType`. -/
inductive EnvType where
  | user
  | fs
  | ns
deriving DecidableEq

/-- `NENV`. -/
def nenv : Nat := 1024

/-- `struct Env`. -/
structure Env where
  envTf : Trapframe
  envLink : Option Nat
  envId : U32
  envParentId : U32
  envType : EnvType
  envStatus : EnvStatus
  envRuns : U32
  envCpunum : Nat
  envPgdir : Option Nat
  envPgfaultUpcall : U32
  envIpcRecving : Bool
  envIpcDstva : U32
  envIpcValue : U32
  envIpcFrom : U32
  envIpcPerm : U32
deriving DecidableEq

/-- An environment of the zeroed `envs` array. -/
def Env.zero : Env :=
  { envTf := Trapframe.zero
    envLink := none
    envId := 0#32
    envParentId := 0#32
    envType := .user
    envStatus := .free
    envRuns := 0#32
    envCpunum := 0
    envPgdir := none
    envPgfaultUpcall := 0#32
    envIpcRecving := false
    envIpcDstva := 0#32
    envIpcValue := 0#32
    envIpcFrom := 0#32
    envIpcPerm := 0#32 }

/-- `ENVX(envid)`, the index part of an environment id. -/
def envx (envid : U32) : Nat := (envid &&& 0x3FF#32).toNat

theorem envx_lt (envid : U32) : envx envid < nenv := by
  unfold envx nenv
  rw [BitVec.toNat_and]
  exact Nat.lt_of_le_of_lt Nat.and_le_right (by decide)

/-! ## Processors and devices -/

/-- Values of `cpu_status`. -/
inductive CpuStatus where
  | unused
  | started
  | halted
deriving DecidableEq

/-- Where a processor executes: the boot code, the kernel, user code, or the
`hlt` loop at the end of `sched_halt`. -/
inductive Place where
  | boot
  | kernel
  | user
  | idle
deriving DecidableEq

/-- `struct CpuInfo`, and where the processor executes. -/
structure CpuInfo where
  cpuStatus : CpuStatus
  cpuEnv : Option Nat
  place : Place
deriving DecidableEq

/-- `struct e1000_tx_desc`, the fields the driver uses. -/
structure TxDesc where
  length : U16
  cmd : U8
  status : U8
deriving DecidableEq

/-- `struct e1000_rx_desc`, the fields the driver uses. -/
structure RxDesc where
  length : U16
  status : U8
  errors : U8
deriving DecidableEq

/-- The rings of `kern/e1000.c`, with the tail registers of the card; each
buffer array is flat, as in memory. -/
structure E1000 where
  tdt : Nat
  txDescArray : Nat → TxDesc
  txBufferArray : Nat → U8
  rdt : Nat
  next : Nat
  rxDescArray : Nat → RxDesc
  rxBufferArray : Nat → U8

/-- What the kernel does with addresses that come from the user: a range
passes a check, or one byte is read or written. -/
inductive MemEvent where
  | checked (va len perm : U32)
  | access (va : U32) (write : Bool)
deriving DecidableEq

/-- The whole machine. -/
@[ext] structure Kernel where
  vm : PhysMem
  envs : Nat → Env
  envFreeList : Option Nat
  cpus : Nat → CpuInfo
  ncpu : Nat
  /-- The processor that holds the big kernel lock. -/
  kernelLock : Option Nat
  ticks : U32
  e1000 : E1000
  /-- Characters printed through the console, latest first. -/
  console : List U8
  /-- Uses of user addresses, latest first. -/
  trace : List MemEvent

namespace Kernel

def setVm (k : Kernel) (vm : PhysMem) : Kernel := { k with vm := vm }

def setEnv (k : Kernel) (e : Nat) (v : Env) : Kernel :=
  { k with envs := Function.update k.envs e v }

def modifyCpu (k : Kernel) (c : Nat) (f : CpuInfo → CpuInfo) : Kernel :=
  { k with cpus := Function.update k.cpus c (f (k.cpus c)) }

def setLock (k : Kernel) (l : Option Nat) : Kernel :=
  { k with kernelLock := l }

/-- `curenv` of processor `c`. -/
def curenv (k : Kernel) (c : Nat) : Option Nat := (k.cpus c).cpuEnv

def modifyEnv (k : Kernel) (e : Nat) (f : Env → Env) : Kernel :=
  k.setEnv e (f (k.envs e))

def setCurenv (k : Kernel) (c : Nat) (e : Option Nat) : Kernel :=
  k.modifyCpu c (fun w => { w with cpuEnv := e })

def setPgdir (k : Kernel) (e : Nat) (pgdir : Option Nat) : Kernel :=
  k.modifyEnv e (fun v => { v with envPgdir := pgdir })

def setStatus (k : Kernel) (e : Nat) (st : EnvStatus) : Kernel :=
  k.modifyEnv e (fun v => { v with envStatus := st })

def setPlace (k : Kernel) (c : Nat) (p : Place) : Kernel :=
  k.modifyCpu c (fun w => { w with place := p })

def setCpuStatus (k : Kernel) (c : Nat) (st : CpuStatus) : Kernel :=
  k.modifyCpu c (fun w => { w with cpuStatus := st })

/-- Record the use of a user address. -/
def log (k : Kernel) (ev : MemEvent) : Kernel :=
  { k with trace := ev :: k.trace }

/-- What `kern/pmap.c` sees of processor `c`. -/
def thisCpu (k : Kernel) (c : Nat) : ThisCpu :=
  ⟨c, (k.curenv c).map (fun e => (k.envs e).envPgdir)⟩

section Setters

variable {k : Kernel} {vm : PhysMem} {e e' c c' : Nat}
  {f : Env → Env} {g : CpuInfo → CpuInfo} {l : Option Nat} {ev : MemEvent}

@[simp] theorem setVm_vm : (k.setVm vm).vm = vm := rfl
@[simp] theorem setVm_envs : (k.setVm vm).envs = k.envs := rfl
@[simp] theorem setVm_cpus : (k.setVm vm).cpus = k.cpus := rfl
@[simp] theorem setVm_envFreeList :
    (k.setVm vm).envFreeList = k.envFreeList := rfl
@[simp] theorem setVm_kernelLock :
    (k.setVm vm).kernelLock = k.kernelLock := rfl
@[simp] theorem setVm_curenv : (k.setVm vm).curenv c = k.curenv c := rfl

@[simp] theorem modifyEnv_vm : (k.modifyEnv e f).vm = k.vm := rfl
@[simp] theorem modifyEnv_cpus : (k.modifyEnv e f).cpus = k.cpus := rfl
@[simp] theorem modifyEnv_envFreeList :
    (k.modifyEnv e f).envFreeList = k.envFreeList := rfl
@[simp] theorem modifyEnv_kernelLock :
    (k.modifyEnv e f).kernelLock = k.kernelLock := rfl
@[simp] theorem modifyEnv_curenv :
    (k.modifyEnv e f).curenv c = k.curenv c := rfl
@[simp] theorem modifyEnv_envs_self :
    (k.modifyEnv e f).envs e = f (k.envs e) := by
  simp [modifyEnv, setEnv]
theorem modifyEnv_envs_of_ne (h : e' ≠ e) :
    (k.modifyEnv e f).envs e' = k.envs e' := by
  simp [modifyEnv, setEnv, h]

@[simp] theorem modifyCpu_vm : (k.modifyCpu c g).vm = k.vm := rfl
@[simp] theorem modifyCpu_envs : (k.modifyCpu c g).envs = k.envs := rfl
@[simp] theorem modifyCpu_envFreeList :
    (k.modifyCpu c g).envFreeList = k.envFreeList := rfl
@[simp] theorem modifyCpu_kernelLock :
    (k.modifyCpu c g).kernelLock = k.kernelLock := rfl
@[simp] theorem modifyCpu_cpus_self :
    (k.modifyCpu c g).cpus c = g (k.cpus c) := by
  simp [modifyCpu]
theorem modifyCpu_cpus_of_ne (h : c' ≠ c) :
    (k.modifyCpu c g).cpus c' = k.cpus c' := by
  simp [modifyCpu, h]

@[simp] theorem setLock_vm : (k.setLock l).vm = k.vm := rfl
@[simp] theorem setLock_envs : (k.setLock l).envs = k.envs := rfl
@[simp] theorem setLock_cpus : (k.setLock l).cpus = k.cpus := rfl
@[simp] theorem setLock_envFreeList :
    (k.setLock l).envFreeList = k.envFreeList := rfl
@[simp] theorem setLock_kernelLock : (k.setLock l).kernelLock = l := rfl

@[simp] theorem log_vm : (k.log ev).vm = k.vm := rfl
@[simp] theorem log_envs : (k.log ev).envs = k.envs := rfl
@[simp] theorem log_cpus : (k.log ev).cpus = k.cpus := rfl
@[simp] theorem log_curenv : (k.log ev).curenv c = k.curenv c := rfl

end Setters

end Kernel

/-- Run a function of `kern/pmap.c`. -/
def onVm {α : Type} (m : Prog PhysMem α) : Prog Kernel α :=
  m.zoom Kernel.vm (fun vm k => k.setVm vm)

section OnVm

variable {α : Type} {m : Prog PhysMem α} {k : Kernel}

theorem onVm_ret {vm : PhysMem} {a : α}
    (h : m.run k.vm = .ret a vm) :
    (onVm m).run k = .ret a (k.setVm vm) := Prog.run_zoom_ret h

theorem onVm_returns {R : α → PhysMem → Prop}
    (h : Returns m R k.vm) :
    Returns (onVm m) (fun a k' => ∃ vm, k' = k.setVm vm ∧ R a vm) k :=
  (wp_zoom _ _ _).mpr (wp_of_returns h (fun _ vm hr => ⟨vm, rfl, hr⟩))

end OnVm

end Jos
