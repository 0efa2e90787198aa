import Jos.LoadIcode
import Jos.PageAccounting
import Jos.Trap

/-!
# The system

All processors, the environments they run and the network card, taking steps in
any order.  A step is one whole entry into the kernel (the kernel lock makes
entries atomic), one store of user code, or something the network card does to
its rings.  What user code computes is left open: the trap frame of an entry is
whatever it was.

The system starts as `i386_init` leaves it: `mem_init` and `env_init` are done,
and the kernel has created its first environments.  An entry that ends in the
monitor is never left and makes no step.
-/

namespace Jos

open Programs

/-- What can happen next. -/
inductive Event where
  /-- A processor enters the scheduler for the first time. -/
  | start (c : Nat)
  /-- Processor `c` traps out of user code. -/
  | trap (c : Nat) (tf : Trapframe) (io : Inputs)
  /-- An interrupt wakes up a halted processor. -/
  | interrupt (c : Nat) (tf : Trapframe) (io : Inputs)
  /-- User code on processor `c` stores a byte. -/
  | store (c : Nat) (va : U32) (b : U8)
  /-- The card takes packets to send, and delivers packets. -/
  | device (tx : Nat → TxDesc) (rx : Nat → RxDesc) (rxBuffer : Nat → U8)

/-- The state in which a processor leaves the kernel. -/
def leaves {α : Type} : Outcome Kernel α → Option Kernel
  | .ret _ _ => none
  | .exit k => some k
  | .stop _ => none

/-- The trap frame of an interrupt that wakes up a halted processor. -/
def Trapframe.Wakes (tf : Trapframe) : Prop :=
  tf.tfCs = gdKt ∧ irqOffset ≤ tf.tfTrapno ∧ tf.tfTrapno < irqOffset + 16#32

instance (tf : Trapframe) : Decidable tf.Wakes :=
  inferInstanceAs (Decidable (_ ∧ _))

/-- One step, if it can be made. -/
def Event.step (k : Kernel) : Event → Option Kernel
  | .start c =>
      if c < k.ncpu ∧ (k.cpus c).place = .boot then
        leaves ((startSched c).run k)
      else none
  | .trap c tf io =>
      if c < k.ncpu ∧ (k.cpus c).place = .user ∧ tf.FromUser then
        leaves ((Jos.trap io c tf).run k)
      else none
  | .interrupt c tf io =>
      if c < k.ncpu ∧ (k.cpus c).place = .idle ∧ tf.Wakes then
        leaves ((Jos.trap io c tf).run k)
      else none
  | .store c va b =>
      if c < k.ncpu ∧ (k.cpus c).place = .user then
        (k.vm.userPage (k.vm.cr3 c) va true).map
          (fun p => k.setVm (k.vm.setByte p (pgoff va) b))
      else none
  | .device tx rx rxBuffer =>
      some (k.modifyNic (fun n =>
        { n with
          txDescArray := tx
          rxDescArray := rx
          rxBufferArray := rxBuffer }))

/-- An ELF image that the kernel can load: its segments lie below `UTOP`, and
no segment has more bytes in the file than in memory. -/
structure Binary.WellFormed (b : Binary) : Prop where
  fits : ∀ i, b.pType i = elfProgLoad →
    (b.pVa i).toNat + (b.pMemsz i).toNat ≤ utop.toNat
  filesz_le : ∀ i, b.pType i = elfProgLoad →
    (b.pFilesz i).toNat ≤ (b.pMemsz i).toNat

/-- The states `i386_init` reaches before it enters the scheduler. -/
inductive Booted (managed : Set Nat) : Kernel → Prop where
  | init {k : Kernel} :
      InitLeaves managed k →
      (∀ c, k.cpus c = ⟨.started, none, .boot⟩) →
      (∀ c, k.vm.cr3 c = k.vm.kernPgdir) →
      k.kernelLock = none →
      Booted managed k
  | create {k k' : Kernel} (binary : Binary) (type : EnvType) :
      Booted managed k → binary.WellFormed →
      (envCreate 0 binary type).run k = .ret () k' →
      Booted managed k'

/-- The states of a run whose every step satisfies `Ok`. -/
inductive RunOf (managed : Set Nat) (Ok : Kernel → Event → Prop) :
    Kernel → Prop where
  | boot {k : Kernel} : Booted managed k → RunOf managed Ok k
  | step {k k' : Kernel} (ev : Event) :
      RunOf managed Ok k → Ok k ev → ev.step k = some k' →
      RunOf managed Ok k'

theorem RunOf.mono {managed : Set Nat} {Ok Ok' : Kernel → Event → Prop}
    {k : Kernel} (h : RunOf managed Ok k) (hok : ∀ k ev, Ok k ev → Ok' k ev) :
    RunOf managed Ok' k := by
  induction h with
  | boot hb => exact .boot hb
  | step ev _ hev hstep ih => exact .step ev ih (hok _ ev hev) hstep

/-- The state after a list of events, if each of them can happen. -/
def runEvents (k : Kernel) : List Event → Option Kernel
  | [] => some k
  | ev :: evs => (ev.step k).bind (fun k' => runEvents k' evs)

theorem RunOf.events {managed : Set Nat} {Ok : Kernel → Event → Prop}
    {k k' : Kernel} {evs : List Event} (h : RunOf managed Ok k)
    (hok : ∀ ev, ev ∈ evs → ∀ k, Ok k ev) (hrun : runEvents k evs = some k') :
    RunOf managed Ok k' := by
  induction evs generalizing k with
  | nil =>
      obtain rfl := Option.some.inj hrun
      exact h
  | cons ev evs ih =>
      obtain ⟨k₁, hstep, hrest⟩ := Option.bind_eq_some_iff.mp hrun
      exact ih (.step ev h (hok ev List.mem_cons_self k) hstep)
        (fun ev' hev' => hok ev' (List.mem_cons_of_mem ev hev')) hrest

/-! ## Small machines -/

/-- An ELF image without segments. -/
def emptyBinary : Binary := fun i =>
  if i = 0 then 0x7F#8 else if i = 1 then 0x45#8 else if i = 2 then 0x4C#8
  else if i = 3 then 0x46#8 else 0#8

theorem emptyBinary_wellFormed : emptyBinary.WellFormed := by
  have hnone : ∀ i, emptyBinary.pType i ≠ elfProgLoad := by
    intro i h
    have hph : emptyBinary.ph i = 32 * i := by
      simp [Binary.ph, Binary.u32, emptyBinary, u32OfBytes]
    unfold Binary.pType Binary.u32 at h
    rw [hph] at h
    rcases Nat.eq_zero_or_pos i with rfl | hi
    · exact absurd h (by decide)
    · have hbyte : ∀ o, 4 ≤ o → emptyBinary o = 0#8 := fun o ho => by
        unfold emptyBinary
        rw [if_neg (by omega), if_neg (by omega), if_neg (by omega),
          if_neg (by omega)]
      rw [hbyte _ (by omega), hbyte _ (by omega), hbyte _ (by omega),
        hbyte _ (by omega)] at h
      exact absurd h (by decide)
  exact ⟨fun i h => absurd h (hnone i), fun i h => absurd h (hnone i)⟩

/-- The machine after some calls of `env_create`. -/
def createEnvs (k : Kernel) : Nat → Option Kernel
  | 0 => some k
  | count + 1 => (createEnvs k count).bind (fun k =>
      match (envCreate 0 emptyBinary .user).run k with
      | .ret _ k' => some k'
      | _ => none)

theorem Booted.createEnvs {managed : Set Nat} {k k' : Kernel} {count : Nat}
    (hk : Booted managed k) (h : createEnvs k count = some k') :
    Booted managed k' := by
  induction count generalizing k' with
  | zero =>
      obtain rfl := Option.some.inj h
      exact hk
  | succ count ih =>
      obtain ⟨k₀, h₀, hrun⟩ := Option.bind_eq_some_iff.mp h
      split at hrun
      · rename_i hret
        obtain rfl := Option.some.inj hrun
        exact .create emptyBinary .user (ih h₀) emptyBinary_wellFormed hret
      · exact absurd hrun (by simp)

/-- A machine with `n` pages and `ncpu` processors, after some calls of
`env_create`. -/
def bootEnvs (n ncpu : Nat) : Nat → Option Kernel :=
  createEnvs (bootKernel n ncpu)

theorem bootEnvs_booted {n ncpu count : Nat} {k : Kernel}
    (hn : 1 < n) (hmax : n ≤ 65536) (h : bootEnvs n ncpu count = some k) :
    Booted {p | 0 < p ∧ p < n} k :=
  (Booted.init (bootKernel_leaves hn hmax ncpu) (fun _ => rfl) (fun _ => rfl)
    rfl).createEnvs h

/-- The machine after some events. -/
def execution (n ncpu count : Nat) (evs : List Event) : Option Kernel :=
  (bootEnvs n ncpu count).bind (fun k => runEvents k evs)

theorem execution_runOf {n ncpu count : Nat} {evs : List Event} {k : Kernel}
    {Ok : Kernel → Event → Prop} (hn : 1 < n) (hmax : n ≤ 65536)
    (hok : ∀ ev, ev ∈ evs → ∀ k, Ok k ev)
    (h : execution n ncpu count evs = some k) :
    RunOf {p | 0 < p ∧ p < n} Ok k := by
  obtain ⟨k₀, h₀, hrun⟩ := Option.bind_eq_some_iff.mp h
  exact (RunOf.boot (bootEnvs_booted hn hmax h₀)).events hok hrun

/-- The trap frame of a system call with its number and arguments. -/
def syscallTf (no a1 a2 a3 a4 a5 : U32) : Trapframe :=
  { initialTf with
    tfTrapno := tSyscall
    tfRegs :=
      { initialTf.tfRegs with
        regEax := no, regEdx := a1, regEcx := a2, regEbx := a3,
        regEdi := a4, regEsi := a5 } }

/-- A system call by the environment that processor `c` runs. -/
def callEvent (c : Nat) (no a1 a2 a3 a4 a5 : U32) : Event :=
  .trap c (syscallTf no a1 a2 a3 a4 a5) ⟨0, 0#32, none⟩

end Jos
