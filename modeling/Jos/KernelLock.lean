import Jos.Frame
import Jos.Lib.SpinLock
import Mathlib.Logic.Relation

/-!
# The big kernel lock, one instruction at a time

`System` treats an entry into the kernel as one step.  Here the processors
interleave at the level of single accesses to `kernel_lock` and `cpu_status`,
and what is kept is where each of them executes: a `Point` is a place in
`i386_init`, `mp_main`, `trap` and what `trap` calls, or in `spin_lock` and
`spin_unlock`.  Where the source branches on data other than the lock, the
status of the processor and the mode of the trap, both ways are open.

The machine is a client of the library of spin locks, and what is proved there
makes both panics of `kern/spinlock.c` unreachable.
-/

namespace Jos

open SpinLocks

/-! ## Places in the kernel -/

/-- The calls of `lock_kernel`. -/
inductive LockSite where
  | i386Init
  | mpMain
  /-- In `trap`, on a processor that was halted. -/
  | trapHalted (fromUser : Bool)
  /-- In `trap`, from user mode. -/
  | trapUser
deriving DecidableEq

/-- The calls of `unlock_kernel`. -/
inductive UnlockSite where
  | envRun
  | schedHalt
deriving DecidableEq

/-- Where a processor executes. -/
inductive Point where
  /-- An application processor that `boot_aps` has not started. -/
  | off
  /-- `i386_init`, before the lock is taken. -/
  | i386Init
  /-- `mp_main`, before the processor says that it is up. -/
  | mpMain
  /-- `holding`: read `lk->locked`. -/
  | lockReadLocked (site : LockSite)
  /-- `holding`: read `lk->cpu`. -/
  | lockReadCpu (site : LockSite)
  /-- `xchg(&lk->locked, 1)`. -/
  | lockXchg (site : LockSite)
  /-- `lk->cpu = thiscpu`. -/
  | lockRecord (site : LockSite)
  /-- The panic of `spin_lock`. -/
  | lockPanic
  | unlockReadLocked (site : UnlockSite)
  | unlockReadCpu (site : UnlockSite)
  /-- `lk->cpu = 0`. -/
  | unlockClear (site : UnlockSite)
  /-- `xchg(&lk->locked, 0)`. -/
  | unlockXchg (site : UnlockSite)
  /-- The panic of `spin_unlock`. -/
  | unlockPanic
  | bootAps
  /-- `i386_init`, from `ENV_CREATE` on. -/
  | createEnvs
  /-- The start of `trap`: `xchg(&thiscpu->cpu_status, CPU_STARTED)`. -/
  | trap (fromUser : Bool)
  /-- `trap`, where it looks at `tf_cs`. -/
  | trapMode (fromUser : Bool)
  /-- `trap`, with the lock, for a trap from user mode. -/
  | trapUser
  | trapDispatch (fromUser : Bool)
  | pageFaultHandler (fromUser : Bool)
  | syscall
  /-- `env_destroy`, of the current environment or of another. -/
  | envDestroy (current : Bool)
  /-- The end of `trap`. -/
  | trapReturn
  | schedYield
  | schedHalt
  | envRun
  | user
  /-- The `hlt` loop. -/
  | halted
  /-- A panic or the monitor, with or without the lock. -/
  | stopped (phase : Phase)
deriving DecidableEq

/-- Where `lock_kernel` returns to. -/
def LockSite.next : LockSite → Point
  | i386Init => .bootAps
  | mpMain => .schedYield
  | trapHalted fromUser => .trapMode fromUser
  | trapUser => .trapUser

/-- Where the processor is after `unlock_kernel`. -/
def UnlockSite.next : UnlockSite → Point
  | envRun => .user
  | schedHalt => .halted

/-- One step of the kernel's own code, by the functions of the source.  Any of
them may panic. -/
inductive Runs : Point → Point → Prop where
  -- trap
  | fromUser : Runs (.trapMode true) (.lockReadLocked .trapUser)
  | fromKernel : Runs (.trapMode false) (.trapDispatch false)
  | zombie : Runs .trapUser .schedYield
  | saveTf : Runs .trapUser (.trapDispatch true)
  | resume : Runs .trapReturn .envRun
  | reschedule : Runs .trapReturn .schedYield
  -- trap_dispatch
  | pageFault (fromUser : Bool) :
      Runs (.trapDispatch fromUser) (.pageFaultHandler fromUser)
  | syscall : Runs (.trapDispatch true) .syscall
  | ignored (fromUser : Bool) : Runs (.trapDispatch fromUser) .trapReturn
  | timer (fromUser : Bool) : Runs (.trapDispatch fromUser) .schedYield
  | unexpected : Runs (.trapDispatch true) (.envDestroy true)
  -- page_fault_handler; from kernel mode it panics
  | upcall : Runs (.pageFaultHandler true) .envRun
  | noUpcall : Runs (.pageFaultHandler true) (.envDestroy true)
  -- syscall
  | returns : Runs .syscall .trapReturn
  | yields : Runs .syscall .schedYield
  | destroys (current : Bool) : Runs .syscall (.envDestroy current)
  -- env_destroy
  | destroyedCurrent : Runs (.envDestroy true) .schedYield
  | destroyedOther : Runs (.envDestroy false) .trapReturn
  -- sched_yield
  | dispatch : Runs .schedYield .envRun
  | idle : Runs .schedYield .schedHalt
  -- env_run
  | leave : Runs .envRun (.unlockReadLocked .envRun)
  -- i386_init
  | lockInit : Runs .i386Init (.lockReadLocked .i386Init)
  | created : Runs .createEnvs .schedYield

/-- The processor executes code of the kernel other than that of the lock. -/
def Point.InCode : Point → Prop
  | .i386Init | .mpMain | .bootAps | .createEnvs | .trap _ | .trapMode _
  | .trapUser | .trapDispatch _ | .pageFaultHandler _ | .syscall
  | .envDestroy _ | .trapReturn | .schedYield | .schedHalt | .envRun => True
  | _ => False

/-- Where the processor is with respect to the lock. -/
def Point.phase : Point → Phase
  | .lockRecord _ => .taken
  | .unlockReadLocked _ | .unlockReadCpu _ | .unlockClear _ => .inside
  | .unlockXchg _ => .cleared
  | .lockReadLocked _ | .lockReadCpu _ | .lockXchg _ => .outside
  | .bootAps | .createEnvs | .trapUser | .trapDispatch _ | .pageFaultHandler _
  | .syscall | .envDestroy _ | .trapReturn | .schedYield | .schedHalt
  | .envRun => .inside
  | .trapMode fromUser => if fromUser then .outside else .inside
  | .off | .i386Init | .mpMain | .trap _ | .user | .halted => .outside
  | .lockPanic | .unlockPanic => .outside
  | .stopped phase => phase

/-! ## The machine -/

/-- A processor: where it executes, its `cpu_status`, and how often it has taken
and released the lock since it entered the kernel. -/
structure Processor where
  point : Point
  status : CpuStatus
  acquired : Nat
  released : Nat

/-- The processors and `kernel_lock`. -/
structure LockMachine where
  locked : Bool
  cpu : Option Nat
  cpus : Nat → Processor

namespace LockMachine

def setCpu (m : LockMachine) (c : Nat) (p : Processor) : LockMachine :=
  { m with cpus := Function.update m.cpus c p }

def goto (m : LockMachine) (c : Nat) (point : Point) : LockMachine :=
  m.setCpu c { m.cpus c with point := point }

/-- `xchg(&thiscpu->cpu_status, status)`, on the way to a point. -/
def setStatus (m : LockMachine) (c : Nat) (status : CpuStatus) (point : Point) :
    LockMachine :=
  m.setCpu c { m.cpus c with point := point, status := status }

/-- The processor enters the kernel. -/
def enter (m : LockMachine) (c : Nat) (fromUser : Bool) : LockMachine :=
  m.setCpu c { m.cpus c with point := .trap fromUser, acquired := 0, released := 0 }

/-- After power-on: processor 0 is in `i386_init`. -/
def init : LockMachine :=
  { locked := false
    cpu := none
    cpus := fun c =>
      if c = 0 then ⟨.i386Init, .started, 0, 0⟩ else ⟨.off, .unused, 0, 0⟩ }

/-- The view of the library. -/
def spin (m : LockMachine) : State Nat :=
  ⟨m.locked, m.cpu, fun c => (m.cpus c).point.phase⟩

end LockMachine

/-- One step of a machine with `ncpu` processors. -/
inductive LockStep (ncpu : Nat) : LockMachine → LockMachine → Prop where
  | code {m : LockMachine} (c : Nat) (point : Point) :
      c < ncpu → Runs (m.cpus c).point point → LockStep ncpu m (m.goto c point)
  | panic {m : LockMachine} (c : Nat) :
      c < ncpu → (m.cpus c).point.InCode →
      LockStep ncpu m (m.goto c (.stopped (m.cpus c).point.phase))
  -- boot_aps and mp_main
  | startAp {m : LockMachine} (c : Nat) :
      c < ncpu → (m.cpus 0).point = .bootAps → (m.cpus c).point = .off →
      LockStep ncpu m (m.goto c .mpMain)
  | apUp {m : LockMachine} (c : Nat) :
      c < ncpu → (m.cpus c).point = .mpMain →
      LockStep ncpu m (m.setStatus c .started (.lockReadLocked .mpMain))
  | allUp {m : LockMachine} (c : Nat) :
      (m.cpus c).point = .bootAps →
      (∀ c', c' < ncpu → c' ≠ c → (m.cpus c').status = .started) →
      LockStep ncpu m (m.goto c .createEnvs)
  -- the processor traps, and looks whether it was halted
  | trap {m : LockMachine} (c : Nat) :
      c < ncpu → (m.cpus c).point = .user → LockStep ncpu m (m.enter c true)
  | interrupt {m : LockMachine} (c : Nat) :
      c < ncpu → (m.cpus c).point = .halted → LockStep ncpu m (m.enter c false)
  | wasHalted {m : LockMachine} (c : Nat) (fromUser : Bool) :
      c < ncpu → (m.cpus c).point = .trap fromUser →
      (m.cpus c).status = .halted →
      LockStep ncpu m
        (m.setStatus c .started (.lockReadLocked (.trapHalted fromUser)))
  | wasStarted {m : LockMachine} (c : Nat) (fromUser : Bool) :
      c < ncpu → (m.cpus c).point = .trap fromUser →
      (m.cpus c).status ≠ .halted →
      LockStep ncpu m (m.setStatus c .started (.trapMode fromUser))
  -- sched_halt
  | halt {m : LockMachine} (c : Nat) :
      c < ncpu → (m.cpus c).point = .schedHalt →
      LockStep ncpu m (m.setStatus c .halted (.unlockReadLocked .schedHalt))
  -- spin_lock
  | lockFree {m : LockMachine} (c : Nat) (site : LockSite) :
      c < ncpu → (m.cpus c).point = .lockReadLocked site → m.locked = false →
      LockStep ncpu m (m.goto c (.lockXchg site))
  | lockHeld {m : LockMachine} (c : Nat) (site : LockSite) :
      c < ncpu → (m.cpus c).point = .lockReadLocked site → m.locked = true →
      LockStep ncpu m (m.goto c (.lockReadCpu site))
  | lockOwn {m : LockMachine} (c : Nat) (site : LockSite) :
      c < ncpu → (m.cpus c).point = .lockReadCpu site → m.cpu = some c →
      LockStep ncpu m (m.goto c .lockPanic)
  | lockOther {m : LockMachine} (c : Nat) (site : LockSite) :
      c < ncpu → (m.cpus c).point = .lockReadCpu site → m.cpu ≠ some c →
      LockStep ncpu m (m.goto c (.lockXchg site))
  | spins {m : LockMachine} (c : Nat) (site : LockSite) :
      c < ncpu → (m.cpus c).point = .lockXchg site → m.locked = true →
      LockStep ncpu m m
  | acquire {m : LockMachine} (c : Nat) (site : LockSite) :
      c < ncpu → (m.cpus c).point = .lockXchg site → m.locked = false →
      LockStep ncpu m
        { m.setCpu c { m.cpus c with
            point := .lockRecord site, acquired := (m.cpus c).acquired + 1 } with
          locked := true }
  | record {m : LockMachine} (c : Nat) (site : LockSite) :
      c < ncpu → (m.cpus c).point = .lockRecord site →
      LockStep ncpu m { m.goto c site.next with cpu := some c }
  -- spin_unlock
  | unlockFree {m : LockMachine} (c : Nat) (site : UnlockSite) :
      c < ncpu → (m.cpus c).point = .unlockReadLocked site → m.locked = false →
      LockStep ncpu m (m.goto c .unlockPanic)
  | unlockHeld {m : LockMachine} (c : Nat) (site : UnlockSite) :
      c < ncpu → (m.cpus c).point = .unlockReadLocked site → m.locked = true →
      LockStep ncpu m (m.goto c (.unlockReadCpu site))
  | unlockOther {m : LockMachine} (c : Nat) (site : UnlockSite) :
      c < ncpu → (m.cpus c).point = .unlockReadCpu site → m.cpu ≠ some c →
      LockStep ncpu m (m.goto c .unlockPanic)
  | unlockOwn {m : LockMachine} (c : Nat) (site : UnlockSite) :
      c < ncpu → (m.cpus c).point = .unlockReadCpu site → m.cpu = some c →
      LockStep ncpu m (m.goto c (.unlockClear site))
  | clear {m : LockMachine} (c : Nat) (site : UnlockSite) :
      c < ncpu → (m.cpus c).point = .unlockClear site →
      LockStep ncpu m { m.goto c (.unlockXchg site) with cpu := none }
  | release {m : LockMachine} (c : Nat) (site : UnlockSite) :
      c < ncpu → (m.cpus c).point = .unlockXchg site →
      LockStep ncpu m
        { m.setCpu c { m.cpus c with
            point := site.next, released := (m.cpus c).released + 1 } with
          locked := false }

/-- The states of the machine. -/
def LockReachable (ncpu : Nat) (m : LockMachine) : Prop :=
  Relation.ReflTransGen (LockStep ncpu) .init m

/-! ## What each place says about its processor -/

/-- How often the lock has been taken and released when a processor is at a
point. -/
def Point.counts (p : Point) : Nat × Nat :=
  if p.phase = .outside then if p = .user ∨ p = .halted then (1, 1) else (0, 0)
  else (1, 0)

/-- `cpu_status` of a processor that is about to release the lock. -/
def UnlockSite.status : UnlockSite → CpuStatus
  | envRun => .started
  | schedHalt => .halted

/-- `cpu_status` at a point; a processor that stopped may have any. -/
def Point.HasStatus : Point → CpuStatus → Prop
  | .stopped _, _ => True
  | .off, status | .mpMain, status => status = .unused
  | .halted, status => status = .halted
  | .trap fromUser, status => status = if fromUser then .started else .halted
  | .unlockReadLocked site, status | .unlockReadCpu site, status
  | .unlockClear site, status | .unlockXchg site, status => status = site.status
  | _, status => status = .started

/-- Neither a panic of the lock, nor in `trap` for a halted processor that was
in user mode. -/
def Point.OnPath : Point → Prop
  | .lockPanic | .unlockPanic => False
  | .lockReadLocked site | .lockReadCpu site | .lockXchg site | .lockRecord site =>
      site ≠ .trapHalted true
  | _ => True

/-- What is known of a processor from where it is. -/
structure Processor.Fits (p : Processor) : Prop where
  counts : (p.acquired, p.released) = p.point.counts
  status : p.point.HasStatus p.status
  onPath : p.point.OnPath

/-- The processor has taken the lock and not given it back. -/
def Processor.Holds (p : Processor) : Prop :=
  p.released < p.acquired

theorem Processor.Fits.holds_iff {p : Processor} (h : p.Fits) :
    p.Holds ↔ p.point.phase ≠ .outside := by
  have hcounts := h.counts
  unfold Point.counts at hcounts
  unfold Processor.Holds
  split at hcounts
  · rename_i hphase
    split at hcounts
    · obtain ⟨ha, hr⟩ := Prod.mk.inj hcounts
      simp [ha, hr, hphase]
    · obtain ⟨ha, hr⟩ := Prod.mk.inj hcounts
      simp [ha, hr, hphase]
  · rename_i hphase
    obtain ⟨ha, hr⟩ := Prod.mk.inj hcounts
    simp [ha, hr, hphase]

/-- The kernel's own code neither takes nor releases the lock, and leaves
`cpu_status` alone. -/
theorem Runs.fits {p q : Point} (h : Runs p q) :
    q.phase = p.phase ∧ q.counts = p.counts ∧ q.OnPath ∧
      ∀ status, p.HasStatus status → q.HasStatus status := by
  cases h <;> refine ⟨rfl, rfl, ?_, fun _ hs => hs⟩ <;>
    first | exact trivial | exact LockSite.noConfusion

theorem Point.InCode.counts_stopped {p : Point} (h : p.InCode) :
    (Point.stopped p.phase).counts = p.counts := by
  cases p <;> first | exact h.elim | rfl

/-! ## The lock, from the outside -/

namespace LockMachine

variable {m : LockMachine} {c : Nat} {p : Processor} {point : Point}

theorem spin_setCpu (m : LockMachine) (c : Nat) (p : Processor) :
    (m.setCpu c p).spin =
      ⟨m.locked, m.cpu, Function.update m.spin.phase c p.point.phase⟩ := by
  have hphase : (m.setCpu c p).spin.phase =
      Function.update m.spin.phase c p.point.phase := by
    funext c'
    by_cases hc : c' = c
    · subst hc
      simp [spin, setCpu]
    · simp [spin, setCpu, hc]
  rw [← hphase]
  rfl

/-- A step that does not concern the lock. -/
theorem spin_setCpu_of_phase (h : p.point.phase = (m.cpus c).point.phase) :
    (m.setCpu c p).spin = m.spin := by
  rw [spin_setCpu, h]
  exact congrArg (fun phase => State.mk m.locked m.cpu phase)
    (Function.update_eq_self c m.spin.phase)

end LockMachine

/-! ## Every interleaving -/

/-- What every state of the machine satisfies. -/
structure LockMachine.Disciplined (m : LockMachine) : Prop where
  exclusive : Exclusive m.spin
  fits : ∀ c, (m.cpus c).Fits

namespace LockMachine.Disciplined

variable {m m' : LockMachine} {c : Nat} {p : Processor} {point : Point}

theorem cpus_setCpu (h : m.Disciplined) (hp : p.Fits) (c' : Nat) :
    ((m.setCpu c p).cpus c').Fits := by
  by_cases hc : c' = c
  · subst hc
    simpa [setCpu] using hp
  · simpa [setCpu, hc] using h.fits c'

/-- A step of one processor that is no step of the lock. -/
theorem setCpu (h : m.Disciplined) (hp : p.Fits)
    (hphase : p.point.phase = (m.cpus c).point.phase) :
    (m.setCpu c p).Disciplined := by
  refine ⟨?_, fun c' => h.cpus_setCpu hp c'⟩
  rw [spin_setCpu_of_phase hphase]
  exact h.exclusive

/-- As `setCpu`, when only the place changes. -/
theorem goto (h : m.Disciplined)
    (hphase : point.phase = (m.cpus c).point.phase)
    (hcounts : point.counts = (m.cpus c).point.counts)
    (hstatus : point.HasStatus (m.cpus c).status) (hpath : point.OnPath) :
    (m.goto c point).Disciplined :=
  h.setCpu ⟨(h.fits c).counts.trans hcounts.symm, hstatus, hpath⟩ hphase

/-- Where a processor is fixes how often it took and released the lock. -/
theorem counts_at (h : m.Disciplined) (hpoint : (m.cpus c).point = point) :
    (m.cpus c).acquired = point.counts.1 ∧ (m.cpus c).released = point.counts.2 := by
  have hcounts := (h.fits c).counts
  rw [hpoint] at hcounts
  exact ⟨congrArg Prod.fst hcounts, congrArg Prod.snd hcounts⟩

theorem status_at (h : m.Disciplined) (hpoint : (m.cpus c).point = point) :
    point.HasStatus (m.cpus c).status := by
  have hstatus := (h.fits c).status
  rwa [hpoint] at hstatus

theorem onPath_at (h : m.Disciplined) (hpoint : (m.cpus c).point = point) :
    point.OnPath := by
  have hpath := (h.fits c).onPath
  rwa [hpoint] at hpath

theorem phase_at (hpoint : (m.cpus c).point = point) :
    m.spin.phase c = point.phase :=
  congrArg Point.phase hpoint

/-- A step of one processor that is a step of the lock. -/
theorem lockStep {o : Option Nat} {locked : Bool} (h : m.Disciplined) (hp : p.Fits)
    (hstep : Step m.spin ⟨locked, o, Function.update m.spin.phase c p.point.phase⟩) :
    LockMachine.Disciplined ⟨locked, o, (m.setCpu c p).cpus⟩ := by
  refine ⟨?_, fun c' => h.cpus_setCpu hp c'⟩
  have hphase : (m.setCpu c p).spin.phase =
      Function.update m.spin.phase c p.point.phase := by
    rw [spin_setCpu]
  change Exclusive ⟨locked, o, (m.setCpu c p).spin.phase⟩
  rw [hphase]
  exact hstep.exclusive h.exclusive

end LockMachine.Disciplined

/-- A processor that leaves `spin_lock` is inside, and at a place for its
status. -/
theorem LockSite.next_fits {site : LockSite} (h : site ≠ .trapHalted true) :
    site.next.phase = .inside ∧ site.next.HasStatus .started ∧ site.next.OnPath := by
  cases site with
  | trapHalted fromUser =>
      cases fromUser with
      | true => exact absurd rfl h
      | false => exact ⟨rfl, rfl, trivial⟩
  | _ => exact ⟨rfl, rfl, trivial⟩

theorem UnlockSite.next_fits (site : UnlockSite) :
    site.next.counts = (1, 1) ∧ site.next.phase = .outside ∧
      site.next.HasStatus site.status ∧ site.next.OnPath := by
  cases site <;> exact ⟨rfl, rfl, rfl, trivial⟩

/-- One step, of whichever processor, keeps the discipline. -/
theorem LockStep.disciplined {ncpu : Nat} {m m' : LockMachine}
    (hstep : LockStep ncpu m m') (h : m.Disciplined) : m'.Disciplined := by
  cases hstep with
  | code c point _ hruns =>
      obtain ⟨hphase, hcounts, hpath, hstatus⟩ := hruns.fits
      exact h.goto hphase hcounts (hstatus _ (h.fits c).status) hpath
  | panic c _ hcode => exact h.goto rfl hcode.counts_stopped trivial trivial
  | startAp c _ _ hoff =>
      exact h.goto (by rw [hoff]; rfl) (by rw [hoff]; rfl) (h.status_at hoff :) trivial
  | apUp c _ hup =>
      obtain ⟨ha, hr⟩ := h.counts_at hup
      exact h.setCpu ⟨Prod.ext ha hr, rfl, nofun⟩ (by rw [hup]; rfl)
  | allUp c hboot =>
      exact h.goto (by rw [hboot]; rfl) (by rw [hboot]; rfl) (h.status_at hboot :) trivial
  | trap c _ huser =>
      exact h.setCpu ⟨rfl, (h.status_at huser :), trivial⟩ (by rw [huser]; rfl)
  | interrupt c _ hhalted =>
      exact h.setCpu ⟨rfl, (h.status_at hhalted :), trivial⟩ (by rw [hhalted]; rfl)
  | wasHalted c fromUser _ htrap hhalted =>
      -- only a halted processor is marked as halted
      have hs := h.status_at htrap
      cases fromUser with
      | true => exact absurd (hs.symm.trans hhalted) (by decide)
      | false =>
          obtain ⟨ha, hr⟩ := h.counts_at htrap
          have hsite : LockSite.trapHalted false ≠ .trapHalted true := by decide
          exact h.setCpu ⟨Prod.ext ha hr, rfl, hsite⟩ (by rw [htrap]; rfl)
  | wasStarted c fromUser _ htrap hstarted =>
      have hs := h.status_at htrap
      cases fromUser with
      | true =>
          obtain ⟨ha, hr⟩ := h.counts_at htrap
          exact h.setCpu ⟨Prod.ext ha hr, rfl, trivial⟩ (by rw [htrap]; rfl)
      | false => exact absurd hs hstarted
  | halt c _ hhalt =>
      obtain ⟨ha, hr⟩ := h.counts_at hhalt
      exact h.setCpu ⟨Prod.ext ha hr, rfl, trivial⟩ (by rw [hhalt]; rfl)
  | lockFree c site _ hlock _ =>
      exact h.goto (by rw [hlock]; rfl) (by rw [hlock]; rfl) (h.status_at hlock :)
        (h.onPath_at hlock :)
  | lockHeld c site _ hlock _ =>
      exact h.goto (by rw [hlock]; rfl) (by rw [hlock]; rfl) (h.status_at hlock :)
        (h.onPath_at hlock :)
  | lockOwn c site _ hlock hown =>
      -- the note names this processor, so it is inside, not in `spin_lock`
      have hinside := (h.exclusive.owner c).mp hown
      rw [LockMachine.Disciplined.phase_at hlock] at hinside
      exact absurd hinside nofun
  | lockOther c site _ hlock _ =>
      exact h.goto (by rw [hlock]; rfl) (by rw [hlock]; rfl) (h.status_at hlock :)
        (h.onPath_at hlock :)
  | spins => exact h
  | acquire c site _ hlock hfree =>
      obtain ⟨ha, hr⟩ := h.counts_at hlock
      exact h.lockStep
        ⟨Prod.ext (congrArg (· + 1) ha) hr, (h.status_at hlock :),
          (h.onPath_at hlock :)⟩
        (Step.acquire c (LockMachine.Disciplined.phase_at hlock) hfree)
  | record c site _ hlock =>
      obtain ⟨ha, hr⟩ := h.counts_at hlock
      obtain ⟨hphase, hstatus, hpath⟩ := LockSite.next_fits (h.onPath_at hlock)
      have hcounts : site.next.counts = (1, 0) := by
        unfold Point.counts
        rw [if_neg (by rw [hphase]; exact nofun)]
      have hs : (m.cpus c).status = .started := h.status_at hlock
      refine h.lockStep ⟨(Prod.ext ha hr).trans hcounts.symm, ?_, hpath⟩ ?_
      · rw [hs]
        exact hstatus
      · change Step m.spin ⟨_, _, Function.update m.spin.phase c site.next.phase⟩
        rw [hphase]
        exact Step.record c (LockMachine.Disciplined.phase_at hlock)
  | unlockFree c site _ hunlock hfree =>
      have hphase := LockMachine.Disciplined.phase_at hunlock
      have hlocked := h.exclusive.locked c (by rw [hphase]; exact nofun)
      exact absurd (hfree.symm.trans hlocked) (by decide)
  | unlockHeld c site _ hunlock _ =>
      exact h.goto (by rw [hunlock]; rfl) (by rw [hunlock]; rfl)
        (h.status_at hunlock :) trivial
  | unlockOther c site _ hunlock hother =>
      have hphase := LockMachine.Disciplined.phase_at hunlock
      exact absurd ((h.exclusive.owner c).mpr hphase) hother
  | unlockOwn c site _ hunlock _ =>
      exact h.goto (by rw [hunlock]; rfl) (by rw [hunlock]; rfl)
        (h.status_at hunlock :) trivial
  | clear c site _ hunlock =>
      obtain ⟨ha, hr⟩ := h.counts_at hunlock
      exact h.lockStep ⟨Prod.ext ha hr, (h.status_at hunlock :), trivial⟩
        (Step.clear c (LockMachine.Disciplined.phase_at hunlock))
  | release c site _ hunlock =>
      obtain ⟨ha, hr⟩ := h.counts_at hunlock
      obtain ⟨hcounts, hphase, hstatus, hpath⟩ := site.next_fits
      have hs : (m.cpus c).status = site.status := h.status_at hunlock
      refine h.lockStep
        ⟨(Prod.ext ha (congrArg (· + 1) hr)).trans hcounts.symm, ?_, hpath⟩ ?_
      · rw [hs]
        exact hstatus
      · change Step m.spin ⟨_, _, Function.update m.spin.phase c site.next.phase⟩
        rw [hphase]
        exact Step.release c (LockMachine.Disciplined.phase_at hunlock)

theorem LockMachine.init_disciplined : LockMachine.init.Disciplined := by
  have hpoint : ∀ c, (LockMachine.init.cpus c).Fits ∧
      (LockMachine.init.cpus c).point.phase = .outside := fun c => by
    by_cases hc : c = 0
    · subst hc
      exact ⟨⟨rfl, rfl, trivial⟩, rfl⟩
    · have hcpu : LockMachine.init.cpus c = ⟨.off, .unused, 0, 0⟩ := if_neg hc
      rw [hcpu]
      exact ⟨⟨rfl, rfl, trivial⟩, rfl⟩
  exact ⟨exclusive_free (fun c => (hpoint c).2) rfl, fun c => (hpoint c).1⟩

theorem LockReachable.disciplined {ncpu : Nat} {m : LockMachine}
    (h : LockReachable ncpu m) : m.Disciplined := by
  induction h with
  | refl => exact LockMachine.init_disciplined
  | tail _ hstep ih => exact hstep.disciplined ih

/-! ## Entries as wholes

An entry that `Event.step` makes at once is a path of this machine, on which the
other processors do not move. -/

/-- The lock and one processor change. -/
def LockMachine.hand (m : LockMachine) (c : Nat) (locked : Bool) (owner : Option Nat)
    (p : Processor) : LockMachine :=
  ⟨locked, owner, Function.update m.cpus c p⟩

section Paths

variable {ncpu : Nat} {m : LockMachine} {c a r : Nat} {l : Bool} {o : Option Nat}
  {p p' : Processor} {status : CpuStatus} {point : Point}

@[simp] theorem LockMachine.hand_cpus : (m.hand c l o p).cpus c = p := by
  simp [LockMachine.hand]

@[simp] theorem LockMachine.hand_setCpu :
    (m.hand c l o p).setCpu c p' = m.hand c l o p' := by
  simp [LockMachine.hand, LockMachine.setCpu]

theorem LockMachine.hand_goto :
    (m.hand c l o p).goto c point = m.hand c l o { p with point := point } := by
  simp [LockMachine.goto]

/-- A step of the kernel's own code. -/
theorem code_step (hc : c < ncpu) (hruns : Runs p.point point) :
    LockStep ncpu (m.hand c l o p) (m.hand c l o { p with point := point }) := by
  have h := LockStep.code (m := m.hand c l o p) c point hc (by simpa using hruns)
  rwa [LockMachine.hand_goto] at h

/-- `spin_lock`, when the lock is free. -/
theorem lock_path (site : LockSite) (hc : c < ncpu) :
    Relation.ReflTransGen (LockStep ncpu)
      (m.hand c false o ⟨.lockReadLocked site, status, a, r⟩)
      (m.hand c true (some c) ⟨site.next, status, a + 1, r⟩) := by
  have hread : LockStep ncpu (m.hand c false o ⟨.lockReadLocked site, status, a, r⟩)
      (m.hand c false o ⟨.lockXchg site, status, a, r⟩) := by
    have h := LockStep.lockFree
      (m := m.hand c false o ⟨.lockReadLocked site, status, a, r⟩) c site hc
      (by simp) rfl
    rwa [LockMachine.hand_goto] at h
  have hxchg : LockStep ncpu (m.hand c false o ⟨.lockXchg site, status, a, r⟩)
      (m.hand c true o ⟨.lockRecord site, status, a + 1, r⟩) := by
    have h := LockStep.acquire
      (m := m.hand c false o ⟨.lockXchg site, status, a, r⟩) c site hc (by simp) rfl
    rw [LockMachine.hand_cpus, LockMachine.hand_setCpu] at h
    exact h
  have hrecord : LockStep ncpu (m.hand c true o ⟨.lockRecord site, status, a + 1, r⟩)
      (m.hand c true (some c) ⟨site.next, status, a + 1, r⟩) := by
    have h := LockStep.record
      (m := m.hand c true o ⟨.lockRecord site, status, a + 1, r⟩) c site hc (by simp)
    rw [LockMachine.hand_goto] at h
    exact h
  exact ((Relation.ReflTransGen.single hread).tail hxchg).tail hrecord

/-- `spin_unlock`, by the processor that holds the lock. -/
theorem unlock_path (site : UnlockSite) (hc : c < ncpu) :
    Relation.ReflTransGen (LockStep ncpu)
      (m.hand c true (some c) ⟨.unlockReadLocked site, status, a, r⟩)
      (m.hand c false none ⟨site.next, status, a, r + 1⟩) := by
  have hread : LockStep ncpu
      (m.hand c true (some c) ⟨.unlockReadLocked site, status, a, r⟩)
      (m.hand c true (some c) ⟨.unlockReadCpu site, status, a, r⟩) := by
    have h := LockStep.unlockHeld
      (m := m.hand c true (some c) ⟨.unlockReadLocked site, status, a, r⟩) c site hc
      (by simp) rfl
    rwa [LockMachine.hand_goto] at h
  have hown : LockStep ncpu
      (m.hand c true (some c) ⟨.unlockReadCpu site, status, a, r⟩)
      (m.hand c true (some c) ⟨.unlockClear site, status, a, r⟩) := by
    have h := LockStep.unlockOwn
      (m := m.hand c true (some c) ⟨.unlockReadCpu site, status, a, r⟩) c site hc
      (by simp) rfl
    rwa [LockMachine.hand_goto] at h
  have hclear : LockStep ncpu
      (m.hand c true (some c) ⟨.unlockClear site, status, a, r⟩)
      (m.hand c true none ⟨.unlockXchg site, status, a, r⟩) := by
    have h := LockStep.clear
      (m := m.hand c true (some c) ⟨.unlockClear site, status, a, r⟩) c site hc
      (by simp)
    rw [LockMachine.hand_goto] at h
    exact h
  have hxchg : LockStep ncpu (m.hand c true none ⟨.unlockXchg site, status, a, r⟩)
      (m.hand c false none ⟨site.next, status, a, r + 1⟩) := by
    have h := LockStep.release
      (m := m.hand c true none ⟨.unlockXchg site, status, a, r⟩) c site hc (by simp)
    rw [LockMachine.hand_cpus, LockMachine.hand_setCpu] at h
    exact h
  exact (((Relation.ReflTransGen.single hread).tail hown).tail hclear).tail hxchg

/-- The scheduler ends in `env_run`. -/
theorem dispatch_path (hc : c < ncpu) :
    Relation.ReflTransGen (LockStep ncpu)
      (m.hand c true (some c) ⟨.schedYield, status, a, r⟩)
      (m.hand c false none ⟨.user, status, a, r + 1⟩) :=
  ((Relation.ReflTransGen.single (code_step hc .dispatch)).tail (code_step hc .leave)).trans
    (unlock_path .envRun hc)

/-- The scheduler ends in `sched_halt`. -/
theorem halt_path (hc : c < ncpu) :
    Relation.ReflTransGen (LockStep ncpu)
      (m.hand c true (some c) ⟨.schedYield, status, a, r⟩)
      (m.hand c false none ⟨.halted, .halted, a, r + 1⟩) := by
  have hhalt : LockStep ncpu (m.hand c true (some c) ⟨.schedHalt, status, a, r⟩)
      (m.hand c true (some c) ⟨.unlockReadLocked .schedHalt, .halted, a, r⟩) := by
    have h := LockStep.halt
      (m := m.hand c true (some c) ⟨.schedHalt, status, a, r⟩) c hc (by simp)
    rw [LockMachine.setStatus, LockMachine.hand_cpus, LockMachine.hand_setCpu] at h
    exact h
  exact ((Relation.ReflTransGen.single (code_step hc .idle)).tail hhalt).trans
    (unlock_path .schedHalt hc)

/-- A trap from user mode, up to the scheduler. -/
theorem trap_path (hc : c < ncpu) :
    Relation.ReflTransGen (LockStep ncpu)
      (m.hand c false o ⟨.user, .started, a, r⟩)
      (m.hand c true (some c) ⟨.schedYield, .started, 1, 0⟩) := by
  have htrap : LockStep ncpu (m.hand c false o ⟨.user, .started, a, r⟩)
      (m.hand c false o ⟨.trap true, .started, 0, 0⟩) := by
    have h := LockStep.trap
      (m := m.hand c false o ⟨.user, .started, a, r⟩) c hc (by simp)
    rw [LockMachine.enter, LockMachine.hand_cpus, LockMachine.hand_setCpu] at h
    exact h
  have hstarted : LockStep ncpu (m.hand c false o ⟨.trap true, .started, 0, 0⟩)
      (m.hand c false o ⟨.trapMode true, .started, 0, 0⟩) := by
    have h := LockStep.wasStarted
      (m := m.hand c false o ⟨.trap true, .started, 0, 0⟩) c true hc (by simp)
      (by simp)
    rw [LockMachine.setStatus, LockMachine.hand_cpus, LockMachine.hand_setCpu] at h
    exact h
  exact ((((Relation.ReflTransGen.single htrap).tail hstarted).tail
    (code_step hc .fromUser)).trans (lock_path .trapUser hc)).tail
    (code_step hc .zombie)

/-- An interrupt on a halted processor, up to the scheduler. -/
theorem wake_path (hc : c < ncpu) :
    Relation.ReflTransGen (LockStep ncpu)
      (m.hand c false o ⟨.halted, .halted, a, r⟩)
      (m.hand c true (some c) ⟨.schedYield, .started, 1, 0⟩) := by
  have htrap : LockStep ncpu (m.hand c false o ⟨.halted, .halted, a, r⟩)
      (m.hand c false o ⟨.trap false, .halted, 0, 0⟩) := by
    have h := LockStep.interrupt
      (m := m.hand c false o ⟨.halted, .halted, a, r⟩) c hc (by simp)
    rw [LockMachine.enter, LockMachine.hand_cpus, LockMachine.hand_setCpu] at h
    exact h
  have hhalted : LockStep ncpu (m.hand c false o ⟨.trap false, .halted, 0, 0⟩)
      (m.hand c false o
        ⟨.lockReadLocked (.trapHalted false), .started, 0, 0⟩) := by
    have h := LockStep.wasHalted
      (m := m.hand c false o ⟨.trap false, .halted, 0, 0⟩) c false hc (by simp)
      (by simp)
    rw [LockMachine.setStatus, LockMachine.hand_cpus, LockMachine.hand_setCpu] at h
    exact h
  exact ((((Relation.ReflTransGen.single htrap).tail hhalted).trans
    (lock_path (.trapHalted false) hc)).tail (code_step hc .fromKernel)).tail
    (code_step hc (.timer false))

end Paths

/-- The places of the two machines. -/
inductive Point.StandsFor : Point → Place → Prop where
  | boot : StandsFor (.lockReadLocked .mpMain) .boot
  | user : StandsFor .user .user
  | halted : StandsFor .halted .idle

/-- No processor is in the kernel, and each is where `k` says. -/
structure Rests (ncpu : Nat) (k : Kernel) (m : LockMachine) : Prop where
  locked : m.locked = false
  cpu : m.cpu = none
  point : ∀ c, c < ncpu → (m.cpus c).point.StandsFor (k.cpus c).place

section Rests

variable {k k' k₁ : Kernel} {c cur : Nat}

theorem Yields.place (h : Yields k c k') :
    (k'.cpus c).place = .user ∨ (k'.cpus c).place = .idle := by
  cases h with
  | dispatch j d _ _ => exact Or.inl (by simp [Kernel.dispatched])
  | halt _ _ _ => exact Or.inr (by simp [Kernel.haltedOn])

theorem Resumes.place (h : Resumes c k k') :
    (k'.cpus c).place = .user ∨ (k'.cpus c).place = .idle := by
  cases h with
  | same cur d _ _ _ hk =>
      rw [hk]
      exact Or.inl (by simp [Kernel.dispatched])
  | other _ hy => exact hy.place

theorem Leaves.place (h : Leaves c cur k k') :
    (k'.cpus c).place = .user ∨ (k'.cpus c).place = .idle := by
  cases h with
  | dies k₁ k₂ _ _ hy => exact hy.place
  | waits dstva hy => exact hy.place
  | yields k₁ _ hy => exact hy.place

theorem Handled.place {io : Inputs} {tf : Trapframe}
    (h : Handled io c cur tf k k') :
    (k'.cpus c).place = .user ∨ (k'.cpus c).place = .idle := by
  cases h with
  | returns call r k₁ _ _ _ _ hr => exact hr.place
  | leaves call _ _ _ hl => exact hl.place
  | badCall _ _ hr => exact hr.place
  | fault utr words k₁ k₂ d _ _ _ _ _ _ hk =>
      rw [hk]
      exact Or.inl (by simp [Kernel.dispatched])
  | gone _ hl => exact hl.leaves.place
  | ignored _ hr => exact hr.place

theorem Stepped.place {ev : Event} (h : Stepped k ev k') (hc : ev.cpu = some c) :
    (k'.cpus c).place = .user ∨ (k'.cpus c).place = .idle := by
  cases h with
  | start _ _ hy => exact Option.some.inj hc ▸ hy.place
  | reap _ _ _ _ _ hy => exact Option.some.inj hc ▸ hy.place
  | serve _ _ _ _ hh => exact Option.some.inj hc ▸ hh.place
  | wake _ _ _ hr =>
      exact Option.some.inj hc ▸ hr.elim (fun hr => hr.place) (fun hy => hy.place)
  | store _ _ _ => exact absurd hc nofun
  | device _ => exact absurd hc nofun

theorem Stepped.cpu_lt {ev : Event} (h : Stepped k ev k') (hc : ev.cpu = some c) :
    c < k.ncpu := by
  cases h with
  | start hlt _ _ => exact Option.some.inj hc ▸ hlt
  | reap hlt _ _ _ _ _ => exact Option.some.inj hc ▸ hlt
  | serve hlt _ _ _ _ => exact Option.some.inj hc ▸ hlt
  | wake hlt _ _ _ => exact Option.some.inj hc ▸ hlt
  | store _ _ _ => exact absurd hc nofun
  | device _ => exact absurd hc nofun

variable {ncpu : Nat} {m : LockMachine}

/-- A processor at rest goes up to the scheduler when it enters the kernel. -/
theorem Rests.enter_path (hr : Rests ncpu k m) (hm : m.Disciplined) (hc : c < ncpu) :
    Relation.ReflTransGen (LockStep ncpu) m
      (m.hand c true (some c) ⟨.schedYield, .started, 1, 0⟩) := by
  have hself : ∀ p, m.cpus c = p → m = m.hand c false none p := fun p hp => by
    subst hp
    rw [LockMachine.hand, Function.update_eq_self, ← hr.locked, ← hr.cpu]
  have hcpu : ∀ point, (m.cpus c).point = point →
      ∀ status, (m.cpus c).status = status →
      m.cpus c = ⟨point, status, point.counts.1, point.counts.2⟩ :=
    fun point hpoint status hstatus => by
      obtain ⟨ha, hrel⟩ := hm.counts_at hpoint
      rw [← hpoint, ← hstatus, hpoint, ← ha, ← hrel, ← hpoint]
  have hpoint := hr.point c hc
  generalize hp : (m.cpus c).point = point at hpoint
  generalize (k.cpus c).place = place at hpoint
  have hstatus := hm.status_at hp
  cases hpoint with
  | boot =>
      have h₀ : m.cpus c = ⟨.lockReadLocked .mpMain, .started, 0, 0⟩ := hcpu _ hp _ hstatus
      have h : Relation.ReflTransGen (LockStep ncpu)
          (m.hand c false none ⟨.lockReadLocked .mpMain, .started, 0, 0⟩) _ :=
        lock_path .mpMain hc
      rwa [← hself _ h₀] at h
  | user =>
      have h₀ : m.cpus c = ⟨.user, .started, 1, 1⟩ := hcpu _ hp _ hstatus
      have h := trap_path (m := m) (o := none) (a := 1) (r := 1) hc
      rwa [← hself _ h₀] at h
  | halted =>
      have h₀ : m.cpus c = ⟨.halted, .halted, 1, 1⟩ := hcpu _ hp _ hstatus
      have h := wake_path (m := m) (o := none) (a := 1) (r := 1) hc
      rwa [← hself _ h₀] at h

/-- The processor of an entry leaves the kernel again. -/
theorem Rests.leave (hr : Rests ncpu k m) {p : Processor}
    (hp : p.point.StandsFor (k'.cpus c).place)
    (hothers : ∀ c', c' ≠ c → k'.cpus c' = k.cpus c') :
    Rests ncpu k' (m.hand c false none p) := by
  refine ⟨rfl, rfl, fun c' hc' => ?_⟩
  by_cases hne : c' = c
  · subst hne
    rwa [LockMachine.hand_cpus]
  · have hcpu : (m.hand c false none p).cpus c' = m.cpus c' := by
      simp [LockMachine.hand, hne]
    rw [hcpu, hothers c' hne]
    exact hr.point c' hc'

/-- An entry of the atomic machine is a path of this one, on which no other
processor moves. -/
theorem Event.lock_path {ev : Event} (ho : Orderly k) (hm : m.Disciplined)
    (hr : Rests k.ncpu k m) (hstep : ev.step k = some k') :
    ∃ m', Relation.ReflTransGen (LockStep k.ncpu) m m' ∧ Rests k.ncpu k' m' := by
  have hstepped := Event.step_cases (fun c hp => (ho.procs.halted c).mpr hp) hstep
  cases hev : ev.cpu with
  | none =>
      have hcpus : ∀ c, k'.cpus c = k.cpus c := fun c =>
        ev.cpus_of_ne ho hstep (fun c' hc' => absurd (hev.symm.trans hc') (by simp))
      refine ⟨m, .refl, hr.locked, hr.cpu, fun c hc => ?_⟩
      rw [hcpus c]
      exact hr.point c hc
  | some c =>
      have hothers : ∀ c', c' ≠ c → k'.cpus c' = k.cpus c' := fun c' hne =>
        ev.cpus_of_ne ho hstep (fun c₁ hc₁ =>
          (Option.some.inj (hev.symm.trans hc₁)) ▸ hne)
      have hc : c < k.ncpu := hstepped.cpu_lt hev
      have henter := hr.enter_path hm hc
      rcases hstepped.place hev with hplace | hplace
      · refine ⟨_, henter.trans (dispatch_path hc), hr.leave ?_ hothers⟩
        rw [hplace]
        exact .user
      · refine ⟨_, henter.trans (halt_path hc), hr.leave ?_ hothers⟩
        rw [hplace]
        exact .halted

end Rests

/-! ## The discipline -/

/-- Of any number of processors, in any interleaving, at most one is between
`lock_kernel` and `unlock_kernel`; none locks what it holds or unlocks what it
does not hold, so none gets to a panic of the lock; and one that comes to user
code or to the `hlt` loop has taken and released the lock once. -/
theorem kernelLock_discipline (ncpu : Nat) (m : LockMachine)
    (h : LockReachable ncpu m) :
    (∀ c c', (m.cpus c).Holds → (m.cpus c').Holds → c = c') ∧
    (∀ c site, (m.cpus c).point = .lockReadLocked site → ¬ (m.cpus c).Holds) ∧
    (∀ c site, (m.cpus c).point = .unlockReadLocked site → (m.cpus c).Holds) ∧
    (∀ c, (m.cpus c).point ≠ .lockPanic ∧ (m.cpus c).point ≠ .unlockPanic) ∧
    (∀ c, (m.cpus c).point = .user ∨ (m.cpus c).point = .halted →
      (m.cpus c).acquired = 1 ∧ (m.cpus c).released = 1) := by
  have hd := h.disciplined
  refine ⟨fun c c' hc hc' => ?_, fun c site hlock => ?_, fun c site hunlock => ?_,
    fun c => ⟨fun hpanic => hd.onPath_at hpanic, fun hpanic => hd.onPath_at hpanic⟩,
    fun c hout => ?_⟩
  · exact hd.exclusive.unique c c' ((hd.fits c).holds_iff.mp hc)
      ((hd.fits c').holds_iff.mp hc')
  · rw [(hd.fits c).holds_iff, hlock]
    exact fun hne => hne rfl
  · rw [(hd.fits c).holds_iff, hunlock]
    exact nofun
  · rcases hout with hout | hout <;> exact hd.counts_at hout

/-- One processor boots, and comes to user code. -/
theorem kernelLock_discipline_boot :
    ∃ m, LockReachable 1 m ∧ (m.cpus 0).point = .user ∧
      (m.cpus 0).acquired = 1 ∧ (m.cpus 0).released = 1 := by
  have hinit : LockMachine.init =
      LockMachine.init.hand 0 false none ⟨.i386Init, .started, 0, 0⟩ := by
    have hcpu : LockMachine.init.cpus 0 = ⟨.i386Init, .started, 0, 0⟩ := rfl
    rw [LockMachine.hand, ← hcpu, Function.update_eq_self]
    rfl
  have hboot : LockStep 1
      (LockMachine.init.hand 0 true (some 0) ⟨.bootAps, .started, 1, 0⟩)
      (LockMachine.init.hand 0 true (some 0) ⟨.createEnvs, .started, 1, 0⟩) := by
    have h : LockStep 1 _ _ := LockStep.allUp
      (m := LockMachine.init.hand 0 true (some 0) ⟨.bootAps, .started, 1, 0⟩) 0
      (by simp) (fun c' hc' hne => by omega)
    rwa [LockMachine.hand_goto] at h
  have hreach : LockReachable 1
      (LockMachine.init.hand 0 false none ⟨.user, .started, 1, 1⟩) := by
    have hlock := (Relation.ReflTransGen.single
      (code_step (m := LockMachine.init) (o := none) (l := false)
        (p := ⟨.i386Init, .started, 0, 0⟩) Nat.one_pos .lockInit)).trans
      (lock_path .i386Init Nat.one_pos)
    rw [← hinit] at hlock
    exact ((hlock.tail hboot).tail (code_step Nat.one_pos .created)).trans
      (dispatch_path Nat.one_pos)
  have hpoint : ((LockMachine.init.hand 0 false none
      ⟨.user, .started, 1, 1⟩).cpus 0).point = .user := by
    simp
  exact ⟨_, hreach, hpoint,
    (kernelLock_discipline 1 _ hreach).2.2.2.2 0 (Or.inl hpoint)⟩

end Jos
