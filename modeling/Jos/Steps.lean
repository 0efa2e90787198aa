import Jos.Service
import Jos.System

/-!
# What a step of the system does

Every entry into the kernel is a few changes one after the other: the processor
enters, the trap frame is saved, the trap is served, and the processor leaves
again.  `Stepped` is the list of these changes for each kind of event, and
`Event.step_cases` says that it is complete.  Invariants are proved from
`Stepped`, and no proof about runs looks at the code of `trap` again.
-/

namespace Jos

open Programs

/-- A processor is in the kernel and holds the lock. -/
def Kernel.enters (k : Kernel) (c : Nat) : Kernel :=
  (k.setPlace c .kernel).setLock (some c)

/-- A processor has trapped into the kernel. -/
def Kernel.traps (k : Kernel) (c : Nat) : Kernel :=
  (k.enters c).setCpuStatus c .started

/-- The trap frame of the environment is saved. -/
def Kernel.saveTf (k : Kernel) (e : Nat) (tf : Trapframe) : Kernel :=
  k.modifyEnv e (fun v => { v with envTf := tf })

/-- The result of a system call is in the saved `%eax`. -/
def Kernel.result (k : Kernel) (e : Nat) (r : Int) : Kernel :=
  k.modifyEnv e (fun v => { v with envTf := v.envTf.setEax (BitVec.ofInt 32 r) })

/-- The environment will continue in its page fault handler. -/
def Kernel.redirect (k : Kernel) (e : Nat) (utr : U32) : Kernel :=
  k.modifyEnv e (fun v =>
    { v with
      envTf := { v.envTf with tfEip := v.envPgfaultUpcall, tfEsp := utr } })

/-- The system call that a trap frame asks for. -/
def Trapframe.call (tf : Trapframe) : Option Call :=
  (syscallNo tf.tfRegs.regEax).map (fun no =>
    ⟨no, tf.tfRegs.regEdx, tf.tfRegs.regEcx, tf.tfRegs.regEbx,
      tf.tfRegs.regEdi, tf.tfRegs.regEsi⟩)

/-- The end of `trap`: back to the environment, or to another one. -/
inductive Resumes (c : Nat) (k k' : Kernel) : Prop where
  | same (cur d : Nat) :
      k.curenv c = some cur → (k.envs cur).envStatus = .running →
      (k.envs cur).envPgdir = some d → k' = k.dispatched c cur d →
      Resumes c k k'
  | other :
      (∀ cur, k.curenv c = some cur → (k.envs cur).envStatus ≠ .running) →
      Yields k c k' → Resumes c k k'

/-- What is done for a trap of user code, once its frame is saved. -/
inductive Handled (io : Inputs) (c cur : Nat) (tf : Trapframe) (k k' : Kernel) :
    Prop where
  | returns (call : Call) (r : Int) (k₁ : Kernel) :
      tf.tfTrapno = tSyscall → tf.call = some call →
      (call.run io c).run k = .ret r k₁ →
      Served c cur (call.AsksVm k c) (call.AsksEnv k c) k k₁ →
      Resumes c (k₁.result cur r) k' → Handled io c cur tf k k'
  | leaves (call : Call) :
      tf.tfTrapno = tSyscall → tf.call = some call →
      (call.run io c).run k = .exit k' → Leaves c cur k k' →
      Handled io c cur tf k k'
  | badCall :
      tf.tfTrapno = tSyscall → tf.call = none →
      Resumes c (k.result cur (-eInval)) k' → Handled io c cur tf k k'
  | fault (utr : U32) (words : List U32) (k₁ k₂ : Kernel) (d : Nat) :
      tf.tfTrapno = tPgflt →
      utr = exceptionStackTop tf.tfEsp - (utrapframeSize + 4#32) →
      words = utrapframeWords io.cr2 tf → Quiet k k₁ →
      (VmOp.pushFrame utr words).Does c k₁ k₂ →
      (k.envs cur).envPgdir = some d →
      k' = (k₂.redirect cur utr).dispatched c cur d →
      Handled io c cur tf k k'
  | gone :
      tf.tfTrapno ≠ tSyscall → Departs c cur k k' → Handled io c cur tf k k'
  | ignored :
      tf.tfTrapno ≠ tSyscall → Resumes c k k' → Handled io c cur tf k k'

/-- The changes that make up a step. -/
inductive Stepped (k : Kernel) : Event → Kernel → Prop where
  | start {c : Nat} {k' : Kernel} :
      c < k.ncpu → (k.cpus c).place = .boot → Yields (k.enters c) c k' →
      Stepped k (.start c) k'
  | reap {c cur : Nat} {tf : Trapframe} {io : Inputs} {k₁ k' : Kernel} :
      c < k.ncpu → (k.cpus c).place = .user → k.curenv c = some cur →
      (k.envs cur).envStatus = .dying → Dies c cur (k.traps c) k₁ →
      Yields k₁ c k' → Stepped k (.trap c tf io) k'
  | serve {c cur : Nat} {tf : Trapframe} {io : Inputs} {k' : Kernel} :
      c < k.ncpu → (k.cpus c).place = .user → k.curenv c = some cur →
      (k.envs cur).envStatus ≠ .dying →
      Handled io c cur tf ((k.traps c).saveTf cur tf) k' →
      Stepped k (.trap c tf io) k'
  | wake {c : Nat} {tf : Trapframe} {io : Inputs} {k₁ k' : Kernel} :
      c < k.ncpu → (k.cpus c).place = .idle → Quiet (k.traps c) k₁ →
      Resumes c k₁ k' ∨ Yields k₁ c k' → Stepped k (.interrupt c tf io) k'
  | store {c p : Nat} {va : U32} {b : U8} :
      c < k.ncpu → (k.cpus c).place = .user →
      k.vm.userPage (k.vm.cr3 c) va true = some p →
      Stepped k (.store c va b) (k.setVm (k.vm.setByte p (pgoff va) b))
  | device {tx : Nat → TxDesc} {rx : Nat → RxDesc} {rxBuffer : Nat → U8}
      {k' : Kernel} :
      Quiet k k' → Stepped k (.device tx rx rxBuffer) k'

section Trap

variable {k k' : Kernel} {c cur : Nat} {io : Inputs} {tf : Trapframe}

/-- The postcondition of a program that ends by leaving. -/
abbrev LeavesIn {α : Type} (Q : Kernel → Prop) : Post Kernel α :=
  Partial (fun _ _ => False) Q

theorem envRun_dispatches {d : Nat} (hlock : k.kernelLock = some c)
    (hd : (k.envs cur).envPgdir = some d) :
    wp (envRun c cur) (LeavesIn (fun k' => k' = k.dispatched c cur d)) k :=
  wp_of_exit (envRun_exits hd hlock) rfl

theorem trapReturn_wp (hlock : k.kernelLock = some c) :
    wp (trapReturn c) (LeavesIn (Resumes c k)) k := by
  have hother : (∀ cur, k.curenv c = some cur →
      (k.envs cur).envStatus ≠ .running) →
      wp (schedYield c) (LeavesIn (Resumes c k)) k := fun hidle =>
    wp_mono (schedYield_leaves (R := fun _ _ => False) hlock)
      (fun _ _ h => h) (fun _ h => .other hidle h) (fun _ h => h)
  unfold trapReturn
  rw [wp_get_bind]
  cases hcur : k.curenv c with
  | none => exact hother (fun cur h => absurd (hcur.symm.trans h) (by simp))
  | some cur =>
      refine wp_ite (fun hrun => ?_) (fun hrun => ?_)
      · cases hd : (k.envs cur).envPgdir with
        | some d =>
            exact wp_mono (envRun_dispatches hlock hd) (fun _ _ h => h)
              (fun k' h => .same cur d hcur hrun hd h) (fun _ h => h)
        | none =>
            obtain ⟨k', hstop⟩ := envRun_stops (c := c) hd
            exact wp_of_stop hstop trivial
      · refine hother (fun cur' h => ?_)
        obtain rfl := Option.some.inj (hcur.symm.trans h)
        exact hrun

/-- The page fault handler is entered, or the environment is destroyed. -/
theorem pageFaultHandler_wp (hlock : k.kernelLock = some c)
    (hcur : k.curenv c = some cur) (hpgflt : tf.tfTrapno = tPgflt)
    (hsyscall : tf.tfTrapno ≠ tSyscall) :
    wp (pageFaultHandler io c tf) (LeavesIn (Handled io c cur tf k)) k := by
  refine wp_ite (fun _ => trivial) (fun _ => ?_)
  refine theCurenv_bind hcur ?_
  rw [wp_get_bind]
  refine wp_ite (fun _ => ?_) (fun _ => ?_)
  · refine partial_bind (userMemAssert_wp hlock hcur) (fun _ k₁ h₁ => ?_)
      (fun _ h => .gone hsyscall h)
    refine stays_bind (storeBytes_stays c _ _) (fun _ k₂ hrun => ?_)
    have h₂ := wp_ret storeBytes_wp hrun
    rw [wp_modify_bind]
    have hlock₂ : k₂.kernelLock = some c :=
      (h₂.kernelLock.trans h₁.procs.kernelLock).trans hlock
    cases hd : (k.envs cur).envPgdir with
    | some d =>
        refine wp_mono (envRun_dispatches (k := k₂.redirect cur _) (d := d)
          hlock₂ ?_) (fun _ _ h => h)
          (fun k' h => .fault _ _ k₁ k₂ d hpgflt rfl rfl h₁ hrun hd h) (fun _ h => h)
        simp only [Kernel.redirect, Kernel.modifyEnv_envs_self]
        rw [h₂.envs, h₁.procs.envs, hd]
    | none =>
        obtain ⟨k', hstop⟩ := envRun_stops (c := c) (j := cur)
          (k := k₂.redirect cur _) (by
            simp only [Kernel.redirect, Kernel.modifyEnv_envs_self]
            rw [h₂.envs, h₁.procs.envs, hd])
        exact wp_of_stop hstop trivial
  · refine wp_mono (envDestroy_self (R := fun _ _ => False) hlock hcur)
      (fun _ _ h => h) ?_ (fun _ h => h)
    rintro k' ⟨k₁, hdies, hyields⟩
    exact .gone hsyscall (.dies k k₁ (.refl k) hdies hyields)

theorem timeTick_wp :
    wp timeTick (Partial (fun _ k' => Quiet k k') (fun _ => False)) k := by
  unfold timeTick
  rw [wp_modify_bind, wp_get_bind]
  exact wp_ite (fun _ => trivial)
    (fun _ => quiet_of_same ⟨rfl, rfl, rfl, rfl, rfl⟩ rfl)

/-- A trap is dispatched and the processor leaves again. -/
theorem trapDispatch_wp (hlock : k.kernelLock = some c)
    (hcur : k.curenv c = some cur) :
    wp (trapDispatch io c tf >>= fun _ => trapReturn c)
      (LeavesIn (Handled io c cur tf k)) k := by
  have hignored : tf.tfTrapno ≠ tSyscall →
      wp (trapReturn c) (LeavesIn (Handled io c cur tf k)) k := fun hno =>
    wp_mono (trapReturn_wp hlock) (fun _ _ h => h) (fun _ h => .ignored hno h)
      (fun _ h => h)
  rw [wp_bind]
  unfold trapDispatch
  refine wp_ite (fun h => ?_) (fun _ => ?_)
  · exact wp_mono (pageFaultHandler_wp hlock hcur h (by rw [h]; decide))
      (fun _ _ h => h.elim) (fun _ h => h) (fun _ h => h)
  refine wp_ite (fun _ => trivial) (fun _ => ?_)
  refine wp_ite (fun hsys => ?_) (fun hno => ?_)
  · refine theCurenv_bind hcur ?_
    have hreturn : ∀ k₁ : Kernel, k₁.kernelLock = some c → ∀ r : Int,
        (∀ k', Resumes c (k₁.result cur r) k' → Handled io c cur tf k k') →
        wp (trapReturn c) (LeavesIn (Handled io c cur tf k))
          (k₁.result cur r) := fun k₁ hlock₁ r h =>
      wp_mono (trapReturn_wp hlock₁) (fun _ _ h => h) h (fun _ h => h)
    rw [wp_bind]
    unfold syscall
    cases hno : syscallNo tf.tfRegs.regEax with
    | none =>
        have hcall : tf.call = none := by
          rw [Trapframe.call, hno]
          rfl
        exact hreturn k hlock (-eInval) (fun k' h => .badCall hsys hcall h)
    | some no =>
        let call : Call := ⟨no, tf.tfRegs.regEdx, tf.tfRegs.regEcx,
          tf.tfRegs.regEbx, tf.tfRegs.regEdi, tf.tfRegs.regEsi⟩
        have hcall : tf.call = some call := by
          rw [Trapframe.call, hno]
          rfl
        have hspec : wp (call.run io c) (call.Post k c cur) k :=
          call.run_wp hlock hcur
        have hrun : syscallCase io c tf.tfRegs.regEdx tf.tfRegs.regEcx
          tf.tfRegs.regEbx tf.tfRegs.regEdi tf.tfRegs.regEsi no =
          call.run io c := rfl
        simp only
        rw [hrun]
        unfold wp at hspec ⊢
        cases hres : (call.run io c).run k with
        | ret r k₁ =>
            rw [hres] at hspec
            exact hreturn k₁ (hspec.sameCpus.kernelLock.trans hlock) r
              (fun k' h => .returns call r k₁ hsys hcall hres hspec h)
        | exit k₁ =>
            rw [hres] at hspec
            exact .leaves call hsys hcall hres hspec
        | stop k₁ => trivial
  refine wp_ite (fun _ => hignored hno) (fun _ => ?_)
  refine wp_ite (fun _ => ?_) (fun _ => ?_)
  · refine partial_bind timeTick_wp (fun _ k₁ h₁ => ?_) (fun _ h => h.elim)
    exact wp_mono (schedYield_leaves (R := fun _ _ => False)
      (h₁.procs.kernelLock.trans hlock)) (fun _ _ h => h.elim)
      (fun k' h => .gone hno (.yields k₁ h₁ h)) (fun _ h => h)
  refine wp_ite (fun _ => hignored hno) (fun _ => ?_)
  refine wp_ite (fun _ => hignored hno) (fun _ => ?_)
  refine wp_ite (fun _ => trivial) (fun _ => ?_)
  refine theCurenv_bind hcur ?_
  refine wp_mono (envDestroy_self (R := fun _ _ => False) hlock hcur)
    (fun _ _ h => h.elim) ?_ (fun _ h => h)
  rintro k' ⟨k₁, hdies, hyields⟩
  exact .gone hno (.dies k k₁ (.refl k) hdies hyields)

theorem traps_curenv : (k.traps c).curenv c = k.curenv c := by
  simp [Kernel.traps, Kernel.enters, Kernel.curenv, Kernel.setPlace,
    Kernel.setCpuStatus]

/-- A processor that takes the lock when it is free goes on with it. -/
theorem lockKernel_bind {β : Type} {f : Unit → Prog Kernel β}
    {R : β → Kernel → Prop} {X : Kernel → Prop}
    (h : k.kernelLock = none →
      wp (f ()) (Partial R X) (k.setLock (some c))) :
    wp (lockKernel c >>= f) (Partial R X) k := by
  unfold lockKernel
  rw [wp_bind, wp_get_bind]
  exact wp_ite h (fun _ => trivial)

/-- A zombie is freed; of any other environment the frame is saved. -/
theorem trapFromUser_wp
    (hcur : k.curenv c = some cur) (hlock : k.kernelLock = some c)
    {rest : Unit → Prog Kernel Unit} {Q : Kernel → Prop}
    (hreap : (k.envs cur).envStatus = .dying →
      ∀ k₁, Dies c cur k k₁ → ∀ k', Yields k₁ c k' → Q k')
    (hserve : (k.envs cur).envStatus ≠ .dying →
      wp (rest ()) (LeavesIn Q) (k.saveTf cur tf)) :
    wp ((do
        let cur ← theCurenv c
        let k ← Prog.get
        Prog.when ((k.envs cur).envStatus = .dying) (do
          envFree c cur
          Prog.modify (fun k => k.setCurenv c none)
          schedYield c)
        Prog.modify (fun k => k.modifyEnv cur (fun v => { v with envTf := tf })))
      >>= rest) (LeavesIn Q) k := by
  rw [wp_bind]
  refine theCurenv_bind hcur ?_
  rw [wp_get_bind, wp_bind]
  refine wp_when (fun hdying => ?_) (fun hdying => hserve hdying)
  refine stays_bind (envFree_stays c cur) (fun _ k₁ hrun => ?_)
  obtain ⟨d, vm, -, rfl⟩ := envFree_ret hrun
  rw [wp_modify_bind]
  exact wp_mono (schedYield_leaves (R := fun _ _ => False) hlock)
    (fun _ _ h => h.elim)
    (fun k' h => hreap hdying _ ⟨_, hcur, hrun, rfl⟩ k' h) (fun _ h => h)

/-- A trap out of user code: a zombie is reaped, and any other environment is
served. -/
theorem trap_user_wp {Q : Kernel → Prop} (huser : tf.FromUser)
    (hreap : ∀ cur, k.curenv c = some cur → (k.envs cur).envStatus = .dying →
      ∀ k₁, Dies c cur (k.traps c) k₁ → ∀ k', Yields k₁ c k' → Q k')
    (hserve : ∀ cur, k.curenv c = some cur → (k.envs cur).envStatus ≠ .dying →
      wp (trapDispatch io c tf >>= fun _ => trapReturn c) (LeavesIn Q)
        ((k.traps c).saveTf cur tf)) :
    wp (trap io c tf) (LeavesIn Q) k := by
  unfold trap
  rw [wp_get_bind, wp_modify_bind]
  have hfrom : ∀ k₁ : Kernel,
      (k₁.kernelLock = none →
        k₁ = (k.setPlace c .kernel).setCpuStatus c .started) →
      wp (Prog.when tf.FromUser (trapFromUser c tf) >>= fun _ =>
          trapDispatch io c tf >>= fun _ => trapReturn c)
        (LeavesIn Q) k₁ := by
    intro k₁ hk₁
    rw [Prog.when, if_pos huser, trapFromUser, Prog.bind_assoc]
    refine lockKernel_bind (fun hlock => ?_)
    have htraps : k₁.setLock (some c) = k.traps c := by
      rw [hk₁ hlock]
      rfl
    rw [htraps]
    cases hcur : k.curenv c with
    | none =>
        have hnone : (theCurenv c).run (k.traps c) = .stop (k.traps c) := by
          unfold theCurenv
          rw [Prog.run_bind_ret (Prog.run_get _)]
          simp only [traps_curenv, hcur]
          rfl
        rw [Prog.bind_assoc, wp_bind]
        exact wp_of_stop hnone trivial
    | some cur =>
        exact trapFromUser_wp (traps_curenv.trans hcur) rfl
          (hreap cur hcur) (hserve cur hcur)
  by_cases hhalted : (k.cpus c).cpuStatus = .halted
  · -- the lock is taken twice
    rw [Prog.when, if_pos hhalted]
    refine lockKernel_bind (fun _ => ?_)
    exact hfrom _ (fun h => absurd h (by simp))
  · rw [Prog.when, if_neg hhalted]
    exact hfrom _ (fun _ => rfl)

theorem trap_user
    (hcpu : c < k.ncpu) (hplace : (k.cpus c).place = .user)
    (huser : tf.FromUser) (hrun : (trap io c tf).run k = .exit k') :
    Stepped k (.trap c tf io) k' := by
  refine wp_exited (Q := LeavesIn (Stepped k (.trap c tf io))) ?_ hrun
  refine trap_user_wp huser ?_ ?_
  · intro cur hcur hdying k₂ hdies k' hyields
    exact .reap hcpu hplace hcur hdying hdies hyields
  · intro cur hcur hdying
    have hcur' : ((k.traps c).saveTf cur tf).curenv c = some cur :=
      traps_curenv.trans hcur
    exact wp_mono (trapDispatch_wp rfl hcur') (fun _ _ h => h)
      (fun k' h => .serve hcpu hplace hcur hdying h) (fun _ h => h)

/-- An interrupt that wakes up a halted processor. -/
theorem trap_wakes
    (hcpu : c < k.ncpu) (hplace : (k.cpus c).place = .idle)
    (hhalted : (k.cpus c).cpuStatus = .halted)
    (hwakes : tf.Wakes) (hrun : (trap io c tf).run k = .exit k') :
    Stepped k (.interrupt c tf io) k' := by
  obtain ⟨hcs, hlo, hhi⟩ := hwakes
  have hkernel : ¬ tf.FromUser := by
    unfold Trapframe.FromUser
    rw [hcs]
    decide
  have hno : ∀ n : U32, n < irqOffset ∨ irqOffset + 16#32 ≤ n →
      tf.tfTrapno ≠ n := by
    rintro n hn rfl
    rcases hn with hn | hn
    · exact absurd hlo (BitVec.not_le.mpr hn)
    · exact absurd hhi (BitVec.not_lt.mpr hn)
  refine wp_exited (Q := LeavesIn (Stepped k (.interrupt c tf io))) ?_ hrun
  have hreturn : ∀ k₁, Quiet (k.traps c) k₁ →
      wp (trapReturn c) (LeavesIn (Stepped k (.interrupt c tf io))) k₁ :=
    fun k₁ h₁ => wp_mono (trapReturn_wp h₁.procs.kernelLock) (fun _ _ h => h)
      (fun _ h => .wake hcpu hplace h₁ (Or.inl h)) (fun _ h => h)
  unfold trap
  rw [wp_get_bind, wp_modify_bind, Prog.when, if_pos hhalted]
  refine lockKernel_bind (fun _ => ?_)
  have htraps : ((k.setPlace c .kernel).setCpuStatus c .started).setLock
      (some c) = k.traps c := rfl
  rw [htraps, Prog.when, if_neg hkernel]
  refine partial_bind (R := fun _ k₁ => k₁ = k.traps c) (X := fun _ => False)
    rfl ?_ (fun _ => False.elim)
  rintro _ _ rfl
  rw [wp_bind]
  unfold trapDispatch
  rw [if_neg (hno _ (by decide)), if_neg (hno _ (by decide)),
    if_neg (hno _ (by decide))]
  refine wp_ite (fun _ => hreturn _ (.refl _)) (fun _ => ?_)
  refine wp_ite (fun _ => ?_) (fun _ => ?_)
  · refine partial_bind timeTick_wp (fun _ k₁ h₁ => ?_) (fun _ h => h.elim)
    exact wp_mono (schedYield_leaves (R := fun _ _ => False)
      h₁.procs.kernelLock) (fun _ _ h => h.elim)
      (fun k' h => .wake hcpu hplace h₁ (Or.inr h)) (fun _ h => h)
  refine wp_ite (fun _ => hreturn _ (.refl _)) (fun _ => ?_)
  refine wp_ite (fun _ => hreturn _ (.refl _)) (fun _ => ?_)
  rw [if_pos hcs]
  exact trivial

/-- A processor starts to schedule. -/
theorem startSched_stepped
    (hcpu : c < k.ncpu) (hplace : (k.cpus c).place = .boot)
    (hrun : (startSched c).run k = .exit k') :
    Stepped k (.start c) k' := by
  refine wp_exited (Q := LeavesIn (Stepped k (.start c))) ?_ hrun
  unfold startSched
  rw [wp_modify_bind]
  refine lockKernel_bind (fun _ => ?_)
  exact wp_mono (schedYield_leaves (R := fun _ _ => False) rfl)
    (fun _ _ h => h.elim) (fun k' h => .start hcpu hplace h) (fun _ h => h)

end Trap

/-- Every step is made of the changes that `Stepped` lists. -/
theorem Event.step_cases {k k' : Kernel} {ev : Event}
    (hhalted : ∀ c, (k.cpus c).place = .idle → (k.cpus c).cpuStatus = .halted)
    (h : ev.step k = some k') : Stepped k ev k' := by
  have hleaves : ∀ {α : Type} {o : Outcome Kernel α},
      leaves o = some k' → o = .exit k' := by
    intro α o ho
    cases o with
    | ret a s => exact absurd ho (by simp [Jos.leaves])
    | exit s => exact congrArg Outcome.exit (Option.some.inj ho)
    | stop s => exact absurd ho (by simp [Jos.leaves])
  cases ev with
  | start c =>
      simp only [Event.step] at h
      split at h
      · rename_i hc
        exact startSched_stepped hc.1 hc.2 (hleaves h)
      · exact absurd h (by simp)
  | trap c tf io =>
      simp only [Event.step] at h
      split at h
      · rename_i hc
        exact trap_user hc.1 hc.2.1 hc.2.2 (hleaves h)
      · exact absurd h (by simp)
  | interrupt c tf io =>
      simp only [Event.step] at h
      split at h
      · rename_i hc
        exact trap_wakes hc.1 hc.2.1 (hhalted c hc.2.1) hc.2.2 (hleaves h)
      · exact absurd h (by simp)
  | store c va b =>
      simp only [Event.step] at h
      split at h
      · rename_i hc
        obtain ⟨p, hp, rfl⟩ := Option.map_eq_some_iff.mp h
        exact .store hc.1 hc.2 hp
      · exact absurd h (by simp)
  | device tx rx rxBuffer =>
      obtain rfl := Option.some.inj h
      exact .device (quiet_modifyNic _)

/-! ## System calls of a step -/

/-- The system call that an event makes, with the processor that serves it and
the state in which it is served.  A zombie's call is not served. -/
inductive Event.Serves (k : Kernel) : Event → Kernel → Nat → Call → Prop where
  | trap {c cur : Nat} {tf : Trapframe} {io : Inputs} {call : Call} :
      k.curenv c = some cur → (k.envs cur).envStatus ≠ .dying →
      tf.tfTrapno = tSyscall → tf.call = some call →
      Serves k (.trap c tf io) ((k.traps c).saveTf cur tf) c call

/-- The processor that makes a step by entering the kernel. -/
def Event.cpu : Event → Option Nat
  | start c => some c
  | trap c _ _ => some c
  | interrupt c _ _ => some c
  | store _ _ _ => none
  | device _ _ _ => none

/-- What the step reads from outside. -/
def Event.inputs : Event → Inputs
  | trap _ _ io => io
  | interrupt _ _ io => io
  | _ => ⟨0, 0#32, none⟩

section Serves

variable {k k' k₀ : Kernel} {ev : Event} {c e : Nat} {call : Call}

theorem Event.Serves.cpu (h : ev.Serves k k₀ c call) : ev.cpu = some c := by
  cases h
  rfl

theorem Event.Serves.unique {k₁ : Kernel} {c₁ : Nat} {call₁ : Call}
    (h : ev.Serves k k₀ c call) (h₁ : ev.Serves k k₁ c₁ call₁) :
    k₀ = k₁ ∧ c = c₁ ∧ call = call₁ := by
  cases h with
  | trap hcur _ _ hcall =>
      cases h₁ with
      | trap hcur₁ _ _ hcall₁ =>
          obtain rfl := Option.some.inj (hcur.symm.trans hcur₁)
          exact ⟨rfl, rfl, Option.some.inj (hcall.symm.trans hcall₁)⟩

theorem Event.Serves.cpus (h : ev.Serves k k₀ c call) :
    k₀.cpus = (k.traps c).cpus := by
  cases h
  rfl

theorem Event.Serves.vm (h : ev.Serves k k₀ c call) : k₀.vm = k.vm := by
  cases h
  rfl

theorem Event.Serves.envFreeList (h : ev.Serves k k₀ c call) :
    k₀.envFreeList = k.envFreeList := by
  cases h
  rfl

theorem Event.Serves.curenv (h : ev.Serves k k₀ c call) :
    k₀.curenv c = k.curenv c := by
  cases h
  exact traps_curenv

/-- Of environments, only the frame of the current one has changed. -/
theorem Event.Serves.envs (h : ev.Serves k k₀ c call) (e : Nat) :
    ∃ tf, k₀.envs e = { k.envs e with envTf := tf } ∧
      (k.curenv c ≠ some e → tf = (k.envs e).envTf) := by
  cases h with
  | @trap _ cur tf _ _ hcur _ _ _ =>
      by_cases he : e = cur
      · subst he
        exact ⟨tf, Kernel.modifyEnv_envs_self, fun hne => absurd hcur hne⟩
      · exact ⟨_, Kernel.modifyEnv_envs_of_ne he, fun _ => rfl⟩

/-- A system call that is served returns, or leaves the kernel. -/
theorem Event.Serves.runs
    (hhalted : ∀ c, (k.cpus c).place = .idle → (k.cpus c).cpuStatus = .halted)
    (h : ev.Serves k k₀ c call) (hstep : ev.step k = some k') :
    ∃ cur, k.curenv c = some cur ∧
      ((∃ r k₁, (call.run ev.inputs c).run k₀ = .ret r k₁ ∧
          Served c cur (call.AsksVm k₀ c) (call.AsksEnv k₀ c) k₀ k₁ ∧
          Resumes c (k₁.result cur r) k') ∨
        ((call.run ev.inputs c).run k₀ = .exit k' ∧ Leaves c cur k₀ k')) := by
  have hcases := Event.step_cases hhalted hstep
  cases h with
  | @trap _ cur tf io _ hcur hdying hsys hcall =>
      refine ⟨cur, hcur, ?_⟩
      cases hcases with
      | reap _ _ hcur' hdying' _ _ =>
          obtain rfl := Option.some.inj (hcur.symm.trans hcur')
          exact absurd hdying' hdying
      | serve _ _ hcur' _ hh =>
          obtain rfl := Option.some.inj (hcur.symm.trans hcur')
          cases hh with
          | returns call' r k₁ _ hcall' hrun hs hr =>
              obtain rfl := Option.some.inj (hcall.symm.trans hcall')
              exact Or.inl ⟨r, k₁, hrun, hs, hr⟩
          | leaves call' _ hcall' hrun hl =>
              obtain rfl := Option.some.inj (hcall.symm.trans hcall')
              exact Or.inr ⟨hrun, hl⟩
          | badCall _ hnone _ => exact absurd (hnone.symm.trans hcall) (by simp)
          | fault _ _ _ _ _ hpgflt _ _ _ _ _ _ =>
              exact absurd (hsys.symm.trans hpgflt) (by decide)
          | gone hno _ => exact absurd hsys hno
          | ignored hno _ => exact absurd hsys hno

end Serves

end Jos
