import Jos.Sched

/-!
# What the scheduler does

`env_run` and `sched_halt` leave the kernel in one state each, written out as
`dispatched` and `haltedOn`.  `sched_yield` ends in one of the two: it
dispatches the first runnable environment in circular order behind the one this
processor was last running, or else that one if it is still running, or else it
halts the processor.  `Picks` says which environment it chooses.
-/

namespace Jos

open Programs

/-- Processor `c` has dropped into environment `j`, whose directory is `d`. -/
def Kernel.dispatched (k : Kernel) (c j d : Nat) : Kernel :=
  { k with
    vm := k.vm.loadCr3 c d
    envs := fun e =>
      if e = j then
        { k.envs j with
          envStatus := .running
          envRuns := (k.envs j).envRuns + 1#32
          envCpunum := c }
      else if k.curenv c = some e ∧ (k.envs e).envStatus = .running then
        { k.envs e with envStatus := .runnable }
      else
        k.envs e
    cpus := Function.update k.cpus c
      { k.cpus c with cpuEnv := some j, place := .user }
    kernelLock := none }

/-- Processor `c` has gone to sleep. -/
def Kernel.haltedOn (k : Kernel) (c : Nat) : Kernel :=
  { k with
    vm := k.vm.loadCr3 c k.vm.kernPgdir
    cpus := Function.update k.cpus c ⟨.halted, none, .idle⟩
    kernelLock := none }

/-- The slot that `sched_yield` looks at in turn `i`. -/
def schedSlot (k : Kernel) (c i : Nat) : Nat := (schedStart k c + i) % nenv

theorem schedSlot_lt (k : Kernel) (c i : Nat) : schedSlot k c i < nenv :=
  Nat.mod_lt _ (by decide)

/-- Every slot is looked at in some turn. -/
theorem exists_schedSlot (k : Kernel) (c : Nat) {e : Nat} (he : e < nenv) :
    ∃ i, i < nenv ∧ schedSlot k c i = e := by
  have hn : nenv = 1024 := rfl
  unfold schedSlot
  rw [hn] at he ⊢
  exact ⟨(e + (1024 - schedStart k c % 1024)) % 1024, by omega, by omega⟩

/-- No environment is runnable. -/
def Kernel.NoneRunnable (k : Kernel) : Prop :=
  ∀ e, e < nenv → (k.envs e).envStatus ≠ .runnable

/-- The environment that `sched_yield` chooses on processor `c`. -/
def Picks (k : Kernel) (c j : Nat) : Prop :=
  (∃ i, i < nenv ∧ j = schedSlot k c i ∧ (k.envs j).envStatus = .runnable ∧
    ∀ i', i' < i → (k.envs (schedSlot k c i')).envStatus ≠ .runnable) ∨
  (k.NoneRunnable ∧ k.curenv c = some j ∧ (k.envs j).envStatus = .running)

section Runs

variable {k : Kernel} {c j d : Nat}

theorem preempt_envs (e : Nat) :
    (k.preempt c).envs e =
      if k.curenv c = some e ∧ (k.envs e).envStatus = .running then
        { k.envs e with envStatus := .runnable }
      else
        k.envs e := by
  unfold Kernel.preempt
  cases hcur : k.curenv c with
  | none => simp
  | some cur =>
      by_cases hrun : (k.envs cur).envStatus = .running
      · simp only [hrun, if_true, Kernel.setStatus]
        by_cases he : e = cur
        · subst he
          simp [hrun]
        · have hne : cur ≠ e := fun hh => he hh.symm
          simp [Kernel.modifyEnv_envs_of_ne he, hne]
      · simp only [hrun, if_false]
        by_cases he : cur = e
        · subst he
          simp [hrun]
        · simp [he]

theorem preempt_rest :
    k.preempt c = { k with envs := (k.preempt c).envs } := by
  unfold Kernel.preempt
  split
  · rfl
  · split <;> rfl

theorem unlockKernel_eq (hlock : k.kernelLock = some c) :
    (unlockKernel c).run k = .ret () (k.setLock none) := by
  unfold unlockKernel
  rw [Prog.run_bind_ret (Prog.run_get k), if_pos hlock]
  rfl

/-- `env_run` ends in user mode. -/
theorem envRun_exits
    (hd : (k.envs j).envPgdir = some d) (hlock : k.kernelLock = some c) :
    (envRun c j).run k = .exit (k.dispatched c j d) := by
  have hpgdir : ((k.preempt c).envs j).envPgdir = some d := by
    rw [preempt_envs]
    split <;> exact hd
  have hlock' : (k.preempt c).kernelLock = some c := by
    rw [preempt_rest]
    exact hlock
  let k₁ := (((k.preempt c).setCurenv c (some j)).setStatus j .running).modifyEnv j
    (fun v => { v with envRuns := v.envRuns + 1#32 })
  have hpgdir₁ : (k₁.envs j).envPgdir = some d := by
    simp only [k₁, Kernel.setStatus, Kernel.modifyEnv_envs_self]
    exact hpgdir
  let k₂ := k₁.setVm (k₁.vm.loadCr3 c d)
  have hunlock : (unlockKernel c).run k₂ = .ret () (k₂.setLock none) :=
    unlockKernel_eq hlock'
  have hrun : (envRun c j).run k = .exit (((k₂.setLock none).modifyEnv j
      (fun v => { v with envCpunum := c })).setPlace c .user) := by
    unfold envRun
    rw [Prog.run_bind_ret (Prog.run_modify _ _),
      Prog.run_bind_ret (Prog.run_modify _ _),
      Prog.run_bind_ret (Prog.run_modify _ _),
      Prog.run_bind_ret (Prog.run_modify _ _),
      Prog.run_bind_ret (Prog.run_get k₁)]
    simp only [hpgdir₁]
    have hlcr3 : (onVm (lcr3 c d)).run k₁ = .ret () k₂ := rfl
    rw [Prog.run_bind_ret hlcr3, Prog.run_bind_ret hunlock]
    rfl
  rw [hrun]
  congr 1
  have hrest := preempt_rest (k := k) (c := c)
  ext1
  case envs =>
    funext e
    simp only [k₂, k₁, Kernel.setPlace, Kernel.setStatus, Kernel.setCurenv]
    by_cases he : e = j
    · subst he
      by_cases hrun : k.curenv c = some e ∧ (k.envs e).envStatus = .running <;>
        simp [Kernel.dispatched, preempt_envs, hrun]
    · simp [Kernel.dispatched, he, Kernel.modifyEnv_envs_of_ne, preempt_envs]
  case cpus =>
    funext c'
    simp only [k₂, k₁, Kernel.setPlace, Kernel.setStatus, Kernel.setCurenv]
    rw [hrest]
    by_cases hc : c' = c
    · subst hc
      simp [Kernel.dispatched]
    · simp [Kernel.dispatched, hc, Kernel.modifyCpu_cpus_of_ne]
  all_goals
    simp only [k₂, k₁, Kernel.setPlace, Kernel.setStatus, Kernel.setCurenv]
    rw [hrest]
    rfl

theorem schedHalt_exits (hlock : k.kernelLock = some c) (hbusy : k.Busy) :
    (schedHalt c).run k = .exit (k.haltedOn c) := by
  let k₁ := (k.setCurenv c none).setVm (k.vm.loadCr3 c k.vm.kernPgdir)
  have hunlock : (unlockKernel c).run (k₁.setCpuStatus c .halted) =
      .ret () ((k₁.setCpuStatus c .halted).setLock none) :=
    unlockKernel_eq hlock
  have hlcr3 : (onVm (lcr3 c k.vm.kernPgdir)).run (k.setCurenv c none) =
      .ret () k₁ := rfl
  have hrun : (schedHalt c).run k =
      .exit (((k₁.setCpuStatus c .halted).setLock none).setPlace c .idle) := by
    unfold schedHalt
    rw [Prog.run_bind_ret (Prog.run_get k), if_pos hbusy,
      Prog.run_bind_ret (Prog.run_modify _ _), Prog.run_bind_ret hlcr3,
      Prog.run_bind_ret (Prog.run_modify _ _), Prog.run_bind_ret hunlock]
    rfl
  rw [hrun]
  have hcpus : (((k₁.setCpuStatus c .halted).setLock none).setPlace c .idle).cpus =
      (k.haltedOn c).cpus := by
    funext c'
    simp only [k₁, Kernel.setPlace, Kernel.setCpuStatus, Kernel.setCurenv]
    by_cases hc : c' = c
    · subst hc
      simp [Kernel.haltedOn]
    · simp [Kernel.haltedOn, hc, Kernel.modifyCpu_cpus_of_ne]
  exact congrArg Outcome.exit
    (Kernel.ext rfl rfl rfl hcpus rfl rfl rfl rfl rfl rfl)

theorem schedHalt_stops (hbusy : ¬ k.Busy) :
    (schedHalt c).run k = .stop k := by
  unfold schedHalt
  rw [Prog.run_bind_ret (Prog.run_get k), if_neg hbusy]
  rfl

/-- How `sched_yield` ends on processor `c`. -/
inductive Yields (k : Kernel) (c : Nat) : Kernel → Prop where
  | dispatch (j d : Nat) :
      Picks k c j → (k.envs j).envPgdir = some d →
      Yields k c (k.dispatched c j d)
  | halt :
      k.NoneRunnable →
      (∀ j, k.curenv c = some j → (k.envs j).envStatus ≠ .running) →
      k.Busy → Yields k c (k.haltedOn c)

theorem envRun_stops (hd : (k.envs j).envPgdir = none) :
    ∃ k', (envRun c j).run k = .stop k' := by
  have hpgdir : ((k.preempt c).envs j).envPgdir = none := by
    rw [preempt_envs]
    split <;> exact hd
  let k₁ := (((k.preempt c).setCurenv c (some j)).setStatus j .running).modifyEnv j
    (fun v => { v with envRuns := v.envRuns + 1#32 })
  have hpgdir₁ : (k₁.envs j).envPgdir = none := by
    simp only [k₁, Kernel.setStatus, Kernel.modifyEnv_envs_self]
    exact hpgdir
  refine ⟨k₁, ?_⟩
  unfold envRun
  rw [Prog.run_bind_ret (Prog.run_modify _ _),
    Prog.run_bind_ret (Prog.run_modify _ _),
    Prog.run_bind_ret (Prog.run_modify _ _),
    Prog.run_bind_ret (Prog.run_modify _ _),
    Prog.run_bind_ret (Prog.run_get k₁)]
  simp only [hpgdir₁]
  rfl

/-- Why `sched_yield` may stop: nothing is left to run, or what it chooses has
no page directory. -/
def Stuck (k : Kernel) (c : Nat) : Prop :=
  ¬ k.Busy ∨ ∃ j, Picks k c j ∧ (k.envs j).envPgdir = none

theorem schedHalt_wp
    (hlock : k.kernelLock = some c) (hnone : k.NoneRunnable)
    (hidle : ∀ j, k.curenv c = some j → (k.envs j).envStatus ≠ .running) :
    wp (schedHalt c)
      ⟨fun _ _ => False, Yields k c, fun _ => Stuck k c⟩ k := by
  by_cases hbusy : k.Busy
  · exact wp_of_exit (schedHalt_exits hlock hbusy) (.halt hnone hidle hbusy)
  · exact wp_of_stop (schedHalt_stops hbusy) (Or.inl hbusy)

/-- An environment that `sched_yield` chooses is dispatched. -/
theorem envRun_wp (hlock : k.kernelLock = some c) (hj : Picks k c j) :
    wp (envRun c j)
      ⟨fun _ _ => False, Yields k c, fun _ => Stuck k c⟩ k := by
  cases hd : (k.envs j).envPgdir with
  | some d => exact wp_of_exit (envRun_exits hd hlock) (.dispatch j d hj hd)
  | none =>
      obtain ⟨k', hrun⟩ := envRun_stops (c := c) hd
      exact wp_of_stop hrun (Or.inr ⟨j, hj, hd⟩)

/-- `sched_yield` never returns. -/
theorem schedYield_wp (hlock : k.kernelLock = some c) :
    wp (schedYield c)
      ⟨fun _ _ => False, Yields k c, fun _ => Stuck k c⟩ k := by
  unfold schedYield
  rw [wp_bind, wp_get]
  simp only
  rw [wp_bind]
  refine wp_forRange (fun i s => s = k ∧
    ∀ i', i' < i → (k.envs (schedSlot k c i')).envStatus ≠ .runnable) 0 nenv
    ?_ ?_ ⟨rfl, fun _ hi => absurd hi (Nat.not_lt_zero _)⟩
  · -- one turn: the slot is runnable and is dispatched, or the search goes on
    rintro i s - hi ⟨rfl, hnone⟩
    rw [Nat.zero_add] at hi
    rw [wp_bind, wp_get]
    refine wp_when (fun hrun => ?_) (fun hrun => ⟨rfl, ?_⟩)
    · exact wp_mono (envRun_wp hlock (Or.inl ⟨i, hi, rfl, hrun, hnone⟩))
        (fun _ _ => False.elim) (fun _ h => h) (fun _ h => h)
    · intro i' hi'
      rcases Nat.lt_succ_iff_lt_or_eq.mp hi' with hlt | rfl
      · exact hnone i' hlt
      · exact hrun
  · rintro s ⟨rfl, hnone⟩
    have hnone' : s.NoneRunnable := by
      intro e he
      obtain ⟨i, hi, rfl⟩ := exists_schedSlot s c he
      exact hnone i (by omega)
    cases hc : s.curenv c with
    | none =>
        exact schedHalt_wp hlock hnone'
          (fun j hj => absurd (hc.symm.trans hj) (by simp))
    | some cur =>
        refine (wp_bind _ _ _).mpr ?_
        refine wp_when (fun hrun => ?_) (fun hrun => ?_)
        · exact wp_mono (envRun_wp hlock (Or.inr ⟨hnone', hc, hrun⟩))
            (fun _ _ => False.elim) (fun _ h => h) (fun _ h => h)
        · refine schedHalt_wp hlock hnone' (fun j hj => ?_)
          obtain rfl := Option.some.inj (hc.symm.trans hj)
          exact hrun

end Runs

end Jos
