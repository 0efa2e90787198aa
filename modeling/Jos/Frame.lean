import Jos.Order

/-!
# What a step leaves alone

A step changes the record of the environment that the processor had, and of the
environment that an operation of the system call is for.  Of any other it may
change what the scheduler keeps, and then only by dispatching it.
-/

namespace Jos

open Programs

/-- An environment was left alone, or dispatched. -/
structure Scheduled (v v' : Env) : Prop where
  same : v' = { v with
    envStatus := v'.envStatus
    envRuns := v'.envRuns
    envCpunum := v'.envCpunum }
  status : v'.envStatus = v.envStatus ∨
    (v.envStatus = .runnable ∧ v'.envStatus = .running)

/-- The environment that an operation is for. -/
def EnvOp.target : EnvOp → Nat
  | setTf e _ => e
  | setUpcall e _ => e
  | setStatus e _ => e
  | fork e => e
  | kill e => e
  | deliver rcv _ _ => rcv

/-- The call carries out an operation for environment `e`, whose record is `v`
then. -/
def Call.Edits (k : Kernel) (c cur : Nat) (call : Call) (e : Nat) (v : Env) :
    Prop :=
  ∃ op k₁ k₂, call.AsksEnv k c op ∧ op.target = e ∧ SameProcs k k₁ ∧
    op.Does c cur k₁ k₂ ∧ v = k₂.envs e

/-- The system call of an event carries out an operation for an environment. -/
def Event.Edits (k : Kernel) (ev : Event) (e : Nat) (v : Env) : Prop :=
  ∃ k₀ c cur call, ev.Serves k k₀ c call ∧ k.curenv c = some cur ∧
    call.Edits k₀ c cur e v

section Frame

variable {k k' k₁ : Kernel} {c cur e : Nat} {v v' : Env}

theorem Scheduled.refl (v : Env) : Scheduled v v := ⟨rfl, Or.inl rfl⟩

theorem EnvOp.Does.frame {op : EnvOp} (hop : op.Does c cur k k')
    (he : e ≠ op.target) : k'.envs e = k.envs e := by
  cases op with
  | setTf _ _ =>
      obtain rfl := hop
      exact Kernel.modifyEnv_envs_of_ne he
  | setUpcall _ _ =>
      obtain rfl := hop
      exact Kernel.modifyEnv_envs_of_ne he
  | setStatus _ _ =>
      obtain rfl := hop
      exact Kernel.modifyEnv_envs_of_ne he
  | fork e' =>
      obtain ⟨k₁, hrun, rfl⟩ := hop
      obtain ⟨-, p, vm, rfl⟩ := envAlloc_ret hrun
      exact (Kernel.modifyEnv_envs_of_ne he).trans (allocated_envs_of_ne he)
  | kill e' =>
      obtain ⟨-, ⟨-, rfl⟩ | ⟨-, hfree⟩⟩ := hop
      · exact Kernel.modifyEnv_envs_of_ne he
      · obtain ⟨d, vm, -, rfl⟩ := envFree_ret hfree
        exact freed_envs_of_ne he
  | deliver _ _ _ =>
      obtain rfl := hop
      exact Kernel.modifyEnv_envs_of_ne he

theorem Dies.frame (hdies : Dies c cur k k') (he : e ≠ cur) :
    k'.envs e = k.envs e := by
  obtain ⟨k₁, -, hrun, rfl⟩ := hdies
  obtain ⟨d, vm, -, rfl⟩ := envFree_ret hrun
  exact freed_envs_of_ne he

/-- After `Dies` the processor has no environment. -/
theorem Dies.curenv (hdies : Dies c cur k k') : k'.curenv c = none := by
  obtain ⟨k₁, -, -, rfl⟩ := hdies
  simp [Kernel.setCurenv, Kernel.curenv]

/-- The scheduler changes its own environment and the one it dispatches. -/
theorem Yields.frame (hy : Yields k c k') (he : k.curenv c ≠ some e) :
    Scheduled (k.envs e) (k'.envs e) := by
  cases hy with
  | dispatch j d hpick hd =>
      refine ⟨dispatched_envs e, ?_⟩
      by_cases hj : e = j
      · subst hj
        rcases hpick.status with hs | hcur
        · exact Or.inr ⟨hs, dispatched_status_self⟩
        · exact absurd hcur he
      · exact Or.inl (dispatched_status_of_other hj he)
  | halt _ _ _ => exact .refl _

theorem Resumes.frame (hr : Resumes c k k') (he : k.curenv c ≠ some e) :
    Scheduled (k.envs e) (k'.envs e) := by
  cases hr with
  | same cur d hcur _ _ hk =>
      rw [hk]
      have hj : e ≠ cur := fun hh => he (hh ▸ hcur)
      exact ⟨dispatched_envs e, Or.inl (dispatched_status_of_other hj he)⟩
  | other _ hy => exact hy.frame he

theorem Served.frame {call : Call}
    (hs : Served c cur (call.AsksVm k c) (call.AsksEnv k c) k k') :
    k'.envs e = k.envs e ∨ call.Edits k c cur e (k'.envs e) := by
  cases hs with
  | memory hm => exact Or.inl (by rw [hm.sameProcs.envs])
  | envs op k₁ hm hop hdoes =>
      by_cases he : e = op.target
      · exact Or.inr ⟨op, k₁, k', hop, he.symm, hm.sameProcs, hdoes, rfl⟩
      · exact Or.inl (by rw [hdoes.frame he, hm.sameProcs.envs])

theorem Leaves.frame (hl : Leaves c cur k k') (hcur : k.curenv c = some cur)
    (he : e ≠ cur) : Scheduled (k.envs e) (k'.envs e) := by
  have hne : k.curenv c ≠ some e := fun hh =>
    he (Option.some.inj (hh.symm.trans hcur))
  cases hl with
  | dies k₁ k₂ hq hdies hy =>
      have h := hy.frame (e := e) (by rw [hdies.curenv]; simp)
      rwa [hdies.frame he, hq.procs.envs] at h
  | waits dstva hy =>
      have h := hy.frame (e := e) hne
      rwa [Kernel.blocked, Kernel.modifyEnv_envs_of_ne he] at h
  | yields k₁ hq hy =>
      have h := hy.frame (e := e) (by rw [hq.procs.curenv]; exact hne)
      rwa [hq.procs.envs] at h

theorem Handled.frame {io : Inputs} {tf : Trapframe}
    (hh : Handled io c cur tf k k') (hcur : k.curenv c = some cur)
    (he : e ≠ cur) :
    ∃ v, (v = k.envs e ∨ ∃ call, tf.tfTrapno = tSyscall ∧ tf.call = some call ∧
      call.Edits k c cur e v) ∧ Scheduled v (k'.envs e) := by
  have hne : ∀ k₁ : Kernel, k₁.curenv c = k.curenv c → k₁.curenv c ≠ some e :=
    fun k₁ h₁ hh => he (Option.some.inj (hh.symm.trans (h₁.trans hcur)))
  cases hh with
  | returns call r k₁ hsys hcall _ hs hr =>
      have h := hr.frame (e := e) (hne _ hs.sameCpus.curenv)
      rw [Kernel.result, Kernel.modifyEnv_envs_of_ne he] at h
      exact ⟨_, hs.frame.imp_right (fun hedit => ⟨call, hsys, hcall, hedit⟩), h⟩
  | leaves call _ _ _ hl => exact ⟨_, Or.inl rfl, hl.frame hcur he⟩
  | badCall _ _ hr =>
      have h := hr.frame (e := e) (hne _ rfl)
      rw [Kernel.result, Kernel.modifyEnv_envs_of_ne he] at h
      exact ⟨_, Or.inl rfl, h⟩
  | fault utr words k₁ k₂ d _ _ _ hq hpush _ hk =>
      have hp := hq.procs.trans hpush.sameProcs
      have hsame : (k₂.redirect cur utr).envs e = k.envs e := by
        rw [Kernel.redirect, Kernel.modifyEnv_envs_of_ne he, hp.envs]
      refine ⟨_, Or.inl rfl, ?_⟩
      rw [hk, ← hsame]
      exact ⟨dispatched_envs e, Or.inl (dispatched_status_of_other he
        (hne _ (hp.curenv : k₂.curenv c = _)))⟩
  | gone _ hl => exact ⟨_, Or.inl rfl, hl.leaves.frame hcur he⟩
  | ignored _ hr => exact ⟨_, Or.inl rfl, hr.frame (hne _ rfl)⟩

/-- An environment that is not the processor's is left alone, or the system call
carries out an operation for it; then it may be dispatched. -/
theorem Event.frame {ev : Event} (ho : Orderly k)
    (hstep : ev.step k = some k')
    (he : ∀ c, ev.cpu = some c → k.curenv c ≠ some e) :
    ∃ v, (v = k.envs e ∨ ev.Edits k e v) ∧ Scheduled v (k'.envs e) := by
  cases Event.step_cases (fun c hp => (ho.procs.halted c).mpr hp) hstep with
  | @start c _ _ hplace hy =>
      have hcur : (k.enters c).curenv c = k.curenv c := by
        unfold Kernel.curenv
        rw [enters_cpus_self]
      exact ⟨_, Or.inl rfl, hy.frame (hcur ▸ he c rfl)⟩
  | @reap c cur tf io k₁ _ _ _ hcur _ hdies hy =>
      have hne : e ≠ cur := fun hh => he c rfl (hh ▸ hcur)
      have h := hy.frame (e := e) (by rw [hdies.curenv]; simp)
      rw [hdies.frame hne] at h
      exact ⟨_, Or.inl rfl, h⟩
  | @serve c cur tf io _ _ _ hcur hs hh =>
      have hne : e ≠ cur := fun hh => he c rfl (hh ▸ hcur)
      obtain ⟨v, hv, hsched⟩ := hh.frame (traps_curenv.trans hcur) hne
      rw [Kernel.saveTf, Kernel.modifyEnv_envs_of_ne hne] at hv
      refine ⟨v, hv.imp_right ?_, hsched⟩
      rintro ⟨call, hsys, hcall, hedit⟩
      exact ⟨_, c, cur, call, .trap hcur hs hsys hcall, hcur, hedit⟩
  | @wake c tf io k₁ _ _ _ hq hr =>
      have hne : k₁.curenv c ≠ some e := by
        rw [hq.procs.curenv, traps_curenv]
        exact he c rfl
      have h : Scheduled (k₁.envs e) (k'.envs e) :=
        hr.elim (fun hr => hr.frame hne) (fun hy => hy.frame hne)
      rw [hq.procs.envs] at h
      exact ⟨_, Or.inl rfl, h⟩
  | store _ _ _ => exact ⟨_, Or.inl rfl, .refl _⟩
  | device hq =>
      rw [hq.procs.envs]
      exact ⟨_, Or.inl rfl, .refl _⟩

/-! ## Other processors -/

theorem Yields.cpus_of_ne {c' : Nat} (hy : Yields k c k') (hc : c' ≠ c) :
    k'.cpus c' = k.cpus c' := by
  cases hy with
  | dispatch j d _ _ => exact dispatched_cpus_of_ne hc
  | halt _ _ _ => simp [Kernel.haltedOn, hc]

theorem Resumes.cpus_of_ne {c' : Nat} (hr : Resumes c k k') (hc : c' ≠ c) :
    k'.cpus c' = k.cpus c' := by
  cases hr with
  | same cur d _ _ _ hk =>
      rw [hk]
      exact dispatched_cpus_of_ne hc
  | other _ hy => exact hy.cpus_of_ne hc

theorem Dies.cpus_of_ne {c' : Nat} (hdies : Dies c cur k k') (hc : c' ≠ c) :
    k'.cpus c' = k.cpus c' := by
  obtain ⟨k₁, -, hrun, rfl⟩ := hdies
  obtain ⟨d, vm, -, rfl⟩ := envFree_ret hrun
  simp [Kernel.setCurenv, Kernel.modifyCpu_cpus_of_ne hc, Kernel.freed,
    Kernel.setEnv, Kernel.setVm]

theorem Leaves.cpus_of_ne {c' : Nat} (hl : Leaves c cur k k') (hc : c' ≠ c) :
    k'.cpus c' = k.cpus c' := by
  cases hl with
  | dies k₁ k₂ hq hdies hy =>
      rw [hy.cpus_of_ne hc, hdies.cpus_of_ne hc, hq.procs.cpus]
  | waits dstva hy => exact hy.cpus_of_ne hc
  | yields k₁ hq hy => rw [hy.cpus_of_ne hc, hq.procs.cpus]

theorem Handled.cpus_of_ne {io : Inputs} {tf : Trapframe} {c' : Nat}
    (hh : Handled io c cur tf k k') (hc : c' ≠ c) :
    k'.cpus c' = k.cpus c' := by
  cases hh with
  | returns call r k₁ _ _ _ hs hr =>
      refine (hr.cpus_of_ne hc).trans ?_
      exact congrFun hs.sameCpus.cpus c'
  | leaves call _ _ _ hl => exact hl.cpus_of_ne hc
  | badCall _ _ hr => exact hr.cpus_of_ne hc
  | fault utr words k₁ k₂ d _ _ _ hq hpush _ hk =>
      rw [hk, dispatched_cpus_of_ne hc]
      exact congrFun (hq.procs.trans hpush.sameProcs).cpus c'
  | gone _ hl => exact hl.leaves.cpus_of_ne hc
  | ignored _ hr => exact hr.cpus_of_ne hc

/-- A step of one processor leaves the others alone. -/
theorem Event.cpus_of_ne {ev : Event} {c' : Nat} (ho : Orderly k)
    (hstep : ev.step k = some k') (hc : ∀ c, ev.cpu = some c → c' ≠ c) :
    k'.cpus c' = k.cpus c' := by
  cases Event.step_cases (fun c hp => (ho.procs.halted c).mpr hp) hstep with
  | @start c _ _ _ hy =>
      rw [hy.cpus_of_ne (hc c rfl), enters_cpus_of_ne (hc c rfl)]
  | @reap c cur tf io k₁ _ _ _ _ _ hdies hy =>
      rw [hy.cpus_of_ne (hc c rfl), hdies.cpus_of_ne (hc c rfl),
        traps_cpus_of_ne (hc c rfl)]
  | @serve c cur tf io _ _ _ _ _ hh =>
      rw [hh.cpus_of_ne (hc c rfl)]
      exact traps_cpus_of_ne (hc c rfl)
  | @wake c tf io k₁ _ _ _ hq hr =>
      have h : k'.cpus c' = k₁.cpus c' :=
        hr.elim (fun hr => hr.cpus_of_ne (hc c rfl))
          (fun hy => hy.cpus_of_ne (hc c rfl))
      rw [h, hq.procs.cpus, traps_cpus_of_ne (hc c rfl)]
  | store _ _ _ => rfl
  | device hq => rw [hq.procs.cpus]

end Frame

end Jos
