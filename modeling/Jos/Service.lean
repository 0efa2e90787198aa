import Jos.Partial

/-!
# What a system call can do

For each system call, which operations it may carry out (`Call.AsksVm` and
`Call.AsksEnv`, decided by its arguments and the state in which it is made), and
the proof that it does nothing else: it returns after at most one operation on
memory and one on the table, or it leaves the kernel (`Leaves`).
-/

namespace Jos

open Programs

/-- A system call with its arguments. -/
structure Call where
  no : SyscallNo
  a1 : U32
  a2 : U32
  a3 : U32
  a4 : U32
  a5 : U32

/-- The case of `syscall` for a call. -/
def Call.run (call : Call) (io : Inputs) (c : Nat) : Prog Kernel Int :=
  syscallCase io c call.a1 call.a2 call.a3 call.a4 call.a5 call.no

/-- The operations on memory that a call may carry out. -/
inductive Call.AsksVm (k : Kernel) (c : Nat) (call : Call) : VmOp → Prop where
  | pageAlloc {e : Nat} :
      call.no = .pageAlloc → k.envOf c call.a1 true = some e →
      ¬ BadVa call.a2 → AsksVm k c call (.newPage e call.a2 call.a3)
  | pageMap {se de : Nat} :
      call.no = .pageMap → k.envOf c call.a1 true = some se →
      k.envOf c call.a3 true = some de → ¬ BadVa call.a2 → ¬ BadVa call.a4 →
      AsksVm k c call (.share se call.a2 de call.a4 call.a5)
  | pageUnmap {e : Nat} :
      call.no = .pageUnmap → k.envOf c call.a1 true = some e →
      ¬ BadVa call.a2 → AsksVm k c call (.unmap e call.a2)
  | ipcTrySend {rcv cur : Nat} :
      call.no = .ipcTrySend → k.envOf c call.a1 false = some rcv →
      (k.envs rcv).envIpcRecving = true → k.curenv c = some cur →
      call.a3 < utop → (k.envs rcv).envIpcDstva < utop →
      AsksVm k c call
        (.share cur call.a3 rcv (k.envs rcv).envIpcDstva call.a4)
  | setTrapframe {e : Nat} :
      call.no = .envSetTrapframe → k.envOf c call.a1 true = some e →
      AsksVm k c call (.patch call.a2)
  | pktRecv :
      call.no = .pktRecv → AsksVm k c call (.receive call.a1 call.a2)

/-- The operations on the table that a call may carry out. -/
inductive Call.AsksEnv (k : Kernel) (c : Nat) (call : Call) : EnvOp → Prop where
  | envDestroy {e : Nat} :
      call.no = .envDestroy → k.envOf c call.a1 true = some e →
      AsksEnv k c call (.kill e)
  | exofork {e : Nat} :
      call.no = .exofork → k.envFreeList = some e →
      AsksEnv k c call (.fork e)
  | setStatus {e : Nat} {st : EnvStatus} :
      call.no = .envSetStatus → k.envOf c call.a1 true = some e →
      st = .runnable ∨ st = .notRunnable →
      AsksEnv k c call (.setStatus e st)
  | setTrapframe {e : Nat} {tf : Trapframe} :
      call.no = .envSetTrapframe → k.envOf c call.a1 true = some e →
      AsksEnv k c call (.setTf e tf)
  | setUpcall {e : Nat} :
      call.no = .envSetPgfaultUpcall → k.envOf c call.a1 true = some e →
      AsksEnv k c call (.setUpcall e call.a2)
  | ipcTrySend {rcv : Nat} {perm : Option U32} :
      call.no = .ipcTrySend → k.envOf c call.a1 false = some rcv →
      (k.envs rcv).envIpcRecving = true →
      AsksEnv k c call (.deliver rcv call.a2 perm)

/-- How a system call leaves the kernel without returning. -/
inductive Leaves (c cur : Nat) (k k' : Kernel) : Prop where
  | dies (k₁ k₂ : Kernel) :
      Quiet k k₁ → Dies c cur k₁ k₂ → Yields k₂ c k' → Leaves c cur k k'
  | waits (dstva : U32) :
      Yields (k.blocked cur dstva) c k' → Leaves c cur k k'
  | yields (k₁ : Kernel) :
      Quiet k k₁ → Yields k₁ c k' → Leaves c cur k k'

/-- How the kernel is left otherwise: the current environment is gone, or has
yielded. -/
inductive Departs (c cur : Nat) (k k' : Kernel) : Prop where
  | dies (k₁ k₂ : Kernel) :
      Quiet k k₁ → Dies c cur k₁ k₂ → Yields k₂ c k' → Departs c cur k k'
  | yields (k₁ : Kernel) :
      Quiet k k₁ → Yields k₁ c k' → Departs c cur k k'

theorem Departs.leaves {c cur : Nat} {k k' : Kernel} (h : Departs c cur k k') :
    Leaves c cur k k' := by
  cases h with
  | dies k₁ k₂ hq hdies hy => exact .dies k₁ k₂ hq hdies hy
  | yields k₁ hq hy => exact .yields k₁ hq hy

/-! ## `sched_yield` and `env_destroy` -/

section Service

variable {k k' : Kernel} {c cur e : Nat} {io : Inputs}

theorem schedYield_leaves {R : Unit → Kernel → Prop}
    (hlock : k.kernelLock = some c) :
    wp (schedYield c) (Partial R (fun k' => Yields k c k')) k :=
  wp_mono (schedYield_wp hlock) (fun _ _ => False.elim) (fun _ h => h)
    (fun _ _ => trivial)

/-- The current environment is destroyed: the processor looks for another. -/
theorem envDestroy_self {R : Unit → Kernel → Prop}
    (hlock : k.kernelLock = some c) (hcur : k.curenv c = some e) :
    wp (envDestroy c e)
      (Partial R (fun k' => ∃ k₁, Dies c e k k₁ ∧ Yields k₁ c k')) k := by
  have hother : ¬ ((k.envs e).envStatus = .running ∧ k.curenv c ≠ some e) :=
    fun h => h.2 hcur
  unfold envDestroy
  rw [wp_get_bind, if_neg hother]
  refine stays_bind (envFree_stays c e) (fun _ k₁ hrun => ?_)
  obtain ⟨d, vm, -, rfl⟩ := envFree_ret hrun
  rw [wp_get_bind]
  refine wp_when (fun _ => ?_) (fun h => absurd hcur h)
  rw [wp_modify_bind]
  refine wp_mono (schedYield_leaves (R := fun _ _ => False) hlock)
    (fun _ _ => False.elim) (fun k' h => ?_) (fun _ h => h)
  exact ⟨_, ⟨_, hcur, hrun, rfl⟩, h⟩

/-- Another environment is destroyed, at once or by the processor that runs
it. -/
theorem envDestroy_other {X : Kernel → Prop}
    (hcur : k.curenv c ≠ some e) :
    wp (envDestroy c e)
      (Partial (fun _ k' => (EnvOp.kill e).Does c cur k k') X) k := by
  unfold envDestroy
  rw [wp_get_bind]
  refine wp_ite (fun h => ?_) (fun h => ?_)
  · exact ⟨hcur, Or.inl ⟨h.1, rfl⟩⟩
  · have hrunning : (k.envs e).envStatus ≠ .running := fun hr => h ⟨hr, hcur⟩
    refine stays_bind (envFree_stays c e) (fun _ k₁ hrun => ?_)
    obtain ⟨d, vm, -, rfl⟩ := envFree_ret hrun
    rw [wp_get_bind]
    exact wp_when (fun hh => absurd hh hcur)
      (fun _ => ⟨hcur, Or.inr ⟨hrunning, hrun⟩⟩)

theorem userMemCheck_wp {d : Nat} {va len perm : U32} :
    wp (onVm (userMemCheck d va len perm))
      (Partial (fun _ k' => Quiet k k') (fun _ => False)) k := by
  refine onVm_wp (userMemCheck_stays d va len perm) (fun r vm hrun => ?_)
  rcases userMemCheck_ret hrun with ⟨-, rfl⟩ | ⟨-, a, rfl⟩
  · exact Quiet.refl k
  · exact ⟨sameProcs_setVm _, a, rfl⟩

/-- A failed assertion on user memory kills the environment. -/
theorem userMemAssert_wp {va len perm : U32}
    (hlock : k.kernelLock = some c) (hcur : k.curenv c = some cur) :
    wp (userMemAssert c cur va len perm)
      (Partial (fun _ k' => Quiet k k') (Departs c cur k)) k := by
  unfold userMemAssert
  refine partial_bind (R := fun d k' => k' = k) (X := fun _ => False)
    (thePgdir_wp (fun _ _ => rfl)) ?_ (fun _ => False.elim)
  rintro d _ rfl
  refine partial_bind userMemCheck_wp (fun r k₁ h₁ => ?_) (fun _ => False.elim)
  refine wp_ite (fun _ => ?_) (fun _ => h₁.trans (quiet_log _))
  refine wp_mono (envDestroy_self (R := fun _ _ => False)
    (h₁.procs.kernelLock.trans hlock) (h₁.procs.curenv.trans hcur))
    (fun _ _ => False.elim) ?_ (fun _ h => h)
  rintro k' ⟨k₂, hdies, hyields⟩
  exact .dies k₁ k₂ h₁ hdies hyields

/-! ## Calls that concern devices -/

theorem putString_wp {fuel : Nat} {p : U32} {precision : Int} :
    wp (putString c fuel p precision)
      (Partial (fun _ k' => Quiet k k') (fun _ => False)) k := by
  induction fuel generalizing p precision k with
  | zero => exact trivial
  | succ fuel ih =>
      refine partial_bind loadByte_wp (fun ch k₁ h₁ => ?_) (fun _ h => h)
      refine wp_ite (fun _ => ?_) (fun _ => h₁)
      rw [wp_modify_bind]
      exact wp_mono ih (fun _ _ h₂ => (h₁.trans (quiet_putch ch)).trans h₂)
        (fun _ h => h) (fun _ h => h)

theorem putNull_wp {precision : Int} {X : Kernel → Prop} :
    wp (putNull precision) (Partial (fun _ k' => Quiet k k') X) k := by
  have h : ∀ (l : List U8) (k : Kernel), Quiet k (l.foldl Kernel.putch k) := by
    intro l
    induction l with
    | nil => exact Quiet.refl
    | cons ch l ih => exact fun k => (quiet_putch ch).trans (ih _)
  exact h _ k

theorem e1000Transmit_wp {data len : U32} :
    wp (e1000Transmit c data len)
      (Partial (fun _ k' => Quiet k k') (fun _ => False)) k := by
  unfold e1000Transmit
  rw [wp_get_bind]
  refine wp_ite (fun _ => Quiet.refl k) (fun _ => ?_)
  rw [wp_modify_bind]
  refine partial_bind (R := fun _ k' => Quiet k k') (X := fun _ => False)
    ?_ (fun _ k₁ h₁ => h₁.trans (quiet_modifyNic _)) (fun _ h => h)
  refine wp_forRange (fun _ k' => Quiet k k') 0 len.toNat
    (fun i k₁ _ _ h₁ => ?_) (fun _ h => h) (quiet_modifyNic _)
  exact partial_bind loadByte_wp
    (fun b k₂ h₂ => (h₁.trans h₂).trans (quiet_modifyNic _)) (fun _ h => h)

theorem sysCputs_wp {s len : U32}
    (hlock : k.kernelLock = some c) (hcur : k.curenv c = some cur) :
    wp (sysCputs c s len)
      (Partial (fun _ k' => Quiet k k') (Departs c cur k)) k := by
  unfold sysCputs
  refine partial_bind (R := fun cur' k' => cur' = cur ∧ k' = k)
    (X := fun _ => False) (theCurenv_wp (fun cur' h => ?_)) ?_
    (fun _ => False.elim)
  · exact ⟨Option.some.inj (h.symm.trans hcur), rfl⟩
  rintro _ _ ⟨rfl, rfl⟩
  refine partial_bind (userMemAssert_wp hlock hcur) (fun _ k₁ h₁ => ?_)
    (fun _ h => h)
  refine wp_ite (fun _ => ?_) (fun _ => ?_)
  · exact wp_mono (putNull_wp (X := fun _ => False))
      (fun _ _ h₂ => h₁.trans h₂) (fun _ h => h.elim) (fun _ h => h)
  · exact wp_mono putString_wp (fun _ _ h₂ => h₁.trans h₂)
      (fun _ h => h.elim) (fun _ h => h)

theorem sysPktTrySend_wp {buf len : U32}
    (hlock : k.kernelLock = some c) (hcur : k.curenv c = some cur) :
    wp (sysPktTrySend c buf len)
      (Partial (fun _ k' => Quiet k k') (Departs c cur k)) k := by
  unfold sysPktTrySend
  refine partial_bind (R := fun cur' k' => cur' = cur ∧ k' = k)
    (X := fun _ => False) (theCurenv_wp (fun cur' h => ?_)) ?_
    (fun _ => False.elim)
  · exact ⟨Option.some.inj (h.symm.trans hcur), rfl⟩
  rintro _ _ ⟨rfl, rfl⟩
  refine partial_bind (userMemAssert_wp hlock hcur) (fun _ k₁ h₁ => ?_)
    (fun _ h => h)
  exact wp_mono e1000Transmit_wp (fun _ _ h₂ => h₁.trans h₂)
    (fun _ h => h.elim) (fun _ h => h)

/-! ## Calls that concern environments and pages -/

theorem envid2env_bind {β : Type} {envid : U32} {checkperm : Bool}
    {f : Except Int Nat → Prog Kernel β} {R : β → Kernel → Prop}
    {X : Kernel → Prop}
    (herr : k.envOf c envid checkperm = none →
      wp (f (.error (-eBadEnv))) (Partial R X) k)
    (hok : ∀ e, k.envOf c envid checkperm = some e →
      wp (f (.ok e)) (Partial R X) k) :
    wp (envid2env c envid checkperm >>= f) (Partial R X) k := by
  refine partial_bind envid2env_wp ?_ (fun _ => False.elim)
  rintro r _ ⟨rfl, rfl⟩
  cases he : Kernel.envOf _ c envid checkperm with
  | none => exact herr he
  | some e => exact hok e he

theorem theCurenv_bind {β : Type} {f : Nat → Prog Kernel β} {Q : Post Kernel β}
    (hcur : k.curenv c = some cur) (h : wp (f cur) Q k) :
    wp (theCurenv c >>= f) Q k := by
  have hrun : (theCurenv c).run k = .ret cur k := by
    unfold theCurenv
    rw [Prog.run_bind_ret (Prog.run_get k)]
    simp only [hcur]
    rfl
  unfold wp
  rwa [Prog.run_bind_ret hrun]

theorem thePgdir_bind {β : Type} {f : Nat → Prog Kernel β}
    {R : β → Kernel → Prop} {X : Kernel → Prop}
    (h : ∀ d, (k.envs e).envPgdir = some d → wp (f d) (Partial R X) k) :
    wp (thePgdir e >>= f) (Partial R X) k :=
  partial_bind (R := fun d k' => (k.envs e).envPgdir = some d ∧ k = k')
    (X := fun _ => False) (thePgdir_wp (fun _ hd => ⟨hd, rfl⟩))
    (fun d _ hd => hd.2 ▸ h d hd.1) (fun _ => False.elim)

variable {call : Call}

/-- A call that returns without having done anything. -/
theorem served_none (k : Kernel) (c cur : Nat) (call : Call) :
    Served c cur (call.AsksVm k c) (call.AsksEnv k c) k k :=
  .memory (.quiet (.refl k))

theorem served_vm {op : VmOp} (hop : call.AsksVm k c op)
    (h : op.Does c k k') :
    Served c cur (call.AsksVm k c) (call.AsksEnv k c) k k' :=
  .memory (.op op k' hop h (.refl k'))

theorem served_env {op : EnvOp} (hop : call.AsksEnv k c op)
    (h : op.Does c cur k k') :
    Served c cur (call.AsksVm k c) (call.AsksEnv k c) k k' :=
  .envs op k (.quiet (.refl k)) hop h

/-- What is asked of a system call. -/
def Call.Post (call : Call) (k : Kernel) (c cur : Nat) : Post Kernel Int :=
  Partial (fun _ => Served c cur (call.AsksVm k c) (call.AsksEnv k c) k)
    (Leaves c cur k)

/-- What is asked of a system call, which may leave the kernel in `X`. -/
def Call.PostOr (call : Call) (k : Kernel) (c cur : Nat) (X : Kernel → Prop) :
    Programs.Post Kernel Int :=
  Partial (fun _ => Served c cur (call.AsksVm k c) (call.AsksEnv k c) k) X

section Calls

variable {X : Kernel → Prop}

theorem sysEnvDestroy_served (hno : call.no = .envDestroy)
    (hlock : k.kernelLock = some c) (hcur : k.curenv c = some cur) :
    wp (sysEnvDestroy c call.a1) (call.PostOr k c cur (Departs c cur k)) k := by
  refine envid2env_bind (fun _ => served_none k c cur call) (fun e he => ?_)
  by_cases hself : k.curenv c = some e
  · obtain rfl := Option.some.inj (hcur.symm.trans hself)
    refine partial_bind (envDestroy_self (R := fun _ _ => False) hlock hcur)
      (fun _ _ => False.elim) ?_
    rintro k' ⟨k₁, hdies, hyields⟩
    exact .dies k k₁ (.refl k) hdies hyields
  · have hother : wp (envDestroy c e) (Partial (fun _ k' =>
        (EnvOp.kill e).Does c cur k k') (fun _ => False)) k :=
      envDestroy_other hself
    exact partial_bind hother
      (fun _ k' h => served_env (.envDestroy hno he) h) (fun _ => False.elim)

theorem sysExofork_served (hno : call.no = .exofork)
    (hcur : k.curenv c = some cur) :
    wp (sysExofork c) (call.PostOr k c cur X) k := by
  refine theCurenv_bind hcur ?_
  rw [wp_get_bind]
  have hstays : Stays (envAlloc (k.envs cur).envId) := fun _ =>
    wp_mono envAlloc_wp (fun _ _ _ => trivial) (fun _ h => h) (fun _ h => h)
  refine stays_bind hstays (fun r k₁ hrun => ?_)
  cases r with
  | error n =>
      rw [envAlloc_error hrun]
      exact served_none k c cur call
  | ok e =>
      refine served_env (.exofork hno (envAlloc_ret hrun).1) ⟨k₁, hrun, ?_⟩
      refine Kernel.ext rfl ?_ rfl rfl rfl rfl rfl rfl rfl rfl
      funext e'
      by_cases he : e' = e
      · subst he
        simp [Kernel.asChild, Kernel.setStatus, Trapframe.setEax]
      · simp [Kernel.asChild, Kernel.setStatus, Kernel.modifyEnv_envs_of_ne he]

theorem sysEnvSetStatus_served (hno : call.no = .envSetStatus) :
    wp (sysEnvSetStatus c call.a1 call.a2) (call.PostOr k c cur X) k := by
  refine wp_ite (fun _ => served_none k c cur call) (fun _ => ?_)
  refine envid2env_bind (fun _ => served_none k c cur call) (fun e he => ?_)
  refine served_env (.setStatus hno he ?_) rfl
  split
  · exact Or.inl rfl
  · exact Or.inr rfl

theorem sysEnvSetPgfaultUpcall_served (hno : call.no = .envSetPgfaultUpcall) :
    wp (sysEnvSetPgfaultUpcall c call.a1 call.a2) (call.PostOr k c cur X) k :=
  envid2env_bind (fun _ => served_none k c cur call)
    (fun _ he => served_env (.setUpcall hno he) rfl)

theorem sysEnvSetTrapframe_served (hno : call.no = .envSetTrapframe) :
    wp (sysEnvSetTrapframe c call.a1 call.a2) (call.PostOr k c cur X) k := by
  refine envid2env_bind (fun _ => served_none k c cur call) (fun e he => ?_)
  have hbody : wp (patchTf c call.a2 >>= fun _ => do
      let frame ← loadTrapframe c call.a2
      Prog.modify (fun k => k.modifyEnv e (fun v => { v with envTf := frame }))
      pure (0 : Int)) (call.PostOr k c cur X) k := by
    refine stays_bind (patchTf_stays c call.a2) (fun _ k₁ hrun => ?_)
    refine partial_bind (R := fun _ k₂ => Quiet k₁ k₂) (X := fun _ => False)
      (partial_bind loadBytes_wp (fun _ _ h => h) (fun _ h => h))
      (fun frame k₂ h₂ => ?_) (fun _ => False.elim)
    exact .envs (.setTf e frame) k₂
      (.op (.patch call.a2) k₁ (.setTrapframe hno he) hrun h₂)
      (.setTrapframe hno he) rfl
  simp only [patchTf, Prog.bind_assoc] at hbody
  exact hbody

/-- `page_insert` into the address space of an environment. -/
theorem pageInsertEnv_wp {pp : Nat} {va perm : U32} {X : Kernel → Prop} :
    wp (pageInsertEnv c e pp va perm)
      (Partial (fun r k' => ∃ d m, (k.envs e).envPgdir = some d ∧
        (pageInsert (k.thisCpu c) d pp va perm).run k.vm = .ret r m ∧
        k' = k.setVm m) X) k := by
  unfold pageInsertEnv
  refine thePgdir_bind (fun d hd => ?_)
  rw [wp_get_bind]
  exact onVm_wp (pageInsert_stays _ _ _ _ _)
    (fun r m hrun => ⟨d, m, hd, hrun, rfl⟩)

theorem sysPageAlloc_served (hno : call.no = .pageAlloc) :
    wp (sysPageAlloc c call.a1 call.a2 call.a3) (call.PostOr k c cur X) k := by
  refine envid2env_bind (fun _ => served_none k c cur call) (fun e he => ?_)
  refine wp_ite (fun _ => served_none k c cur call) (fun hva => ?_)
  refine wp_ite (fun _ => served_none k c cur call) (fun hperm => ?_)
  refine partial_bind (onVm_wp (X := fun _ => False)
    (R := fun r k' => ∃ m, (pageAlloc true).run k.vm = .ret r m ∧
      k' = k.setVm m) (pageAlloc_stays true) (fun r m hrun => ⟨m, hrun, rfl⟩))
    ?_ (fun _ => False.elim)
  rintro r _ ⟨m₁, halloc, rfl⟩
  cases r with
  | none =>
      rw [pageAlloc_none halloc]
      exact served_none k c cur call
  | some pg =>
      refine partial_bind (pageInsertEnv_wp (X := fun _ => False)) ?_
        (fun _ => False.elim)
      rintro r _ ⟨d, m₂, hd, hins, rfl⟩
      refine wp_ite (fun hr => ?_) (fun hr => ?_)
      · refine partial_bind (onVm_wp (X := fun _ => False)
          (R := fun _ k' => ∃ m, (pageFree pg).run m₂ = .ret () m ∧
            k' = k.setVm m) (pageFree_stays pg) (fun _ m hrun => ⟨m, hrun, rfl⟩))
          ?_ (fun _ => False.elim)
        rintro _ _ ⟨m₃, hfree, rfl⟩
        exact served_vm (.pageAlloc hno he hva) ⟨d, pg, m₁, m₃, hd, halloc,
          Or.inr ⟨r, m₂, hr, hins, hfree, rfl⟩⟩
      · obtain rfl : r = 0 := Classical.not_not.mp hr
        exact served_vm (.pageAlloc hno he hva) ⟨d, pg, m₁, m₂, hd, halloc,
          Or.inl ⟨hins, rfl⟩⟩

/-- Looking up a page in the address space of an environment. -/
theorem lookup_wp {d : Nat} {va : U32} {X : Kernel → Prop} :
    wp (onVm (pageLookup d va))
      (Partial (fun r k' => k = k' ∧ ∀ pp pte, r = some (pp, pte) →
        entryOf k.vm.mem d (pdx va) (ptx va) =
          some (k.vm.mem pte.page pte.idx) ∧
        pp = pgnum (k.vm.mem pte.page pte.idx)) X) k := by
  refine onVm_wp (pageLookup_stays d va) (fun r m hrun => ?_)
  obtain ⟨rfl, hfound⟩ := pageLookup_ret hrun
  exact ⟨rfl, hfound⟩

theorem sysPageMap_served (hno : call.no = .pageMap) :
    wp (sysPageMap c call.a1 call.a2 call.a3 call.a4 call.a5)
      (call.PostOr k c cur X) k := by
  refine envid2env_bind (fun _ => served_none k c cur call) (fun se hse => ?_)
  refine envid2env_bind (fun _ => served_none k c cur call) (fun de hde => ?_)
  refine wp_ite (fun _ => served_none k c cur call) (fun hva => ?_)
  obtain ⟨hsrcva, hdstva⟩ := not_or.mp hva
  refine thePgdir_bind (fun ds hds => ?_)
  refine partial_bind (lookup_wp (X := fun _ => False)) ?_
    (fun _ => False.elim)
  rintro r k₁ ⟨rfl, hfound⟩
  cases r with
  | none => exact served_none k c cur call
  | some r =>
      obtain ⟨pg, pte⟩ := r
      obtain ⟨hentry, rfl⟩ := hfound pg pte rfl
      refine wp_ite (fun _ => served_none k c cur call) (fun _ => ?_)
      refine partial_bind (onVm_wp (X := fun _ => False)
        (R := fun _ k' => k = k') (readPte_stays pte) ?_) ?_
        (fun _ => False.elim)
      · intro w m hrun
        cases hrun
        rfl
      rintro w k₁ rfl
      refine wp_ite (fun _ => served_none k c cur call) (fun _ => ?_)
      refine wp_mono (pageInsertEnv_wp (X := fun _ => False)) ?_
        (fun _ => False.elim) (fun _ h => h)
      rintro r _ ⟨d, m, hd, hins, rfl⟩
      exact served_vm (.pageMap hno hse hde hsrcva hdstva)
        ⟨ds, d, _, r, m, hds, hd, hentry, hins, rfl⟩

theorem sysPageUnmap_served (hno : call.no = .pageUnmap) :
    wp (sysPageUnmap c call.a1 call.a2) (call.PostOr k c cur X) k := by
  refine envid2env_bind (fun _ => served_none k c cur call) (fun e he => ?_)
  refine wp_ite (fun _ => served_none k c cur call) (fun hva => ?_)
  refine thePgdir_bind (fun d hd => ?_)
  rw [wp_get_bind]
  refine partial_bind (onVm_wp (X := fun _ => False)
    (R := fun _ k' => (VmOp.unmap e call.a2).Does c k k')
    (pageRemove_stays _ _ _) (fun _ m hrun => ⟨d, m, hd, hrun, rfl⟩)) ?_
    (fun _ => False.elim)
  exact fun _ k₁ h => served_vm (.pageUnmap hno he hva) h

/-- What `sys_ipc_try_send` does when it returns `0`: the message is delivered,
with the page at `srcva` if the receiver asked for one. -/
inductive Sent (k : Kernel) (c cur rcv : Nat) (value srcva perm : U32)
    (k' : Kernel) : Prop where
  | plain :
      ¬ (srcva < utop ∧ (k.envs rcv).envIpcDstva < utop) →
      (EnvOp.deliver rcv value none).Does c cur k k' →
      Sent k c cur rcv value srcva perm k'
  | page (k₁ : Kernel) :
      srcva < utop → (k.envs rcv).envIpcDstva < utop →
      (VmOp.share cur srcva rcv (k.envs rcv).envIpcDstva perm).Does c k k₁ →
      (EnvOp.deliver rcv value (some perm)).Does c cur k₁ k' →
      Sent k c cur rcv value srcva perm k'

/-- `sys_ipc_try_send` fails without effect, or delivers the message. -/
theorem sysIpcTrySend_wp {envid value srcva perm : U32}
    (hcur : k.curenv c = some cur) :
    wp (sysIpcTrySend io c envid value srcva perm)
      (Partial (fun r k' => (r ≠ 0 ∧ k' = k) ∨
        (r = 0 ∧ ∃ rcv, k.envOf c envid false = some rcv ∧
          (k.envs rcv).envIpcRecving = true ∧
          Sent k c cur rcv value srcva perm k')) (fun _ => False)) k := by
  have hfail : ∀ n : Int, n ≠ 0 → (n ≠ 0 ∧ k = k) ∨
      (n = 0 ∧ ∃ rcv, k.envOf c envid false = some rcv ∧
        (k.envs rcv).envIpcRecving = true ∧
        Sent k c cur rcv value srcva perm k) := fun n hn => Or.inl ⟨hn, rfl⟩
  unfold sysIpcTrySend
  refine envid2env_bind (fun _ => hfail _ (by decide)) (fun rcv hrcv => ?_)
  rw [wp_get_bind]
  refine wp_ite (fun _ => hfail _ (by decide)) (fun hrecv => ?_)
  have hrecving : (k.envs rcv).envIpcRecving = true :=
    Bool.eq_true_of_not_eq_false hrecv
  refine theCurenv_bind hcur (wp_ite (fun hsrc => ?_) (fun hsrc => ?_))
  · refine thePgdir_bind (fun ds hds => ?_)
    refine partial_bind (lookup_wp (X := fun _ => False)) ?_
      (fun _ => False.elim)
    rintro found k₁ ⟨rfl, hfound⟩
    refine wp_ite (fun _ => hfail _ (by decide)) (fun _ => ?_)
    split
    · exact trivial
    rename_i pte hpte
    refine wp_ite (fun _ => hfail _ (by decide)) (fun _ => ?_)
    cases found with
    | none => exact hfail _ (by decide)
    | some found =>
        obtain ⟨pg, ptr⟩ := found
        obtain ⟨hentry, rfl⟩ := hfound pg ptr rfl
        refine wp_ite (fun _ => hfail _ (by decide)) (fun _ => ?_)
        refine wp_ite (fun hdst => ?_) (fun hdst => ?_)
        · refine partial_bind (pageInsertEnv_wp (X := fun _ => False)) ?_
            (fun _ => False.elim)
          rintro r _ ⟨d, m, hd, hins, rfl⟩
          refine wp_ite (fun hr => ?_) (fun hr => ?_)
          · rcases pageInsert_ret hins with h0 | ⟨-, rfl⟩
            · exact absurd h0 hr
            · exact Or.inl ⟨hr, rfl⟩
          · refine Or.inr ⟨rfl, rcv, hrcv, hrecving,
              .page _ hsrc hdst ⟨ds, d, _, r, m, hds, hd, hentry, hins, rfl⟩ ?_⟩
            refine Kernel.ext rfl ?_ rfl rfl rfl rfl rfl rfl rfl rfl
            funext e'
            by_cases he : e' = rcv
            · subst he
              by_cases hself : cur = e'
              · subst hself
                simp [Env.takePage]
              · simp [Env.takePage, Kernel.modifyEnv_envs_of_ne hself]
            · simp [Kernel.modifyEnv_envs_of_ne he]
        · exact Or.inr ⟨rfl, rcv, hrcv, hrecving,
            .plain (fun h => hdst h.2) rfl⟩
  · exact Or.inr ⟨rfl, rcv, hrcv, hrecving, .plain (fun h => hsrc h.1) rfl⟩

theorem sysIpcTrySend_served (hno : call.no = .ipcTrySend)
    (hcur : k.curenv c = some cur) :
    wp (sysIpcTrySend io c call.a1 call.a2 call.a3 call.a4)
      (call.PostOr k c cur X) k := by
  refine wp_mono (sysIpcTrySend_wp hcur) ?_ (fun _ => False.elim) (fun _ h => h)
  rintro r k' (⟨-, rfl⟩ | ⟨-, rcv, hrcv, hrecv, hsent⟩)
  · exact served_none _ c cur call
  · cases hsent with
    | plain _ h => exact served_env (.ipcTrySend hno hrcv hrecv) h
    | page k₁ hsrc hdst hvm h =>
        exact .envs _ k₁ (.op _ k₁
          (.ipcTrySend hno hrcv hrecv hcur hsrc hdst) hvm (.refl k₁))
          (.ipcTrySend hno hrcv hrecv) h

theorem sysIpcRecv_wp {dstva : U32}
    (hlock : k.kernelLock = some c) (hcur : k.curenv c = some cur) :
    wp (sysIpcRecv c dstva)
      (Partial (fun r k' => r = -eInval ∧ k' = k)
        (Yields (k.blocked cur dstva) c)) k := by
  refine wp_ite (fun _ => ⟨rfl, rfl⟩) (fun _ => ?_)
  refine theCurenv_bind hcur ?_
  rw [wp_modify_bind]
  exact partial_bind (schedYield_leaves (R := fun _ _ => False) hlock)
    (fun _ _ => False.elim) (fun _ h => h)

end Calls

/-- Every system call but `sys_ipc_recv` is served as it asks, or its environment
is gone or has yielded. -/
theorem Call.run_departs (call : Call) (hrecv : call.no ≠ .ipcRecv)
    (hlock : k.kernelLock = some c) (hcur : k.curenv c = some cur) :
    wp (call.run io c) (call.PostOr k c cur (Departs c cur k)) k := by
  have hquiet : ∀ k', Quiet k k' →
      Served c cur (call.AsksVm k c) (call.AsksEnv k c) k k' :=
    fun k' h => .memory (.quiet h)
  unfold Call.run
  cases hno : call.no with
  | cputs =>
      exact partial_bind (sysCputs_wp hlock hcur) (fun _ => hquiet) (fun _ h => h)
  | cgetc => exact served_none k c cur call
  | getenvid => exact theCurenv_bind hcur (served_none k c cur call)
  | envDestroy => exact sysEnvDestroy_served hno hlock hcur
  | pageAlloc => exact sysPageAlloc_served hno
  | pageMap => exact sysPageMap_served hno
  | pageUnmap => exact sysPageUnmap_served hno
  | exofork => exact sysExofork_served hno hcur
  | envSetStatus => exact sysEnvSetStatus_served hno
  | envSetTrapframe => exact sysEnvSetTrapframe_served hno
  | envSetPgfaultUpcall => exact sysEnvSetPgfaultUpcall_served hno
  | yield =>
      exact partial_bind (schedYield_leaves (R := fun _ _ => False) hlock)
        (fun _ _ => False.elim) (fun _ h => .yields k (.refl k) h)
  | ipcTrySend => exact sysIpcTrySend_served hno hcur
  | ipcRecv => exact absurd hno hrecv
  | timeMsec => exact served_none k c cur call
  | pktTrySend =>
      exact wp_mono (sysPktTrySend_wp hlock hcur) (fun _ => hquiet)
        (fun _ h => h) (fun _ h => h)
  | pktRecv =>
      exact wp_of_stays (e1000Receive_stays _ _ _)
        (fun r k' hrun => served_vm (.pktRecv hno) ⟨r, hrun⟩)

/-- `sys_ipc_recv` fails without effect, or its environment waits. -/
theorem Call.run_waits (call : Call) (hrecv : call.no = .ipcRecv)
    (hlock : k.kernelLock = some c) (hcur : k.curenv c = some cur) :
    wp (call.run io c)
      (call.PostOr k c cur (Yields (k.blocked cur call.a1) c)) k := by
  unfold Call.run
  rw [hrecv]
  refine wp_mono (sysIpcRecv_wp hlock hcur) ?_ (fun _ h => h) (fun _ h => h)
  rintro r _ ⟨-, rfl⟩
  exact served_none _ c cur call

/-- Every system call is served as it asks, or leaves the kernel. -/
theorem Call.run_wp (call : Call)
    (hlock : k.kernelLock = some c) (hcur : k.curenv c = some cur) :
    wp (call.run io c) (call.Post k c cur) k := by
  by_cases hrecv : call.no = .ipcRecv
  · exact wp_mono (call.run_waits hrecv hlock hcur) (fun _ _ h => h)
      (fun _ h => .waits _ h) (fun _ h => h)
  · exact wp_mono (call.run_departs hrecv hlock hcur) (fun _ _ h => h)
      (fun _ h => h.leaves) (fun _ h => h)

end Service

end Jos
