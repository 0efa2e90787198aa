import Jos.Sound

/-!
# System calls on pages that go through

The converse of what `Steps` says: a system call whose arguments pass the
checks of the kernel does return, and the trap that makes it ends with the
caller running again.  So these lemmas build runs where the others analyse
them.
-/

namespace Jos

open Programs LinkedList RefPool

/-- Page `pg` has been inserted at `va` of directory `d`. -/
def PageInserted (managed : Set Nat) (dirs : Finset Nat) (d : Nat)
    (va perm : U32) (pg : Nat) (m m' : PhysMem) : Prop :=
  ∃ t free m₂, m' = m₂.setWord t (ptx va) (page2pa pg ||| perm ||| pteP) ∧
    SlotCleared managed free ∅ dirs d va t pg m m₂

section Inserted

variable {managed : Set Nat} {dirs : Finset Nat} {m m' : PhysMem}
  {d pg i j : Nat} {va perm : U32}

theorem PageInserted.setsEntry (h : PageInserted managed dirs d va perm pg m m')
    (hd : d ∈ dirs) (hva : va < utop) :
    ∃ m₂ : PhysMem, SetsEntry dirs d (pdx va) (ptx va)
        (page2pa pg ||| perm ||| pteP) m₂.mem m'.mem ∧
      ∀ d' i' j', d' ∈ dirs → i' < userPdes → j' < nptentries →
        ¬ (d' = d ∧ i' = pdx va ∧ j' = ptx va) →
        entryOf m₂.mem d' i' j' = entryOf m.mem d' i' j' := by
  obtain ⟨t, free, m₂, rfl, hcleared⟩ := h
  exact ⟨m₂, setsEntry_set hcleared.spaces hd ((pdx_lt_userPdes va).mpr hva)
    hcleared.here, hcleared.entries⟩

theorem PageInserted.entry_self
    (h : PageInserted managed dirs d va perm pg m m') (hd : d ∈ dirs)
    (hva : va < utop) : entryOf m'.mem d (pdx va) (ptx va) =
      some (page2pa pg ||| perm ||| pteP) := by
  obtain ⟨m₂, hsets, -⟩ := h.setsEntry hd hva
  rw [hsets.here, if_pos (hasFlag_or_pteP _)]

theorem PageInserted.entry_of_ne
    (h : PageInserted managed dirs d va perm pg m m') (hd : d ∈ dirs)
    (hva : va < utop) {d' : Nat} (hd' : d' ∈ dirs) (hi : i < userPdes)
    (hj : j < nptentries) (hne : ¬ (d' = d ∧ i = pdx va ∧ j = ptx va)) :
    entryOf m'.mem d' i j = entryOf m.mem d' i j := by
  obtain ⟨m₂, hsets, hkept⟩ := h.setsEntry hd hva
  rw [hsets.entry d' i j hd' hi hj hne, hkept d' i j hd' hi hj hne]

end Inserted

section Calls

variable {managed : Set Nat} {k k₁ : Kernel} {c cur e se d : Nat}
  {envid : U32} {checkperm : Bool} {call : Call} {io : Inputs} {tf : Trapframe}

theorem envid2env_run (h : k.envOf c envid checkperm = some e) :
    (envid2env c envid checkperm).run k = .ret (.ok e) k := by
  have hwp : wp (envid2env c envid checkperm) _ k := envid2env_wp
  rw [h] at hwp
  unfold Kernel.envOf at h
  split at h
  · rename_i e' k' hrun
    obtain ⟨rfl, -⟩ := wp_ret hwp hrun
    obtain rfl := Option.some.inj h
    exact hrun
  · exact absurd h (by simp)

/-- Id 0 is the caller's. -/
theorem envOf_zero (h : k.curenv c = some cur) :
    k.envOf c 0#32 checkperm = some cur := by
  unfold Kernel.envOf envid2env
  rw [Prog.run_bind_ret (Prog.run_get k), if_pos rfl, h]
  rfl

theorem thePgdir_run (h : (k.envs e).envPgdir = some d) :
    (thePgdir e).run k = .ret d k := by
  unfold thePgdir
  rw [Prog.run_bind_ret (Prog.run_get k)]
  simp only [h]
  rfl

/-- `page_lookup` of an entry that a directory in use has. -/
theorem Memory.pageLookup_run {va w : U32} (hm : Memory managed k)
    (hd : d ∈ envDirs k) (hva : va < utop)
    (hw : entryOf k.vm.mem d (pdx va) (ptx va) = some w) :
    ∃ t, (onVm (pageLookup d va)).run k =
      .ret (some (pgnum w, ⟨t, ptx va⟩)) k ∧ k.vm.mem t (ptx va) = w := by
  obtain ⟨free, hacc⟩ := hm.books.accounted
  have hi : pdx va < userPdes := (pdx_lt_userPdes va).mpr hva
  obtain ⟨t, ht, hword, -⟩ := entryOf_eq_some.mp hw
  have hpg := hacc.spaces.page_managed d _ _ _ hd hi (ptx_lt va)
    (mappedPage_eq_some.mpr ⟨w, hw, rfl⟩)
  refine ⟨t, ?_, hword⟩
  exact onVm_ret (pageLookup_some ht (hacc.table_lt hd hi ht) hw
    (hacc.ledger.managed_lt _ hpg))

/-- `sys_page_map` of a page that the source maps, with a permission word that
the checks accept, maps it or finds no page for a page table. -/
theorem sysPageMap_run {srcenvid srcva dstenvid dstva perm w : U32}
    (hm : Memory managed k) (hse : k.envOf c srcenvid true = some se)
    (hslive : k.Live se) (hde : k.envOf c dstenvid true = some e)
    (hlive : k.Live e) (hd : (k.envs e).envPgdir = some d)
    (hsrcva : ¬ BadVa srcva) (hdstva : ¬ BadVa dstva)
    (hw : k.entry se (pdx srcva) (ptx srcva) = some w)
    (hperm : perm &&& permFlags = permFlags)
    (hwrite : HasFlag perm pteW → HasFlag w pteW) :
    ∃ r m, (sysPageMap c srcenvid srcva dstenvid dstva perm).run k =
        .ret r (k.setVm m) ∧
      ((r = -eNoMem ∧ m = k.vm ∧ k.vm.pageFreeList = none ∧
          tableOf k.vm.mem d (pdx dstva) = none) ∨
        (r = 0 ∧ PageInserted managed (envDirs k) d dstva perm (pgnum w) k.vm
          m)) := by
  have hutop : ∀ va, ¬ BadVa va → va < utop := fun va hva =>
    BitVec.not_le.mp (fun h => hva (Or.inl h))
  obtain ⟨ds, hds, hentry⟩ := Option.bind_eq_some_iff.mp hw
  have hdir : ds ∈ envDirs k := mem_envDirs.mpr ⟨se, hslive.1, hds⟩
  obtain ⟨t, hlookup, hword⟩ := hm.pageLookup_run hdir (hutop _ hsrcva) hentry
  have hread : (onVm (readPte ⟨t, ptx srcva⟩)).run k = .ret w k :=
    onVm_ret (by rw [← hword]; rfl)
  obtain ⟨free, hacc⟩ := hm.books.accounted
  have hmaps : k.Maps (pgnum w) := ⟨ds, _, _, hdir,
    (pdx_lt_userPdes _).mpr (hutop _ hsrcva), ptx_lt _,
    mappedPage_eq_some.mpr ⟨w, hentry, rfl⟩⟩
  obtain ⟨r, m, hins, hres⟩ := returns_iff.mp
    (show Returns (pageInsert (k.thisCpu c) d (pgnum w) dstva perm) _ k.vm from
      pageInsert_returns hacc (mem_envDirs.mpr ⟨e, hlive.1, hd⟩) (hutop _ hdstva)
        (hm.books.mappable (Or.inr hmaps)).managed (hacc.not_free (Or.inr hmaps))
        hm.counts)
  refine ⟨r, m, ?_, ?_⟩
  · unfold sysPageMap
    rw [Prog.run_bind_ret (envid2env_run hse)]
    simp only
    rw [Prog.run_bind_ret (envid2env_run hde)]
    simp only
    rw [if_neg (not_or.mpr ⟨hsrcva, hdstva⟩),
      Prog.run_bind_ret (thePgdir_run hds), Prog.run_bind_ret hlookup]
    simp only
    rw [if_neg (fun h => h hperm), Prog.run_bind_ret hread,
      if_neg (fun h => h.1 (hwrite h.2))]
    unfold pageInsertEnv
    rw [Prog.run_bind_ret (thePgdir_run hd), Prog.run_bind_ret (Prog.run_get k)]
    exact onVm_ret hins
  · rcases hres with ⟨hnil, htable, rfl, rfl⟩ | ⟨t', free', m₂, rfl, rfl, hcleared⟩
    · exact Or.inl ⟨rfl, rfl, by rw [hacc.ledger.freeList_eq, hnil]; rfl, htable⟩
    · rw [Finset.erase_empty] at hcleared
      exact Or.inr ⟨rfl, t', free', m₂, rfl, hcleared⟩

/-! ## Traps that return -/

theorem theCurenv_run (h : k.curenv c = some cur) :
    (theCurenv c).run k = .ret cur k := by
  unfold theCurenv
  rw [Prog.run_bind_ret (Prog.run_get k)]
  simp only [h]
  rfl

theorem lockKernel_run (h : k.kernelLock = none) :
    (lockKernel c).run k = .ret () (k.setLock (some c)) := by
  unfold lockKernel
  rw [Prog.run_bind_ret (Prog.run_get k), if_pos h]
  rfl

theorem trapFromUser_run (hlock : k.kernelLock = none)
    (hcur : k.curenv c = some cur) (hlive : (k.envs cur).envStatus ≠ .dying) :
    (trapFromUser c tf).run k = .ret () ((k.setLock (some c)).saveTf cur tf) := by
  have hcur' : (k.setLock (some c)).curenv c = some cur := hcur
  have hlive' : ¬ ((k.setLock (some c)).envs cur).envStatus = .dying := hlive
  unfold trapFromUser
  rw [Prog.run_bind_ret (lockKernel_run hlock),
    Prog.run_bind_ret (theCurenv_run hcur'), Prog.run_bind_ret (Prog.run_get _),
    Prog.run_bind_ret (Prog.run_when_false hlive')]
  rfl

/-- The dispatch of a system call that returns. -/
theorem trapDispatch_run {r : Int} (hcur : k.curenv c = some cur)
    (hsys : tf.tfTrapno = tSyscall) (hcall : tf.call = some call)
    (hrun : (call.run io c).run k = .ret r k₁) :
    (trapDispatch io c tf).run k = .ret () (k₁.result cur r) := by
  have hsyscall : (syscall io c tf.tfRegs.regEax tf.tfRegs.regEdx
      tf.tfRegs.regEcx tf.tfRegs.regEbx tf.tfRegs.regEdi
      tf.tfRegs.regEsi).run k = .ret r k₁ := by
    obtain ⟨no, hno, rfl⟩ := Option.map_eq_some_iff.mp hcall
    unfold syscall
    rw [hno]
    exact hrun
  unfold trapDispatch
  rw [if_neg (by rw [hsys]; decide), if_neg (by rw [hsys]; decide), if_pos hsys,
    Prog.run_bind_ret (theCurenv_run hcur), Prog.run_bind_ret hsyscall]
  rfl

/-- The end of `trap` for an environment that is still running. -/
theorem trapReturn_run (hlock : k.kernelLock = some c)
    (hcur : k.curenv c = some cur) (hrunning : (k.envs cur).envStatus = .running)
    (hd : (k.envs cur).envPgdir = some d) :
    (trapReturn c).run k = .exit (k.dispatched c cur d) := by
  unfold trapReturn
  rw [Prog.run_bind_ret (Prog.run_get k)]
  simp only [hcur]
  rw [if_pos hrunning]
  exact envRun_exits hd hlock

/-- A trap that makes a system call which returns without touching processors
and environments ends with the caller running again. -/
theorem Event.trap_returns {r : Int} (hcpu : c < k.ncpu)
    (hplace : (k.cpus c).place = .user) (huser : tf.FromUser)
    (hlock : k.kernelLock = none) (hstatus : (k.cpus c).cpuStatus ≠ .halted)
    (hcur : k.curenv c = some cur) (hrunning : (k.envs cur).envStatus = .running)
    (hd : (k.envs cur).envPgdir = some d) (hsys : tf.tfTrapno = tSyscall)
    (hcall : tf.call = some call)
    (hrun : (call.run io c).run ((k.traps c).saveTf cur tf) = .ret r k₁)
    (hp : SameProcs ((k.traps c).saveTf cur tf) k₁) :
    (Event.trap c tf io).step k = some ((k₁.result cur r).dispatched c cur d) := by
  have hcur₀ : ((k.traps c).saveTf cur tf).curenv c = some cur :=
    traps_curenv.trans hcur
  have hfrom : (trapFromUser c tf).run ((k.setPlace c .kernel).setCpuStatus c
      .started) = .ret () ((k.traps c).saveTf cur tf) := by
    refine trapFromUser_run hlock hcur₀ (fun h => ?_)
    have hdying : (k.envs cur).envStatus = .dying := h
    exact absurd (hrunning.symm.trans hdying) (by decide)
  have hcur₁ : (k₁.result cur r).curenv c = some cur := hp.curenv.trans hcur₀
  have hreturn : (trapReturn c).run (k₁.result cur r) =
      .exit ((k₁.result cur r).dispatched c cur d) := by
    refine trapReturn_run hp.kernelLock hcur₁ ?_ ?_
    all_goals
      rw [Kernel.result, Kernel.modifyEnv_envs_self, hp.envs, Kernel.saveTf,
        Kernel.modifyEnv_envs_self]
      assumption
  have htrap : (Jos.trap io c tf).run k =
      .exit ((k₁.result cur r).dispatched c cur d) := by
    unfold Jos.trap
    rw [Prog.run_bind_ret (Prog.run_get k), Prog.run_bind_ret (Prog.run_modify _ _),
      Prog.run_bind_ret (Prog.run_when_false hstatus), Prog.when, if_pos huser,
      Prog.run_bind_ret hfrom,
      Prog.run_bind_ret (trapDispatch_run hcur₀ hsys hcall hrun), hreturn]
  unfold Event.step
  simp only
  rw [if_pos ⟨hcpu, hplace, huser⟩, htrap]
  rfl

end Calls

end Jos
