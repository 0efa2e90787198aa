import Jos.WriteAuthority

/-!
# Mappings come from grants

`sys_page_alloc` grants a page to an environment, and `sys_page_map` and
`sys_ipc_try_send` pass one on.  The entry that they write is the address of
the page, or-ed with the permission word: it names that page, with no flag
outside `PTE_SYSCALL`, exactly when the word has no other bits.  In a run of
clean steps an environment maps only what it has been granted.
-/

namespace Jos

open Programs LinkedList RefPool

/-- The operation maps page `pg` at `va` of environment `e`, with permission
word `perm`. -/
def VmOp.Installs (k : Kernel) (e : Nat) (va perm : U32) (pg : Nat) :
    VmOp → Prop
  | newPage e' va' perm' => e' = e ∧ va' = va ∧ perm' = perm ∧
      k.vm.pageFreeList = some pg
  | share src srcva e' va' perm' => e' = e ∧ va' = va ∧ perm' = perm ∧
      ∃ w, k.entry src (pdx srcva) (ptx srcva) = some w ∧ pgnum w = pg
  | _ => False

/-- The call succeeds, and maps page `pg` at `va` of environment `e`. -/
structure Call.Installs (k : Kernel) (io : Inputs) (c : Nat) (call : Call)
    (e : Nat) (va perm : U32) (pg : Nat) (k' : Kernel) : Prop where
  asks : ∃ op, call.AsksVm k c op ∧ op.Installs k e va perm pg
  returns : (call.run io c).run k = .ret 0 k'

/-- An entry for page `pg`, with no flag outside `PTE_SYSCALL`. -/
def GoodEntry (pg : Nat) (entry : Option U32) : Prop :=
  ∃ w, entry = some w ∧ pteAddr w = page2pa pg ∧
    w &&& 0xFFF#32 &&& ~~~pteSyscall = 0#32

/-- The bits of a permission word above the flags are bits of the address of the
page, and its flags are in `PTE_SYSCALL`. -/
def PermOk (perm : U32) (pg : Nat) : Prop :=
  pteAddr perm &&& ~~~page2pa pg = 0#32 ∧
    perm &&& 0xFFF#32 &&& ~~~pteSyscall = 0#32

/-- The step grants page `p` to environment `e`. -/
def Event.Gives (k : Kernel) (ev : Event) (e p : Nat) : Prop :=
  ∃ k₀ c call va perm k₁, ev.Serves k k₀ c call ∧
    call.Installs k₀ ev.inputs c e va perm p k₁

/-- Environment `e` maps page `p` below `UTOP`. -/
def Kernel.MapsIn (k : Kernel) (e p : Nat) : Prop :=
  ∃ i j w, i < userPdes ∧ j < nptentries ∧ k.entry e i j = some w ∧ pgnum w = p

/-- A run of clean steps, and what has been granted to each environment: what
`env_create` mapped, and what system calls gave it since, until the page or the
environment is free. -/
inductive GrantRun (managed : Set Nat) :
    Kernel → (Nat → Nat → Prop) → Prop where
  | boot {k : Kernel} : Booted managed k → GrantRun managed k k.MapsIn
  | step {k k' : Kernel} {granted : Nat → Nat → Prop} (ev : Event) :
      GrantRun managed k granted → ev.Clean k → ev.step k = some k' →
      GrantRun managed k' (fun e p => (granted e p ∨ ev.Gives k e p) ∧
        ¬ k'.IsFree p ∧ (k'.envs e).envStatus ≠ .free)

section Entries

variable {pg : Nat} {perm : U32}

theorem pteAddr_or (a b : U32) : pteAddr (a ||| b) = pteAddr a ||| pteAddr b := by
  unfold pteAddr
  ext i hi
  simp [Bool.and_or_distrib_right]

theorem pteAddr_page2pa (pg : Nat) : pteAddr (page2pa pg) = page2pa pg := by
  unfold pteAddr page2pa
  ext i hi
  interval_cases i <;> simp

/-- Bits that change nothing are there already. -/
theorem or_eq_left_iff (a b : U32) : a ||| b = a ↔ b &&& ~~~a = 0#32 := by
  have hbits : ∀ i (hi : i < 32), ((a ||| b)[i] = a[i] ↔
      (b &&& ~~~a)[i] = (0#32)[i]) := by
    intro i hi
    simp only [BitVec.getElem_or, BitVec.getElem_and, BitVec.getElem_not,
      BitVec.getElem_zero]
    cases a[i] <;> cases b[i] <;> simp
  constructor
  · intro h
    ext i hi
    exact (hbits i hi).mp (congrArg (fun w : U32 => w[i]) h)
  · intro h
    ext i hi
    exact (hbits i hi).mpr (congrArg (fun w : U32 => w[i]) h)

/-- The entry that `page_insert` writes is good if the permission word is. -/
theorem goodEntry_iff :
    GoodEntry pg (some (page2pa pg ||| perm ||| pteP)) ↔ PermOk perm pg := by
  have haddr : pteAddr (page2pa pg ||| perm ||| pteP) =
      page2pa pg ||| pteAddr perm := by
    rw [pteAddr_or, pteAddr_or, pteAddr_page2pa, show pteAddr pteP = 0#32 by
      decide, BitVec.or_zero]
  have hflags : (page2pa pg ||| perm ||| pteP) &&& 0xFFF#32 &&& ~~~pteSyscall =
      perm &&& 0xFFF#32 &&& ~~~pteSyscall := by
    have hpa : page2pa pg &&& 0xFFF#32 = 0#32 :=
      Classical.not_not.mp (not_hasFlag_page2pa (by decide))
    have hdistrib : ∀ a b m : U32, (a ||| b) &&& m = a &&& m ||| b &&& m := by
      intro a b m
      ext i hi
      simp [Bool.and_or_distrib_right]
    rw [hdistrib (page2pa pg ||| perm), hdistrib (page2pa pg), hpa,
      BitVec.zero_or, hdistrib, show pteP &&& 0xFFF#32 &&& ~~~pteSyscall = 0#32 by
        decide, BitVec.or_zero]
  unfold GoodEntry PermOk
  rw [← or_eq_left_iff, ← hflags, ← haddr]
  constructor
  · rintro ⟨w, hw, h⟩
    obtain rfl := Option.some.inj hw
    exact h
  · exact fun h => ⟨_, rfl, h⟩

end Entries

section Installs

variable {managed : Set Nat} {k k' k₀ k₁ : Kernel} {ev : Event} {c cur e d : Nat}
  {call : Call} {io : Inputs} {va perm : U32} {pg : Nat}

/-- What `page_insert` writes when it succeeds, whatever the permission word. -/
theorem pageInsert_entry {free : List Nat} {held dirs : Finset Nat}
    {tc : ThisCpu} {m m' : PhysMem} (h : Accounted managed free held dirs m)
    (hd : d ∈ dirs) (hva : va < utop) (hpg : pg ∈ managed) (hfree : pg ∉ free)
    (hmax : ∀ p, refCount m.mem dirs p ≤ 65535)
    (hrun : (pageInsert tc d pg va perm).run m = .ret 0 m') :
    entryOf m'.mem d (pdx va) (ptx va) =
      some (page2pa pg ||| perm ||| pteP) := by
  have hi : pdx va < userPdes := (pdx_lt_userPdes va).mpr hva
  rcases (pageInsert_returns h hd hva hpg hfree hmax).value hrun with
    ⟨-, -, h0, -⟩ | ⟨t, free', m₂, -, rfl, hcleared⟩
  · exact absurd h0 (by decide)
  · have hsets : SetsEntry dirs d (pdx va) (ptx va) (page2pa pg ||| perm ||| pteP)
        m₂.mem (m₂.setWord t (ptx va) (page2pa pg ||| perm ||| pteP)).mem :=
      setsEntry_set hcleared.spaces hd hi hcleared.here
    rw [hsets.here, if_pos (hasFlag_or_pteP _)]

theorem entry_setVm {m : PhysMem} {i j : Nat}
    (hd : (k.envs e).envPgdir = some d) :
    (k.setVm m).entry e i j = entryOf m.mem d i j := by
  unfold Kernel.entry
  rw [Kernel.setVm_envs, hd]
  rfl

theorem sysPageAlloc_installs (hm : Memory managed k) {envid : U32}
    (he : k.envOf c envid true = some e) (hlive : k.Live e)
    (hlist : k.vm.pageFreeList = some pg) :
    wp (sysPageAlloc c envid va perm) (Partial (fun r k' => r = 0 →
      k'.entry e (pdx va) (ptx va) = some (page2pa pg ||| perm ||| pteP))
      (fun _ => True)) k := by
  obtain ⟨free, hacc⟩ := hm.books.accounted
  refine envid2env_bind (fun h => absurd (he.symm.trans h) (by simp))
    (fun e' he' => ?_)
  obtain rfl := Option.some.inj (he.symm.trans he')
  refine wp_ite (fun _ h => absurd h (by decide)) (fun hva => ?_)
  have hutop : va < utop := BitVec.not_le.mp (fun h => hva (Or.inl h))
  refine wp_ite (fun _ h => absurd h (by decide)) (fun _ => ?_)
  refine partial_bind (onVm_wp (X := fun _ => False)
    (R := fun r k' => ∃ m, (pageAlloc true).run k.vm = .ret r m ∧
      k' = k.setVm m) (pageAlloc_stays true) (fun r m hrun => ⟨m, hrun, rfl⟩))
    ?_ (fun _ _ => trivial)
  rintro r _ ⟨m₁, halloc, rfl⟩
  rcases (pageAlloc_returns true hacc).value halloc with
    ⟨-, rfl, -⟩ | ⟨p, free', rfl, rfl, hall⟩
  · exact fun h => absurd h (by decide)
  obtain rfl := Option.some.inj (hlist.symm.trans (pageAlloc_some hm halloc).1)
  refine partial_bind (pageInsertEnv_wp (X := fun _ => False)) ?_
    (fun _ _ => trivial)
  rintro r _ ⟨d, m₂, hd, hins, rfl⟩
  refine wp_ite (fun hr => ?_) (fun hr _ => ?_)
  · -- a call that fails does not return `0`
    exact partial_bind (R := fun _ _ => True) (X := fun _ => True)
      (wp_of_always (fun _ _ => trivial) (fun _ => trivial) (fun _ => trivial))
      (fun _ _ _ h => absurd h hr) (fun _ h => h)
  · obtain rfl : r = 0 := Classical.not_not.mp hr
    have hheld : pg ∈ insert pg (∅ : Finset Nat) := Finset.mem_insert_self _ _
    have hd' : (k.envs e).envPgdir = some d := hd
    have hins' : (pageInsert ((k.setVm m₁).thisCpu c) d pg va perm).run m₁ =
      .ret 0 m₂ := hins
    rw [entry_setVm (k := k.setVm m₁) hd]
    exact pageInsert_entry hall.accounted (mem_envDirs.mpr ⟨e, hlive.1, hd'⟩) hutop
      (hall.accounted.ledger.pool.held_managed pg hheld)
      (hall.accounted.ledger.pool.not_free_of_held hheld)
      (fun p => by rw [hall.views.refCount_eq]; exact hm.counts p) hins'

/-- `page_insert` of a page that is mapped already. -/
theorem share_entry {dst : Nat} {w : U32} {m : PhysMem} {i j : Nat}
    (hm : Memory managed k) (he : e < nenv) (hi : i < userPdes)
    (hj : j < nptentries) (hw : k.entry e i j = some w) (hlive : k.Live dst)
    (hd : (k.envs dst).envPgdir = some d) (hva : va < utop)
    (hrun : (pageInsert (k.thisCpu c) d (pgnum w) va perm).run k.vm = .ret 0 m) :
    entryOf m.mem d (pdx va) (ptx va) =
      some (page2pa (pgnum w) ||| perm ||| pteP) := by
  obtain ⟨free, hacc⟩ := hm.books.accounted
  obtain ⟨ds, hds, hentry⟩ := Option.bind_eq_some_iff.mp hw
  have hmaps : k.Maps (pgnum w) := ⟨ds, i, j, mem_envDirs.mpr ⟨e, he, hds⟩, hi,
    hj, mappedPage_eq_some.mpr ⟨w, hentry, rfl⟩⟩
  exact pageInsert_entry hacc (mem_envDirs.mpr ⟨dst, hlive.1, hd⟩) hva
    (hm.books.mappable (Or.inr hmaps)).managed (hacc.not_free (Or.inr hmaps))
    hm.counts hrun

theorem sysPageMap_installs (hm : Memory managed k) {se : Nat} {w : U32}
    {srcenvid srcva dstenvid : U32}
    (hse : k.envOf c srcenvid true = some se) (hslive : k.Live se)
    (hde : k.envOf c dstenvid true = some e) (hlive : k.Live e)
    (hw : k.entry se (pdx srcva) (ptx srcva) = some w) :
    wp (sysPageMap c srcenvid srcva dstenvid va perm) (Partial (fun r k' => r = 0 →
      k'.entry e (pdx va) (ptx va) =
        some (page2pa (pgnum w) ||| perm ||| pteP)) (fun _ => True)) k := by
  refine envid2env_bind (fun h => absurd (hse.symm.trans h) (by simp))
    (fun se' hse' => ?_)
  obtain rfl := Option.some.inj (hse.symm.trans hse')
  refine envid2env_bind (fun h => absurd (hde.symm.trans h) (by simp))
    (fun de' hde' => ?_)
  obtain rfl := Option.some.inj (hde.symm.trans hde')
  refine wp_ite (fun _ h => absurd h (by decide)) (fun hbad => ?_)
  obtain ⟨hsrcva, hdstva⟩ := not_or.mp hbad
  have hutop : ∀ va, ¬ BadVa va → va < utop := fun va hva =>
    BitVec.not_le.mp (fun h => hva (Or.inl h))
  refine thePgdir_bind (fun ds hds => ?_)
  refine partial_bind (lookup_wp (X := fun _ => False)) ?_ (fun _ => False.elim)
  rintro r k₁ ⟨rfl, hfound⟩
  cases r with
  | none => exact fun h => absurd h (by decide)
  | some r =>
      obtain ⟨pg, pte⟩ := r
      obtain ⟨hentry, rfl⟩ := hfound pg pte rfl
      obtain rfl : k.vm.mem pte.page pte.idx = w := by
        unfold Kernel.entry at hw
        rw [hds, Option.bind_some] at hw
        exact Option.some.inj (hentry.symm.trans hw)
      refine wp_ite (fun _ h => absurd h (by decide)) (fun _ => ?_)
      refine partial_bind (onVm_wp (X := fun _ => False)
        (R := fun _ k' => k = k') (readPte_stays pte) ?_) ?_
        (fun _ => False.elim)
      · intro w m hrun
        cases hrun
        rfl
      rintro _ k₁ rfl
      refine wp_ite (fun _ h => absurd h (by decide)) (fun _ => ?_)
      refine wp_mono (pageInsertEnv_wp (X := fun _ => False)) ?_
        (fun _ => False.elim) (fun _ h => h)
      rintro r _ ⟨d, m, hd, hins, rfl⟩ rfl
      rw [entry_setVm hd]
      exact share_entry hm hslive.1 ((pdx_lt_userPdes _).mpr (hutop _ hsrcva))
        (ptx_lt _) hw hlive hd (hutop _ hdstva) hins

theorem sysIpcTrySend_installs (hm : Memory managed k) {w : U32}
    {envid value srcva : U32} (hcur : k.curenv c = some cur) (hclive : k.Live cur)
    (he : k.envOf c envid false = some e) (hlive : k.Live e)
    (hsrc : srcva < utop) (hdst : (k.envs e).envIpcDstva < utop)
    (hw : k.entry cur (pdx srcva) (ptx srcva) = some w) :
    wp (sysIpcTrySend io c envid value srcva perm) (Partial (fun r k' => r = 0 →
      k'.entry e (pdx (k.envs e).envIpcDstva) (ptx (k.envs e).envIpcDstva) =
        some (page2pa (pgnum w) ||| perm ||| pteP)) (fun _ => True)) k := by
  unfold sysIpcTrySend
  refine envid2env_bind (fun h => absurd (he.symm.trans h) (by simp))
    (fun e' he' => ?_)
  obtain rfl := Option.some.inj (he.symm.trans he')
  rw [wp_get_bind]
  refine wp_ite (fun _ h => absurd h (by decide)) (fun hrecv => ?_)
  refine theCurenv_bind hcur (wp_ite (fun _ => ?_) (fun h => absurd hsrc h))
  refine thePgdir_bind (fun ds hds => ?_)
  refine partial_bind (lookup_wp (X := fun _ => False)) ?_ (fun _ => False.elim)
  rintro found k₁ ⟨rfl, hfound⟩
  refine wp_ite (fun _ h => absurd h (by decide)) (fun _ => ?_)
  split
  · exact trivial
  rename_i pte hpte
  refine wp_ite (fun _ h => absurd h (by decide)) (fun _ => ?_)
  cases found with
  | none => exact fun h => absurd h (by decide)
  | some found =>
      obtain ⟨pg, ptr⟩ := found
      obtain ⟨hentry, rfl⟩ := hfound pg ptr rfl
      obtain rfl : k.vm.mem ptr.page ptr.idx = w := by
        unfold Kernel.entry at hw
        rw [hds, Option.bind_some] at hw
        exact Option.some.inj (hentry.symm.trans hw)
      refine wp_ite (fun _ h => absurd h (by decide)) (fun _ => ?_)
      refine wp_ite (fun _ => ?_) (fun h => absurd hdst h)
      refine partial_bind (pageInsertEnv_wp (X := fun _ => False)) ?_
        (fun _ _ => trivial)
      rintro r _ ⟨d, m, hd, hins, rfl⟩
      refine wp_ite (fun hr h => absurd h hr) (fun hr _ => ?_)
      obtain rfl : r = 0 := Classical.not_not.mp hr
      refine Eq.trans ?_ (share_entry hm hclive.1
        ((pdx_lt_userPdes _).mpr hsrc) (ptx_lt _) hw hlive hd hdst hins)
      unfold Kernel.entry
      simp [Env.deliver, hd]

/-- The entry that a successful call writes is the address of the page, or-ed
with the permission word. -/
theorem Call.Installs.entry (hserving : Serving managed c cur k)
    (h : call.Installs k io c e va perm pg k') :
    k'.entry e (pdx va) (ptx va) = some (page2pa pg ||| perm ||| pteP) := by
  obtain ⟨⟨op, hop, hinst⟩, hrun⟩ := h
  have hvalid := hop.valid hserving.order hserving.inKernel
  unfold Call.run at hrun
  cases hop with
  | pageAlloc hno he _ =>
      obtain ⟨rfl, rfl, rfl, hlist⟩ := hinst
      rw [hno] at hrun
      exact wp_ret (sysPageAlloc_installs hserving.memory he hvalid.1 hlist) hrun
        rfl
  | pageMap hno hse hde _ _ =>
      obtain ⟨rfl, rfl, rfl, w, hw, rfl⟩ := hinst
      rw [hno] at hrun
      exact wp_ret (sysPageMap_installs hserving.memory hse hvalid.1 hde
        hvalid.2.2.1 hw) hrun rfl
  | ipcTrySend hno hrcv _ hcur hsrc hdst =>
      obtain ⟨rfl, rfl, rfl, w, hw, rfl⟩ := hinst
      rw [hno] at hrun
      exact wp_ret (sysIpcTrySend_installs hserving.memory hcur hvalid.1 hrcv
        hvalid.2.2.1 hsrc hdst hw) hrun rfl
  | pageUnmap _ _ _ => exact hinst.elim
  | setTrapframe _ _ => exact hinst.elim
  | pktRecv _ => exact hinst.elim

/-- An entry below `UTOP` that a clean step has set comes from a grant. -/
theorem Event.SetsChecked.gives {i j : Nat} {w : U32} (h : Sound managed k)
    (hclean : ev.Clean k) (hstep : ev.step k = some k') (he : e < nenv)
    (hset : ev.SetsChecked k e i j (some w)) : ev.Gives k e (pgnum w) := by
  obtain ⟨k₀, k₁, c, call, r, op, d, hserves, hrun, hop, hchecked, hd, hset⟩ :=
    hset
  obtain ⟨cur, hcur, -⟩ := hserves.runs
    (fun c hp => (h.order.procs.halted c).mpr hp) hstep
  obtain ⟨-, hserving⟩ := h.serving hserves hcur
  have hsafe := hclean.safe k₀ c call hserves op hop
  have hvalid := hop.valid hserving.order hserving.inKernel
  have howns : ∀ e', k₀.Live e' → (k₀.envs e').envPgdir = some d → e' = e :=
    fun e' hlive hd' =>
      hserving.memory.books.table.pgdir_inj e' e d hlive.1 he hd' hd
  cases op with
  | newPage e' va perm =>
      obtain ⟨hd', -, -, pg, hlist, hnew⟩ := hset
      obtain rfl := howns e' hvalid.1 hd'
      obtain rfl := Option.some.inj hnew
      obtain ⟨rfl, -⟩ := hchecked
      rw [show pgnum (page2pa pg ||| perm ||| pteP) = pg from hsafe pg hlist]
      exact ⟨k₀, c, call, va, perm, k₁, hserves,
        ⟨_, hop, rfl, rfl, rfl, hlist⟩, hrun⟩
  | share src srcva e' va perm =>
      obtain ⟨hd', -, -, ds, ws, hds, hws, hnew⟩ := hset
      obtain rfl := howns e' hvalid.2.2.1 hd'
      obtain rfl := Option.some.inj hnew
      obtain ⟨rfl, -⟩ := hchecked
      rw [show pgnum (page2pa (pgnum ws) ||| perm ||| pteP) = pgnum ws
        from (hsafe ds ws hds hws).1]
      refine ⟨k₀, c, call, va, perm, k₁, hserves,
        ⟨_, hop, rfl, rfl, rfl, ws, ?_, rfl⟩, hrun⟩
      unfold Kernel.entry
      rw [hds]
      exact hws
  | unmap e' va => exact absurd hset.2.2.2 (by simp)
  | patch tf => exact hset.elim
  | pushFrame utr words => exact hset.elim
  | receive addr len => exact hset.elim

end Installs

section Runs

variable {managed : Set Nat} {k : Kernel} {granted : Nat → Nat → Prop}

theorem GrantRun.sound (h : GrantRun managed k granted) : Sound managed k := by
  induction h with
  | boot hb => exact hb.sound
  | step ev _ hclean hstep ih => exact ev.sound ih hclean hstep

/-- An environment that maps something is not free. -/
theorem Sound.entry_live (h : Sound managed k) {e i j : Nat} {w : U32}
    (he : e < nenv) (hw : k.entry e i j = some w) : k.Live e := by
  obtain ⟨d, hd, -⟩ := Option.bind_eq_some_iff.mp hw
  refine ⟨he, fun hfree => ?_⟩
  rw [(h.memory.books.table.pgdir_none e he).mpr hfree] at hd
  exact absurd hd (by simp)

/-- Every mapping below `UTOP` has been granted. -/
theorem GrantRun.mapped (h : GrantRun managed k granted) {e p : Nat}
    (he : e < nenv) (hp : k.MapsIn e p) : granted e p := by
  induction h generalizing e p with
  | boot _ => exact hp
  | @step k k' granted ev hrun hclean hstep ih =>
      obtain ⟨i, j, w, hi, hj, hw, rfl⟩ := hp
      have hsound := ev.sound hrun.sound hclean hstep
      refine ⟨?_, hsound.memory.not_isFree he hi hj hw,
        (hsound.entry_live he hw).2⟩
      rcases ev.entry_cases hrun.sound hclean hstep he hi hj with
        heq | hset | hnone
      · exact Or.inl (ih he ⟨i, j, w, hi, hj, heq.symm.trans hw, rfl⟩)
      · rw [hw] at hset
        exact Or.inr (hset.gives hrun.sound hclean hstep he)
      · exact absurd (hw.symm.trans hnone) (by simp)

end Runs

/-- `sys_page_alloc(0, USTACKTOP - 3*PGSIZE, PTE_W|PTE_U|PTE_P|0x8000)`. -/
def wildCall : Call := ⟨.pageAlloc, 0, 0xeebfb000#32, 0x8007#32, 0, 0⟩

/-- The call is granted with page 7 first on the free list, and the entry names another page. -/
theorem wildCall_grants : (execution 16 1 2 [.start 0]).any (fun (k : Kernel) =>
    decide (k.curenv 0 = some 0 ∧ (k.envs 0).envStatus ≠ .dying) &&
    ((Event.trap 0 (syscallTf 4 0 0xeebfb000#32 0x8007#32 0 0) ⟨0, 0#32, none⟩).step k).isSome &&
    decide (((k.traps 0).saveTf 0 (syscallTf 4 0 0xeebfb000#32 0x8007#32 0 0)).envOf 0 0 true =
      some 0 ∧ k.vm.pageFreeList = some 7) &&
    (match (wildCall.run ⟨0, 0#32, none⟩ 0).run
        ((k.traps 0).saveTf 0 (syscallTf 4 0 0xeebfb000#32 0x8007#32 0 0)) with
      | .ret r k₁ => decide (r = 0 ∧
          k₁.entry 0 (pdx 0xeebfb000#32) (ptx 0xeebfb000#32) = some 0xF007#32)
      | _ => false)) = true := by decide +kernel

end Jos
