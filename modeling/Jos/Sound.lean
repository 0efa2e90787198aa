import Jos.Boot

/-!
# Steps that keep memory

A step is clean if the system call it serves is fair to the other processors
and safe for memory.  In a run of clean steps the invariant of memory holds,
every processor that has an environment has loaded its page directory, and a
mapping below `UTOP` changes only as an operation of the call says, or goes
with its environment.
-/

namespace Jos

open Programs RefPool

/-- A processor that has an environment has loaded its directory. -/
def Loaded (k : Kernel) : Prop :=
  ∀ c e, k.curenv c = some e → (k.envs e).envPgdir = some (k.vm.cr3 c)

/-- The entry of environment `e` in slot `j` of page table `i`. -/
def Kernel.entry (k : Kernel) (e i j : Nat) : Option U32 :=
  (k.envs e).envPgdir.bind (fun d => entryOf k.vm.mem d i j)

/-- All that a system call may do to memory is safe. -/
def Call.Safe (k : Kernel) (c : Nat) (call : Call) : Prop :=
  ∀ op, call.AsksVm k c op → op.Safe k c

/-- The system call of an event, if there is one, is safe. -/
def Event.Safe (k : Kernel) (ev : Event) : Prop :=
  ∀ k₀ c call, ev.Serves k k₀ c call → call.Safe k₀ c

/-- A step that is fair and safe. -/
structure Event.Clean (k : Kernel) (ev : Event) : Prop where
  fair : ev.Fair k
  safe : ev.Safe k

/-- A system call may set an entry of environment `e`. -/
def Call.Sets (k : Kernel) (c : Nat) (call : Call) (e i j : Nat)
    (new : Option U32) : Prop :=
  ∃ op d, call.AsksVm k c op ∧ (k.envs e).envPgdir = some d ∧
    op.Sets k d i j new

/-- The page tables and the slots of environments are what they were. -/
structure SamePages (k k' : Kernel) : Prop where
  mem : SameMem k.vm k'.vm
  table : SameTable k k'

/-- Memory is in order, and entries have changed only as `sets` says or have
gone with their environment. -/
structure Maintained (managed : Set Nat)
    (sets : Nat → Nat → Nat → Option U32 → Prop) (k k' : Kernel) : Prop where
  memory : Memory managed k'
  loaded : Loaded k'
  entries : ∀ e i j, e < nenv → i < userPdes → j < nptentries →
    k'.entry e i j = k.entry e i j ∨ sets e i j (k'.entry e i j) ∨
      (k'.entry e i j = none ∧ (k'.envs e).envStatus = .free ∧
        (k.envs e).envStatus ≠ .free)

section Parts

variable {managed : Set Nat} {k k' k₁ : Kernel} {c cur e i j : Nat}
  {sets : Nat → Nat → Nat → Option U32 → Prop}

theorem SameMem.refl (m : PhysMem) : SameMem m m := ⟨rfl, rfl, rfl, rfl, rfl⟩

theorem SamePages.refl (k : Kernel) : SamePages k k :=
  ⟨.refl k.vm, .refl k⟩

theorem SamePages.trans {k'' : Kernel} (h : SamePages k k')
    (h' : SamePages k' k'') : SamePages k k'' :=
  ⟨⟨h'.mem.npages.trans h.mem.npages, h'.mem.pages.trans h.mem.pages,
    h'.mem.freeList.trans h.mem.freeList,
    h'.mem.kernPgdir.trans h.mem.kernPgdir, h'.mem.mem.trans h.mem.mem⟩,
    h.table.trans h'.table⟩

theorem SamePages.entry (h : SamePages k k') :
    k'.entry e i j = k.entry e i j := by
  unfold Kernel.entry
  rw [h.table.pgdir, h.mem.mem]

theorem Loaded.congr (h : Loaded k) (hcur : ∀ c, k'.curenv c = k.curenv c)
    (hcr3 : k'.vm.cr3 = k.vm.cr3)
    (hpgdir : ∀ e, (k'.envs e).envPgdir = (k.envs e).envPgdir) : Loaded k' := by
  intro c e he
  rw [hcur] at he
  rw [hpgdir, hcr3]
  exact h c e he

theorem SamePages.maintained (h : SamePages k k') (hm : Memory managed k)
    (hl : Loaded k') : Maintained managed sets k k' :=
  ⟨hm.congr h.mem h.table, hl, fun _ _ _ _ _ _ => Or.inl h.entry⟩

theorem SamePages.trans_maintained (h : SamePages k k₁)
    (h' : Maintained managed sets k₁ k') : Maintained managed sets k k' := by
  refine ⟨h'.memory, h'.loaded, fun e i j he hi hj => ?_⟩
  rw [← h.entry, ne_eq, ← h.table.free e]
  exact h'.entries e i j he hi hj

theorem Maintained.trans_same (h : Maintained managed sets k k₁)
    (h' : SamePages k₁ k') (hl : Loaded k') : Maintained managed sets k k' := by
  refine ⟨h.memory.congr h'.mem h'.table, hl, fun e i j he hi hj => ?_⟩
  rw [h'.entry, h'.table.free]
  exact h.entries e i j he hi hj

/-- A part that leaves the table alone, and another. -/
theorem Maintained.trans (h : Maintained managed sets k k₁)
    (hp : SameProcs k k₁) (h' : Maintained managed sets k₁ k') :
    Maintained managed sets k k' := by
  refine ⟨h'.memory, h'.loaded, fun e i j he hi hj => ?_⟩
  rcases h'.entries e i j he hi hj with heq | hset | hgone
  · rw [heq]
    refine (h.entries e i j he hi hj).imp_right (Or.imp_right ?_)
    rintro ⟨-, hfree, hlive⟩
    rw [hp.envs] at hfree
    exact absurd hfree hlive
  · exact Or.inr (Or.inl hset)
  · rw [hp.envs] at hgone
    exact Or.inr (Or.inr hgone)

theorem Maintained.mono {sets' : Nat → Nat → Nat → Option U32 → Prop}
    (h : Maintained managed sets k k')
    (hsets : ∀ e i j new, e < nenv → i < userPdes → j < nptentries →
      sets e i j new → sets' e i j new) :
    Maintained managed sets' k k' :=
  ⟨h.memory, h.loaded, fun e i j he hi hj =>
    (h.entries e i j he hi hj).imp_right (Or.imp_left (hsets e i j _ he hi hj))⟩

theorem Quiet.samePages (h : Quiet k k') : SamePages k k' := by
  obtain ⟨a, ha⟩ := h.memory
  have hp := h.procs
  refine ⟨⟨?_, ?_, ?_, ?_, ?_⟩, hp.envFreeList, ?_, ?_, ?_, ?_⟩
  all_goals first
    | (rw [ha])
    | (intro e; rw [hp.envs])

theorem Loaded.quiet (h : Loaded k) (hq : Quiet k k') : Loaded k' := by
  obtain ⟨a, ha⟩ := hq.memory
  refine h.congr (fun c => hq.procs.curenv) ?_ (fun e => by rw [hq.procs.envs])
  rw [ha]

/-- An environment that some processor has is not free. -/
theorem Orderly.owned_live (h : Orderly k) (he : k.curenv c = some e) :
    (k.envs e).envStatus ≠ .free := by
  cases hp : (k.cpus c).place with
  | user =>
      obtain ⟨e', he', hst⟩ := h.procs.user c hp
      obtain rfl := Option.some.inj (he.symm.trans he')
      exact hst.1
  | kernel => exact h.procs.kernel c e hp he
  | boot =>
      rw [h.procs.off c (Or.inl hp)] at he
      exact absurd he (by simp)
  | idle =>
      rw [h.procs.off c (Or.inr hp)] at he
      exact absurd he (by simp)

theorem samePages_dispatched {d : Nat} (hlive : (k.envs e).envStatus ≠ .free) :
    SamePages k (k.dispatched c e d) :=
  ⟨⟨rfl, rfl, rfl, rfl, rfl⟩, sameTable_dispatched hlive⟩

theorem Loaded.dispatched {d : Nat} (h : Loaded k)
    (hd : (k.envs e).envPgdir = some d) : Loaded (k.dispatched c e d) := by
  intro c' e' he'
  rw [dispatched_envs]
  by_cases hc : c' = c
  · subst hc
    rw [dispatched_curenv_self] at he'
    obtain rfl := Option.some.inj he'
    simp [Kernel.dispatched, PhysMem.loadCr3, hd]
  · rw [dispatched_curenv_of_ne hc] at he'
    have := h c' e' he'
    simpa [Kernel.dispatched, PhysMem.loadCr3, hc] using this

theorem samePages_haltedOn : SamePages k (k.haltedOn c) :=
  ⟨⟨rfl, rfl, rfl, rfl, rfl⟩, sameTable_haltedOn⟩

theorem Loaded.haltedOn (h : Loaded k) : Loaded (k.haltedOn c) := by
  intro c' e' he'
  by_cases hc : c' = c
  · subst hc
    simp [Kernel.haltedOn, Kernel.curenv] at he'
  · have hcur : (k.haltedOn c).curenv c' = k.curenv c' := by
      simp [Kernel.haltedOn, Kernel.curenv, hc]
    rw [hcur] at he'
    have := h c' e' he'
    simpa [Kernel.haltedOn, PhysMem.loadCr3, hc] using this

/-- However `sched_yield` ends, page tables stay. -/
theorem Yields.samePages (hy : Yields k c k') (ho : Orderly k)
    (hin : InKernel c k) (hl : Loaded k) : SamePages k k' ∧ Loaded k' := by
  cases hy with
  | dispatch j d hpick hd =>
      have hlive : (k.envs j).envStatus ≠ .free := by
        rcases hpick.status with hs | hcur
        · rw [hs]
          decide
        · exact ho.procs.kernel c j hin.here hcur
      exact ⟨samePages_dispatched hlive, hl.dispatched hd⟩
  | halt _ _ _ => exact ⟨samePages_haltedOn, hl.haltedOn⟩

theorem Resumes.samePages (hr : Resumes c k k') (ho : Orderly k)
    (hin : InKernel c k) (hl : Loaded k) : SamePages k k' ∧ Loaded k' := by
  cases hr with
  | same cur d hcur _ hd hk =>
      rw [hk]
      exact ⟨samePages_dispatched (ho.procs.kernel c cur hin.here hcur),
        hl.dispatched hd⟩
  | other _ hy => exact hy.samePages ho hin hl

/-- An edit that does not concern the slot of an environment. -/
theorem samePages_edit {f : Env → Env}
    (hlink : (f (k.envs e)).envLink = (k.envs e).envLink)
    (hpgdir : (f (k.envs e)).envPgdir = (k.envs e).envPgdir)
    (hid : (f (k.envs e)).envId = (k.envs e).envId)
    (hfree : (f (k.envs e)).envStatus = .free ↔ (k.envs e).envStatus = .free) :
    SamePages k (k.modifyEnv e f) :=
  ⟨.refl k.vm, sameTable_modifyEnv hlink hpgdir hid hfree⟩

theorem Loaded.edit {f : Env → Env} (h : Loaded k)
    (hpgdir : (f (k.envs e)).envPgdir = (k.envs e).envPgdir) :
    Loaded (k.modifyEnv e f) := by
  refine h.congr (fun _ => rfl) rfl (fun e' => ?_)
  by_cases he : e' = e
  · subst he
    rw [Kernel.modifyEnv_envs_self, hpgdir]
  · rw [Kernel.modifyEnv_envs_of_ne he]

/-! ## Operations -/

/-- What `envid2env` and `BadVa` have checked. -/
theorem Call.AsksVm.valid {call : Call} {op : VmOp} (ho : Orderly k)
    (hin : InKernel c k) (hop : call.AsksVm k c op) : op.Valid k := by
  have hgood : ∀ va, ¬ BadVa va → va < utop := fun va hva =>
    BitVec.not_le.mp (fun h => hva (Or.inl h))
  cases hop with
  | pageAlloc _ he hva => exact ⟨envOf_live ho.procs hin he, hgood _ hva⟩
  | pageMap _ hse hde hsrcva hdstva =>
      exact ⟨envOf_live ho.procs hin hse, hgood _ hsrcva,
        envOf_live ho.procs hin hde, hgood _ hdstva⟩
  | pageUnmap _ he hva => exact ⟨envOf_live ho.procs hin he, hgood _ hva⟩
  | ipcTrySend _ hrcv _ hcur hsrc hdst =>
      exact ⟨⟨ho.procs.slot c _ hcur, ho.owned_live hcur⟩, hsrc,
        envOf_live ho.procs hin hrcv, hdst⟩
  | setTrapframe _ _ => exact trivial
  | pktRecv _ => exact trivial

/-- Entries of directories are entries of the environments that have them. -/
theorem Altered.maintained {sets' : Nat → Nat → Nat → Option U32 → Prop}
    (h : Altered managed sets' k k') (hl : Loaded k)
    (hsets : ∀ e d i j new, (k.envs e).envPgdir = some d → sets' d i j new →
      sets e i j new) : Maintained managed sets k k' := by
  refine ⟨h.memory, hl.congr (fun _ => h.procs.curenv) h.frame.cr3
    (fun e => by rw [h.procs.envs]), fun e i j he hi hj => ?_⟩
  unfold Kernel.entry
  rw [h.procs.envs]
  cases hd : (k.envs e).envPgdir with
  | none => exact Or.inl rfl
  | some d =>
      have hdir : d ∈ envDirs k := mem_envDirs.mpr ⟨e, he, hd⟩
      exact (h.entries d i j hdir hi hj).imp_right
        (fun hs => Or.inl (hsets e d i j _ hd hs))

theorem Loaded.dir_mem (hl : Loaded k) (ho : Orderly k)
    (hcur : k.curenv c = some cur) : k.vm.cr3 c ∈ envDirs k :=
  mem_envDirs.mpr ⟨cur, ho.procs.slot c cur hcur, hl c cur hcur⟩

/-- Memory after the part of a system call that concerns memory. -/
theorem VmServed.maintained {call : Call}
    (hs : VmServed c (call.AsksVm k c) k k') (hm : Memory managed k)
    (hl : Loaded k) (ho : Orderly k) (hin : InKernel c k)
    (hcur : k.curenv c = some cur) (hsafe : call.Safe k c) :
    Maintained managed (call.Sets k c) k k' := by
  cases hs with
  | quiet hq => exact hq.samePages.maintained hm (hl.quiet hq)
  | op op k₁ hop hdoes hq =>
      have haltered := hdoes.altered hm (hl.dir_mem ho hcur)
        (hop.valid ho hin) (hsafe op hop)
      have h₁ : Maintained managed (call.Sets k c) k k₁ :=
        haltered.maintained hl (fun e d i j new hd hset => ⟨op, d, hop, hd, hset⟩)
      exact h₁.trans_same hq.samePages (h₁.loaded.quiet hq)

/-- An environment is freed. -/
theorem Freed.entries {d : Nat} (hf : Freed managed ∅ c e d k k')
    (hm : Memory managed k) (he : e < nenv)
    (hd : (k.envs e).envPgdir = some d) {e' : Nat} (he' : e' < nenv)
    (hi : i < userPdes) (hj : j < nptentries) :
    k'.entry e' i j = k.entry e' i j ∨
      (k'.entry e' i j = none ∧ (k'.envs e').envStatus = .free ∧
        (k.envs e').envStatus ≠ .free) := by
  have hspace := hf.space
  obtain ⟨vm, rfl⟩ := hf.state
  by_cases hne : e' = e
  · subst hne
    refine Or.inr ⟨?_, ?_, fun hh => ?_⟩
    · rw [Kernel.entry, freed_envs_self]
      rfl
    · rw [freed_envs_self]
    · rw [(hm.books.table.pgdir_none e' he).mpr hh] at hd
      exact absurd hd (by simp)
  · refine Or.inl ?_
    unfold Kernel.entry
    rw [freed_envs_of_ne hne]
    cases hd' : (k.envs e').envPgdir with
    | none => rfl
    | some d' =>
        have hdir : d' ∈ (envDirs k).erase d := by
          refine Finset.mem_erase.mpr ⟨?_, mem_envDirs.mpr ⟨e', he', hd'⟩⟩
          rintro rfl
          exact hne (hm.books.table.pgdir_inj e' e d' he' he hd' hd)
        have hview := hspace.views.entry d' i j hdir hi hj
        rwa [leaveDir_mem] at hview

/-- `env_free` of a live environment. -/
theorem Memory.envFree (hm : Memory managed k) (he : e < nenv)
    (hrun : (envFree c e).run k = .ret () k') :
    ∃ d, (k.envs e).envPgdir = some d ∧ Freed managed ∅ c e d k k' := by
  obtain ⟨free, hacc⟩ := hm.books.accounted
  obtain ⟨d, vm, hd, -⟩ := envFree_ret hrun
  exact ⟨d, hd, (envFree_returns hacc hm.counts he hd).value hrun⟩

theorem Freed.cr3 {d c' : Nat} (hf : Freed managed ∅ c e d k k')
    (hc : k.curenv c = some e → c' ≠ c) : k'.vm.cr3 c' = k.vm.cr3 c' := by
  have hframe := hf.space.frame.cr3
  rw [hframe]
  unfold PhysMem.leaveDir
  split
  · rename_i hcur
    simp [PhysMem.loadCr3, hc hcur]
  · rfl

/-- Every fair operation on the table keeps memory. -/
theorem EnvOp.Does.maintained {op : EnvOp} (hop : op.Does c cur k k')
    (hm : Memory managed k) (hl : Loaded k) (ho : Orderly k)
    (hv : op.Valid k) (hf : op.Fair k c) :
    Maintained managed sets k k' := by
  have hedit : ∀ (e : Nat) (f : Env → Env),
      (f (k.envs e)).envLink = (k.envs e).envLink →
      (f (k.envs e)).envPgdir = (k.envs e).envPgdir →
      (f (k.envs e)).envId = (k.envs e).envId →
      ((f (k.envs e)).envStatus = .free ↔ (k.envs e).envStatus = .free) →
      Maintained managed sets k (k.modifyEnv e f) :=
    fun e f hlink hpgdir hid hfree =>
      (samePages_edit hlink hpgdir hid hfree).maintained hm (hl.edit hpgdir)
  cases op with
  | setTf e tf =>
      obtain rfl := hop
      exact hedit e _ rfl rfl rfl Iff.rfl
  | setUpcall e func =>
      obtain rfl := hop
      exact hedit e _ rfl rfl rfl Iff.rfl
  | setStatus e st =>
      obtain rfl := hop
      refine hedit e _ rfl rfl rfl ⟨fun hh => ?_, fun hh => absurd hh hv.1.2⟩
      rcases hv.2 with rfl | rfl <;> exact absurd hh (by simp)
  | fork e =>
      obtain ⟨k₁, hrun, rfl⟩ := hop
      obtain ⟨free, hacc⟩ := hm.books.accounted
      rcases (envAlloc_returns hacc hm.books.kernDir _).value hrun with
        ⟨-, hr, -⟩ | ⟨-, -, hr, -⟩ | ⟨e', p, free', vm, hlist, -, hr, rfl, hadd⟩
      · exact absurd hr (by simp)
      · exact absurd hr (by simp)
      obtain rfl : e = e' := by
        simpa using hr
      obtain ⟨he, hfree, hnone, -⟩ := ho.slots.head_free hlist
      have hmem : Memory managed (k.allocated vm e p (k.envs cur).envId) :=
        hm.alloc hlist hadd
      have hloaded : Loaded (k.allocated vm e p (k.envs cur).envId) := by
        intro c' e' he'
        have hcur' : k.curenv c' = some e' := he'
        have hne : e' ≠ e := by
          rintro rfl
          exact ho.owned_live hcur' hfree
        rw [allocated_envs_of_ne hne, allocated_vm, hadd.frame.cr3]
        exact hl c' e' hcur'
      have halloc : Maintained managed sets k
          (k.allocated vm e p (k.envs cur).envId) := by
        refine ⟨hmem, hloaded, fun e' i j he' hi hj => Or.inl ?_⟩
        unfold Kernel.entry
        by_cases hne : e' = e
        · subst hne
          -- the new directory maps nothing below `UTOP`
          have htable : tableOf vm.mem p i = none := by
            refine tableOf_eq_none.mpr ?_
            rw [hadd.template]
            exact newDir_empty hm.books.kernDir hi
          rw [hnone, allocated_envs_self]
          exact entryOf_of_no_table htable
        · rw [allocated_envs_of_ne hne]
          cases hd : (k.envs e').envPgdir with
          | none => rfl
          | some d =>
              exact hadd.views.entry d i j (mem_envDirs.mpr ⟨e', he', hd⟩) hi hj
      refine halloc.trans_same (samePages_edit rfl rfl rfl ?_)
        (halloc.loaded.edit rfl)
      rw [allocated_envs_self]
      simp [freshEnv]
  | kill e =>
      obtain ⟨hcur, ⟨hrun, rfl⟩ | ⟨hrun, hfree⟩⟩ := hop
      · refine hedit e _ rfl rfl rfl ?_
        simp [hrun]
      · obtain ⟨d, hd, hfreed⟩ := hm.envFree hv.1 hfree
        refine ⟨hm.release hv.1 hd hfreed, ?_, fun e' i j he' hi hj =>
          (hfreed.entries hm hv.1 hd he' hi hj).imp_right Or.inr⟩
        have hcr3 : ∀ c', k'.vm.cr3 c' = k.vm.cr3 c' := fun c' =>
          hfreed.cr3 (fun hh => absurd hh hcur)
        obtain ⟨vm, rfl⟩ := hfreed.state
        intro c' e' he'
        have hcur' : k.curenv c' = some e' := he'
        have hne : e' ≠ e := by
          rintro rfl
          by_cases hc : c' = c
          · exact hcur (hc ▸ hcur')
          · exact hf hrun ⟨c', hc, hcur'⟩
        rw [freed_envs_of_ne hne, hcr3]
        exact hl c' e' hcur'
  | deliver rcv value perm =>
      obtain rfl := hop
      refine hedit rcv _ ?_ ?_ ?_ ⟨fun hh => absurd hh (by simp [Env.deliver]),
        fun hh => absurd hh hv.2⟩
      all_goals cases perm <;> rfl

/-- The current environment is freed. -/
theorem Dies.maintained (hdies : Dies c cur k k') (hm : Memory managed k)
    (hl : Loaded k) (ho : Orderly k) : Maintained managed sets k k' := by
  obtain ⟨k₁, hcur, hrun, rfl⟩ := hdies
  have he := ho.procs.slot c cur hcur
  obtain ⟨d, hd, hfreed⟩ := hm.envFree he hrun
  have hrel := hm.release he hd hfreed
  have hcr3 : ∀ c', c' ≠ c → k₁.vm.cr3 c' = k.vm.cr3 c' := fun c' hc =>
    hfreed.cr3 (fun _ => hc)
  refine ⟨hrel.congr (.refl _) ⟨rfl, fun _ => rfl, fun _ => rfl, fun _ => rfl,
    fun _ => Iff.rfl⟩, ?_, fun e' i j he' hi hj =>
      (hfreed.entries hm he hd he' hi hj).imp_right Or.inr⟩
  obtain ⟨vm, rfl⟩ := hfreed.state
  intro c' e' he'
  have hc : c' ≠ c := by
    rintro rfl
    simp [Kernel.setCurenv, Kernel.curenv] at he'
  have hcur' : k.curenv c' = some e' := by
    simpa [Kernel.setCurenv, Kernel.curenv, Kernel.modifyCpu_cpus_of_ne hc,
      Kernel.freed, Kernel.setEnv, Kernel.setVm] using he'
  have hne : e' ≠ cur := by
    rintro rfl
    exact hc (ho.procs.inj c' c e' hcur' hcur)
  have hpgdir := hl c' e' hcur'
  rw [← hcr3 c' hc] at hpgdir
  refine Eq.trans ?_ hpgdir
  exact congrArg Env.envPgdir (freed_envs_of_ne hne)

/-! ## Entries into the kernel -/

/-- A system call that returns. -/
theorem Served.maintained {call : Call}
    (hs : Served c cur (call.AsksVm k c) (call.AsksEnv k c) k k')
    (hm : Memory managed k) (hl : Loaded k) (ho : Orderly k)
    (hin : InKernel c k) (hcur : k.curenv c = some cur)
    (hf : call.Fair k c) (hsafe : call.Safe k c) :
    Maintained managed (call.Sets k c) k k' := by
  cases hs with
  | memory hvm => exact hvm.maintained hm hl ho hin hcur hsafe
  | envs op k₁ hvm hop hdoes =>
      have hp := hvm.sameProcs
      have h₁ := hvm.maintained hm hl ho hin hcur hsafe
      exact h₁.trans hp (hdoes.maintained h₁.memory h₁.loaded (ho.sameProcs hp)
        ((hop.valid ho.procs hin).congr hp) ((hf op hop).congr hp))

/-- The kernel is left without returning. -/
theorem Leaves.maintained (hleave : Leaves c cur k k') (hm : Memory managed k)
    (hl : Loaded k) (ho : Orderly k) (hin : InKernel c k)
    (hcur : k.curenv c = some cur) : Maintained managed sets k k' := by
  cases hleave with
  | dies k₁ k₂ hq hdies hy =>
      have h₁ : Maintained managed sets k k₁ :=
        hq.samePages.maintained hm (hl.quiet hq)
      have ho₁ := ho.sameProcs hq.procs
      have hin₁ := hin.congr hq.procs.sameCpus
      obtain ⟨ho₂, hin₂, -⟩ := ho₁.dies hin₁ hdies
      have h₂ := h₁.trans hq.procs (hdies.maintained h₁.memory h₁.loaded ho₁)
      obtain ⟨hsame, hloaded⟩ := hy.samePages ho₂ hin₂ h₂.loaded
      exact h₂.trans_same hsame hloaded
  | waits dstva hy =>
      have hlive := ho.owned_live hcur
      have ho₁ : Orderly (k.blocked cur dstva) :=
        ho.editStatus (e := cur) hin ⟨ho.procs.slot c cur hcur, hlive⟩
          (fun hr => absurd hr (by simp)) rfl rfl rfl (Or.inr rfl)
      have h₁ : Maintained managed sets k (k.blocked cur dstva) :=
        (samePages_edit (e := cur) rfl rfl rfl ⟨fun hh => absurd hh (by simp),
          fun hh => absurd hh hlive⟩).maintained hm (hl.edit rfl)
      obtain ⟨hsame, hloaded⟩ :=
        hy.samePages ho₁ (hin.congr ⟨rfl, rfl, rfl⟩) h₁.loaded
      exact h₁.trans_same hsame hloaded
  | yields k₁ hq hy =>
      have h₁ : Maintained managed sets k k₁ :=
        hq.samePages.maintained hm (hl.quiet hq)
      obtain ⟨hsame, hloaded⟩ := hy.samePages (ho.sameProcs hq.procs)
        (hin.congr hq.procs.sameCpus) h₁.loaded
      exact h₁.trans_same hsame hloaded

/-- The exception stack frame lies below `UTOP`. -/
theorem pushFrame_valid (k : Kernel) (cr2 : U32) (tf : Trapframe) :
    (VmOp.pushFrame (exceptionStackTop tf.tfEsp - (utrapframeSize + 4#32))
      (utrapframeWords cr2 tf)).Valid k := by
  intro n hn
  have hlen : ((utrapframeWords cr2 tf).flatMap bytesOfU32).length = 52 := rfl
  have hsize : utrapframeSize + 4#32 = 56#32 := by decide
  have htop : utop.toNat - 4096 < (exceptionStackTop tf.tfEsp).toNat ∧
      (exceptionStackTop tf.tfEsp).toNat ≤ utop.toNat := by
    have hlow : (uxstacktop - pgsize).toNat = utop.toNat - 4096 := by decide
    have hhigh : uxstacktop.toNat = utop.toNat := by decide
    unfold exceptionStackTop
    split
    · rename_i h
      have h₁ := BitVec.lt_def.mp h.1
      have h₂ := BitVec.lt_def.mp h.2
      omega
    · rw [hhigh, utop_toNat]
      omega
  rw [hlen] at hn
  rw [utop_toNat] at htop
  rw [BitVec.lt_def, BitVec.toNat_add, BitVec.toNat_ofNat, hsize,
    BitVec.toNat_sub, utop_toNat]
  have h56 : (56#32 : U32).toNat = 56 := rfl
  rw [h56]
  omega

/-- A trap of user code, once its frame is saved. -/
theorem Handled.maintained {io : Inputs} {tf : Trapframe}
    (hh : Handled io c cur tf k k') (hm : Memory managed k) (hl : Loaded k)
    (ho : Orderly k) (hin : InKernel c k) (halive : NotDying c k)
    (hcur : k.curenv c = some cur)
    (hf : ∀ call, tf.tfTrapno = tSyscall → tf.call = some call → call.Fair k c)
    (hsafe : ∀ call, tf.tfTrapno = tSyscall → tf.call = some call →
      call.Safe k c) :
    Maintained managed (fun e i j new => ∃ call, tf.tfTrapno = tSyscall ∧
      tf.call = some call ∧ call.Sets k c e i j new) k k' := by
  have hresult : ∀ {sets : Nat → Nat → Nat → Option U32 → Prop} (k₁ : Kernel)
      (r : Int), Maintained managed sets k k₁ → Orderly k₁ → InKernel c k₁ →
      Resumes c (k₁.result cur r) k' → Maintained managed sets k k' := by
    intro sets k₁ r h₁ ho₁ hin₁ hr
    have hedit : SamePages k₁ (k₁.result cur r) :=
      samePages_edit rfl rfl rfl Iff.rfl
    have h₂ := h₁.trans_same hedit (h₁.loaded.edit rfl)
    obtain ⟨hsame, hloaded⟩ := hr.samePages (ho₁.edit rfl rfl rfl rfl)
      (hin₁.congr ⟨rfl, rfl, rfl⟩) h₂.loaded
    exact h₂.trans_same hsame hloaded
  have hkeep : Maintained managed (fun _ _ _ _ => False) k k :=
    (SamePages.refl k).maintained hm hl
  cases hh with
  | returns call r k₁ hsys hcall _ hs hr =>
      have hfair := hf call hsys hcall
      have h₁ := hs.maintained hm hl ho hin hcur hfair (hsafe call hsys hcall)
      obtain ⟨ho₁, -⟩ := hs.orderly ho hin halive hfair
      exact (hresult k₁ r h₁ ho₁ (hin.congr hs.sameCpus) hr).mono
        (fun e i j new _ _ _ hset => ⟨call, hsys, hcall, hset⟩)
  | leaves call _ _ _ hleave => exact hleave.maintained hm hl ho hin hcur
  | badCall _ _ hr =>
      exact (hresult k _ hkeep ho hin hr).mono (fun _ _ _ _ _ _ _ => False.elim)
  | fault utr words k₁ k₂ d _ hutr hwords hq hpush hd hk =>
      have h₁ : Maintained managed (fun _ _ _ _ => False) k k₁ :=
        hq.samePages.maintained hm (hl.quiet hq)
      have ho₁ := ho.sameProcs hq.procs
      have hcur₁ : k₁.curenv c = some cur := hq.procs.curenv.trans hcur
      have hvalid : (VmOp.pushFrame utr words).Valid k₁ := by
        rw [hutr, hwords]
        exact pushFrame_valid k₁ io.cr2 tf
      have hstored := pushFrame_stored h₁.memory (h₁.loaded.dir_mem ho₁ hcur₁)
        hvalid hpush
      have halt : Altered managed (fun _ _ _ _ => False) k₁ k₂ := hstored.altered
      have h₂ := h₁.trans hq.procs (halt.maintained h₁.loaded
        (fun _ _ _ _ _ _ => False.elim))
      have hp := hq.procs.trans hpush.sameProcs
      have hedit : SamePages k₂ (k₂.redirect cur utr) :=
        samePages_edit rfl rfl rfl Iff.rfl
      have h₃ := h₂.trans_same hedit (h₂.loaded.edit rfl)
      have hlive : ((k₂.redirect cur utr).envs cur).envStatus ≠ .free := by
        simp only [Kernel.redirect, Kernel.modifyEnv_envs_self]
        rw [hp.envs]
        exact ho.owned_live hcur
      have hpgdir : ((k₂.redirect cur utr).envs cur).envPgdir = some d := by
        simp only [Kernel.redirect, Kernel.modifyEnv_envs_self]
        rw [hp.envs]
        exact hd
      rw [hk]
      exact (h₃.trans_same (samePages_dispatched hlive)
        (h₃.loaded.dispatched hpgdir)).mono (fun _ _ _ _ _ _ _ => False.elim)
  | gone _ hleave => exact hleave.leaves.maintained hm hl ho hin hcur
  | ignored _ hr =>
      obtain ⟨hsame, hloaded⟩ := hr.samePages ho hin hl
      exact hsame.maintained hm hloaded

end Parts

/-! ## Steps and runs -/

/-- The system call of an event may set an entry of environment `e`. -/
def Event.Sets (k : Kernel) (ev : Event) (e i j : Nat) (new : Option U32) :
    Prop :=
  ∃ k₀ c call, ev.Serves k k₀ c call ∧ call.Sets k₀ c e i j new

/-- What holds in all states of a run of clean steps. -/
structure Sound (managed : Set Nat) (k : Kernel) : Prop where
  memory : Memory managed k
  loaded : Loaded k
  order : Orderly k
  outside : Outside k

/-- A system call is being served in a system that is in order. -/
structure Serving (managed : Set Nat) (c cur : Nat) (k : Kernel) : Prop where
  memory : Memory managed k
  loaded : Loaded k
  order : Orderly k
  inKernel : InKernel c k
  alive : NotDying c k
  curenv : k.curenv c = some cur

section Steps

variable {managed : Set Nat} {k k' k₀ : Kernel} {ev : Event} {c cur : Nat}
  {call : Call}

theorem samePages_traps : SamePages k (k.traps c) :=
  ⟨.refl k.vm, rfl, fun _ => rfl, fun _ => rfl, fun _ => rfl, fun _ => Iff.rfl⟩

theorem Loaded.traps (h : Loaded k) : Loaded (k.traps c) := by
  intro c' e he
  by_cases hc : c' = c
  · subst hc
    exact h c' e (traps_curenv.symm.trans he)
  · have hcur : (k.traps c).curenv c' = k.curenv c' := by
      unfold Kernel.curenv
      rw [traps_cpus_of_ne hc]
    exact h c' e (hcur.symm.trans he)

theorem samePages_enters : SamePages k (k.enters c) :=
  ⟨.refl k.vm, rfl, fun _ => rfl, fun _ => rfl, fun _ => rfl, fun _ => Iff.rfl⟩

theorem Loaded.enters (h : Loaded k) : Loaded (k.enters c) := by
  intro c' e he
  have hcur : (k.enters c).curenv c' = k.curenv c' := by
    unfold Kernel.curenv
    by_cases hc : c' = c
    · subst hc
      rw [enters_cpus_self]
    · rw [enters_cpus_of_ne hc]
  exact h c' e (hcur.symm.trans he)

/-- A clean step keeps memory, and changes entries as its call may. -/
theorem Event.maintained (h : Sound managed k) (hclean : ev.Clean k)
    (hstep : ev.step k = some k') : Maintained managed (ev.Sets k) k k' := by
  obtain ⟨hm, hl, ho, hout⟩ := h
  cases Event.step_cases (fun c hp => (ho.procs.halted c).mpr hp) hstep with
  | @start c _ _ hplace hy =>
      obtain ⟨ho₁, hin₁⟩ := ho.enters hout hplace
      have h₁ : Maintained managed (Event.Sets k (.start c)) k (k.enters c) :=
        samePages_enters.maintained hm hl.enters
      obtain ⟨hsame, hloaded⟩ := hy.samePages ho₁ hin₁ h₁.loaded
      exact h₁.trans_same hsame hloaded
  | @reap c cur tf io k₁ _ _ _ _ _ hdies hy =>
      obtain ⟨ho₁, hin₁⟩ := ho.traps (c := c) hout
      obtain ⟨ho₂, hin₂, -⟩ := ho₁.dies hin₁ hdies
      have hm₁ : Memory managed (k.traps c) :=
        hm.congr samePages_traps.mem samePages_traps.table
      have h₂ : Maintained managed (Event.Sets k (.trap c tf io)) k k₁ :=
        samePages_traps.trans_maintained (hdies.maintained hm₁ hl.traps ho₁)
      obtain ⟨hsame, hloaded⟩ := hy.samePages ho₂ hin₂ h₂.loaded
      exact h₂.trans_same hsame hloaded
  | @serve c cur tf io _ _ _ hcur hs hh =>
      obtain ⟨ho₁, hin₁⟩ := ho.traps (c := c) hout
      have hsave : SamePages (k.traps c) ((k.traps c).saveTf cur tf) :=
        samePages_edit rfl rfl rfl Iff.rfl
      have hm₁ : Memory managed ((k.traps c).saveTf cur tf) :=
        (hm.congr samePages_traps.mem samePages_traps.table).congr hsave.mem
          hsave.table
      have hl₁ : Loaded ((k.traps c).saveTf cur tf) := hl.traps.edit rfl
      have halive : NotDying c ((k.traps c).saveTf cur tf) := by
        refine NotDying.modifyEnv (fun e he => ?_) (Or.inl rfl)
        rw [traps_curenv] at he
        obtain rfl := Option.some.inj (hcur.symm.trans he)
        exact hs
      have h₁ := hh.maintained hm₁ hl₁ (ho₁.edit rfl rfl rfl rfl)
        (hin₁.congr ⟨rfl, rfl, rfl⟩) halive (traps_curenv.trans hcur)
        (fun call hsys hcall => hclean.fair _ c call (.trap hcur hs hsys hcall))
        (fun call hsys hcall => hclean.safe _ c call (.trap hcur hs hsys hcall))
      refine samePages_traps.trans_maintained (hsave.trans_maintained
        (h₁.mono ?_))
      rintro e i j new _ _ _ ⟨call, hsys, hcall, hset⟩
      exact ⟨_, c, call, .trap hcur hs hsys hcall, hset⟩
  | @wake c tf io k₁ _ _ _ hq hr =>
      obtain ⟨ho₁, hin₁⟩ := ho.traps (c := c) hout
      have hm₁ : Memory managed (k.traps c) :=
        hm.congr samePages_traps.mem samePages_traps.table
      have h₂ : Maintained managed (Event.Sets k (.interrupt c tf io)) k k₁ :=
        samePages_traps.trans_maintained
          (hq.samePages.maintained hm₁ (hl.traps.quiet hq))
      have ho₂ := ho₁.sameProcs hq.procs
      have hin₂ := hin₁.congr hq.procs.sameCpus
      rcases hr with hr | hy
      · obtain ⟨hsame, hloaded⟩ := hr.samePages ho₂ hin₂ h₂.loaded
        exact h₂.trans_same hsame hloaded
      · obtain ⟨hsame, hloaded⟩ := hy.samePages ho₂ hin₂ h₂.loaded
        exact h₂.trans_same hsame hloaded
  | @store c p va b _ hplace hp =>
      obtain ⟨cur, hcur, -⟩ := ho.procs.user c hplace
      have halt : Altered managed (fun _ _ _ _ => False) k _ :=
        (hm.userStore (hl.dir_mem ho hcur) hp (pgoff va) b).altered
      exact halt.maintained hl (fun _ _ _ _ _ _ => False.elim)
  | device hq => exact hq.samePages.maintained hm (hl.quiet hq)

/-- A clean step keeps the system sound. -/
theorem Event.sound (h : Sound managed k) (hclean : ev.Clean k)
    (hstep : ev.step k = some k') : Sound managed k' := by
  have hmaintained := ev.maintained h hclean hstep
  obtain ⟨ho, hout⟩ := ev.orderly h.order h.outside hclean.fair hstep
  exact ⟨hmaintained.memory, hmaintained.loaded, ho, hout⟩

theorem Booted.sound (h : Booted managed k) : Sound managed k := by
  obtain ⟨ho, hout⟩ := h.booting.orderly
  refine ⟨h.memory, fun c e he => ?_, ho, hout⟩
  rw [Kernel.curenv, h.booting.cpus c] at he
  exact absurd he (by simp)

/-- The system is sound throughout a run of clean steps. -/
theorem RunOf.sound {Ok : Kernel → Event → Prop}
    (hok : ∀ k ev, Ok k ev → ev.Clean k) (h : RunOf managed Ok k) :
    Sound managed k := by
  induction h with
  | boot hb => exact hb.sound
  | step ev _ hclean hstep ih => exact ev.sound ih (hok _ _ hclean) hstep

/-- From the state before a step to the state in which its call is served. -/
theorem Sound.serving (h : Sound managed k) (hserves : ev.Serves k k₀ c call)
    (hcur : k.curenv c = some cur) :
    SamePages k k₀ ∧ Serving managed c cur k₀ := by
  cases hserves with
  | @trap _ cur' tf io _ hcur' hdying _ _ =>
      obtain rfl := Option.some.inj (hcur.symm.trans hcur')
      obtain ⟨ho₁, hin₁⟩ := h.order.traps (c := c) h.outside
      have hsave : SamePages (k.traps c) ((k.traps c).saveTf cur tf) :=
        samePages_edit rfl rfl rfl Iff.rfl
      have hm₁ := h.memory.congr (samePages_traps (c := c)).mem
        samePages_traps.table
      refine ⟨samePages_traps.trans hsave, hm₁.congr hsave.mem hsave.table, h.loaded.traps.edit rfl,
        ho₁.edit rfl rfl rfl rfl, hin₁.congr ⟨rfl, rfl, rfl⟩, ?_,
        traps_curenv.trans hcur⟩
      refine NotDying.modifyEnv (fun e he => ?_) (Or.inl rfl)
      rw [traps_curenv] at he
      obtain rfl := Option.some.inj (hcur.symm.trans he)
      exact hdying

/-- A trap is clean if the call that it makes is fair and safe when the frame of
the caller has been saved. -/
theorem trap_clean {tf : Trapframe} {io : Inputs} (hcall : tf.call = some call)
    (hfair : ∀ cur, k.curenv c = some cur →
      call.Fair ((k.traps c).saveTf cur tf) c)
    (hsafe : ∀ cur, k.curenv c = some cur →
      call.Safe ((k.traps c).saveTf cur tf) c) :
    (Event.trap c tf io).Clean k := by
  constructor
  · intro k₀ c₀ call₀ hserves
    cases hserves with
    | trap hcur _ _ hcall₀ =>
        obtain rfl := Option.some.inj (hcall.symm.trans hcall₀)
        exact hfair _ hcur
  · intro k₀ c₀ call₀ hserves
    cases hserves with
    | trap hcur _ _ hcall₀ =>
        obtain rfl := Option.some.inj (hcall.symm.trans hcall₀)
        exact hsafe _ hcur

/-- A call that concerns pages only is fair. -/
theorem Call.fair_of_page (hno : call.no = .pageAlloc ∨ call.no = .pageMap ∨
    call.no = .pageUnmap) : call.Fair k c := by
  have habsurd : ∀ {no : SyscallNo} {P : Prop}, call.no = no →
      ¬ (no = .pageAlloc ∨ no = .pageMap ∨ no = .pageUnmap) → P :=
    fun h hnot => absurd (h ▸ hno) hnot
  intro op hop
  cases hop with
  | envDestroy h _ => exact habsurd h (by decide)
  | exofork h _ => exact habsurd h (by decide)
  | setStatus h _ _ => exact habsurd h (by decide)
  | setTrapframe h _ => exact habsurd h (by decide)
  | setUpcall h _ => exact habsurd h (by decide)
  | ipcTrySend h _ _ => exact habsurd h (by decide)

end Steps

end Jos
