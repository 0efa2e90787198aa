import Jos.Sound
import Mathlib.Logic.Relation

/-!
# Steps as sequences of changes

`Change` lists what one processor does to the machine between entering the
kernel and leaving it, one thing at a time, each with what is known of memory
when it is done.  A clean step is a sequence of such changes (`Event.changes`).

So a relation that holds across every change and composes holds across every
clean step (`Event.step_induction`), and its proof looks at eleven changes and
not at the ways in which a trap can end.
-/

namespace Jos

open Programs RefPool

/-- An edit of an environment's record that leaves its slot as it was. -/
structure KeepsSlot (f : Env → Env) (v : Env) : Prop where
  link : (f v).envLink = v.envLink
  pgdir : (f v).envPgdir = v.envPgdir
  id : (f v).envId = v.envId
  free : (f v).envStatus = .free ↔ v.envStatus = .free

/-- One change by processor `c`. -/
inductive Change (managed : Set Nat) (c : Nat) (k : Kernel) : Kernel → Prop where
  | quiet {k' : Kernel} : Quiet k k' → Change managed c k k'
  /-- The processor enters the kernel. -/
  | enter : Change managed c k (k.enters c)
  | setCpuStatus (status : CpuStatus) :
      Change managed c k (k.setCpuStatus c status)
  | edit (e : Nat) (f : Env → Env) :
      KeepsSlot f (k.envs e) → Change managed c k (k.modifyEnv e f)
  /-- An operation on address spaces, or on what they map. -/
  | vm (op : VmOp) {k' : Kernel} :
      Memory managed k → k.vm.cr3 c ∈ envDirs k → op.Valid k → op.Safe k c →
      op.Does c k k' → Change managed c k k'
  | envAlloc (e p : Nat) (vm : PhysMem) (free : List Nat) (parentId : U32) :
      Memory managed k → k.envFreeList = some e →
      DirAdded managed free ∅ (envDirs k) p k.vm vm →
      Change managed c k (k.allocated vm e p parentId)
  | envFree (e d : Nat) {k' : Kernel} :
      Memory managed k → e < nenv → (k.envs e).envPgdir = some d →
      Freed managed ∅ c e d k k' → Change managed c k k'
  | dropCurenv : Change managed c k (k.setCurenv c none)
  /-- `env_run`. -/
  | dispatch (e d : Nat) :
      (k.envs e).envStatus ≠ .free → (k.envs e).envPgdir = some d →
      Change managed c k (k.dispatched c e d)
  /-- `sched_halt`. -/
  | halt : Change managed c k (k.haltedOn c)
  /-- User code stores a byte. -/
  | store (va : U32) (b : U8) (p : Nat) :
      Memory managed k → k.vm.cr3 c ∈ envDirs k →
      k.vm.userPage (k.vm.cr3 c) va true = some p →
      Change managed c k (k.setVm (k.vm.setByte p (pgoff va) b))

/-- Changes by processor `c`, one after the other. -/
abbrev Changes (managed : Set Nat) (c : Nat) : Kernel → Kernel → Prop :=
  Relation.ReflTransGen (Change managed c)

section Changes

variable {managed : Set Nat} {k k' k₁ : Kernel} {c cur : Nat} {io : Inputs}
  {tf : Trapframe} {call : Call}

theorem changes_traps : Changes managed c k (k.traps c) :=
  (Relation.ReflTransGen.single .enter).tail (.setCpuStatus .started)

theorem Quiet.changes (h : Quiet k k') : Changes managed c k k' :=
  .single (.quiet h)

theorem changes_edit {e : Nat} {f : Env → Env} (h : KeepsSlot f (k.envs e)) :
    Changes managed c k (k.modifyEnv e f) :=
  .single (.edit e f h)

/-- However `sched_yield` ends. -/
theorem Yields.changes (hy : Yields k c k') (ho : Orderly k)
    (hin : InKernel c k) : Changes managed c k k' := by
  cases hy with
  | dispatch j d hpick hd =>
      refine .single (.dispatch j d ?_ hd)
      rcases hpick.status with hs | hcur
      · rw [hs]
        decide
      · exact ho.procs.kernel c j hin.here hcur
  | halt _ _ _ => exact .single .halt

theorem Resumes.changes (hr : Resumes c k k') (ho : Orderly k)
    (hin : InKernel c k) : Changes managed c k k' := by
  cases hr with
  | same cur d hcur _ hd hk =>
      rw [hk]
      exact .single (.dispatch cur d (ho.procs.kernel c cur hin.here hcur) hd)
  | other _ hy => exact hy.changes ho hin

/-- The part of a system call that concerns memory. -/
theorem VmServed.changes (hs : VmServed c (call.AsksVm k c) k k')
    (hm : Memory managed k) (hl : Loaded k) (ho : Orderly k)
    (hin : InKernel c k) (hcur : k.curenv c = some cur)
    (hsafe : call.Safe k c) : Changes managed c k k' := by
  cases hs with
  | quiet hq => exact hq.changes
  | op op k₁ hop hdoes hq =>
      exact (Relation.ReflTransGen.single (.vm op hm (hl.dir_mem ho hcur)
        (hop.valid ho hin) (hsafe op hop) hdoes)).tail (.quiet hq)

/-- The part that concerns the table of environments. -/
theorem EnvOp.Does.changes {op : EnvOp} (hop : op.Does c cur k k')
    (hm : Memory managed k) (hv : op.Valid k) : Changes managed c k k' := by
  cases op with
  | setTf e tf =>
      obtain rfl := hop
      exact changes_edit ⟨rfl, rfl, rfl, Iff.rfl⟩
  | setUpcall e func =>
      obtain rfl := hop
      exact changes_edit ⟨rfl, rfl, rfl, Iff.rfl⟩
  | setStatus e st =>
      obtain rfl := hop
      refine changes_edit ⟨rfl, rfl, rfl, fun hh => ?_, fun hh => absurd hh hv.1.2⟩
      rcases hv.2 with rfl | rfl <;> exact absurd hh (by simp)
  | fork e =>
      obtain ⟨k₁, hrun, rfl⟩ := hop
      obtain ⟨free, hacc⟩ := hm.books.accounted
      rcases (envAlloc_returns hacc hm.books.kernDir _).value hrun with
        ⟨-, hr, -⟩ | ⟨-, -, hr, -⟩ | ⟨e', p, free', vm, hlist, -, hr, rfl, hadd⟩
      · exact absurd hr (by simp)
      · exact absurd hr (by simp)
      obtain rfl : e = e' := by
        simpa using hr
      have halloc : Change managed c k (k.allocated vm e p (k.envs cur).envId) :=
        .envAlloc e p vm free' _ hm hlist hadd
      refine (Relation.ReflTransGen.single halloc).trans
        (changes_edit ⟨rfl, rfl, rfl, ?_⟩)
      rw [allocated_envs_self]
      simp [freshEnv]
  | kill e =>
      obtain ⟨-, ⟨hrun, rfl⟩ | ⟨-, hfree⟩⟩ := hop
      · refine changes_edit ⟨rfl, rfl, rfl, ?_⟩
        simp [hrun]
      · obtain ⟨d, hd, hfreed⟩ := hm.envFree hv.1 hfree
        exact .single (.envFree e d hm hv.1 hd hfreed)
  | deliver rcv value perm =>
      obtain rfl := hop
      refine changes_edit ⟨?_, ?_, ?_, fun hh => absurd hh (by simp [Env.deliver]),
        fun hh => absurd hh hv.2⟩
      all_goals cases perm <;> rfl

theorem Dies.changes (hdies : Dies c cur k k') (hm : Memory managed k)
    (ho : Orderly k) : Changes managed c k k' := by
  obtain ⟨k₁, hcur, hrun, rfl⟩ := hdies
  have he := ho.procs.slot c cur hcur
  obtain ⟨d, hd, hfreed⟩ := hm.envFree he hrun
  exact (Relation.ReflTransGen.single (.envFree cur d hm he hd hfreed)).tail
    .dropCurenv

theorem Served.changes
    (hs : Served c cur (call.AsksVm k c) (call.AsksEnv k c) k k')
    (hm : Memory managed k) (hl : Loaded k) (ho : Orderly k)
    (hin : InKernel c k) (hcur : k.curenv c = some cur)
    (hsafe : call.Safe k c) : Changes managed c k k' := by
  cases hs with
  | memory hvm => exact hvm.changes hm hl ho hin hcur hsafe
  | envs op k₁ hvm hop hdoes =>
      have h₁ := hvm.maintained hm hl ho hin hcur hsafe
      exact (hvm.changes hm hl ho hin hcur hsafe).trans
        (hdoes.changes h₁.memory ((hop.valid ho.procs hin).congr hvm.sameProcs))

theorem Leaves.changes (hleave : Leaves c cur k k') (hm : Memory managed k)
    (ho : Orderly k) (hin : InKernel c k)
    (hcur : k.curenv c = some cur) : Changes managed c k k' := by
  cases hleave with
  | dies k₁ k₂ hq hdies hy =>
      have hm₁ := hm.congr hq.samePages.mem hq.samePages.table
      have ho₁ := ho.sameProcs hq.procs
      obtain ⟨ho₂, hin₂, -⟩ := ho₁.dies (hin.congr hq.procs.sameCpus) hdies
      exact (hq.changes.trans (hdies.changes hm₁ ho₁)).trans
        (hy.changes ho₂ hin₂)
  | waits dstva hy =>
      have hlive := ho.owned_live hcur
      have ho₁ : Orderly (k.blocked cur dstva) :=
        ho.editStatus (e := cur) hin ⟨ho.procs.slot c cur hcur, hlive⟩
          (fun hr => absurd hr (by simp)) rfl rfl rfl (Or.inr rfl)
      have hedit : Changes managed c k (k.blocked cur dstva) :=
        changes_edit ⟨rfl, rfl, rfl, fun hh => absurd hh (by simp),
          fun hh => absurd hh hlive⟩
      exact hedit.trans (hy.changes ho₁ (hin.congr ⟨rfl, rfl, rfl⟩))
  | yields k₁ hq hy =>
      exact hq.changes.trans (hy.changes (ho.sameProcs hq.procs)
        (hin.congr hq.procs.sameCpus))

/-- A trap of user code, once its frame is saved. -/
theorem Handled.changes (hh : Handled io c cur tf k k') (hm : Memory managed k)
    (hl : Loaded k) (ho : Orderly k) (hin : InKernel c k)
    (halive : NotDying c k) (hcur : k.curenv c = some cur)
    (hf : ∀ call, tf.tfTrapno = tSyscall → tf.call = some call → call.Fair k c)
    (hsafe : ∀ call, tf.tfTrapno = tSyscall → tf.call = some call →
      call.Safe k c) : Changes managed c k k' := by
  have hresult : ∀ (k₁ : Kernel) (r : Int), Orderly k₁ → InKernel c k₁ →
      Resumes c (k₁.result cur r) k' → Changes managed c k₁ k' := by
    intro k₁ r ho₁ hin₁ hr
    exact (changes_edit ⟨rfl, rfl, rfl, Iff.rfl⟩).trans
      (hr.changes (ho₁.edit rfl rfl rfl rfl) (hin₁.congr ⟨rfl, rfl, rfl⟩))
  cases hh with
  | returns call r k₁ hsys hcall _ hs hr =>
      obtain ⟨ho₁, -⟩ := hs.orderly ho hin halive (hf call hsys hcall)
      exact (hs.changes hm hl ho hin hcur (hsafe call hsys hcall)).trans
        (hresult k₁ r ho₁ (hin.congr hs.sameCpus) hr)
  | leaves call _ _ _ hleave => exact hleave.changes hm ho hin hcur
  | badCall _ _ hr => exact hresult k _ ho hin hr
  | fault utr words k₁ k₂ d _ hutr hwords hq hpush hd hk =>
      have hm₁ := hm.congr hq.samePages.mem hq.samePages.table
      have hcur₁ : k₁.curenv c = some cur := hq.procs.curenv.trans hcur
      have hvalid : (VmOp.pushFrame utr words).Valid k₁ := by
        rw [hutr, hwords]
        exact pushFrame_valid k₁ io.cr2 tf
      have hp := hq.procs.trans hpush.sameProcs
      have hstore : Change managed c k₁ k₂ :=
        .vm (.pushFrame utr words) hm₁
          ((hl.quiet hq).dir_mem (ho.sameProcs hq.procs) hcur₁) hvalid trivial hpush
      have hedit : Changes managed c k₂ (k₂.redirect cur utr) :=
        changes_edit ⟨rfl, rfl, rfl, Iff.rfl⟩
      have hrun : Change managed c (k₂.redirect cur utr) k' := by
        rw [hk]
        refine .dispatch cur d ?_ ?_
        · simp only [Kernel.redirect, Kernel.modifyEnv_envs_self]
          rw [hp.envs]
          exact ho.owned_live hcur
        · simp only [Kernel.redirect, Kernel.modifyEnv_envs_self]
          rw [hp.envs]
          exact hd
      exact ((hq.changes.tail hstore).trans hedit).tail hrun
  | gone _ hleave => exact hleave.leaves.changes hm ho hin hcur
  | ignored _ hr => exact hr.changes ho hin

end Changes

section Steps

variable {managed : Set Nat} {k k' : Kernel} {ev : Event}

/-- A clean step is a sequence of changes. -/
theorem Event.changes (h : Sound managed k) (hclean : ev.Clean k)
    (hstep : ev.step k = some k') : ∃ c, Changes managed c k k' := by
  obtain ⟨hm, hl, ho, hout⟩ := h
  cases Event.step_cases (fun c hp => (ho.procs.halted c).mpr hp) hstep with
  | @start c _ _ hplace hy =>
      obtain ⟨ho₁, hin₁⟩ := ho.enters hout hplace
      exact ⟨c, (Relation.ReflTransGen.single .enter).trans
        (hy.changes ho₁ hin₁)⟩
  | @reap c cur tf io k₁ _ _ _ _ _ hdies hy =>
      obtain ⟨ho₁, hin₁⟩ := ho.traps (c := c) hout
      obtain ⟨ho₂, hin₂, -⟩ := ho₁.dies hin₁ hdies
      have hm₁ : Memory managed (k.traps c) :=
        hm.congr samePages_traps.mem samePages_traps.table
      exact ⟨c, (changes_traps.trans (hdies.changes hm₁ ho₁)).trans
        (hy.changes ho₂ hin₂)⟩
  | @serve c cur tf io _ _ _ hcur hs hh =>
      obtain ⟨ho₁, hin₁⟩ := ho.traps (c := c) hout
      have hsave : SamePages (k.traps c) ((k.traps c).saveTf cur tf) :=
        samePages_edit rfl rfl rfl Iff.rfl
      have hm₁ : Memory managed ((k.traps c).saveTf cur tf) :=
        (hm.congr samePages_traps.mem samePages_traps.table).congr hsave.mem
          hsave.table
      have halive : NotDying c ((k.traps c).saveTf cur tf) := by
        refine NotDying.modifyEnv (fun e he => ?_) (Or.inl rfl)
        rw [traps_curenv] at he
        obtain rfl := Option.some.inj (hcur.symm.trans he)
        exact hs
      have hedit : Changes managed c (k.traps c) ((k.traps c).saveTf cur tf) :=
        changes_edit ⟨rfl, rfl, rfl, Iff.rfl⟩
      exact ⟨c, (changes_traps.trans hedit).trans
        (hh.changes hm₁ (hl.traps.edit rfl) (ho₁.edit rfl rfl rfl rfl)
          (hin₁.congr ⟨rfl, rfl, rfl⟩) halive (traps_curenv.trans hcur)
          (fun call hsys hcall => hclean.fair _ c call (.trap hcur hs hsys hcall))
          (fun call hsys hcall => hclean.safe _ c call (.trap hcur hs hsys hcall)))⟩
  | @wake c tf io k₁ _ _ _ hq hr =>
      obtain ⟨ho₁, hin₁⟩ := ho.traps (c := c) hout
      have ho₂ := ho₁.sameProcs hq.procs
      have hin₂ := hin₁.congr hq.procs.sameCpus
      have hend : Changes managed c k₁ k' :=
        hr.elim (fun hr => hr.changes ho₂ hin₂) (fun hy => hy.changes ho₂ hin₂)
      exact ⟨c, (changes_traps.trans hq.changes).trans hend⟩
  | @store c p va b _ hplace hp =>
      obtain ⟨cur, hcur, -⟩ := ho.procs.user c hplace
      exact ⟨c, .single (.store va b p hm (hl.dir_mem ho hcur) hp)⟩
  | device hq => exact ⟨0, hq.changes⟩

/-- What holds across each change, and composes, holds across a clean step. -/
theorem Event.step_induction {R : Kernel → Kernel → Prop}
    (hrefl : ∀ k, R k k) (htrans : ∀ k k₁ k₂, R k k₁ → R k₁ k₂ → R k k₂)
    (hchange : ∀ c k k', Change managed c k k' → R k k')
    (h : Sound managed k) (hclean : ev.Clean k) (hstep : ev.step k = some k') :
    R k k' := by
  obtain ⟨c, hchanges⟩ := ev.changes h hclean hstep
  clear hstep hclean h
  induction hchanges with
  | refl => exact hrefl k
  | tail _ hlast ih => exact htrans _ _ _ ih (hchange c _ _ hlast)

end Steps

end Jos
