import Jos.Processors

/-!
# Steps that keep order

The operations of the kernel, one by one, and from them a whole step: if the
system call it serves is fair to the other processors, the environment table
and the processors are in order again after it.  A call is fair if it neither
makes an environment runnable nor frees one while another processor has it.
The code checks this in `env_destroy` for an environment that is running, and
nowhere else.
-/

namespace Jos

open Programs

/-- Some processor other than `c` has environment `e`. -/
def Kernel.OwnedElsewhere (k : Kernel) (c e : Nat) : Prop :=
  ∃ c', c' ≠ c ∧ k.curenv c' = some e

/-- An operation does not make runnable, nor free, an environment that another
processor has. -/
def EnvOp.Fair (k : Kernel) (c : Nat) : EnvOp → Prop
  | setTf _ _ => True
  | setUpcall _ _ => True
  | setStatus e st => st = .runnable → ¬ k.OwnedElsewhere c e
  | fork _ => True
  | kill e => (k.envs e).envStatus ≠ .running → ¬ k.OwnedElsewhere c e
  | deliver rcv _ _ => ¬ k.OwnedElsewhere c rcv

/-- A system call is fair if all it may do is. -/
def Call.Fair (k : Kernel) (c : Nat) (call : Call) : Prop :=
  ∀ op, call.AsksEnv k c op → op.Fair k c

/-- The system call of an event, if there is one, is fair. -/
def Event.Fair (k : Kernel) (ev : Event) : Prop :=
  ∀ k₀ c call, ev.Serves k k₀ c call → call.Fair k₀ c

/-- What `envid2env` has checked of the target of an operation. -/
def EnvOp.Valid (k : Kernel) : EnvOp → Prop
  | setTf e _ => k.Live e
  | setUpcall e _ => k.Live e
  | setStatus e st => k.Live e ∧ (st = .runnable ∨ st = .notRunnable)
  | fork _ => True
  | kill e => k.Live e
  | deliver rcv _ _ => k.Live rcv

section Operations

variable {k k' k₁ : Kernel} {c cur e : Nat}

theorem envOf_live {envid : U32} {checkperm : Bool}
    (h : Procs k) (hin : InKernel c k)
    (he : k.envOf c envid checkperm = some e) : k.Live e := by
  rcases envOf_cases he with hcur | ⟨rfl, hfree, -, -⟩
  · exact ⟨h.slot c e hcur, h.kernel c e hin.here hcur⟩
  · exact ⟨envx_lt envid, hfree⟩

theorem Call.AsksEnv.valid {call : Call} {op : EnvOp}
    (h : Procs k) (hin : InKernel c k) (hop : call.AsksEnv k c op) :
    op.Valid k := by
  cases hop with
  | envDestroy _ he => exact envOf_live h hin he
  | exofork _ _ => exact trivial
  | setStatus _ he hst => exact ⟨envOf_live h hin he, hst⟩
  | setTrapframe _ he => exact envOf_live h hin he
  | setUpcall _ he => exact envOf_live h hin he
  | ipcTrySend _ he _ => exact envOf_live h hin he

/-- Validity and fairness do not depend on memory. -/
theorem EnvOp.Valid.congr {op : EnvOp} (h : op.Valid k)
    (hp : SameProcs k k₁) : op.Valid k₁ := by
  have hlive : ∀ e, k.Live e → k₁.Live e := fun e he => by
    unfold Kernel.Live
    rw [hp.envs]
    exact he
  cases op with
  | setTf e tf => exact hlive e h
  | setUpcall e func => exact hlive e h
  | setStatus e st => exact ⟨hlive e h.1, h.2⟩
  | fork e => trivial
  | kill e => exact hlive e h
  | deliver rcv value perm => exact hlive rcv h

theorem SameProcs.ownedElsewhere (hp : SameProcs k k₁) :
    k₁.OwnedElsewhere c e ↔ k.OwnedElsewhere c e := by
  unfold Kernel.OwnedElsewhere Kernel.curenv
  rw [hp.cpus]

theorem EnvOp.Fair.congr {op : EnvOp} (h : op.Fair k c)
    (hp : SameProcs k k₁) : op.Fair k₁ c := by
  cases op with
  | setTf e tf => trivial
  | setUpcall e func => trivial
  | setStatus e st =>
      intro hst
      rw [hp.ownedElsewhere]
      exact h hst
  | fork e => trivial
  | kill e =>
      intro hrun
      rw [hp.envs] at hrun
      rw [hp.ownedElsewhere]
      exact h hrun
  | deliver rcv value perm => exact fun ho => h (hp.ownedElsewhere.mp ho)

theorem not_ownedElsewhere (h : ¬ k.OwnedElsewhere c e) :
    ∀ c', c' ≠ c → k.curenv c' ≠ some e := fun c' hc he => h ⟨c', hc, he⟩

/-- Nothing but the status of slots and their order matters. -/
theorem Orderly.congr (h : Orderly k) (hcpus : k'.cpus = k.cpus)
    (ht : SameTable k k')
    (hst : ∀ e, (k'.envs e).envStatus = (k.envs e).envStatus) : Orderly k' :=
  ⟨h.slots.congr ht, h.procs.congr hcpus hst⟩

theorem Orderly.sameProcs (h : Orderly k) (hp : SameProcs k k') :
    Orderly k' := by
  refine h.congr hp.cpus ⟨hp.envFreeList, ?_, ?_, ?_, ?_⟩ ?_
  all_goals
    intro e
    rw [hp.envs]

/-- One environment is edited, and keeps its slot. -/
theorem sameTable_modifyEnv {f : Env → Env}
    (hlink : (f (k.envs e)).envLink = (k.envs e).envLink)
    (hpgdir : (f (k.envs e)).envPgdir = (k.envs e).envPgdir)
    (hid : (f (k.envs e)).envId = (k.envs e).envId)
    (hfree : (f (k.envs e)).envStatus = .free ↔ (k.envs e).envStatus = .free) :
    SameTable k (k.modifyEnv e f) := by
  have hcases : ∀ e', (k.modifyEnv e f).envs e' =
      if e' = e then f (k.envs e) else k.envs e' := by
    intro e'
    by_cases he : e' = e
    · subst he
      simp
    · rw [Kernel.modifyEnv_envs_of_ne he, if_neg he]
  refine ⟨rfl, ?_, ?_, ?_, ?_⟩
  all_goals
    intro e'
    rw [hcases e']
    split
    · rename_i he
      subst he
      assumption
    · rfl

/-- An edit that concerns neither the slot nor the status. -/
theorem Orderly.edit {f : Env → Env} (h : Orderly k)
    (hlink : (f (k.envs e)).envLink = (k.envs e).envLink)
    (hpgdir : (f (k.envs e)).envPgdir = (k.envs e).envPgdir)
    (hid : (f (k.envs e)).envId = (k.envs e).envId)
    (hst : (f (k.envs e)).envStatus = (k.envs e).envStatus) :
    Orderly (k.modifyEnv e f) := by
  refine h.congr rfl (sameTable_modifyEnv hlink hpgdir hid (by rw [hst])) ?_
  intro e'
  by_cases he : e' = e
  · subst he
    rw [Kernel.modifyEnv_envs_self, hst]
  · rw [Kernel.modifyEnv_envs_of_ne he]

/-- An edit that makes an environment of no other processor runnable, or any
environment not runnable. -/
theorem Orderly.editStatus {f : Env → Env} (h : Orderly k) (hin : InKernel c k)
    (hlive : k.Live e)
    (hothers : (f (k.envs e)).envStatus = .runnable → ¬ k.OwnedElsewhere c e)
    (hlink : (f (k.envs e)).envLink = (k.envs e).envLink)
    (hpgdir : (f (k.envs e)).envPgdir = (k.envs e).envPgdir)
    (hid : (f (k.envs e)).envId = (k.envs e).envId)
    (hst : (f (k.envs e)).envStatus = .runnable ∨
      (f (k.envs e)).envStatus = .notRunnable) :
    Orderly (k.modifyEnv e f) := by
  have hne : (f (k.envs e)).envStatus ≠ .free ∧
      (f (k.envs e)).envStatus ≠ .running ∧
      (f (k.envs e)).envStatus ≠ .dying := by
    rcases hst with hs | hs <;> rw [hs] <;> decide
  refine ⟨h.slots.congr (sameTable_modifyEnv hlink hpgdir hid
    ⟨fun hh => absurd hh hne.1, fun hh => absurd hh hlive.2⟩), ?_⟩
  refine h.procs.setStatus hin rfl
    (fun e' he => by rw [Kernel.modifyEnv_envs_of_ne he]) ?_ ?_ ?_ ?_
  · rw [Kernel.modifyEnv_envs_self]
    exact hst.symm.imp_right (fun hr => not_ownedElsewhere (hothers hr))
  · rw [Kernel.modifyEnv_envs_self]
    exact hne.2.1
  · rw [Kernel.modifyEnv_envs_self]
    exact hne.2.2
  · rw [Kernel.modifyEnv_envs_self]
    exact fun _ => hne.1

/-- An environment that no processor has is freed. -/
theorem Orderly.freed {vm : PhysMem} {d : Nat} (h : Orderly k)
    (hin : InKernel c k) (he : e < nenv) (hd : (k.envs e).envPgdir = some d)
    (hcur : k.curenv c ≠ some e) (hothers : ¬ k.OwnedElsewhere c e) :
    Orderly (k.freed vm e) := by
  have hstatus : ((k.freed vm e).envs e).envStatus = .free := by
    rw [freed_envs_self]
  refine ⟨h.slots.release he hd, h.procs.setStatus hin rfl
    (fun e' hne => by rw [freed_envs_of_ne hne])
    (Or.inr (not_ownedElsewhere hothers)) ?_ ?_ (fun hh => absurd hh hcur)⟩
  · rw [hstatus]
    decide
  · rw [hstatus]
    decide

/-- The current environment is freed, and the processor has none. -/
theorem Orderly.dies (h : Orderly k) (hin : InKernel c k)
    (hdies : Dies c cur k k') :
    Orderly k' ∧ InKernel c k' ∧ NotDying c k' := by
  obtain ⟨k₁, hcur, hrun, rfl⟩ := hdies
  obtain ⟨d, vm, hd, rfl⟩ := envFree_ret hrun
  have he := h.procs.slot c cur hcur
  have hself : ((k.freed vm cur).setCurenv c none).curenv c = none := by
    simp [Kernel.setCurenv, Kernel.curenv]
  have hcurof : ∀ c', c' ≠ c →
      ((k.freed vm cur).setCurenv c none).curenv c' = k.curenv c' := by
    intro c' hc
    simp [Kernel.setCurenv, Kernel.curenv, Kernel.modifyCpu_cpus_of_ne hc,
      Kernel.freed, Kernel.setEnv, Kernel.setVm]
  have hplace : ∀ c', (((k.freed vm cur).setCurenv c none).cpus c').place =
      (k.cpus c').place := by
    intro c'
    by_cases hc : c' = c
    · subst hc
      simp [Kernel.setCurenv, Kernel.freed, Kernel.setEnv, Kernel.setVm]
    · simp [Kernel.setCurenv, Kernel.modifyCpu_cpus_of_ne hc, Kernel.freed,
        Kernel.setEnv, Kernel.setVm]
  have hstatus : ∀ c', (((k.freed vm cur).setCurenv c none).cpus c').cpuStatus =
      (k.cpus c').cpuStatus := by
    intro c'
    by_cases hc : c' = c
    · subst hc
      simp [Kernel.setCurenv, Kernel.freed, Kernel.setEnv, Kernel.setVm]
    · simp [Kernel.setCurenv, Kernel.modifyCpu_cpus_of_ne hc, Kernel.freed,
        Kernel.setEnv, Kernel.setVm]
  have hrest : ∀ e', e' ≠ cur →
      ((k.freed vm cur).setCurenv c none).envs e' = k.envs e' :=
    fun e' hne => freed_envs_of_ne hne
  have hfree : (((k.freed vm cur).setCurenv c none).envs cur).envStatus = .free :=
    congrArg Env.envStatus freed_envs_self
  have hof : ∀ c' e, ((k.freed vm cur).setCurenv c none).curenv c' = some e →
      c' ≠ c ∧ k.curenv c' = some e ∧ e ≠ cur := by
    intro c' e he'
    by_cases hc : c' = c
    · rw [hc, hself] at he'
      exact absurd he' (by simp)
    · rw [hcurof c' hc] at he'
      refine ⟨hc, he', fun hh => hc ?_⟩
      exact h.procs.inj c' c e he' (hh ▸ hcur)
  have hslots : Slots (k.freed vm cur) := h.slots.release he hd
  refine ⟨⟨⟨hslots.freeChain, hslots.pgdir_none, hslots.id_slot⟩,
    ?_, ?_, ?_, ?_, ?_, ?_, ?_, ?_⟩, ?_, ?_⟩
  · intro c' e he'
    exact h.procs.slot c' e (hof c' e he').2.1
  · intro c' hp
    rw [hplace] at hp
    obtain ⟨e, he', hs⟩ := h.procs.user c' hp
    have hc : c' ≠ c := by
      rintro rfl
      rw [hin.here] at hp
      exact absurd hp (by decide)
    refine ⟨e, (hcurof c' hc).trans he', ?_⟩
    rwa [hrest e (fun hh => hc (h.procs.inj c' c e he' (hh ▸ hcur)))]
  · intro c' e hp he'
    obtain ⟨hc, he', hne⟩ := hof c' e he'
    rw [hplace] at hp
    exact absurd (hin.alone c' hp) hc
  · intro c' hp
    rw [hplace] at hp
    by_cases hc : c' = c
    · rw [hc]
      exact hself
    · exact (hcurof c' hc).trans (h.procs.off c' hp)
  · intro c₁ c₂ e h₁ h₂
    exact h.procs.inj c₁ c₂ e (hof c₁ e h₁).2.1 (hof c₂ e h₂).2.1
  · intro e he' hs
    have hne : e ≠ cur := by
      rintro rfl
      rw [hfree] at hs
      exact absurd hs (by decide)
    rw [hrest e hne] at hs
    obtain ⟨c', hc'⟩ := h.procs.running e he' hs
    have hc : c' ≠ c := by
      rintro rfl
      exact hne (Option.some.inj (hc'.symm.trans hcur))
    exact ⟨c', (hcurof c' hc).trans hc'⟩
  · intro e he' hs
    have hne : e ≠ cur := by
      rintro rfl
      rw [hfree] at hs
      exact absurd hs (by decide)
    rw [hrest e hne] at hs
    obtain ⟨c', hc'⟩ := h.procs.dying e he' hs
    have hc : c' ≠ c := by
      rintro rfl
      exact hne (Option.some.inj (hc'.symm.trans hcur))
    exact ⟨c', (hcurof c' hc).trans hc'⟩
  · intro c'
    rw [hplace, hstatus]
    exact h.procs.halted c'
  · refine ⟨hin.lock, (hplace c).trans hin.here, fun c' hp => ?_⟩
    exact hin.alone c' ((hplace c').symm.trans hp)
  · intro e he'
    rw [hself] at he'
    exact absurd he' (by simp)

/-- The environment of processor `c` keeps a status it may have. -/
theorem NotDying.congr (h : NotDying c k) (hcur : k'.curenv c = k.curenv c)
    (hst : ∀ e, k.curenv c = some e →
      (k'.envs e).envStatus = (k.envs e).envStatus ∨
      (k'.envs e).envStatus ≠ .dying) : NotDying c k' := by
  intro e he
  rw [hcur] at he
  rcases hst e he with hs | hs
  · rw [hs]
    exact h e he
  · exact hs

theorem NotDying.modifyEnv {f : Env → Env} (h : NotDying c k)
    (hst : (f (k.envs e)).envStatus = (k.envs e).envStatus ∨
      (f (k.envs e)).envStatus ≠ .dying) : NotDying c (k.modifyEnv e f) := by
  refine h.congr rfl (fun e' _ => ?_)
  by_cases he : e' = e
  · subst he
    rw [Kernel.modifyEnv_envs_self]
    exact hst
  · rw [Kernel.modifyEnv_envs_of_ne he]
    exact Or.inl rfl

theorem NotDying.sameProcs (h : NotDying c k) (hp : SameProcs k k') :
    NotDying c k' :=
  h.congr hp.curenv (fun e _ => Or.inl (by rw [hp.envs]))

/-- A new environment, not yet runnable, in a slot that nobody had. -/
theorem Orderly.fork {p : Nat} {vm : PhysMem} {parentId : U32} {tf : Trapframe}
    (h : Orderly k) (hin : InKernel c k) (hlist : k.envFreeList = some e) :
    Orderly ((k.allocated vm e p parentId).asChild e tf) ∧
      k.curenv c ≠ some e := by
  obtain ⟨he, hfree, -, -⟩ := h.slots.head_free hlist
  have hcur : k.curenv c ≠ some e := fun hh =>
    h.procs.kernel c e hin.here hh hfree
  have hstatus : (((k.allocated vm e p parentId).asChild e tf).envs e).envStatus =
      .notRunnable := by
    simp [Kernel.asChild]
  refine ⟨⟨(h.slots.alloc hlist).congr (sameTable_modifyEnv rfl rfl rfl ?_), ?_⟩,
    hcur⟩
  · rw [allocated_envs_self, freshEnv]
    exact ⟨fun hh => absurd hh (by simp), fun hh => absurd hh (by simp)⟩
  · refine h.procs.setStatus (e := e) hin rfl (fun e' hne => ?_)
      (Or.inl hstatus) ?_ ?_ (fun hh => absurd hh hcur)
    · rw [Kernel.asChild, Kernel.modifyEnv_envs_of_ne hne,
        allocated_envs_of_ne hne]
    · rw [hstatus]
      decide
    · rw [hstatus]
      decide

/-- Every operation on the table that is fair keeps order. -/
theorem EnvOp.Does.orderly {op : EnvOp}
    (hop : op.Does c cur k k') (h : Orderly k) (hin : InKernel c k)
    (halive : NotDying c k) (hv : op.Valid k) (hf : op.Fair k c) :
    Orderly k' ∧ NotDying c k' := by
  cases op with
  | setTf e tf =>
      obtain rfl := hop
      exact ⟨h.edit rfl rfl rfl rfl, halive.modifyEnv (Or.inl rfl)⟩
  | setUpcall e func =>
      obtain rfl := hop
      exact ⟨h.edit rfl rfl rfl rfl, halive.modifyEnv (Or.inl rfl)⟩
  | setStatus e st =>
      obtain rfl := hop
      refine ⟨h.editStatus hin hv.1 (fun hr => hf hr) rfl rfl rfl hv.2,
        halive.modifyEnv (Or.inr ?_)⟩
      rcases hv.2 with rfl | rfl <;> simp
  | fork e =>
      obtain ⟨k₁, hrun, rfl⟩ := hop
      obtain ⟨hlist, p, vm, rfl⟩ := envAlloc_ret hrun
      obtain ⟨horder, hcur⟩ := h.fork hin hlist
      refine ⟨horder, halive.congr rfl (fun e' he' => Or.inl ?_)⟩
      have hne : e' ≠ e := fun hh => hcur (hh ▸ he')
      rw [Kernel.asChild, Kernel.modifyEnv_envs_of_ne hne,
        allocated_envs_of_ne hne]
  | kill e =>
      obtain ⟨hcur, ⟨hrun, rfl⟩ | ⟨hrun, hfree⟩⟩ := hop
      · refine ⟨⟨h.slots.congr (sameTable_modifyEnv rfl rfl rfl ?_),
          h.procs.setDying hin hrun hcur⟩, halive.congr rfl (fun e' he' => ?_)⟩
        · simp [hrun]
        · have hne : e' ≠ e := fun hh => hcur (hh ▸ he')
          rw [Kernel.setStatus, Kernel.modifyEnv_envs_of_ne hne]
          exact Or.inl rfl
      · obtain ⟨d, vm, hd, rfl⟩ := envFree_ret hfree
        refine ⟨h.freed hin hv.1 hd hcur (hf hrun),
          halive.congr rfl (fun e' he' => Or.inl ?_)⟩
        have hne : e' ≠ e := fun hh => hcur (hh ▸ he')
        rw [freed_envs_of_ne hne]
  | deliver rcv value perm =>
      obtain rfl := hop
      refine ⟨h.editStatus hin hv (fun _ => hf) ?_ ?_ ?_ (Or.inl rfl),
        halive.modifyEnv (Or.inr (by simp [Env.deliver]))⟩
      all_goals cases perm <;> rfl

/-- A system call that returns keeps order, if it is fair. -/
theorem Served.orderly {call : Call}
    (hs : Served c cur (call.AsksVm k c) (call.AsksEnv k c) k k')
    (h : Orderly k) (hin : InKernel c k) (halive : NotDying c k)
    (hf : call.Fair k c) :
    Orderly k' ∧ NotDying c k' := by
  cases hs with
  | memory hm => exact ⟨h.sameProcs hm.sameProcs, halive.sameProcs hm.sameProcs⟩
  | envs op k₁ hm hop hdoes =>
      have hp := hm.sameProcs
      exact hdoes.orderly (h.sameProcs hp) (hin.congr hp.sameCpus)
        (halive.sameProcs hp) ((hop.valid h.procs hin).congr hp)
        ((hf op hop).congr hp)

/-- Leaving the kernel without returning keeps order. -/
theorem Orderly.leaves
    (h : Orderly k) (hin : InKernel c k) (halive : NotDying c k)
    (hcur : k.curenv c = some cur) (hl : Leaves c cur k k') :
    Orderly k' ∧ Outside k' := by
  cases hl with
  | dies k₁ k₂ hq hdies hy =>
      obtain ⟨h₂, hin₂, halive₂⟩ :=
        (h.sameProcs hq.procs).dies (hin.congr hq.procs.sameCpus) hdies
      exact h₂.yields hin₂ halive₂ hy
  | waits dstva hy =>
      have hlive : k.Live cur :=
        ⟨h.procs.slot c cur hcur, h.procs.kernel c cur hin.here hcur⟩
      refine Orderly.yields (h.editStatus (e := cur) hin hlive
        (fun hr => absurd hr (by simp)) rfl rfl rfl (Or.inr rfl)) (hin.congr ⟨rfl, rfl, rfl⟩)
        (halive.modifyEnv (Or.inr (by simp))) hy
  | yields k₁ hq hy =>
      exact (h.sameProcs hq.procs).yields (hin.congr hq.procs.sameCpus)
        (halive.sameProcs hq.procs) hy

/-- Serving a trap keeps order, if the system call is fair. -/
theorem Handled.orderly {io : Inputs} {tf : Trapframe}
    (hh : Handled io c cur tf k k') (h : Orderly k) (hin : InKernel c k)
    (halive : NotDying c k) (hcur : k.curenv c = some cur)
    (hf : ∀ call, tf.tfTrapno = tSyscall → tf.call = some call → call.Fair k c) :
    Orderly k' ∧ Outside k' := by
  have hresult : ∀ (k₁ : Kernel) (r : Int), Orderly k₁ → InKernel c k₁ →
      NotDying c k₁ → Resumes c (k₁.result cur r) k' → Orderly k' ∧ Outside k' :=
    fun k₁ r h₁ hin₁ halive₁ hr =>
      (h₁.edit (e := cur) rfl rfl rfl rfl).resumes (hin₁.congr ⟨rfl, rfl, rfl⟩)
        (halive₁.modifyEnv (Or.inl rfl)) hr
  cases hh with
  | returns call r k₁ hsys hcall _ hs hr =>
      obtain ⟨h₁, halive₁⟩ := hs.orderly h hin halive (hf call hsys hcall)
      exact hresult k₁ r h₁ (hin.congr hs.sameCpus) halive₁ hr
  | leaves call _ _ _ hl => exact h.leaves hin halive hcur hl
  | badCall _ _ hr => exact hresult k _ h hin halive hr
  | fault utr words k₁ k₂ d _ _ _ hq hpush _ hk =>
      have hp := hq.procs.trans hpush.sameProcs
      have h₂ := (h.sameProcs hp).edit (e := cur)
        (f := fun v => { v with
          envTf := { v.envTf with tfEip := v.envPgfaultUpcall, tfEsp := utr } })
        rfl rfl rfl rfl
      have hcur₂ : k₂.curenv c = some cur := hp.curenv.trans hcur
      rw [hk]
      exact h₂.dispatched ((hin.congr hp.sameCpus).congr ⟨rfl, rfl, rfl⟩)
        ((halive.sameProcs hp).modifyEnv (Or.inl rfl))
        (h.procs.slot c cur hcur) (Or.inr hcur₂)
  | gone _ hl => exact h.leaves hin halive hcur hl.leaves
  | ignored _ hr => exact h.resumes hin halive hr

end Operations

/-- A step whose system call is fair keeps order. -/
theorem Event.orderly {k k' : Kernel} {ev : Event}
    (h : Orderly k) (hout : Outside k) (hf : ev.Fair k)
    (hstep : ev.step k = some k') : Orderly k' ∧ Outside k' := by
  have halive : ∀ c cur, k.curenv c = some cur →
      (k.envs cur).envStatus ≠ .dying → NotDying c (k.traps c) := by
    intro c cur hcur hs e he
    rw [traps_curenv] at he
    obtain rfl := Option.some.inj (hcur.symm.trans he)
    exact hs
  have hnone : ∀ c, (k.cpus c).place = .boot ∨ (k.cpus c).place = .idle →
      k.curenv c = none := fun c hp => h.procs.off c hp
  cases Event.step_cases (fun c hp => (h.procs.halted c).mpr hp) hstep with
  | @start c _ _ hplace hy =>
      obtain ⟨h₁, hin₁⟩ := h.enters hout hplace
      refine h₁.yields hin₁ (fun e he => ?_) hy
      have hcur : (k.enters c).curenv c = k.curenv c := by
        unfold Kernel.curenv
        rw [enters_cpus_self]
      rw [hcur, hnone c (Or.inl hplace)] at he
      exact absurd he (by simp)
  | @reap c cur tf io k₁ _ _ _ _ _ hdies hy =>
      obtain ⟨h₁, hin₁⟩ := h.traps (c := c) hout
      obtain ⟨h₂, hin₂, halive₂⟩ := h₁.dies hin₁ hdies
      exact h₂.yields hin₂ halive₂ hy
  | @serve c cur tf io _ _ _ hcur hs hh =>
      obtain ⟨h₁, hin₁⟩ := h.traps (c := c) hout
      have hcur₁ : (k.traps c).curenv c = some cur := traps_curenv.trans hcur
      exact hh.orderly (h₁.edit (e := cur) rfl rfl rfl rfl)
        (hin₁.congr ⟨rfl, rfl, rfl⟩)
        ((halive c cur hcur hs).modifyEnv (Or.inl rfl)) hcur₁
        (fun call hsys hcall => hf _ c call (.trap hcur hs hsys hcall))
  | @wake c tf io k₁ _ _ hplace hq hr =>
      obtain ⟨h₁, hin₁⟩ := h.traps (c := c) hout
      have halive₁ : NotDying c (k.traps c) := by
        intro e he
        rw [traps_curenv, hnone c (Or.inr hplace)] at he
        exact absurd he (by simp)
      have h₂ := h₁.sameProcs hq.procs
      have hin₂ := hin₁.congr hq.procs.sameCpus
      have halive₂ := halive₁.sameProcs hq.procs
      rcases hr with hr | hy
      · exact h₂.resumes hin₂ halive₂ hr
      · exact h₂.yields hin₂ halive₂ hy
  | store _ _ _ => exact ⟨h.sameProcs (sameProcs_setVm _), hout.lock, hout.nobody⟩
  | device hq =>
      refine ⟨h.sameProcs hq.procs, hq.procs.kernelLock.trans hout.lock, ?_⟩
      intro c
      rw [hq.procs.cpus]
      exact hout.nobody c

end Jos
