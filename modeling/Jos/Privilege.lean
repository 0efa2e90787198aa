import Jos.Confinement
import Jos.PlainFrames

/-!
# I/O privilege

Only the file server runs with I/O privilege.  The hardware keeps the privilege
bits of a trap frame while user code runs (`Trapframe.ComesFrom`), and the kernel
keeps them plain in every frame that it makes for another environment, unless
the file server forks: `sys_exofork` copies its frame to a child of ordinary
type.
-/

namespace Jos

open Programs

/-- Every environment but the file server has a plain trap frame. -/
def PlainFrames (k : Kernel) : Prop :=
  ∀ e, k.Live e → (k.envs e).envType ≠ .fs → (k.envs e).envTf.Plain

/-- The trap frame of code that was entered with frame `loaded`: user code does
not change its privilege levels, and may turn interrupts off only with I/O
privilege. -/
structure Trapframe.ComesFrom (tf loaded : Trapframe) : Prop where
  cs : tf.tfCs = loaded.tfCs
  iopl : tf.tfEflags &&& flIoplMask = loaded.tfEflags &&& flIoplMask
  interrupts : loaded.tfEflags &&& flIoplMask ≠ flIoplMask →
    tf.tfEflags &&& flIf = loaded.tfEflags &&& flIf

/-- The trap frame of the step is one that the hardware can save. -/
def Event.FromHardware (loaded : Nat → Trapframe) : Event → Prop
  | .trap c tf _ => tf.ComesFrom (loaded c)
  | _ => True

/-- The frames that processors have entered user code with, after a step. -/
def Kernel.popped (k : Kernel) (ev : Event) (loaded : Nat → Trapframe) (c : Nat) :
    Trapframe :=
  match ev.cpu, k.curenv c with
  | some c', some e => if c = c' then (k.envs e).envTf else loaded c
  | _, _ => loaded c

/-- A run, and the frame that each processor has entered user code with. -/
inductive FrameRun (managed : Set Nat) (Ok : Kernel → Event → Prop) :
    Kernel → (Nat → Trapframe) → Prop where
  | boot {k : Kernel} (loaded : Nat → Trapframe) :
      Booted managed k → FrameRun managed Ok k loaded
  | step {k k' : Kernel} {loaded : Nat → Trapframe} (ev : Event) :
      FrameRun managed Ok k loaded → Ok k ev → ev.FromHardware loaded →
      ev.step k = some k' → FrameRun managed Ok k' (k'.popped ev loaded)

/-- `sys_exofork` is called with a plain trap frame only. -/
def Event.ForksPlain (k : Kernel) (ev : Event) : Prop :=
  ∀ k₀ c call cur, ev.Serves k k₀ c call → call.no = .exofork →
    k₀.curenv c = some cur → (k₀.envs cur).envTf.Plain

/-- No environment but the file server has I/O privilege, waiting or running. -/
structure Privileges (k : Kernel) (loaded : Nat → Trapframe) : Prop where
  saved : PlainFrames k
  running : ∀ c e, (k.cpus c).place = .user → k.curenv c = some e →
    (k.envs e).envType ≠ .fs → (loaded c).Plain

section Frames

variable {managed : Set Nat} {k k' k₁ : Kernel} {c cur e d : Nat} {call : Call}
  {io : Inputs}

theorem Trapframe.Plain.comesFrom {tf loaded : Trapframe} (h : loaded.Plain)
    (hc : tf.ComesFrom loaded) : tf.Plain := by
  refine ⟨hc.cs.trans h.cs, hc.iopl.trans h.iopl, ?_⟩
  have hlevel : loaded.tfEflags &&& flIoplMask ≠ flIoplMask := by
    rw [h.iopl]
    decide
  unfold HasFlag
  rw [hc.interrupts hlevel]
  exact h.interrupts

/-- Frames stay plain when each live environment keeps its frame, or has got a
plain one. -/
theorem PlainFrames.of_kept (h : PlainFrames k)
    (hkept : ∀ e, k'.Live e → (k'.envs e).envTf.Plain ∨ (k.Live e ∧
      (k'.envs e).envType = (k.envs e).envType ∧
      (k'.envs e).envTf.tfCs = (k.envs e).envTf.tfCs ∧
      (k'.envs e).envTf.tfEflags = (k.envs e).envTf.tfEflags)) :
    PlainFrames k' := by
  intro e hlive htype
  rcases hkept e hlive with hplain | ⟨hlive', htype', hcs, hflags⟩
  · exact hplain
  · exact (h e hlive' (htype' ▸ htype)).congr hcs hflags

/-- An edit of a live environment. -/
theorem PlainFrames.edit {f : Env → Env} (h : PlainFrames k)
    (hlive : (f (k.envs e)).envStatus ≠ .free → (k.envs e).envStatus ≠ .free)
    (hkept : (f (k.envs e)).envTf.Plain ∨
      ((f (k.envs e)).envType = (k.envs e).envType ∧
      (f (k.envs e)).envTf.tfCs = (k.envs e).envTf.tfCs ∧
      (f (k.envs e)).envTf.tfEflags = (k.envs e).envTf.tfEflags)) :
    PlainFrames (k.modifyEnv e f) := by
  refine h.of_kept (fun e' he' => ?_)
  by_cases he : e' = e
  · subst he
    unfold Kernel.Live at he'
    rw [Kernel.modifyEnv_envs_self] at he' ⊢
    exact hkept.imp_right (fun h => ⟨⟨he'.1, hlive he'.2⟩, h⟩)
  · unfold Kernel.Live at he'
    rw [Kernel.modifyEnv_envs_of_ne he] at he' ⊢
    exact Or.inr ⟨he', rfl, rfl, rfl⟩

theorem PlainFrames.sameProcs (h : PlainFrames k) (hp : SameProcs k k') :
    PlainFrames k' := by
  intro e hlive
  unfold Kernel.Live at hlive
  rw [hp.envs] at hlive ⊢
  exact h e hlive

theorem PlainFrames.freed {vm : PhysMem} (h : PlainFrames k) :
    PlainFrames (k.freed vm e) := by
  refine h.of_kept (fun e' he' => ?_)
  by_cases he : e' = e
  · subst he
    unfold Kernel.Live at he'
    rw [freed_envs_self] at he'
    exact absurd rfl he'.2
  · unfold Kernel.Live at he'
    rw [freed_envs_of_ne he] at he' ⊢
    exact Or.inr ⟨he', rfl, rfl, rfl⟩

theorem PlainFrames.dispatched (h : PlainFrames k)
    (hlive : (k.envs e).envStatus ≠ .free) :
    PlainFrames (k.dispatched c e d) := by
  refine h.of_kept (fun e' he' => Or.inr ?_)
  have hfree := (sameTable_dispatched (c := c) (d := d) hlive).free e'
  refine ⟨⟨he'.1, fun hf => he'.2 (hfree.mpr hf)⟩, ?_⟩
  rw [dispatched_envs]
  exact ⟨rfl, rfl, rfl⟩

/-! ## Parts of an entry -/

theorem Yields.plainFrames (hy : Yields k c k') (h : PlainFrames k)
    (ho : Orderly k) (hin : InKernel c k) : PlainFrames k' := by
  cases hy with
  | dispatch j d hpick hd =>
      refine h.dispatched ?_
      rcases hpick.status with hs | hcur
      · rw [hs]
        decide
      · exact ho.procs.kernel c j hin.here hcur
  | halt _ _ _ => exact h

theorem Resumes.plainFrames (hr : Resumes c k k') (h : PlainFrames k)
    (ho : Orderly k) (hin : InKernel c k) : PlainFrames k' := by
  cases hr with
  | same cur d hcur _ hd hk =>
      rw [hk]
      exact h.dispatched (ho.procs.kernel c cur hin.here hcur)
  | other _ hy => exact hy.plainFrames h ho hin

theorem Dies.plainFrames (hdies : Dies c cur k k') (h : PlainFrames k) :
    PlainFrames k' := by
  obtain ⟨k₁, -, hrun, rfl⟩ := hdies
  obtain ⟨d, vm, -, rfl⟩ := envFree_ret hrun
  exact h.freed

theorem Leaves.plainFrames (hl : Leaves c cur k k') (h : PlainFrames k)
    (ho : Orderly k) (hin : InKernel c k) (hcur : k.curenv c = some cur) :
    PlainFrames k' := by
  cases hl with
  | dies k₁ k₂ hq hdies hy =>
      have ho₁ := ho.sameProcs hq.procs
      have hin₁ := hin.congr hq.procs.sameCpus
      obtain ⟨ho₂, hin₂, -⟩ := ho₁.dies hin₁ hdies
      exact hy.plainFrames (hdies.plainFrames (h.sameProcs hq.procs)) ho₂ hin₂
  | waits dstva hy =>
      have hlive := ho.owned_live hcur
      have ho₁ : Orderly (k.blocked cur dstva) :=
        ho.editStatus (e := cur) hin ⟨ho.procs.slot c cur hcur, hlive⟩
          (fun hr => absurd hr (by simp)) rfl rfl rfl (Or.inr rfl)
      exact hy.plainFrames (h.edit (fun _ => hlive) (Or.inr ⟨rfl, rfl, rfl⟩)) ho₁
        (hin.congr ⟨rfl, rfl, rfl⟩)
  | yields k₁ hq hy =>
      exact hy.plainFrames (h.sameProcs hq.procs) (ho.sameProcs hq.procs)
        (hin.congr hq.procs.sameCpus)

/-- An operation on the table keeps frames plain if it brings no other. -/
theorem EnvOp.Does.plainFrames {op : EnvOp} (hop : op.Does c cur k k')
    (h : PlainFrames k) (ho : Orderly k) (hv : op.Valid k)
    (hset : ∀ e tf, op = .setTf e tf → tf.Plain)
    (hfork : ∀ e, op = .fork e → (k.envs cur).envTf.Plain)
    (hcur : (k.envs cur).envStatus ≠ .free) : PlainFrames k' := by
  cases op with
  | setTf e tf =>
      obtain rfl := hop
      exact h.edit (fun h => h) (Or.inl (hset e tf rfl))
  | setUpcall e func =>
      obtain rfl := hop
      exact h.edit (fun h => h) (Or.inr ⟨rfl, rfl, rfl⟩)
  | setStatus e st =>
      obtain rfl := hop
      exact h.edit (fun _ => hv.1.2) (Or.inr ⟨rfl, rfl, rfl⟩)
  | fork e =>
      obtain ⟨k₁, hrun, rfl⟩ := hop
      obtain ⟨hlist, p, vm, rfl⟩ := envAlloc_ret hrun
      obtain ⟨-, hfree, -, -⟩ := ho.slots.head_free hlist
      have hne : cur ≠ e := fun hh => hcur (hh ▸ hfree)
      have hplain := hfork e rfl
      refine h.of_kept (fun e' he' => ?_)
      by_cases he : e' = e
      · subst he
        refine Or.inl ?_
        rw [Kernel.asChild, Kernel.modifyEnv_envs_self, allocated_envs_of_ne hne]
        exact hplain.congr rfl rfl
      · unfold Kernel.Live at he'
        rw [Kernel.asChild, Kernel.modifyEnv_envs_of_ne he,
          allocated_envs_of_ne he] at he' ⊢
        exact Or.inr ⟨he', rfl, rfl, rfl⟩
  | kill e =>
      obtain ⟨-, ⟨-, rfl⟩ | ⟨-, hfree⟩⟩ := hop
      · exact h.edit (fun _ => hv.2) (Or.inr ⟨rfl, rfl, rfl⟩)
      · obtain ⟨d, vm, -, rfl⟩ := envFree_ret hfree
        exact h.freed
  | deliver rcv value perm =>
      obtain rfl := hop
      refine h.edit (fun _ => hv.2) (Or.inr ?_)
      cases perm <;> exact ⟨rfl, rfl, rfl⟩

/-- What `sys_env_set_trapframe` stores in an environment is plain. -/
theorem sysEnvSetTrapframe_plain (envid tf : U32) (hm : Memory managed k)
    (hd : k.vm.cr3 c ∈ envDirs k)
    (hsafe : ∀ e, k.envOf c envid true = some e → (VmOp.patch tf).Safe k c) :
    wp (sysEnvSetTrapframe c envid tf) (Partial (fun _ k' => k' = k ∨
      ∃ e k₁ frame, SameProcs k k₁ ∧ frame.Plain ∧
        k' = k₁.modifyEnv e (fun v => { v with envTf := frame }))
      (fun _ => False)) k := by
  refine envid2env_bind (fun _ => Or.inl rfl) (fun e he => ?_)
  have hbody : wp (patchTf c tf >>= fun _ => do
      let frame ← loadTrapframe c tf
      Prog.modify (fun k => k.modifyEnv e (fun v => { v with envTf := frame }))
      pure (0 : Int)) (Partial (fun _ k' => k' = k ∨
      ∃ e k₁ frame, SameProcs k k₁ ∧ frame.Plain ∧
        k' = k₁.modifyEnv e (fun v => { v with envTf := frame }))
      (fun _ => False)) k := by
    have hprocs : wp (patchTf c tf) (Partial (fun _ k' => SameProcs k k')
        (fun _ => False)) k :=
      wp_of_stays (patchTf_stays c tf) (fun _ k₁ hrun =>
        (show VmOp.Does c k k₁ (.patch tf) from hrun).sameProcs)
    refine partial_bind (wp_and hprocs (patchTf_plainAt hm hd (hsafe e he))) ?_
      (fun _ h => h.1)
    rintro _ k₁ ⟨hp, hplain⟩
    have hquiet : wp (loadTrapframe c tf) (Partial (fun _ k₂ => Quiet k₁ k₂)
        (fun _ => False)) k₁ :=
      partial_bind loadBytes_wp (fun _ _ h => h) (fun _ h => h)
    refine partial_bind (wp_and (loadTrapframe_plain hplain) hquiet) ?_
      (fun _ h => h.1)
    rintro frame k₂ ⟨⟨hframe, -⟩, hq⟩
    exact Or.inr ⟨e, k₂, frame, hp.trans hq.procs, hframe, rfl⟩
  simp only [patchTf, Prog.bind_assoc] at hbody
  exact hbody

/-- A system call that returns. -/
theorem Served.plainFrames {r : Int} (hserving : Serving managed c cur k)
    (hs : Served c cur (call.AsksVm k c) (call.AsksEnv k c) k k')
    (hrun : (call.run io c).run k = .ret r k') (h : PlainFrames k)
    (hsafe : call.Safe k c)
    (hfork : call.no = .exofork → (k.envs cur).envTf.Plain) : PlainFrames k' := by
  by_cases hno : call.no = .envSetTrapframe
  · unfold Call.run at hrun
    rw [hno] at hrun
    have hspec := sysEnvSetTrapframe_plain call.a1 call.a2 hserving.memory
      (hserving.loaded.dir_mem hserving.order hserving.curenv)
      (fun e he => hsafe _ (.setTrapframe hno he))
    rcases wp_ret hspec hrun with rfl | ⟨e, k₁, frame, hp, hframe, rfl⟩
    · exact h
    · exact (h.sameProcs hp).edit (fun h => h) (Or.inl hframe)
  · cases hs with
    | memory hvm => exact h.sameProcs hvm.sameProcs
    | envs op k₁ hvm hop hdoes =>
        have hp := hvm.sameProcs
        have hlive := hserving.order.owned_live hserving.curenv
        refine hdoes.plainFrames (h.sameProcs hp) (hserving.order.sameProcs hp)
          ((hop.valid hserving.order.procs hserving.inKernel).congr hp) ?_ ?_ ?_
        · rintro e tf rfl
          cases hop with
          | setTrapframe hset _ => exact absurd hset hno
        · rintro e rfl
          rw [hp.envs]
          cases hop with
          | exofork hfork' _ => exact hfork hfork'
        · rw [hp.envs]
          exact hlive

/-- A trap of user code, once its frame is saved. -/
theorem Handled.plainFrames {tf : Trapframe} (hh : Handled io c cur tf k k')
    (hserving : Serving managed c cur k) (h : PlainFrames k)
    (hf : ∀ call, tf.tfTrapno = tSyscall → tf.call = some call → call.Fair k c)
    (hsafe : ∀ call, tf.tfTrapno = tSyscall → tf.call = some call →
      call.Safe k c)
    (hfork : ∀ call, tf.tfTrapno = tSyscall → tf.call = some call →
      call.no = .exofork → (k.envs cur).envTf.Plain) : PlainFrames k' := by
  have ho := hserving.order
  have hin := hserving.inKernel
  have hcur := hserving.curenv
  cases hh with
  | returns call r k₁ hsys hcall hrun hs hr =>
      obtain ⟨ho₁, -⟩ := hs.orderly ho hin hserving.alive (hf call hsys hcall)
      have h₁ := hs.plainFrames hserving hrun h (hsafe call hsys hcall)
        (hfork call hsys hcall)
      exact hr.plainFrames (h₁.edit (fun h => h) (Or.inr ⟨rfl, rfl, rfl⟩))
        (ho₁.edit rfl rfl rfl rfl)
        ((hin.congr hs.sameCpus).congr ⟨rfl, rfl, rfl⟩)
  | leaves call _ _ _ hl => exact hl.plainFrames h ho hin hcur
  | badCall _ _ hr =>
      exact hr.plainFrames (h.edit (fun h => h) (Or.inr ⟨rfl, rfl, rfl⟩))
        (ho.edit rfl rfl rfl rfl) (hin.congr ⟨rfl, rfl, rfl⟩)
  | fault utr words k₁ k₂ d _ _ _ hq hpush hd hk =>
      have hp := hq.procs.trans hpush.sameProcs
      have h₂ : PlainFrames (k₂.redirect cur utr) :=
        (h.sameProcs hp).edit (fun h => h) (Or.inr ⟨rfl, rfl, rfl⟩)
      rw [hk]
      refine h₂.dispatched ?_
      simp only [Kernel.redirect, Kernel.modifyEnv_envs_self]
      rw [hp.envs]
      exact ho.owned_live hcur
  | gone _ hl => exact hl.leaves.plainFrames h ho hin hcur
  | ignored _ hr => exact hr.plainFrames h ho hin

/-! ## Steps and runs -/

/-- A new environment that is not a file server has a plain frame. -/
theorem Env.created_plain {v : Env} {binary : Binary} {type : EnvType}
    (h : v.envTf.Plain) (htype : type ≠ .fs) :
    (v.created binary type).envTf.Plain := by
  unfold Env.created
  simp only [if_neg htype]
  exact h.congr rfl rfl

theorem Booted.plainFrames (h : Booted managed k) : PlainFrames k := by
  induction h with
  | @init k hinit _ _ _ =>
      obtain ⟨k₀, -, rfl⟩ := hinit.envs
      exact fun e hlive => absurd rfl hlive.2
  | @create k k' binary type _ _ hrun ih =>
      obtain ⟨e, p, vm, -, hp⟩ := wp_ret (envCreate_procs 0 binary type k) hrun
      refine PlainFrames.sameProcs (fun e' hlive htype => ?_) hp
      unfold Kernel.Live at hlive
      by_cases he : e' = e
      · subst he
        rw [Kernel.modifyEnv_envs_self] at htype ⊢
        refine Env.created_plain ?_ (fun h => htype ?_)
        · rw [allocated_envs_self]
          exact (by decide : initialTf.Plain)
        · rw [h]
          rfl
      · rw [Kernel.modifyEnv_envs_of_ne he, allocated_envs_of_ne he] at hlive htype ⊢
        exact ih e' hlive htype

/-- A step keeps the frames plain. -/
theorem Event.plainFrames {ev : Event} {loaded : Nat → Trapframe}
    (h : Sound managed k) (hp : Privileges k loaded) (hclean : ev.Clean k)
    (hfork : ev.ForksPlain k) (hhw : ev.FromHardware loaded)
    (hstep : ev.step k = some k') : PlainFrames k' := by
  have hhalted : ∀ c, (k.cpus c).place = .idle → (k.cpus c).cpuStatus = .halted :=
    fun c hp => (h.order.procs.halted c).mpr hp
  have htraps : ∀ c, PlainFrames (k.traps c) := fun _ => hp.saved
  cases Event.step_cases hhalted hstep with
  | @start c _ _ hplace hy =>
      obtain ⟨ho₁, hin₁⟩ := h.order.enters h.outside hplace
      have h₁ : PlainFrames (k.enters c) := hp.saved
      exact hy.plainFrames h₁ ho₁ hin₁
  | @reap c cur tf io k₁ _ _ _ _ _ hdies hy =>
      obtain ⟨ho₁, hin₁⟩ := h.order.traps (c := c) h.outside
      obtain ⟨ho₂, hin₂, -⟩ := ho₁.dies hin₁ hdies
      exact hy.plainFrames (hdies.plainFrames (htraps c)) ho₂ hin₂
  | @serve c cur tf io _ _ hplace hcur hs hh =>
      obtain ⟨ho₁, hin₁⟩ := h.order.traps (c := c) h.outside
      have hsaved : PlainFrames ((k.traps c).saveTf cur tf) := by
        intro e hlive htype
        unfold Kernel.Live at hlive
        by_cases he : e = cur
        · subst he
          rw [Kernel.saveTf, Kernel.modifyEnv_envs_self] at htype ⊢
          exact (hp.running c e hplace hcur htype).comesFrom hhw
        · rw [Kernel.saveTf, Kernel.modifyEnv_envs_of_ne he] at hlive htype ⊢
          exact hp.saved e hlive htype
      have halive : NotDying c ((k.traps c).saveTf cur tf) := by
        refine NotDying.modifyEnv (fun e he => ?_) (Or.inl rfl)
        rw [traps_curenv] at he
        obtain rfl := Option.some.inj (hcur.symm.trans he)
        exact hs
      have hsave : SamePages k ((k.traps c).saveTf cur tf) :=
        samePages_traps.trans (samePages_edit rfl rfl rfl Iff.rfl)
      have hserving : Serving managed c cur ((k.traps c).saveTf cur tf) :=
        ⟨h.memory.congr hsave.mem hsave.table, h.loaded.traps.edit rfl,
          ho₁.edit rfl rfl rfl rfl, hin₁.congr ⟨rfl, rfl, rfl⟩, halive,
          traps_curenv.trans hcur⟩
      exact hh.plainFrames hserving hsaved
        (fun call hsys hcall => hclean.fair _ c call (.trap hcur hs hsys hcall))
        (fun call hsys hcall => hclean.safe _ c call (.trap hcur hs hsys hcall))
        (fun call hsys hcall hno => hfork _ c call cur (.trap hcur hs hsys hcall)
          hno (traps_curenv.trans hcur))
  | @wake c tf io k₁ _ _ _ hq hr =>
      obtain ⟨ho₁, hin₁⟩ := h.order.traps (c := c) h.outside
      have h₁ := (htraps c).sameProcs hq.procs
      have ho₂ := ho₁.sameProcs hq.procs
      have hin₂ := hin₁.congr hq.procs.sameCpus
      exact hr.elim (fun hr => hr.plainFrames h₁ ho₂ hin₂)
        (fun hy => hy.plainFrames h₁ ho₂ hin₂)
  | store _ _ _ => exact hp.saved
  | device hq => exact hp.saved.sameProcs hq.procs

/-- A step does not change the type of an environment that another processor
has. -/
theorem Event.type_kept {ev : Event} (h : Sound managed k)
    (hstep : ev.step k = some k') (he : k.curenv c = some e)
    (hc : ev.cpu ≠ some c) : (k'.envs e).envType = (k.envs e).envType := by
  obtain ⟨v, hv, hsched⟩ := ev.frame h.order hstep (e := e)
    (fun c₀ hc₀ hcur => hc (h.order.procs.inj c₀ c e hcur he ▸ hc₀))
  have hsame : (k'.envs e).envType = v.envType := by rw [hsched.same]
  rw [hsame]
  rcases hv with rfl | ⟨k₀, c₀, cur, call, hserves, -, op, k₁, k₂, hop, rfl, hp,
    hdoes, rfl⟩
  · rfl
  have htype : (k₁.envs op.target).envType = (k.envs op.target).envType := by
    obtain ⟨tf, heq, -⟩ := hserves.envs op.target
    rw [hp.envs, heq]
  rw [← htype]
  cases op with
  | setTf _ tf =>
      obtain rfl := hdoes
      rw [EnvOp.target, Kernel.modifyEnv_envs_self]
  | setUpcall _ func =>
      obtain rfl := hdoes
      rw [EnvOp.target, Kernel.modifyEnv_envs_self]
  | setStatus _ st =>
      obtain rfl := hdoes
      rw [EnvOp.target, Kernel.setStatus, Kernel.modifyEnv_envs_self]
  | fork e' =>
      cases hop with
      | exofork _ hlist =>
          rw [hserves.envFreeList] at hlist
          obtain ⟨-, hfree, -, -⟩ := h.order.slots.head_free hlist
          exact absurd hfree (h.order.owned_live he)
  | kill _ =>
      obtain ⟨-, ⟨-, rfl⟩ | ⟨-, hfree⟩⟩ := hdoes
      · rw [EnvOp.target, Kernel.setStatus, Kernel.modifyEnv_envs_self]
      · obtain ⟨d, vm, -, rfl⟩ := envFree_ret hfree
        rw [EnvOp.target, freed_envs_self]
  | deliver _ value perm =>
      obtain rfl := hdoes
      rw [EnvOp.target, Kernel.modifyEnv_envs_self]
      cases perm <;> rfl

/-- A step keeps privileges. -/
theorem Event.privileges {ev : Event} {loaded : Nat → Trapframe}
    (h : Sound managed k) (hp : Privileges k loaded) (hclean : ev.Clean k)
    (hfork : ev.ForksPlain k) (hhw : ev.FromHardware loaded)
    (hstep : ev.step k = some k') : Privileges k' (k'.popped ev loaded) := by
  have hplain := ev.plainFrames h hp hclean hfork hhw hstep
  have hsound := ev.sound h hclean hstep
  refine ⟨hplain, fun c e hplace he htype => ?_⟩
  by_cases hc : ev.cpu = some c
  · -- the processor has just entered user code
    simp only [Kernel.popped, hc, he, if_true]
    exact hplain e ⟨hsound.order.procs.slot c e he, hsound.order.owned_live he⟩
      htype
  · have hcpus := ev.cpus_of_ne h.order hstep
      (fun c₀ hc₀ (hh : c = c₀) => hc (hh ▸ hc₀))
    have he' : k.curenv c = some e := by
      rw [Kernel.curenv, ← hcpus]
      exact he
    rw [ev.type_kept h hstep he' hc] at htype
    have hsame : k'.popped ev loaded c = loaded c := by
      unfold Kernel.popped
      split
      · rename_i c' _ hc' _
        exact if_neg (fun hh : c = c' => hc (hh ▸ hc'))
      · rfl
    rw [hsame]
    exact hp.running c e (hcpus ▸ hplace) he' htype

theorem FrameRun.runOf {Ok : Kernel → Event → Prop} {loaded : Nat → Trapframe}
    (h : FrameRun managed Ok k loaded) : RunOf managed Ok k := by
  induction h with
  | boot _ hb => exact .boot hb
  | step ev _ hok _ hstep ih => exact .step ev ih hok hstep

end Frames

/-! ## A file server that forks -/

/-- The machine after `env_create` has made the file server. -/
def bootFs : Option Kernel :=
  match (envCreate 0 emptyBinary .fs).run (bootKernel 16 1) with
  | .ret _ k => some k
  | _ => none

theorem bootFs_booted {k : Kernel} (h : bootFs = some k) :
    Booted {p | 0 < p ∧ p < 16} k := by
  unfold bootFs at h
  split at h
  · rename_i hret
    obtain rfl := Option.some.inj h
    exact .create emptyBinary .fs (.init (bootKernel_leaves (by decide)
      (by decide) 1) (fun _ => rfl) (fun _ => rfl) rfl) emptyBinary_wellFormed hret
  · exact absurd h (by simp)

/-- `sys_exofork` by an environment with I/O privilege. -/
def forkFs : Event :=
  .trap 0 { syscallTf 7 0 0 0 0 0 with tfEflags := flIf ||| flIoplMask }
    ⟨0, 0#32, none⟩

end Jos
