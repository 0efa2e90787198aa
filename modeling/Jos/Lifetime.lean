import Jos.Frame
import Jos.Ownership
import Jos.Sound

/-!
# The life of an environment

An environment that is destroyed while another processor runs it is `DYING`
until that processor traps, and is freed then.  `env_destroy` keeps to this for
an environment that is `RUNNING`; one that is `DYING` already, it frees at once,
under the processor that runs it.
-/

namespace Jos

open Programs LinkedList RefPool

/-- What must hold at every moment of the slots and the page directories of
environments that processors run. -/
structure Kernel.LivesKept (k : Kernel) : Prop where
  /-- A slot is on the free list once if it is free, and else not. -/
  freeOnce : ∃ freeEnvs,
    Chain (fun e => (k.envs e).envLink) k.envFreeList freeEnvs ∧
    freeEnvs.Nodup ∧ ∀ e, e ∈ freeEnvs ↔ e < nenv ∧ (k.envs e).envStatus = .free
  alive : ∀ c e, k.Runs c e → (k.envs e).envStatus ≠ .free
  pgdir : ∀ c e, k.Runs c e → (k.envs e).envPgdir = some (k.vm.cr3 c)
  /-- The directory is not on the list of free pages. -/
  pgdirKept : ∀ c e, k.Runs c e → (k.vm.pages (k.vm.cr3 c)).ppRef = 1#16 ∧
    ∀ free, Chain (fun p => (k.vm.pages p).ppLink) k.vm.pageFreeList free →
      k.vm.cr3 c ∉ free

/-- What a step does with an environment that is destroyed while another
processor runs it. -/
structure Event.Reaps (k : Kernel) (ev : Event) (k' : Kernel) : Prop where
  /-- It is not freed when it is destroyed, -/
  destroyed : ∀ k₀ c c' e call, ev.Serves k k₀ c call → call.no = .envDestroy →
    k₀.envOf c call.a1 true = some e → (k.envs e).envStatus = .running →
    c' ≠ c → k.Runs c' e → (k'.envs e).envStatus = .dying ∧ k'.Runs c' e
  /-- nor as long as its processor does not trap, -/
  waits : ∀ c e, k.Runs c e → (k.envs e).envStatus = .dying →
    ev.cpu ≠ some c → (k'.envs e).envStatus = .dying ∧ k'.Runs c e
  /-- but as soon as it does. -/
  reaped : ∀ c e, k.Runs c e → (k.envs e).envStatus = .dying →
    ev.cpu = some c → (k'.envs e).envStatus = .free ∧ ¬ k'.Runs c e

/-- No system call sets the status of an environment that is `DYING`. -/
def Event.SparesDying (k : Kernel) (ev : Event) : Prop :=
  ∀ k₀ c call e st, ev.Serves k k₀ c call →
    call.AsksEnv k₀ c (.setStatus e st) → (k₀.envs e).envStatus ≠ .dying

section Lifetime

variable {managed : Set Nat} {k k' : Kernel} {ev : Event} {c c' cur e : Nat}

/-- In a sound state lives are kept. -/
theorem Sound.livesKept (h : Sound managed k) : k.LivesKept := by
  obtain ⟨freeEnvs, hchain, hmem⟩ := h.order.slots.freeChain
  obtain ⟨free, hacc⟩ := h.memory.books.accounted
  refine ⟨⟨freeEnvs, hchain, hchain.nodup, hmem⟩, ?_, ?_, ?_⟩
  · exact fun c e hruns => h.order.owned_live hruns.1
  · exact fun c e hruns => h.loaded c e hruns.1
  · intro c e hruns
    have hdir := h.loaded.dir_mem h.order hruns.1
    have hone := hacc.spaces.refCount_dir hdir
    refine ⟨?_, fun l hl hmem => ?_⟩
    · rw [hacc.ledger.ref_eq _ (hacc.spaces.dir_managed _ hdir), hone]
    · obtain rfl := hl.unique hacc.ledger.chain
      have hzero := hacc.free_unreferenced hmem
      omega

theorem Event.Serves.ownedElsewhere {k₀ : Kernel} {call : Call}
    (h : ev.Serves k k₀ c call) (hc : c' ≠ c) (he : k.curenv c' = some e) :
    k₀.OwnedElsewhere c e := by
  refine ⟨c', hc, ?_⟩
  rw [Kernel.curenv, h.cpus, traps_cpus_of_ne hc]
  exact he

/-- An operation of a clean step that spares the dying leaves the status of an
environment that is `DYING` on another processor alone. -/
theorem edits_dying (ho : Orderly k) (hclean : ev.Clean k)
    (hspare : ev.SparesDying k) (he : k.curenv c' = some e)
    (hdying : (k.envs e).envStatus = .dying) (hc : ev.cpu ≠ some c') {v : Env}
    (hedit : ev.Edits k e v) : v.envStatus = .dying := by
  obtain ⟨k₀, c, cur, call, hserves, -, op, k₁, k₂, hop, rfl, hp, hdoes, rfl⟩ :=
    hedit
  have hne : c' ≠ c := fun hh => hc (hh ▸ hserves.cpu)
  have howned := hserves.ownedElsewhere hne he
  have hstatus : (k₀.envs op.target).envStatus = .dying := by
    obtain ⟨tf, heq, -⟩ := hserves.envs op.target
    rw [heq]
    exact hdying
  have hfair := hclean.fair k₀ c call hserves op hop
  cases op with
  | setTf _ tf =>
      obtain rfl := hdoes
      rw [EnvOp.target, Kernel.modifyEnv_envs_self, hp.envs]
      exact hstatus
  | setUpcall _ func =>
      obtain rfl := hdoes
      rw [EnvOp.target, Kernel.modifyEnv_envs_self, hp.envs]
      exact hstatus
  | setStatus _ st => exact absurd hstatus (hspare k₀ c call _ st hserves hop)
  | fork e' =>
      cases hop with
      | exofork _ hlist =>
          rw [hserves.envFreeList] at hlist
          obtain ⟨-, hfree, -, -⟩ := ho.slots.head_free hlist
          exact absurd (hdying.symm.trans hfree) (by decide)
  | kill _ =>
      refine absurd howned (hfair (fun hh => ?_))
      exact absurd (hstatus.symm.trans hh) (by decide)
  | deliver _ _ _ => exact absurd howned hfair

/-- `sys_env_destroy` of an environment that is running elsewhere. -/
theorem sysEnvDestroy_dying {envid : U32} (hcur : k.curenv c ≠ some e)
    (he : k.envOf c envid true = some e)
    (hrunning : (k.envs e).envStatus = .running) :
    wp (sysEnvDestroy c envid)
      (Partial (fun _ k' => k' = k.setStatus e .dying) (fun _ => False)) k := by
  refine envid2env_bind (fun h => absurd (he.symm.trans h) (by simp))
    (fun e' he' => ?_)
  obtain rfl := Option.some.inj (he.symm.trans he')
  simp only
  unfold envDestroy
  rw [Prog.bind_assoc, wp_get_bind, if_pos ⟨hrunning, hcur⟩]
  exact rfl

/-- A step that is clean and spares the dying frees an environment exactly when
its processor traps. -/
theorem Event.reaps (h : Sound managed k) (hclean : ev.Clean k)
    (hspare : ev.SparesDying k) (hstep : ev.step k = some k') :
    ev.Reaps k k' := by
  have hhalted : ∀ c, (k.cpus c).place = .idle →
      (k.cpus c).cpuStatus = .halted :=
    fun c hp => (h.order.procs.halted c).mpr hp
  have hruns : ∀ c e, k.Runs c e → ev.cpu ≠ some c → k'.Runs c e := by
    intro c e hr hc
    have hcpus := ev.cpus_of_ne h.order hstep
      (fun c₀ hc₀ (hh : c = c₀) => hc (hh ▸ hc₀))
    unfold Kernel.Runs Kernel.curenv
    rw [hcpus]
    exact hr
  refine ⟨?_, ?_, ?_⟩
  · intro k₀ c c' e call hserves hno he hrunning hc hr
    have hcur : k.curenv c ≠ some e :=
      fun hh => hc (h.order.procs.inj c' c e hr.1 hh)
    refine ⟨?_, hruns c' e hr (fun hh => hc ?_)⟩
    · have hrunning₀ : (k₀.envs e).envStatus = .running := by
        obtain ⟨tf, heq, -⟩ := hserves.envs e
        rw [heq]
        exact hrunning
      have hspec : ∀ io, wp (call.run io c)
          (Partial (fun _ k' => k' = k₀.setStatus e .dying) (fun _ => False)) k₀ := by
        intro io
        unfold Call.run
        rw [hno]
        exact sysEnvDestroy_dying (by rwa [hserves.curenv]) he hrunning₀
      obtain ⟨cur, hcur', ⟨r, k₁, hrun, -, hr⟩ | ⟨hrun, -⟩⟩ :=
        hserves.runs hhalted hstep
      · obtain rfl := wp_ret (hspec ev.inputs) hrun
        have hne : e ≠ cur := fun hh => hcur (hh ▸ hcur')
        have hcur₁ : ((k₀.setStatus e .dying).result cur r).curenv c ≠ some e := by
          have hsame : ((k₀.setStatus e .dying).result cur r).curenv c =
              k₀.curenv c := rfl
          rw [hsame, hserves.curenv]
          exact hcur
        have hsched := (hr.frame hcur₁).status
        rw [Kernel.result, Kernel.modifyEnv_envs_of_ne hne, Kernel.setStatus,
          Kernel.modifyEnv_envs_self] at hsched
        exact hsched.resolve_right (fun hh => absurd hh.1 (by simp))
      · exact (wp_exited (hspec ev.inputs) hrun).elim
    · exact Option.some.inj (hh.symm.trans hserves.cpu)
  · intro c e hr hdying hc
    obtain ⟨v, hv, hsched⟩ := ev.frame h.order hstep (e := e)
      (fun c₀ hc₀ hcur => hc (h.order.procs.inj c₀ c e hcur hr.1 ▸ hc₀))
    have hvdying : v.envStatus = .dying := hv.elim (fun hv => hv ▸ hdying)
      (fun hedit => edits_dying h.order hclean hspare hr.1 hdying hc hedit)
    refine ⟨?_, hruns c e hr hc⟩
    rw [← hvdying]
    exact hsched.status.resolve_right
      (fun hh => absurd (hvdying.symm.trans hh.1) (by decide))
  · intro c e hr hdying hc
    have hfree : (k'.envs e).envStatus = .free := by
      cases Event.step_cases hhalted hstep with
      | start _ hplace _ =>
          obtain rfl := Option.some.inj hc
          exact absurd (hr.2.symm.trans hplace) (by decide)
      | @reap _ cur _ _ k₁ _ _ _ hcur _ hdies hy =>
          obtain rfl := Option.some.inj hc
          obtain rfl := Option.some.inj (hr.1.symm.trans hcur)
          have hgone : (k₁.envs e).envStatus = .free := by
            obtain ⟨k₂, -, hrun, rfl⟩ := hdies
            obtain ⟨d, vm, -, rfl⟩ := envFree_ret hrun
            exact congrArg Env.envStatus freed_envs_self
          have hsched := (hy.frame (e := e) (by rw [hdies.curenv]; simp)).status
          rw [← hgone]
          exact hsched.resolve_right
            (fun hh => absurd (hgone.symm.trans hh.1) (by decide))
      | serve _ _ hcur hs _ =>
          obtain rfl := Option.some.inj hc
          obtain rfl := Option.some.inj (hr.1.symm.trans hcur)
          exact absurd hdying hs
      | wake _ hplace _ _ =>
          obtain rfl := Option.some.inj hc
          exact absurd (hr.2.symm.trans hplace) (by decide)
      | store _ _ _ => exact absurd hc (by simp [Event.cpu])
      | device _ => exact absurd hc (by simp [Event.cpu])
    exact ⟨hfree, fun hr' =>
      (ev.sound h hclean hstep).order.owned_live hr'.1 hfree⟩

theorem start_clean (k : Kernel) (c : Nat) :
    (Event.start c).Clean k ∧ (Event.start c).SparesDying k :=
  ⟨⟨start_fair k c, fun _ _ _ h => nomatch h⟩, fun _ _ _ _ _ h => nomatch h⟩

/-- A parent destroys its child, which the other processor runs, twice. -/
def destroyedTwice : List Event :=
  [.start 0, callEvent 0 7 0 0 0 0 0, callEvent 0 8 0x1001#32 2 0 0 0,
    .start 1, callEvent 0 3 0x1001#32 0 0 0 0, callEvent 0 3 0x1001#32 0 0 0 0]

end Lifetime

end Jos
