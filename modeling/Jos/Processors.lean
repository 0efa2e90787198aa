import Jos.Steps

/-!
# Processors and the environments they run

`Procs` relates `env_status` to the processors: a processor that runs user code
has an environment of its own, which is not free and not runnable; and every
running or dying environment is some processor's.  With `Slots`, the order of
the environment table, this is `Orderly`.

A processor enters the kernel with the environment it has, and leaves it for a
runnable one, for its own, or for none; this module shows that order is kept.
-/

namespace Jos

open Programs LinkedList

structure Procs (k : Kernel) : Prop where
  slot : ∀ c e, k.curenv c = some e → e < nenv
  user : ∀ c, (k.cpus c).place = .user → ∃ e, k.curenv c = some e ∧
    (k.envs e).envStatus ≠ .free ∧ (k.envs e).envStatus ≠ .runnable
  kernel : ∀ c e, (k.cpus c).place = .kernel → k.curenv c = some e →
    (k.envs e).envStatus ≠ .free
  off : ∀ c, (k.cpus c).place = .boot ∨ (k.cpus c).place = .idle →
    k.curenv c = none
  inj : ∀ c c' e, k.curenv c = some e → k.curenv c' = some e → c = c'
  running : ∀ e, e < nenv → (k.envs e).envStatus = .running →
    ∃ c, k.curenv c = some e
  dying : ∀ e, e < nenv → (k.envs e).envStatus = .dying →
    ∃ c, k.curenv c = some e
  halted : ∀ c, (k.cpus c).cpuStatus = .halted ↔ (k.cpus c).place = .idle

/-- The environment table and the processors are in order. -/
structure Orderly (k : Kernel) : Prop where
  slots : Slots k
  procs : Procs k

/-- Processor `c` is in the kernel, alone, and holds the lock. -/
structure InKernel (c : Nat) (k : Kernel) : Prop where
  lock : k.kernelLock = some c
  here : (k.cpus c).place = .kernel
  alone : ∀ c', (k.cpus c').place = .kernel → c' = c

/-- No processor is in the kernel. -/
structure Outside (k : Kernel) : Prop where
  lock : k.kernelLock = none
  nobody : ∀ c, (k.cpus c).place ≠ .kernel

/-- The environment of processor `c` is not a zombie. -/
def NotDying (c : Nat) (k : Kernel) : Prop :=
  ∀ e, k.curenv c = some e → (k.envs e).envStatus ≠ .dying

section Basics

variable {k k' : Kernel} {c c' e : Nat}

theorem InKernel.congr (h : InKernel c k) (hc : SameCpus k k') :
    InKernel c k' := by
  refine ⟨hc.kernelLock.trans h.lock, ?_, fun c' hp => h.alone c' ?_⟩
  · rw [hc.cpus]
    exact h.here
  · rwa [hc.cpus] at hp

/-- With a processor alone in the kernel, the others that have an environment
run it. -/
theorem Procs.other_user
    (h : Procs k) (hin : InKernel c k) (hc : c' ≠ c)
    (he : k.curenv c' = some e) :
    (k.cpus c').place = .user ∧
      (k.envs e).envStatus ≠ .free ∧ (k.envs e).envStatus ≠ .runnable := by
  have hplace : (k.cpus c').place = .user := by
    cases hp : (k.cpus c').place with
    | user => rfl
    | kernel => exact absurd (hin.alone c' hp) hc
    | boot =>
        rw [h.off c' (Or.inl hp)] at he
        exact absurd he (by simp)
    | idle =>
        rw [h.off c' (Or.inr hp)] at he
        exact absurd he (by simp)
  obtain ⟨e', he', hst⟩ := h.user c' hplace
  obtain rfl := Option.some.inj (he.symm.trans he')
  exact ⟨hplace, hst⟩

/-- Only the statuses of environments matter. -/
theorem Procs.congr (h : Procs k) (hcpus : k'.cpus = k.cpus)
    (hst : ∀ e, (k'.envs e).envStatus = (k.envs e).envStatus) : Procs k' := by
  have hcur : ∀ c, k'.curenv c = k.curenv c := fun c => by
    unfold Kernel.curenv
    rw [hcpus]
  refine ⟨?_, ?_, ?_, ?_, ?_, ?_, ?_, ?_⟩
  · intro c e he
    exact h.slot c e (hcur c ▸ he)
  · intro c hp
    rw [hcpus] at hp
    obtain ⟨e, he, hs⟩ := h.user c hp
    refine ⟨e, (hcur c).trans he, ?_⟩
    rwa [hst e]
  · intro c e hp he
    rw [hcpus] at hp
    rw [hst e]
    exact h.kernel c e hp (hcur c ▸ he)
  · intro c hp
    rw [hcpus] at hp
    exact (hcur c).trans (h.off c hp)
  · intro c c' e he he'
    exact h.inj c c' e (hcur c ▸ he) (hcur c' ▸ he')
  · intro e he hs
    obtain ⟨c, hc⟩ := h.running e he (hst e ▸ hs)
    exact ⟨c, (hcur c).trans hc⟩
  · intro e he hs
    obtain ⟨c, hc⟩ := h.dying e he (hst e ▸ hs)
    exact ⟨c, (hcur c).trans hc⟩
  · intro c
    rw [hcpus]
    exact h.halted c

/-- One environment changes its status: it does not become one that a processor
must have, nor one that a processor must not have if another has it. -/
theorem Procs.setStatus
    (h : Procs k) (hin : InKernel c k) (hcpus : k'.cpus = k.cpus)
    (hrest : ∀ e', e' ≠ e → (k'.envs e').envStatus = (k.envs e').envStatus)
    (hothers : (k'.envs e).envStatus = .notRunnable ∨
      ∀ c', c' ≠ c → k.curenv c' ≠ some e)
    (hrun : (k'.envs e).envStatus ≠ .running)
    (hdying : (k'.envs e).envStatus ≠ .dying)
    (hfree : k.curenv c = some e → (k'.envs e).envStatus ≠ .free) :
    Procs k' := by
  have hcur : ∀ c, k'.curenv c = k.curenv c := fun c => by
    unfold Kernel.curenv
    rw [hcpus]
  refine ⟨?_, ?_, ?_, ?_, ?_, ?_, ?_, ?_⟩
  · intro c' e' he'
    exact h.slot c' e' (hcur c' ▸ he')
  · intro c' hp
    rw [hcpus] at hp
    have hc : c' ≠ c := by
      rintro rfl
      rw [hin.here] at hp
      exact absurd hp (by decide)
    obtain ⟨e', he', hs⟩ := h.user c' hp
    refine ⟨e', (hcur c').trans he', ?_⟩
    by_cases hne : e' = e
    · subst hne
      rcases hothers with hst | hothers
      · rw [hst]
        decide
      · exact absurd he' (hothers c' hc)
    · rwa [hrest e' hne]
  · intro c' e' hp he'
    rw [hcpus] at hp
    rw [hcur] at he'
    obtain rfl := hin.alone c' hp
    by_cases hne : e' = e
    · subst hne
      exact hfree he'
    · rw [hrest e' hne]
      exact h.kernel c' e' hp he'
  · intro c' hp
    rw [hcpus] at hp
    exact (hcur c').trans (h.off c' hp)
  · intro c₁ c₂ e' h₁ h₂
    exact h.inj c₁ c₂ e' (hcur c₁ ▸ h₁) (hcur c₂ ▸ h₂)
  · intro e' he' hs
    have hne : e' ≠ e := fun hh => hrun (hh ▸ hs)
    obtain ⟨c', hc'⟩ := h.running e' he' (hrest e' hne ▸ hs)
    exact ⟨c', (hcur c').trans hc'⟩
  · intro e' he' hs
    have hne : e' ≠ e := fun hh => hdying (hh ▸ hs)
    obtain ⟨c', hc'⟩ := h.dying e' he' (hrest e' hne ▸ hs)
    exact ⟨c', (hcur c').trans hc'⟩
  · intro c'
    rw [hcpus]
    exact h.halted c'

/-- An environment that another processor runs is to be freed by that
processor. -/
theorem Procs.setDying
    (h : Procs k) (hin : InKernel c k)
    (hrun : (k.envs e).envStatus = .running) (hcur : k.curenv c ≠ some e) :
    Procs (k.setStatus e .dying) := by
  have hrest : ∀ e', e' ≠ e →
      ((k.setStatus e .dying).envs e').envStatus = (k.envs e').envStatus :=
    fun e' hne => by rw [Kernel.setStatus, Kernel.modifyEnv_envs_of_ne hne]
  have hself : ((k.setStatus e .dying).envs e).envStatus = .dying := by
    simp [Kernel.setStatus]
  refine ⟨h.slot, ?_, ?_, h.off, h.inj, ?_, ?_, h.halted⟩
  · intro c' hp
    obtain ⟨e', he', hs⟩ := h.user c' hp
    refine ⟨e', he', ?_⟩
    by_cases hne : e' = e
    · subst hne
      rw [hself]
      decide
    · rwa [hrest e' hne]
  · intro c' e' hp he'
    obtain rfl := hin.alone c' hp
    have hne : e' ≠ e := fun hh => hcur (hh ▸ he')
    rw [hrest e' hne]
    exact h.kernel c' e' hp he'
  · intro e' he' hs
    by_cases hne : e' = e
    · subst hne
      rw [hself] at hs
      exact absurd hs (by decide)
    · exact h.running e' he' (hrest e' hne ▸ hs)
  · intro e' he' hs
    by_cases hne : e' = e
    · subst hne
      exact h.running e' he' hrun
    · exact h.dying e' he' (hrest e' hne ▸ hs)

end Basics

/-! ## Entering and leaving the kernel -/

section Borders

variable {k k' : Kernel} {c c' e j d : Nat}

/-- Processor `c` enters the kernel with the environment it has. -/
theorem Procs.enter
    (h : Procs k) (hout : Outside k)
    (hothers : ∀ c', c' ≠ c → k'.cpus c' = k.cpus c')
    (hhere : (k'.cpus c).cpuEnv = (k.cpus c).cpuEnv)
    (hplace : (k'.cpus c).place = .kernel)
    (hstatus : (k'.cpus c).cpuStatus ≠ .halted) (henvs : k'.envs = k.envs) :
    Procs k' := by
  have hcur : ∀ c', k'.curenv c' = k.curenv c' := by
    intro c'
    by_cases hc : c' = c
    · rw [hc]
      exact hhere
    · unfold Kernel.curenv
      rw [hothers c' hc]
  have hne : ∀ c', (k'.cpus c').place ≠ .kernel → c' ≠ c := by
    rintro c' hp rfl
    exact hp hplace
  refine ⟨?_, ?_, ?_, ?_, ?_, ?_, ?_, ?_⟩
  · intro c' e he
    exact h.slot c' e (hcur c' ▸ he)
  · intro c' hp
    have hc := hne c' (by rw [hp]; decide)
    rw [hothers c' hc] at hp
    obtain ⟨e, he, hs⟩ := h.user c' hp
    exact ⟨e, (hcur c').trans he, henvs ▸ hs⟩
  · intro c' e hp he
    rw [hcur c'] at he
    rw [henvs]
    cases hold : (k.cpus c').place with
    | kernel => exact absurd hold (hout.nobody c')
    | user =>
        obtain ⟨e', he', hs⟩ := h.user c' hold
        obtain rfl := Option.some.inj (he.symm.trans he')
        exact hs.1
    | boot =>
        rw [h.off c' (Or.inl hold)] at he
        exact absurd he (by simp)
    | idle =>
        rw [h.off c' (Or.inr hold)] at he
        exact absurd he (by simp)
  · intro c' hp
    have hc := hne c' (by rcases hp with hp | hp <;> rw [hp] <;> decide)
    rw [hothers c' hc] at hp
    exact (hcur c').trans (h.off c' hp)
  · intro c₁ c₂ e h₁ h₂
    exact h.inj c₁ c₂ e (hcur c₁ ▸ h₁) (hcur c₂ ▸ h₂)
  · intro e he hs
    rw [henvs] at hs
    obtain ⟨c', hc'⟩ := h.running e he hs
    exact ⟨c', (hcur c').trans hc'⟩
  · intro e he hs
    rw [henvs] at hs
    obtain ⟨c', hc'⟩ := h.dying e he hs
    exact ⟨c', (hcur c').trans hc'⟩
  · intro c'
    by_cases hc : c' = c
    · subst hc
      rw [hplace]
      exact ⟨fun hh => absurd hh hstatus, fun hh => absurd hh (by decide)⟩
    · rw [hothers c' hc]
      exact h.halted c'

theorem enters_cpus_self :
    (k.enters c).cpus c = { k.cpus c with place := .kernel } := by
  simp [Kernel.enters, Kernel.setPlace]

theorem enters_cpus_of_ne (hc : c' ≠ c) :
    (k.enters c).cpus c' = k.cpus c' := by
  simp [Kernel.enters, Kernel.setPlace, Kernel.modifyCpu_cpus_of_ne hc]

theorem traps_cpus_self :
    (k.traps c).cpus c =
      { k.cpus c with place := .kernel, cpuStatus := .started } := by
  simp [Kernel.traps, Kernel.setCpuStatus, enters_cpus_self]

theorem traps_cpus_of_ne (hc : c' ≠ c) :
    (k.traps c).cpus c' = k.cpus c' := by
  simp [Kernel.traps, Kernel.setCpuStatus, Kernel.modifyCpu_cpus_of_ne hc,
    enters_cpus_of_ne hc]

theorem inKernel_of_enters (hout : Outside k) (hlock : k'.kernelLock = some c)
    (hplace : (k'.cpus c).place = .kernel)
    (hothers : ∀ c', c' ≠ c → k'.cpus c' = k.cpus c') : InKernel c k' := by
  refine ⟨hlock, hplace, fun c' hp => ?_⟩
  by_contra hc
  rw [hothers c' hc] at hp
  exact hout.nobody c' hp

theorem Orderly.traps (h : Orderly k) (hout : Outside k) :
    Orderly (k.traps c) ∧ InKernel c (k.traps c) := by
  refine ⟨⟨⟨h.slots.freeChain, h.slots.pgdir_none, h.slots.id_slot⟩,
    h.procs.enter hout (fun c' hc => traps_cpus_of_ne hc) ?_ ?_ ?_ rfl⟩,
    inKernel_of_enters hout rfl ?_ (fun c' hc => traps_cpus_of_ne hc)⟩
  · rw [traps_cpus_self]
  · rw [traps_cpus_self]
  · rw [traps_cpus_self]
    exact fun hh => absurd hh (by simp)
  · rw [traps_cpus_self]

theorem Orderly.enters (h : Orderly k) (hout : Outside k)
    (hboot : (k.cpus c).place = .boot) :
    Orderly (k.enters c) ∧ InKernel c (k.enters c) := by
  refine ⟨⟨⟨h.slots.freeChain, h.slots.pgdir_none, h.slots.id_slot⟩,
    h.procs.enter hout (fun c' hc => enters_cpus_of_ne hc) ?_ ?_ ?_ rfl⟩,
    inKernel_of_enters hout rfl ?_ (fun c' hc => enters_cpus_of_ne hc)⟩
  · rw [enters_cpus_self]
  · rw [enters_cpus_self]
  · rw [enters_cpus_self]
    intro hh
    have hidle := (h.procs.halted c).mp hh
    rw [hboot] at hidle
    exact absurd hidle (by decide)
  · rw [enters_cpus_self]

theorem dispatched_curenv_self :
    (k.dispatched c j d).curenv c = some j := by
  simp [Kernel.dispatched, Kernel.curenv]

theorem dispatched_cpus_of_ne (hc : c' ≠ c) :
    (k.dispatched c j d).cpus c' = k.cpus c' := by
  simp [Kernel.dispatched, hc]

theorem dispatched_curenv_of_ne (hc : c' ≠ c) :
    (k.dispatched c j d).curenv c' = k.curenv c' := by
  unfold Kernel.curenv
  rw [dispatched_cpus_of_ne hc]

theorem dispatched_status_self :
    ((k.dispatched c j d).envs j).envStatus = .running := by
  simp [Kernel.dispatched]

/-- The processor leaves a running environment runnable. -/
theorem dispatched_status (he : e ≠ j) :
    ((k.dispatched c j d).envs e).envStatus =
      if k.curenv c = some e ∧ (k.envs e).envStatus = .running then .runnable
      else (k.envs e).envStatus := by
  simp only [Kernel.dispatched, if_neg he]
  split <;> rfl

theorem dispatched_status_of_other (he : e ≠ j) (hcur : k.curenv c ≠ some e) :
    ((k.dispatched c j d).envs e).envStatus = (k.envs e).envStatus := by
  rw [dispatched_status he, if_neg (fun h => hcur h.1)]

/-- Dropping into an environment that is runnable or current. -/
theorem Procs.dispatched
    (h : Procs k) (hin : InKernel c k) (halive : NotDying c k) (hj : j < nenv)
    (hpick : (k.envs j).envStatus = .runnable ∨ k.curenv c = some j) :
    Procs (k.dispatched c j d) := by
  -- no other processor has the environment
  have hothers : ∀ c', c' ≠ c → k.curenv c' ≠ some j := by
    intro c' hc he
    rcases hpick with hs | hcur
    · exact (h.other_user hin hc he).2.2 hs
    · exact hc (h.inj c' c j he hcur)
  refine ⟨?_, ?_, ?_, ?_, ?_, ?_, ?_, ?_⟩
  · intro c' e he
    by_cases hc : c' = c
    · subst hc
      rw [dispatched_curenv_self] at he
      obtain rfl := Option.some.inj he
      exact hj
    · rw [dispatched_curenv_of_ne hc] at he
      exact h.slot c' e he
  · intro c' hp
    by_cases hc : c' = c
    · subst hc
      refine ⟨j, dispatched_curenv_self, ?_⟩
      rw [dispatched_status_self]
      decide
    · rw [dispatched_cpus_of_ne hc] at hp
      obtain ⟨e, he, hs⟩ := h.user c' hp
      refine ⟨e, (dispatched_curenv_of_ne hc).trans he, ?_⟩
      have hne : e ≠ j := fun hh => hothers c' hc (hh ▸ he)
      rwa [dispatched_status_of_other hne (fun hh => hc (h.inj c' c e he hh))]
  · intro c' e hp he
    by_cases hc : c' = c
    · subst hc
      simp [Kernel.dispatched] at hp
    · rw [dispatched_cpus_of_ne hc] at hp
      exact absurd (hin.alone c' hp) hc
  · intro c' hp
    by_cases hc : c' = c
    · subst hc
      simp [Kernel.dispatched] at hp
    · rw [dispatched_cpus_of_ne hc] at hp
      exact (dispatched_curenv_of_ne hc).trans (h.off c' hp)
  · intro c₁ c₂ e h₁ h₂
    by_cases hc₁ : c₁ = c
    · by_cases hc₂ : c₂ = c
      · rw [hc₁, hc₂]
      · rw [hc₁, dispatched_curenv_self] at h₁
        rw [dispatched_curenv_of_ne hc₂] at h₂
        exact absurd (h₂.trans h₁.symm) (hothers c₂ hc₂)
    · rw [dispatched_curenv_of_ne hc₁] at h₁
      by_cases hc₂ : c₂ = c
      · rw [hc₂, dispatched_curenv_self] at h₂
        exact absurd (h₁.trans h₂.symm) (hothers c₁ hc₁)
      · rw [dispatched_curenv_of_ne hc₂] at h₂
        exact h.inj c₁ c₂ e h₁ h₂
  · intro e he hs
    by_cases hej : e = j
    · exact ⟨c, hej ▸ dispatched_curenv_self⟩
    · rw [dispatched_status hej] at hs
      split at hs
      · exact absurd hs (by decide)
      · rename_i hno
        obtain ⟨c', hc'⟩ := h.running e he hs
        have hc : c' ≠ c := fun hh => hno ⟨hh ▸ hc', hs⟩
        exact ⟨c', (dispatched_curenv_of_ne hc).trans hc'⟩
  · intro e he hs
    by_cases hej : e = j
    · subst hej
      rw [dispatched_status_self] at hs
      exact absurd hs (by decide)
    · rw [dispatched_status hej] at hs
      split at hs
      · exact absurd hs (by decide)
      · obtain ⟨c', hc'⟩ := h.dying e he hs
        have hc : c' ≠ c := fun hh => halive e (hh ▸ hc') hs
        exact ⟨c', (dispatched_curenv_of_ne hc).trans hc'⟩
  · intro c'
    by_cases hc : c' = c
    · subst hc
      have hstatus : (k.cpus c').cpuStatus ≠ .halted := fun hh => by
        have hidle := (h.halted c').mp hh
        rw [hin.here] at hidle
        exact absurd hidle (by decide)
      simp [Kernel.dispatched, hstatus]
    · rw [dispatched_cpus_of_ne hc]
      exact h.halted c'

/-- Going to sleep, with no environment that runs or dies. -/
theorem Procs.haltedOn
    (h : Procs k) (hin : InKernel c k) (halive : NotDying c k)
    (hidle : ∀ e, k.curenv c = some e → (k.envs e).envStatus ≠ .running) :
    Procs (k.haltedOn c) := by
  have hself : (k.haltedOn c).cpus c = ⟨.halted, none, .idle⟩ := by
    simp [Kernel.haltedOn]
  have hne : ∀ c', c' ≠ c → (k.haltedOn c).cpus c' = k.cpus c' := fun c' hc => by
    simp [Kernel.haltedOn, hc]
  have hcur : ∀ c', c' ≠ c → (k.haltedOn c).curenv c' = k.curenv c' :=
    fun c' hc => by
      unfold Kernel.curenv
      rw [hne c' hc]
  have hcurself : (k.haltedOn c).curenv c = none := by
    unfold Kernel.curenv
    rw [hself]
  have hof : ∀ c' e, (k.haltedOn c).curenv c' = some e →
      c' ≠ c ∧ k.curenv c' = some e := by
    intro c' e he
    by_cases hc : c' = c
    · rw [hc, hcurself] at he
      exact absurd he (by simp)
    · exact ⟨hc, (hcur c' hc).symm.trans he⟩
  refine ⟨?_, ?_, ?_, ?_, ?_, ?_, ?_, ?_⟩
  · intro c' e he
    exact h.slot c' e (hof c' e he).2
  · intro c' hp
    have hc : c' ≠ c := by
      rintro rfl
      rw [hself] at hp
      exact absurd hp (by decide)
    rw [hne c' hc] at hp
    obtain ⟨e, he, hs⟩ := h.user c' hp
    exact ⟨e, (hcur c' hc).trans he, hs⟩
  · intro c' e hp he
    obtain ⟨hc, he⟩ := hof c' e he
    rw [hne c' hc] at hp
    exact h.kernel c' e hp he
  · intro c' hp
    by_cases hc : c' = c
    · rw [hc]
      exact hcurself
    · rw [hne c' hc] at hp
      exact (hcur c' hc).trans (h.off c' hp)
  · intro c₁ c₂ e h₁ h₂
    exact h.inj c₁ c₂ e (hof c₁ e h₁).2 (hof c₂ e h₂).2
  · intro e he hs
    obtain ⟨c', hc'⟩ := h.running e he hs
    have hc : c' ≠ c := fun hh => hidle e (hh ▸ hc') hs
    exact ⟨c', (hcur c' hc).trans hc'⟩
  · intro e he hs
    obtain ⟨c', hc'⟩ := h.dying e he hs
    have hc : c' ≠ c := fun hh => halive e (hh ▸ hc') hs
    exact ⟨c', (hcur c' hc).trans hc'⟩
  · intro c'
    by_cases hc : c' = c
    · rw [hc, hself]
      decide
    · rw [hne c' hc]
      exact h.halted c'

theorem outside_dispatched (hin : InKernel c k) :
    Outside (k.dispatched c j d) := by
  refine ⟨rfl, fun c' hp => ?_⟩
  by_cases hc : c' = c
  · subst hc
    simp [Kernel.dispatched] at hp
  · rw [dispatched_cpus_of_ne hc] at hp
    exact hc (hin.alone c' hp)

theorem outside_haltedOn (hin : InKernel c k) : Outside (k.haltedOn c) := by
  refine ⟨rfl, fun c' hp => ?_⟩
  by_cases hc : c' = c
  · simp [Kernel.haltedOn, hc] at hp
  · simp only [Kernel.haltedOn, Function.update_of_ne hc] at hp
    exact hc (hin.alone c' hp)

/-- Dispatching changes the status, the run count and the processor number of
environments, and nothing else of them. -/
theorem dispatched_envs (e : Nat) :
    (k.dispatched c j d).envs e =
      { k.envs e with
        envStatus := ((k.dispatched c j d).envs e).envStatus
        envRuns := ((k.dispatched c j d).envs e).envRuns
        envCpunum := ((k.dispatched c j d).envs e).envCpunum } := by
  by_cases he : e = j
  · subst he
    simp [Kernel.dispatched]
  · by_cases hcur : k.curenv c = some e ∧ (k.envs e).envStatus = .running <;>
      simp [Kernel.dispatched, he, hcur]

theorem sameTable_dispatched (hfree : (k.envs j).envStatus ≠ .free) :
    SameTable k (k.dispatched c j d) := by
  refine ⟨rfl, ?_, ?_, ?_, ?_⟩
  · intro e
    rw [dispatched_envs]
  · intro e
    rw [dispatched_envs]
  · intro e
    rw [dispatched_envs]
  · intro e
    by_cases he : e = j
    · subst he
      rw [dispatched_status_self]
      exact ⟨fun hh => absurd hh (by decide), fun hh => absurd hh hfree⟩
    · rw [dispatched_status he]
      split
      · rename_i hrun
        rw [hrun.2]
        decide
      · exact Iff.rfl

theorem sameTable_haltedOn : SameTable k (k.haltedOn c) :=
  ⟨rfl, fun _ => rfl, fun _ => rfl, fun _ => rfl, fun _ => Iff.rfl⟩

/-- The processor leaves the kernel for an environment that is runnable or its
own. -/
theorem Orderly.dispatched
    (h : Orderly k) (hin : InKernel c k) (halive : NotDying c k) (hj : j < nenv)
    (hpick : (k.envs j).envStatus = .runnable ∨ k.curenv c = some j) :
    Orderly (k.dispatched c j d) ∧ Outside (k.dispatched c j d) := by
  have hfree : (k.envs j).envStatus ≠ .free := by
    rcases hpick with hs | hcur
    · rw [hs]
      decide
    · exact h.procs.kernel c j hin.here hcur
  exact ⟨⟨h.slots.congr (sameTable_dispatched hfree),
    h.procs.dispatched hin halive hj hpick⟩, outside_dispatched hin⟩

theorem Orderly.haltedOn
    (h : Orderly k) (hin : InKernel c k) (halive : NotDying c k)
    (hidle : ∀ e, k.curenv c = some e → (k.envs e).envStatus ≠ .running) :
    Orderly (k.haltedOn c) ∧ Outside (k.haltedOn c) :=
  ⟨⟨h.slots.congr sameTable_haltedOn, h.procs.haltedOn hin halive hidle⟩,
    outside_haltedOn hin⟩

theorem Picks.slot_lt (h : Orderly k) (hpick : Picks k c j) : j < nenv := by
  rcases hpick with ⟨i, -, rfl, -⟩ | ⟨-, hcur, -⟩
  · exact schedSlot_lt k c i
  · exact h.procs.slot c j hcur

theorem Picks.status (hpick : Picks k c j) :
    (k.envs j).envStatus = .runnable ∨ k.curenv c = some j := by
  rcases hpick with ⟨i, -, rfl, hs, -⟩ | ⟨-, hcur, -⟩
  · exact Or.inl hs
  · exact Or.inr hcur

/-- However `sched_yield` ends, order is kept. -/
theorem Orderly.yields
    (h : Orderly k) (hin : InKernel c k) (halive : NotDying c k)
    (hy : Yields k c k') : Orderly k' ∧ Outside k' := by
  cases hy with
  | dispatch j d hpick _ =>
      exact h.dispatched hin halive (hpick.slot_lt h) hpick.status
  | halt _ hidle _ => exact h.haltedOn hin halive hidle

theorem Orderly.resumes
    (h : Orderly k) (hin : InKernel c k) (halive : NotDying c k)
    (hr : Resumes c k k') : Orderly k' ∧ Outside k' := by
  cases hr with
  | same cur d hcur _ _ hk =>
      rw [hk]
      exact h.dispatched hin halive (h.procs.slot c cur hcur) (Or.inr hcur)
  | other _ hy => exact h.yields hin halive hy

end Borders

end Jos
