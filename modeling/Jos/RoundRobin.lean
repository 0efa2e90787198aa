import Jos.Boot
import Jos.Frame

/-!
# The order in which environments run

On one processor the only thing that says whose turn it is next is `curenv`.  `SchedRun`
is a run together with its calls of `sched_yield`: each of them is made with the
environment that ran last in `curenv`, or after `env_destroy` has cleared it.  Every run
has these calls (`RunOf.calls`).

`ahead` is how far the search has to go from one slot to another.  It gets smaller with
every call that passes a runnable environment by (`InTurn.passed`), and so nobody runs
twice before an environment that waits (`round_robin`); but only as long as an
environment that is destroyed has none that waits in the slots behind it.
-/

namespace Jos

open Programs

/-- Processor `c`, on its way from state `k`, calls `sched_yield` in state `k₁`. -/
inductive Reaches (c : Nat) (k k₁ : Kernel) : Prop where
  /-- The environment that ran last is still there. -/
  | keeps : k₁.curenv c = k.curenv c →
      (∀ cur, k.curenv c = some cur → cur < nenv ∧ envx (k₁.envs cur).envId = cur) →
      Reaches c k k₁
  /-- It was destroyed. -/
  | dies (cur : Nat) : k.curenv c = some cur → cur < nenv → k₁.curenv c = none →
      Reaches c k k₁

/-- The calls of `sched_yield` in a run on one processor, the last first: in which state
it is called, and the state that it leaves. -/
inductive SchedRun (managed : Set Nat) (Ok : Kernel → Kernel → Prop) :
    List (Kernel × Kernel) → Kernel → Prop where
  | boot {k : Kernel} : Booted managed k → SchedRun managed Ok [] k
  | stays {calls : List (Kernel × Kernel)} {k k' : Kernel} (ev : Event) :
      SchedRun managed Ok calls k → (∀ c, ev.cpu = some c → c = 0) →
      ev.step k = some k' → k'.curenv 0 = k.curenv 0 → SchedRun managed Ok calls k'
  | calls {calls : List (Kernel × Kernel)} {k k₁ k' : Kernel} (ev : Event) :
      SchedRun managed Ok calls k → (∀ c, ev.cpu = some c → c = 0) →
      ev.step k = some k' → Reaches 0 k k₁ → k₁.kernelLock = some 0 →
      (schedYield 0).run k₁ = .exit k' → Ok k k₁ → SchedRun managed Ok ((k₁, k') :: calls) k'

/-- Between two dispatches of an environment, every other one that was runnable all the
time has been dispatched. -/
def RoundRobin (calls : List (Kernel × Kernel)) : Prop :=
  ∀ later between earlier first last f g, calls = later ++ last :: (between ++ first :: earlier) →
    first.2.curenv 0 = some f → last.2.curenv 0 = some f →
    (∀ x, x ∈ between → x.2.curenv 0 ≠ some f) → g < nenv →
    (∀ x, x ∈ last :: (between ++ [first]) → (x.1.envs g).envStatus = .runnable) →
    ∃ x, x ∈ last :: between ∧ x.2.curenv 0 = some g

/-- If the environment that ran last was destroyed, none in a slot behind it is
runnable. -/
def NoneBehind (k k₁ : Kernel) : Prop :=
  k₁.curenv 0 = none → ∀ cur, k.curenv 0 = some cur →
    ∀ g, cur < g → g < nenv → (k₁.envs g).envStatus ≠ .runnable

/-! ## One call -/

/-- How many slots behind `d` the slot `g` is, in circular order. -/
def ahead (d g : Nat) : Nat := (g + nenv - d - 1) % nenv + 1

section Calls

variable {k k₁ k' : Kernel} {c d g j : Nat}

/-- `sched_yield` chooses one environment. -/
theorem Picks.unique {j' : Nat} (h : Picks k c j) (h' : Picks k c j') : j = j' := by
  rcases h with ⟨i, hi, rfl, hrun, hfirst⟩ | ⟨hnone, hcur, -⟩
  · rcases h' with ⟨i', hi', rfl, hrun', hfirst'⟩ | ⟨hnone, -, -⟩
    · rcases Nat.lt_trichotomy i i' with hlt | rfl | hlt
      · exact absurd hrun (hfirst' i hlt)
      · rfl
      · exact absurd hrun' (hfirst i' hlt)
    · exact absurd hrun (hnone _ (schedSlot_lt k c i))
  · rcases h' with ⟨i', hi', rfl, hrun', -⟩ | ⟨-, hcur', -⟩
    · exact absurd hrun' (hnone _ (schedSlot_lt k c i'))
    · exact Option.some.inj (hcur.symm.trans hcur')

theorem Yields.unique {k'' : Kernel} (h : Yields k c k') (h' : Yields k c k'') : k' = k'' := by
  have hpicks : ∀ j, Picks k c j → k.NoneRunnable →
      (∀ j, k.curenv c = some j → (k.envs j).envStatus ≠ .running) → False := by
    rintro j (⟨i, -, rfl, hrun, -⟩ | ⟨-, hcur, hrun⟩) hnone hidle
    · exact hnone _ (schedSlot_lt k c i) hrun
    · exact hidle j hcur hrun
  cases h with
  | dispatch j d hj hd =>
      cases h' with
      | dispatch j' d' hj' hd' =>
          obtain rfl := hj.unique hj'
          obtain rfl := Option.some.inj (hd.symm.trans hd')
          rfl
      | halt hnone hidle _ => exact (hpicks j hj hnone hidle).elim
  | halt hnone hidle _ =>
      cases h' with
      | dispatch j' d' hj' hd' => exact (hpicks j' hj' hnone hidle).elim
      | halt _ _ _ => rfl

/-- How `sched_yield` ends is how it runs. -/
theorem Yields.run (hlock : k.kernelLock = some c)
    (hslot : ∀ cur, k.curenv c = some cur → cur < nenv) (h : Yields k c k') :
    (schedYield c).run k = .exit k' := by
  have hwp := schedYield_wp hlock
  unfold wp at hwp
  cases hrun : (schedYield c).run k with
  | ret a k₂ =>
      rw [hrun] at hwp
      exact hwp.elim
  | exit k₂ =>
      rw [hrun] at hwp
      rw [Yields.unique h hwp]
  | stop k₂ =>
      rw [hrun] at hwp
      rcases hwp with hidle | ⟨j, hj, hd⟩
      · cases h with
        | dispatch j d hj hd =>
            refine absurd ?_ hidle
            rcases hj with ⟨i, -, rfl, hr, -⟩ | ⟨-, hcur, hr⟩
            · exact ⟨_, schedSlot_lt k c i, Or.inl hr⟩
            · exact ⟨j, hslot j hcur, Or.inr (Or.inl hr)⟩
        | halt _ _ hbusy => exact absurd hbusy hidle
      · cases h with
        | dispatch j' d' hj' hd' =>
            obtain rfl := hj.unique hj'
            rw [hd] at hd'
            cases hd'
        | halt hnone hidle _ =>
            rcases hj with ⟨i, -, rfl, hr, -⟩ | ⟨-, hcur, hr⟩
            · exact absurd hr (hnone _ (schedSlot_lt k c i))
            · exact absurd hr (hidle j hcur)

/-- A run of `sched_yield` is one of the ways in which it ends. -/
theorem schedYield_yields (hlock : k.kernelLock = some c)
    (hrun : (schedYield c).run k = .exit k') : Yields k c k' :=
  wp_exited (schedYield_wp hlock) hrun

/-- The search passes a runnable environment by only if it stops nearer. -/
theorem Yields.nearer (hy : Yields k c k') (hg : g < nenv) (hd : d < nenv)
    (hrun : (k.envs g).envStatus = .runnable)
    (hstart : schedStart k c = d + 1 ∨ schedStart k c = 0 ∧
      ∀ e, d < e → e < nenv → (k.envs e).envStatus ≠ .runnable)
    (hne : k'.curenv c ≠ some g) :
    ∃ j, j < nenv ∧ k'.curenv c = some j ∧ ahead j g < ahead d g := by
  cases hy with
  | halt hnone _ _ => exact absurd hrun (hnone g hg)
  | dispatch j dir hpick _ =>
      rw [dispatched_curenv_self] at hne
      have hjg : j ≠ g := fun hh => hne (congrArg some hh)
      rcases hpick with ⟨i, hi, hj, hrunj, hfirst⟩ | ⟨hnone, -, -⟩
      · refine ⟨j, hj ▸ schedSlot_lt k c i, dispatched_curenv_self, ?_⟩
        -- the turn in which `g` itself would be reached
        have hturn : ∀ i', schedSlot k c i' = g → i ≤ i' := fun i' hi' =>
          Nat.le_of_not_lt (fun hlt => hfirst i' hlt (hi' ▸ hrun))
        unfold schedSlot nenv at hj hturn
        unfold ahead nenv
        unfold nenv at hg hd
        rcases hstart with hstart | ⟨hstart, hnone⟩
        · rw [hstart] at hj hturn
          have hle := hturn ((g + 1024 - d - 1) % 1024) (by omega)
          omega
        · rw [hstart] at hj hturn
          have hle := hturn g (by omega)
          have hgd : g ≤ d := Nat.le_of_not_lt (fun hlt => hnone g hlt hg hrun)
          omega
      · exact absurd hrun (hnone g hg)

end Calls

/-! ## Runs -/

section Runs

variable {managed : Set Nat} {Ok : Kernel → Kernel → Prop} {k k₁ k' : Kernel}
  {calls : List (Kernel × Kernel)} {x y : Kernel × Kernel} {f g d : Nat}

/-- Call `x` is the one after call `y`: the search starts behind the environment that `y`
has dispatched, or at the first slot with none waiting behind that environment. -/
def InTurn (y x : Kernel × Kernel) : Prop :=
  ∀ d, y.2.curenv 0 = some d → d < nenv ∧ (schedStart x.1 0 = d + 1 ∨
    schedStart x.1 0 = 0 ∧ ∀ e, d < e → e < nenv → (x.1.envs e).envStatus ≠ .runnable)

/-- What is known of the calls of a run: how each ends, and that they follow each other. -/
structure Turns (calls : List (Kernel × Kernel)) : Prop where
  yields : ∀ x, x ∈ calls → Yields x.1 0 x.2
  chain : calls.IsChain (fun x y => InTurn y x)

/-- A runnable environment that is passed by gets nearer with every call. -/
theorem Turns.nearer {between earlier : List (Kernel × Kernel)} {first : Kernel × Kernel}
    (h : Turns (between ++ first :: earlier)) (hf : first.2.curenv 0 = some f) (hg : g < nenv)
    (hrun : ∀ x, x ∈ between → (x.1.envs g).envStatus = .runnable)
    (hne : ∀ x, x ∈ between → x.2.curenv 0 ≠ some g) :
    ∀ x rest, between = x :: rest →
      ∃ j, j < nenv ∧ x.2.curenv 0 = some j ∧ ahead j g < ahead f g := by
  induction between with
  | nil => exact fun x rest hnil => absurd hnil (by simp)
  | cons x between ih =>
      rintro _ _ ⟨⟩
      have htail : Turns (between ++ first :: earlier) :=
        ⟨fun y hy => h.yields y (List.mem_cons_of_mem x hy), h.chain.tail⟩
      have hyields := h.yields x List.mem_cons_self
      have hrunx := hrun x List.mem_cons_self
      have hnex := hne x List.mem_cons_self
      cases between with
      | nil =>
          have hturn : InTurn first x := (List.isChain_cons_cons.mp h.chain).1
          obtain ⟨hf', hstart⟩ := hturn f hf
          exact hyields.nearer hg hf' hrunx hstart hnex
      | cons y rest =>
          obtain ⟨j, hj, hcur, hnear⟩ := ih htail
            (fun z hz => hrun z (List.mem_cons_of_mem x hz))
            (fun z hz => hne z (List.mem_cons_of_mem x hz)) y rest rfl
          have hturn : InTurn y x := (List.isChain_cons_cons.mp h.chain).1
          obtain ⟨hj', hstart⟩ := hturn j hcur
          obtain ⟨i, hi, hcuri, hneari⟩ := hyields.nearer hg hj' hrunx hstart hnex
          exact ⟨i, hi, hcuri, Nat.lt_trans hneari hnear⟩

theorem Turns.roundRobin (h : Turns calls) : RoundRobin calls := by
  rintro later between earlier first last f g rfl hfirst hlast - hg hrun
  by_contra hno
  have hne : ∀ x, x ∈ last :: between → x.2.curenv 0 ≠ some g := fun x hx hcur =>
    hno ⟨x, hx, hcur⟩
  have hpart : Turns ((last :: between) ++ first :: earlier) :=
    ⟨fun x hx => h.yields x (List.mem_append_right _ hx), h.chain.right_of_append⟩
  obtain ⟨j, -, hj, hnear⟩ := hpart.nearer hfirst hg
    (fun x hx => hrun x (by
      rcases List.mem_cons.mp hx with rfl | hx
      · exact List.mem_cons_self
      · exact List.mem_cons_of_mem _ (List.mem_append_left _ hx))) hne last between rfl
  obtain rfl := Option.some.inj (hj.symm.trans hlast)
  exact Nat.lt_irrefl _ hnear

/-- What a run with its calls has done last. -/
theorem SchedRun.turns (h : SchedRun managed NoneBehind calls k) :
    Turns calls ∧ ∀ x rest, calls = x :: rest → k.curenv 0 = x.2.curenv 0 := by
  induction h with
  | boot _ =>
      refine ⟨⟨fun x hx => ?_, List.isChain_nil⟩, fun x rest hnil => absurd hnil (by simp)⟩
      exact absurd hx List.not_mem_nil
  | stays ev _ _ _ hcur ih => exact ⟨ih.1, fun x rest heq => hcur.trans (ih.2 x rest heq)⟩
  | @calls calls k k₁ k' ev _ _ _ hreach hlock hrun hok ih =>
      obtain ⟨hturns, hlast⟩ := ih
      have hyields := schedYield_yields hlock hrun
      refine ⟨⟨fun x hx => ?_, ?_⟩, ?_⟩
      · rcases List.mem_cons.mp hx with rfl | hx
        · exact hyields
        · exact hturns.yields x hx
      · cases calls with
        | nil => exact List.isChain_singleton _
        | cons y rest =>
            refine List.isChain_cons_cons.mpr ⟨fun d hd => ?_, hturns.chain⟩
            have hcur : k.curenv 0 = some d := (hlast y rest rfl).trans hd
            unfold schedStart
            cases hreach with
            | keeps hkeep hid =>
                obtain ⟨hd', hslot⟩ := hid d hcur
                refine ⟨hd', Or.inl ?_⟩
                rw [hkeep, hcur]
                exact congrArg (· + 1) hslot
            | dies cur hcur' hd' hnone =>
                obtain rfl := Option.some.inj (hcur.symm.trans hcur')
                refine ⟨hd', Or.inr ⟨?_, hok hnone d hcur⟩⟩
                rw [hnone]
      · rintro x rest ⟨⟩
        rfl

end Runs

/-! ## The calls of a run -/

/-- What a step does to `curenv`: nothing, or it ends with a call of `sched_yield`. -/
def Turn (c : Nat) (k k' : Kernel) : Prop :=
  k'.curenv c = k.curenv c ∨ ∃ k₁, Reaches c k k₁ ∧ k₁.kernelLock = some c ∧
    (schedYield c).run k₁ = .exit k'

section Steps

variable {managed : Set Nat} {k k₀ k₁ k₂ k' : Kernel} {ev : Event} {c cur : Nat}

theorem Orderly.turn_yields (h : Orderly k₁) (hin : InKernel c k₁)
    (hcur : k₁.curenv c = k.curenv c) (hy : Yields k₁ c k') : Turn c k k' := by
  refine Or.inr ⟨k₁, .keeps hcur (fun cur hc => ?_), hin.lock, hy.run hin.lock (h.procs.slot c)⟩
  rw [← hcur] at hc
  have hslot := h.procs.slot c cur hc
  exact ⟨hslot, h.slots.id_slot cur hslot (h.procs.kernel c cur hin.here hc)⟩

theorem Orderly.turn_dies (h : Orderly k₁) (hin : InKernel c k₁)
    (hcur : k₁.curenv c = k.curenv c) (hdies : Dies c cur k₁ k₂) (hy : Yields k₂ c k') :
    Turn c k k' := by
  obtain ⟨h₂, hin₂, -⟩ := h.dies hin hdies
  obtain ⟨k₃, hcur₁, -, hk₂⟩ := hdies
  refine Or.inr ⟨k₂, .dies cur (hcur.symm.trans hcur₁) (h.procs.slot c cur hcur₁) ?_, hin₂.lock,
    hy.run hin₂.lock (h₂.procs.slot c)⟩
  rw [hk₂]
  simp [Kernel.setCurenv, Kernel.curenv]

theorem Orderly.turn_resumes (h : Orderly k₁) (hin : InKernel c k₁)
    (hcur : k₁.curenv c = k.curenv c) (hr : Resumes c k₁ k') : Turn c k k' := by
  cases hr with
  | same cur d hcur' _ _ hk =>
      refine Or.inl ?_
      rw [hk, dispatched_curenv_self, ← hcur, hcur']
  | other _ hy => exact h.turn_yields hin hcur hy

theorem Orderly.turn_leaves (h : Orderly k₁) (hin : InKernel c k₁)
    (hcur : k₁.curenv c = k.curenv c) (hlive : k₁.Live cur) (hl : Leaves c cur k₁ k') :
    Turn c k k' := by
  cases hl with
  | dies k₂ k₃ hq hdies hy =>
      exact (h.sameProcs hq.procs).turn_dies (hin.congr hq.procs.sameCpus)
        (hq.procs.curenv.trans hcur) hdies hy
  | waits dstva hy =>
      exact Orderly.turn_yields (h.editStatus (e := cur) hin hlive
        (fun hr => absurd hr (by simp)) rfl rfl rfl (Or.inr rfl))
        (hin.congr ⟨rfl, rfl, rfl⟩) hcur hy
  | yields k₂ hq hy =>
      exact (h.sameProcs hq.procs).turn_yields (hin.congr hq.procs.sameCpus)
        (hq.procs.curenv.trans hcur) hy

theorem Handled.turn {io : Inputs} {tf : Trapframe} (hh : Handled io c cur tf k₁ k')
    (h : Orderly k₁) (hin : InKernel c k₁) (halive : NotDying c k₁)
    (hcur₁ : k₁.curenv c = some cur) (hcur : k₁.curenv c = k.curenv c)
    (hf : ∀ call, tf.tfTrapno = tSyscall → tf.call = some call → call.Fair k₁ c) :
    Turn c k k' := by
  have hlive : k₁.Live cur :=
    ⟨h.procs.slot c cur hcur₁, h.procs.kernel c cur hin.here hcur₁⟩
  have hresult : ∀ (k₂ : Kernel) (r : Int), Orderly k₂ → InKernel c k₂ →
      k₂.curenv c = k.curenv c → Resumes c (k₂.result cur r) k' → Turn c k k' :=
    fun k₂ r h₂ hin₂ hcur₂ hr =>
      (h₂.edit (e := cur) rfl rfl rfl rfl).turn_resumes (hin₂.congr ⟨rfl, rfl, rfl⟩) hcur₂ hr
  cases hh with
  | returns call r k₂ hsys hcall _ hs hr =>
      exact hresult k₂ r (hs.orderly h hin halive (hf call hsys hcall)).1
        (hin.congr hs.sameCpus) ((congrArg CpuInfo.cpuEnv
          (congrFun hs.sameCpus.cpus c)).trans hcur) hr
  | leaves call _ _ _ hl => exact h.turn_leaves hin hcur hlive hl
  | badCall _ _ hr => exact hresult k₁ _ h hin hcur hr
  | fault utr words k₂ k₃ d _ _ _ _ _ _ hk =>
      refine Or.inl ?_
      rw [hk, dispatched_curenv_self, ← hcur, hcur₁]
  | gone _ hl => exact h.turn_leaves hin hcur hlive hl.leaves
  | ignored _ hr => exact h.turn_resumes hin hcur hr

/-- A step of the processor, if its system call is fair. -/
theorem Event.turn (h : Orderly k) (hout : Outside k) (hf : ev.Fair k)
    (hcpu : ∀ c', ev.cpu = some c' → c' = c) (hstep : ev.step k = some k') :
    Turn c k k' := by
  cases Event.step_cases (fun c hp => (h.procs.halted c).mpr hp) hstep with
  | @start c' _ _ hplace hy =>
      obtain rfl := hcpu c' rfl
      obtain ⟨h₁, hin₁⟩ := h.enters hout hplace
      refine h₁.turn_yields hin₁ ?_ hy
      unfold Kernel.curenv
      rw [enters_cpus_self]
  | @reap c' cur tf io k₁ _ _ _ _ _ hdies hy =>
      obtain rfl := hcpu c' rfl
      obtain ⟨h₁, hin₁⟩ := h.traps (c := c') hout
      exact h₁.turn_dies hin₁ traps_curenv hdies hy
  | @serve c' cur tf io _ _ _ hcur hs hh =>
      obtain rfl := hcpu c' rfl
      obtain ⟨h₁, hin₁⟩ := h.traps (c := c') hout
      have hcur₁ : (k.traps c').curenv c' = some cur := traps_curenv.trans hcur
      have halive : NotDying c' (k.traps c') := by
        intro e he
        rw [traps_curenv] at he
        obtain rfl := Option.some.inj (hcur.symm.trans he)
        exact hs
      exact hh.turn (h₁.edit (e := cur) rfl rfl rfl rfl) (hin₁.congr ⟨rfl, rfl, rfl⟩)
        (halive.modifyEnv (Or.inl rfl)) hcur₁ (hcur₁.trans hcur.symm)
        (fun call hsys hcall => hf _ c' call (.trap hcur hs hsys hcall))
  | @wake c' tf io k₁ _ _ _ hq hr =>
      obtain rfl := hcpu c' rfl
      obtain ⟨h₁, hin₁⟩ := h.traps (c := c') hout
      have h₂ := h₁.sameProcs hq.procs
      have hin₂ := hin₁.congr hq.procs.sameCpus
      have hcur₂ := hq.procs.curenv.trans (traps_curenv (k := k) (c := c'))
      rcases hr with hr | hy
      · exact h₂.turn_resumes hin₂ hcur₂ hr
      · exact h₂.turn_yields hin₂ hcur₂ hy
  | store _ _ _ => exact Or.inl rfl
  | device hq => exact Or.inl hq.procs.curenv

/-- With one processor, every system call is fair. -/
theorem Event.fair_one (hone : ∀ c', c' ≠ 0 → k.curenv c' = none)
    (hcpu : ∀ c', ev.cpu = some c' → c' = 0) : ev.Fair k := by
  intro k₁ c call hserves op _
  obtain rfl := hcpu c hserves.cpu
  have hnobody : ∀ e, ¬ k₁.OwnedElsewhere 0 e := by
    rintro e ⟨c', hc', he⟩
    have hcpus : k₁.curenv c' = k.curenv c' := by
      unfold Kernel.curenv
      rw [hserves.cpus, traps_cpus_of_ne hc']
    rw [hcpus, hone c' hc'] at he
    cases he
  cases op with
  | setTf e tf => trivial
  | setUpcall e func => trivial
  | setStatus e st => exact fun _ => hnobody e
  | fork e => trivial
  | kill e => exact fun _ => hnobody e
  | deliver rcv value perm => exact hnobody rcv

/-- A run on one processor: what holds in its states, and its calls. -/
theorem RunOf.calls
    (h : RunOf managed (fun _ ev => ∀ c, ev.cpu = some c → c = 0) k) :
    (Orderly k ∧ Outside k ∧ ∀ c, c ≠ 0 → k.curenv c = none) ∧
      ∃ calls, SchedRun managed (fun _ _ => True) calls k := by
  induction h with
  | boot hb =>
      obtain ⟨ho, hout⟩ := hb.booting.orderly
      refine ⟨⟨ho, hout, fun c _ => ?_⟩, [], .boot hb⟩
      unfold Kernel.curenv
      rw [hb.booting.cpus c]
  | step ev _ hcpu hstep ih =>
      obtain ⟨⟨ho, hout, hone⟩, calls, hcalls⟩ := ih
      have hfair := Event.fair_one hone hcpu
      obtain ⟨ho', hout'⟩ := ev.orderly ho hout hfair hstep
      refine ⟨⟨ho', hout', fun c hc => ?_⟩, ?_⟩
      · unfold Kernel.curenv
        rw [ev.cpus_of_ne ho hstep (fun c' hc' => hcpu c' hc' ▸ hc)]
        exact hone c hc
      · rcases ev.turn ho hout hfair hcpu hstep with hstay | ⟨k₁, hreach, hlock, hrun⟩
        · exact ⟨calls, .stays ev hcalls hcpu hstep hstay⟩
        · exact ⟨_, .calls ev hcalls hcpu hstep hreach hlock hrun trivial⟩

/-- The run on one processor goes on with a call. -/
theorem RunOf.next {calls : List (Kernel × Kernel)}
    (h : RunOf managed (fun _ ev => ∀ c, ev.cpu = some c → c = 0) k)
    (hcalls : SchedRun managed (fun _ _ => True) calls k)
    (hcpu : ∀ c, ev.cpu = some c → c = 0) (hstep : ev.step k = some k')
    (hcur : k'.curenv 0 ≠ k.curenv 0) :
    ∃ k₁, Reaches 0 k k₁ ∧ Yields k₁ 0 k' ∧
      SchedRun managed (fun _ _ => True) ((k₁, k') :: calls) k' := by
  obtain ⟨⟨ho, hout, hone⟩, -⟩ := h.calls
  rcases ev.turn ho hout (Event.fair_one hone hcpu) hcpu hstep with
    hstay | ⟨k₁, hreach, hlock, hrun⟩
  · exact absurd hstay hcur
  · exact ⟨k₁, hreach, schedYield_yields hlock hrun,
      .calls ev hcalls hcpu hstep hreach hlock hrun trivial⟩

end Steps

/-! ## An environment that waits for ever -/

/-- Who waits behind a call, waited before it. -/
theorem Yields.waits {k k₁ k' : Kernel} {c g : Nat} (hy : Yields k₁ c k')
    (hreach : Reaches c k k₁) (hbefore : k.curenv c ≠ some g) (hafter : k'.curenv c ≠ some g)
    (hrun : (k'.envs g).envStatus = .runnable) : (k₁.envs g).envStatus = .runnable := by
  have hcur : k₁.curenv c ≠ some g := by
    cases hreach with
    | keeps hkeep _ =>
        rw [hkeep]
        exact hbefore
    | dies cur _ _ hnone =>
        rw [hnone]
        exact nofun
  cases hy with
  | dispatch j d _ _ =>
      rw [dispatched_curenv_self] at hafter
      rw [dispatched_status_of_other (fun hh => hafter (congrArg some hh.symm)) hcur] at hrun
      exact hrun
  | halt _ _ _ => exact hrun

/-- What is seen of three environments: which one runs, and whether the last one
waits. -/
def Waiting (k : Kernel) (cur : Option Nat) : Prop :=
  k.curenv 0 = cur ∧ (k.envs 2).envStatus = .runnable

instance (k : Kernel) (cur : Option Nat) : Decidable (Waiting k cur) :=
  inferInstanceAs (Decidable (_ ∧ _))

/-- `sys_yield`. -/
def yieldEvent : Event := callEvent 0 11 0 0 0 0 0

/-- `sys_env_destroy` of the caller. -/
def exitEvent : Event := callEvent 0 3 0 0 0 0 0

theorem callEvent_cpu {no a1 a2 a3 a4 a5 : U32} :
    ∀ c, (callEvent 0 no a1 a2 a3 a4 a5).cpu = some c → c = 0 := fun _ h =>
  (Option.some.inj h).symm

end Jos
