import Jos.Beside
import Jos.KernelLock
import Jos.RoundRobin

/-!
# Timer interrupts and the time

`time_tick` counts a timer interrupt, and `time_msec` takes it for 10
milliseconds.  Every processor has a timer of its own and counts it, as the
comment in `trap_dispatch` warns, so the time runs as many times too fast as
there are processors; with one processor it is right.  An interrupt that finds
its environment destroyed is not counted at all.
-/

namespace Jos

open Programs

/-- `time_msec`. -/
def timeMsec (k : Kernel) : U32 := k.ticks * 10#32

theorem sysTimeMsec_run (k : Kernel) : sysTimeMsec.run k = .ret (timeMsec k).toInt k := rfl

/-! ## What leaves the count alone -/

/-- The count of ticks, and the number of processors. -/
def Clock (t : U32) (n : Nat) (k : Kernel) : Prop := k.ticks = t ∧ k.ncpu = n

section Clock

variable {t : U32} {n c e : Nat}

/-- What is beside the business of a program does not change the clock. -/
theorem clock_of_beside {α : Type} {m : Prog Kernel α}
    (h : ∀ R, AnyNotes R → Ends (Beside R) m) : Ends (Clock t n) m :=
  h (fun side => side.1 = t ∧ side.2.1 = n) (fun _ _ _ _ h => h)

theorem clock_lockKernel : Ends (Clock t n) (lockKernel c) :=
  clock_of_beside (fun _ _ => beside_lockKernel)

theorem clock_schedYield : Ends (Clock t n) (schedYield c) :=
  clock_of_beside (fun _ _ => beside_schedYield)

theorem clock_envFree : Ends (Clock t n) (envFree c e) :=
  clock_of_beside (fun _ _ => beside_envFree)

variable {io : Inputs} {tf : Trapframe}

theorem clock_trapReturn : Ends (Clock t n) (trapReturn c) :=
  clock_of_beside (fun _ _ => beside_trapReturn)

/-- Any trap but a timer interrupt leaves the count alone. -/
theorem clock_trap (hno : tf.tfTrapno ≠ irqOffset + irqTimer) :
    Ends (Clock t n) (trap io c tf) :=
  clock_of_beside (fun _ hnotes => beside_trap hnotes hno)

theorem clock_startSched : Ends (Clock t n) (startSched c) :=
  clock_of_beside (fun _ _ => beside_startSched)

/-- The count is one more, and ten times it has not gone round. -/
def Ticked (t : U32) (n : Nat) (k : Kernel) : Prop :=
  Clock (t + 1#32) n k ∧ ¬ (t + 1#32) * 10#32 < t + 1#32

theorem timeTick_ret {k k' : Kernel} {a : Unit} (hrun : timeTick.run k = .ret a k') :
    k' = { k with ticks := k.ticks + 1#32 } ∧
      ¬ (k.ticks + 1#32) * 10#32 < k.ticks + 1#32 := by
  have hwp : wp timeTick (Partial (fun _ k' => k' = { k with ticks := k.ticks + 1#32 } ∧
      ¬ (k.ticks + 1#32) * 10#32 < k.ticks + 1#32) (fun _ => True)) k := by
    unfold timeTick
    rw [wp_modify_bind, wp_get_bind]
    exact wp_ite (fun _ => trivial) (fun hfits => ⟨rfl, hfits⟩)
  exact wp_ret hwp hrun

/-- A timer interrupt is counted once it is dispatched. -/
theorem trapDispatch_ticks {k k' : Kernel} (htimer : tf.tfTrapno = irqOffset + irqTimer)
    (hrun : (trapDispatch io c tf >>= fun _ => trapReturn c).run k = .exit k') :
    Ticked k.ticks k.ncpu k' := by
  have hdispatch : trapDispatch io c tf = timeTick >>= fun _ => schedYield c := by
    unfold trapDispatch
    rw [if_neg (by rw [htimer]; decide), if_neg (by rw [htimer]; decide),
      if_neg (by rw [htimer]; decide), if_neg (by rw [htimer]; decide), if_pos htimer]
  rw [hdispatch, Prog.bind_assoc] at hrun
  rcases Prog.bind_exit_iff.mp hrun with htick | ⟨a, k₁, htick, hrest⟩
  · exact (wp_exited timeTick_wp htick).elim
  · obtain ⟨rfl, hfits⟩ := timeTick_ret htick
    have hkept : Ends (Clock (k.ticks + 1#32) k.ncpu)
        (schedYield c >>= fun _ => trapReturn c) :=
      clock_schedYield.bind (fun _ => clock_trapReturn)
    have hclock : Clock (k.ticks + 1#32) k.ncpu { k with ticks := k.ticks + 1#32 } :=
      ⟨rfl, rfl⟩
    exact ⟨hkept.exits hclock hrest, hfits⟩

theorem clock_yields {k k' : Kernel} (h : Yields k c k') (hk : Clock t n k) :
    Clock t n k' := by
  cases h with
  | dispatch => exact hk
  | halt => exact hk

/-- A timer interrupt in user mode is counted unless the environment has been
destroyed. -/
theorem trap_ticks {k k' : Kernel} (htimer : tf.tfTrapno = irqOffset + irqTimer)
    (huser : tf.FromUser) (hrun : (trap io c tf).run k = .exit k') :
    (NotDying c k → Ticked k.ticks k.ncpu k') ∧
      (¬ NotDying c k → Clock k.ticks k.ncpu k') := by
  refine wp_exited (Q := LeavesIn (fun k' => (NotDying c k → Ticked k.ticks k.ncpu k') ∧
    (¬ NotDying c k → Clock k.ticks k.ncpu k'))) ?_ hrun
  refine trap_user_wp huser ?_ ?_
  · intro cur hcur hdying k₁ hdies k' hyields
    refine ⟨fun hnot => absurd hdying (hnot cur hcur), fun _ => ?_⟩
    obtain ⟨k₂, -, hfree, rfl⟩ := hdies
    have htraps : Clock k.ticks k.ncpu (k.traps c) := ⟨rfl, rfl⟩
    have hfreed : Clock k.ticks k.ncpu k₂ := clock_envFree.returns htraps hfree
    exact clock_yields hyields hfreed
  · intro cur hcur hdying
    have hcur' : ((k.traps c).saveTf cur tf).curenv c = some cur :=
      traps_curenv.trans hcur
    have hleaves : wp (trapDispatch io c tf >>= fun _ => trapReturn c)
        (LeavesIn (Handled io c cur tf ((k.traps c).saveTf cur tf)))
        ((k.traps c).saveTf cur tf) := trapDispatch_wp rfl hcur'
    have hnot : NotDying c k := by
      intro e he
      obtain rfl := Option.some.inj (he.symm.trans hcur)
      exact hdying
    unfold wp at hleaves ⊢
    cases hrest : (trapDispatch io c tf >>= fun _ => trapReturn c).run
        ((k.traps c).saveTf cur tf) with
    | ret a k₁ =>
        rw [hrest] at hleaves
        exact hleaves
    | exit k₁ =>
        have hticked := trapDispatch_ticks htimer hrest
        exact ⟨fun _ => hticked, fun hd => absurd hnot hd⟩
    | stop k₁ => trivial

/-- A timer interrupt of a halted processor is counted. -/
theorem trap_ticks_idle {k k' : Kernel} (htimer : tf.tfTrapno = irqOffset + irqTimer)
    (hkernel : ¬ tf.FromUser) (hrun : (trap io c tf).run k = .exit k') :
    Ticked k.ticks k.ncpu k' := by
  unfold trap at hrun
  rw [Prog.run_bind_ret (Prog.run_get k), Prog.run_bind_ret (Prog.run_modify _ k)] at hrun
  rcases Prog.bind_exit_iff.mp hrun with hlock | ⟨a, k₁, hlock, hrest⟩
  · have hstays : Stays (lockKernel c) := Stays.get.bind (fun _ => (Stays.modify _).ite .stop)
    exact (wp_exited (hstays.when _) hlock).elim
  · have htraps : Clock k.ticks k.ncpu ((k.setPlace c .kernel).setCpuStatus c .started) :=
      ⟨rfl, rfl⟩
    have hclock : Clock k.ticks k.ncpu k₁ :=
      (Ends.when clock_lockKernel).returns htraps hlock
    rw [Prog.when, if_neg hkernel] at hrest
    have hticked := trapDispatch_ticks htimer hrest
    rwa [hclock.1, hclock.2] at hticked

end Clock

/-! ## Where processors leave the kernel -/

/-- The environment that the processor has is running. -/
def CurRuns (c : Nat) (k : Kernel) : Prop :=
  ∀ e, k.curenv c = some e → (k.envs e).envStatus = .running

section Leaving

variable {c cur : Nat} {k k' : Kernel} {ev : Event}

theorem curRuns_dispatched {j d : Nat} : CurRuns c (k.dispatched c j d) := by
  intro e he
  rw [dispatched_curenv_self] at he
  obtain rfl := Option.some.inj he
  simp [Kernel.dispatched]

theorem Yields.curRuns (h : Yields k c k') : CurRuns c k' := by
  cases h with
  | dispatch j d _ _ => exact curRuns_dispatched
  | halt _ _ _ =>
      intro e he
      simp [Kernel.haltedOn, Kernel.curenv] at he

theorem Resumes.curRuns (h : Resumes c k k') : CurRuns c k' := by
  cases h with
  | same cur d _ _ _ hk =>
      rw [hk]
      exact curRuns_dispatched
  | other _ hy => exact hy.curRuns

theorem Leaves.curRuns (h : Leaves c cur k k') : CurRuns c k' := by
  cases h with
  | dies _ _ _ _ hy => exact hy.curRuns
  | waits _ hy => exact hy.curRuns
  | yields _ _ hy => exact hy.curRuns

theorem Handled.curRuns {io : Inputs} {tf : Trapframe} (h : Handled io c cur tf k k') :
    CurRuns c k' := by
  cases h with
  | returns _ _ _ _ _ _ _ hr => exact hr.curRuns
  | leaves _ _ _ _ hl => exact hl.curRuns
  | badCall _ _ hr => exact hr.curRuns
  | fault _ _ _ _ _ _ _ _ _ _ _ hk =>
      rw [hk]
      exact curRuns_dispatched
  | gone _ hl => exact hl.leaves.curRuns
  | ignored _ hr => exact hr.curRuns

/-- A processor runs the environment with which it leaves the kernel. -/
theorem Stepped.curRuns (h : Stepped k ev k') (hcpu : ∀ c', ev.cpu = some c' → c' = c)
    (hk : CurRuns c k) : CurRuns c k' := by
  cases h with
  | start _ _ hy =>
      obtain rfl := hcpu _ rfl
      exact hy.curRuns
  | reap _ _ _ _ _ hy =>
      obtain rfl := hcpu _ rfl
      exact hy.curRuns
  | serve _ _ _ _ hh =>
      obtain rfl := hcpu _ rfl
      exact hh.curRuns
  | wake _ _ _ hr =>
      obtain rfl := hcpu _ rfl
      exact hr.elim Resumes.curRuns Yields.curRuns
  | store _ _ _ => exact hk
  | device hq =>
      intro e he
      rw [hq.procs.envs]
      exact hk e (hq.procs.curenv.symm.trans he)

end Leaving

/-! ## Timer interrupts -/

/-- The processor that takes a timer interrupt. -/
def Event.timer : Event → Option Nat
  | .trap c tf _ => if tf.tfTrapno = irqOffset + irqTimer then some c else none
  | .interrupt c tf _ => if tf.tfTrapno = irqOffset + irqTimer then some c else none
  | _ => none

/-- A timer interrupt that finds its environment destroyed. -/
def Event.Lost (k : Kernel) : Event → Prop
  | .trap c tf _ => tf.tfTrapno = irqOffset + irqTimer ∧ ¬ NotDying c k
  | _ => False

section Interrupts

variable {k k' : Kernel} {ev : Event} {c : Nat}

theorem leaves_eq_some {α : Type} {o : Outcome Kernel α} (h : leaves o = some k') :
    o = .exit k' := by
  cases o with
  | ret a s => exact absurd h (by simp [leaves])
  | exit s => exact congrArg Outcome.exit (Option.some.inj h)
  | stop s => exact absurd h (by simp [leaves])

theorem Trapframe.Wakes.not_fromUser {tf : Trapframe} (h : tf.Wakes) : ¬ tf.FromUser := by
  unfold Trapframe.FromUser
  rw [h.1]
  decide

/-- A step that is not a timer interrupt, or is one that is lost. -/
theorem Event.step_clock (hstep : ev.step k = some k') (h : ev.timer = none ∨ ev.Lost k) :
    Clock k.ticks k.ncpu k' := by
  have hk : Clock k.ticks k.ncpu k := ⟨rfl, rfl⟩
  cases ev with
  | start c =>
      simp only [Event.step] at hstep
      split at hstep
      · exact clock_startSched.exits hk (leaves_eq_some hstep)
      · exact absurd hstep (by simp)
  | trap c tf io =>
      simp only [Event.step] at hstep
      split at hstep
      · rename_i hc
        have hrun := leaves_eq_some hstep
        by_cases htimer : tf.tfTrapno = irqOffset + irqTimer
        · have hlost := h.resolve_left (by simp [Event.timer, htimer])
          exact (trap_ticks htimer hc.2.2 hrun).2 hlost.2
        · exact (clock_trap htimer).exits hk hrun
      · exact absurd hstep (by simp)
  | interrupt c tf io =>
      simp only [Event.step] at hstep
      split at hstep
      · by_cases htimer : tf.tfTrapno = irqOffset + irqTimer
        · exact absurd h (by simp [Event.timer, Event.Lost, htimer])
        · exact (clock_trap htimer).exits hk (leaves_eq_some hstep)
      · exact absurd hstep (by simp)
  | store c va b =>
      simp only [Event.step] at hstep
      split at hstep
      · obtain ⟨p, hp, rfl⟩ := Option.map_eq_some_iff.mp hstep
        exact hk
      · exact absurd hstep (by simp)
  | device tx rx rxBuffer =>
      obtain rfl := Option.some.inj hstep
      exact hk

/-- A timer interrupt that is not lost is counted. -/
theorem Event.step_ticked (hstep : ev.step k = some k') (htimer : ev.timer = some c)
    (hfound : ¬ ev.Lost k) : Ticked k.ticks k.ncpu k' := by
  cases ev with
  | trap c tf io =>
      simp only [Event.step] at hstep
      split at hstep
      · rename_i hc
        have hno : tf.tfTrapno = irqOffset + irqTimer := by
          by_contra hne
          simp [Event.timer, hne] at htimer
        have hnot : NotDying c k := not_not.mp (fun hd => hfound ⟨hno, hd⟩)
        exact (trap_ticks hno hc.2.2 (leaves_eq_some hstep)).1 hnot
      · exact absurd hstep (by simp)
  | interrupt c tf io =>
      simp only [Event.step] at hstep
      split at hstep
      · rename_i hc
        have hno : tf.tfTrapno = irqOffset + irqTimer := by
          by_contra hne
          simp [Event.timer, hne] at htimer
        exact trap_ticks_idle hno hc.2.2.not_fromUser (leaves_eq_some hstep)
      · exact absurd hstep (by simp)
  | start c => exact absurd htimer (by simp [Event.timer])
  | store c va b => exact absurd htimer (by simp [Event.timer])
  | device tx rx rxBuffer => exact absurd htimer (by simp [Event.timer])

end Interrupts

/-! ## Runs with their timer interrupts -/

/-- A run, with the processors of its timer interrupts, the latest one first,
and the number of those that were lost. -/
inductive TimedRun (managed : Set Nat) : List Nat → Nat → Kernel → Prop where
  | boot {k : Kernel} : Booted managed k → k.ticks = 0#32 → TimedRun managed [] 0 k
  | other {taken : List Nat} {lost : Nat} {k k' : Kernel} (ev : Event) :
      TimedRun managed taken lost k → ev.timer = none → ev.step k = some k' →
      TimedRun managed taken lost k'
  | timer {taken : List Nat} {lost c : Nat} {k k' : Kernel} (ev : Event) :
      TimedRun managed taken lost k → ev.timer = some c → ¬ ev.Lost k → ev.step k = some k' →
      TimedRun managed (c :: taken) lost k'
  | lost {taken : List Nat} {lost c : Nat} {k k' : Kernel} (ev : Event) :
      TimedRun managed taken lost k → ev.timer = some c → ev.Lost k → ev.step k = some k' →
      TimedRun managed (c :: taken) (lost + 1) k'

/-- In each of some periods every processor takes one timer interrupt. -/
inductive InPeriods (n : Nat) : Nat → List Nat → Prop where
  | start : InPeriods n 0 []
  | period {periods : Nat} {taken block : List Nat} :
      InPeriods n periods taken → block.Perm (List.range n) →
      InPeriods n (periods + 1) (block ++ taken)

section Periods

variable {managed : Set Nat} {n periods lost : Nat} {taken : List Nat} {k k' : Kernel}

theorem InPeriods.length (h : InPeriods n periods taken) : taken.length = n * periods := by
  induction h with
  | start => rfl
  | period _ hblock ih =>
      rw [List.length_append, hblock.length_eq, List.length_range, ih, Nat.mul_succ]
      omega

/-- One more tick, when ten times the ticks have not gone round. -/
theorem Ticked.toNat {t : U32} (h : Ticked t n k) (ht : 10 * t.toNat < 2 ^ 32) :
    k.ticks.toNat = t.toNat + 1 ∧ 10 * k.ticks.toNat < 2 ^ 32 := by
  obtain ⟨⟨hticks, -⟩, hfits⟩ := h
  have hadd : (t + 1#32).toNat = t.toNat + 1 := by
    rw [BitVec.toNat_add]
    norm_num only [BitVec.toNat_ofNat]
    omega
  have hmul : ((t + 1#32) * 10#32).toNat = (t.toNat + 1) * 10 % 2 ^ 32 := by
    rw [BitVec.toNat_mul, hadd]
    rfl
  rw [BitVec.lt_def, hmul, hadd] at hfits
  rw [hticks, hadd]
  refine ⟨rfl, ?_⟩
  -- just past the bound ten times the ticks would be a number below ten
  omega

/-- Every timer interrupt is counted but those that are lost. -/
theorem TimedRun.count (h : TimedRun managed taken lost k) :
    k.ticks.toNat + lost = taken.length ∧ 10 * k.ticks.toNat < 2 ^ 32 := by
  induction h with
  | boot _ hzero =>
      rw [hzero]
      decide
  | other ev _ htimer hstep ih =>
      rw [(ev.step_clock hstep (Or.inl htimer)).1]
      exact ih
  | timer ev _ htimer hfound hstep ih =>
      obtain ⟨hticks, hfits⟩ := (ev.step_ticked hstep htimer hfound).toNat ih.2
      rw [List.length_cons]
      omega
  | lost ev _ htimer hlost hstep ih =>
      rw [(ev.step_clock hstep (Or.inr hlost)).1, List.length_cons]
      omega

theorem Event.step_ncpu {ev : Event} (hstep : ev.step k = some k') : k'.ncpu = k.ncpu := by
  by_cases hquiet : ev.timer = none ∨ ev.Lost k
  · exact (ev.step_clock hstep hquiet).2
  · rw [not_or] at hquiet
    obtain ⟨c, hc⟩ := Option.ne_none_iff_exists'.mp hquiet.1
    exact (ev.step_ticked hstep hc hquiet.2).1.2

/-- A step of a machine with one processor. -/
theorem one_step {ev : Event} (hrun : RunOf managed (fun _ ev => ∀ c, ev.cpu = some c → c = 0) k)
    (hcur : CurRuns 0 k) (hone : k.ncpu = 1) (hstep : ev.step k = some k') :
    RunOf managed (fun _ ev => ∀ c, ev.cpu = some c → c = 0) k' ∧ CurRuns 0 k' ∧
      ¬ ev.Lost k := by
  have horder := hrun.calls.1.1
  have hstepped := ev.step_cases (fun c => (horder.procs.halted c).mpr) hstep
  have hcpu : ∀ c, ev.cpu = some c → c = 0 := by
    intro c hc
    have := hstepped.cpu_lt hc
    omega
  refine ⟨hrun.step ev hcpu hstep, hstepped.curRuns hcpu hcur, fun hlost => ?_⟩
  cases ev with
  | trap c tf io =>
      obtain rfl := hcpu c rfl
      refine hlost.2 (fun e he hdying => ?_)
      rw [hcur e he] at hdying
      cases hdying
  | start => exact hlost
  | interrupt => exact hlost
  | store => exact hlost
  | device => exact hlost

/-- With one processor no timer interrupt is lost. -/
theorem TimedRun.one (h : TimedRun managed taken lost k) (hone : k.ncpu = 1) :
    lost = 0 ∧ RunOf managed (fun _ ev => ∀ c, ev.cpu = some c → c = 0) k ∧ CurRuns 0 k := by
  induction h with
  | boot hb _ =>
      refine ⟨rfl, .boot hb, fun e he => ?_⟩
      rw [Kernel.curenv, hb.booting.cpus 0] at he
      cases he
  | other ev _ _ hstep ih =>
      obtain ⟨hlost, hrun, hcur⟩ := ih (ev.step_ncpu hstep ▸ hone)
      obtain ⟨hrun', hcur', -⟩ := one_step hrun hcur (ev.step_ncpu hstep ▸ hone) hstep
      exact ⟨hlost, hrun', hcur'⟩
  | timer ev _ _ _ hstep ih =>
      obtain ⟨hlost, hrun, hcur⟩ := ih (ev.step_ncpu hstep ▸ hone)
      obtain ⟨hrun', hcur', -⟩ := one_step hrun hcur (ev.step_ncpu hstep ▸ hone) hstep
      exact ⟨hlost, hrun', hcur'⟩
  | lost ev _ _ hlost hstep ih =>
      obtain ⟨-, hrun, hcur⟩ := ih (ev.step_ncpu hstep ▸ hone)
      exact absurd hlost (one_step hrun hcur (ev.step_ncpu hstep ▸ hone) hstep).2.2

/-- `time_msec` has not gone round. -/
theorem TimedRun.msec (h : TimedRun managed taken lost k) :
    (timeMsec k).toNat = 10 * k.ticks.toNat := by
  have hfits := h.count.2
  unfold timeMsec
  rw [BitVec.toNat_mul]
  norm_num only [BitVec.toNat_ofNat]
  omega

/-- With one processor the time is right after every period, until ten times
the ticks would go round.  With more of them it is wrong as long as no timer
interrupt is lost. -/
theorem time_msec_periods (h : TimedRun managed taken lost k)
    (hp : InPeriods k.ncpu periods taken) :
    (k.ncpu = 1 → (timeMsec k).toNat = 10 * periods ∧
      (10 * (periods + 1) < 2 ^ 32 → ∃ k', timeTick.run k = .ret () k')) ∧
    (lost = 0 → ((timeMsec k).toNat = 10 * periods ↔ k.ncpu = 1 ∨ periods = 0)) := by
  have hmsec := h.msec
  obtain ⟨hcount, hfits⟩ := h.count
  have hlength := hp.length
  refine ⟨fun hone => ?_, fun hlost => ?_⟩
  · obtain rfl := (h.one hone).1
    rw [hone] at hlength
    refine ⟨by omega, fun hnext => ?_⟩
    have hadd : (k.ticks + 1#32).toNat = k.ticks.toNat + 1 := by
      rw [BitVec.toNat_add]
      norm_num only [BitVec.toNat_ofNat]
      omega
    have hno : ¬ (k.ticks + 1#32) * 10#32 < k.ticks + 1#32 := by
      have hmul : (k.ticks.toNat + 1) * 10 < 2 ^ 32 := by omega
      have hten : (10#32).toNat = 10 := rfl
      rw [BitVec.lt_def, BitVec.toNat_mul, hadd, hten, Nat.mod_eq_of_lt hmul]
      omega
    refine ⟨{ k with ticks := k.ticks + 1#32 }, ?_⟩
    unfold timeTick
    rw [Prog.run_bind_ret (Prog.run_modify _ k), Prog.run_bind_ret (Prog.run_get _), if_neg hno]
    rfl
  · rw [hmsec, ← mul_left_eq_self₀ (b := periods)]
    omega

/-- The run goes on. -/
theorem TimedRun.events {evs : List Event} (h : TimedRun managed taken lost k)
    (hrun : runEvents k evs = some k') : ∃ lost',
    TimedRun managed ((evs.filterMap Event.timer).reverse ++ taken) lost' k' := by
  induction evs generalizing k taken lost with
  | nil =>
      obtain rfl := Option.some.inj hrun
      exact ⟨lost, h⟩
  | cons ev evs ih =>
      obtain ⟨k₁, hstep, hrest⟩ := Option.bind_eq_some_iff.mp hrun
      cases htimer : ev.timer with
      | none =>
          rw [List.filterMap_cons_none htimer]
          exact ih (.other ev h htimer hstep) hrest
      | some c =>
          rw [List.filterMap_cons_some htimer, List.reverse_cons, List.append_assoc]
          by_cases hlost : ev.Lost k
          · exact ih (.lost ev h htimer hlost hstep) hrest
          · exact ih (.timer ev h htimer hlost hstep) hrest

/-- A timer interrupt in user mode. -/
def timerEvent (c : Nat) : Event :=
  .trap c { initialTf with tfTrapno := irqOffset + irqTimer } ⟨0, 0#32, none⟩

/-- Processors start with an environment each, and each takes a timer interrupt. -/
def onePeriod (ncpu : Nat) : List Event :=
  (List.range ncpu).map Event.start ++ (List.range ncpu).map timerEvent

theorem time_msec_one : ∃ managed k, TimedRun managed [0] 0 k ∧ k.ncpu = 1 ∧
    (timeMsec k).toNat = 10 := by
  have hsome : (bootEnvs 16 1 1).any (fun k => decide (k.ticks = 0#32) &&
      (runEvents k (onePeriod 1)).any (fun k' => decide (k'.ncpu = 1))) = true := by
    decide +kernel
  obtain ⟨k, hk, hthen⟩ := (Option.any_eq_true _ _).mp hsome
  rw [Bool.and_eq_true] at hthen
  obtain ⟨k', hk', hone⟩ := (Option.any_eq_true _ _).mp hthen.2
  have hboot := bootEnvs_booted (by decide) (by decide) hk
  obtain ⟨lost, hrun⟩ := (TimedRun.boot hboot (of_decide_eq_true hthen.1)).events hk'
  obtain rfl := (hrun.one (of_decide_eq_true hone)).1
  refine ⟨_, k', hrun, of_decide_eq_true hone, ?_⟩
  have hperiods : InPeriods k'.ncpu 1 [0] := by
    rw [of_decide_eq_true hone]
    exact .period .start (.refl _)
  exact ((time_msec_periods hrun hperiods).1 (of_decide_eq_true hone)).1

/-- With two processors the time is 20 milliseconds after the first period. -/
theorem time_msec_twice : ¬ ∀ (managed : Set Nat) (taken : List Nat) (lost periods : Nat)
    (k : Kernel), TimedRun managed taken lost k → InPeriods k.ncpu periods taken →
      10 * periods < 2 ^ 32 → (timeMsec k).toNat = 10 * periods := by
  intro hall
  have hsome : (bootEnvs 16 2 2).any (fun k => decide (k.ticks = 0#32) &&
      (runEvents k (onePeriod 2)).any
        (fun k' => decide (k'.ncpu = 2 ∧ (timeMsec k').toNat = 20))) = true := by
    decide +kernel
  obtain ⟨k, hk, hthen⟩ := (Option.any_eq_true _ _).mp hsome
  rw [Bool.and_eq_true] at hthen
  obtain ⟨k', hk', htwo⟩ := (Option.any_eq_true _ _).mp hthen.2
  obtain ⟨hncpu, hmsec⟩ := of_decide_eq_true htwo
  have hboot := bootEnvs_booted (by decide) (by decide) hk
  obtain ⟨lost, hrun⟩ := (TimedRun.boot hboot (of_decide_eq_true hthen.1)).events hk'
  have hperiods : InPeriods k'.ncpu 1 [1, 0] := by
    have hblock : [1, 0].Perm (List.range 2) := by decide
    rw [hncpu]
    exact .period .start hblock
  have hten := hall _ _ _ _ _ hrun hperiods (by decide)
  omega

end Periods

end Jos
