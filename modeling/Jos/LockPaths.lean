import Jos.KernelLock
import Jos.Ownership
import Jos.Ticks

/-!
# Entries and the lock

Every run of `System`, which enters the kernel in one step, is a run of the machine that goes
from one access of `kernel_lock` to the next.
-/

namespace Jos

open Relation SpinLocks

/-- Entries into the kernel, in any order. -/
abbrev Entries : Kernel → Kernel → Prop :=
  ReflTransGen (fun k k' => ∃ ev : Event, ev.Fair k ∧ ev.step k = some k')

/-- However many entries there are, on whatever processors, the lock is free after each of
them, and every processor is where `System` says. -/
theorem entries_lock_path {k k' : Kernel} {m : LockMachine} (ho : Orderly k) (hout : Outside k)
    (hm : m.Disciplined) (hr : Rests k.ncpu k m) (h : Entries k k') :
    ∃ m', ReflTransGen (LockStep k.ncpu) m m' ∧ m'.Disciplined ∧ Rests k.ncpu k' m' := by
  suffices hall : k'.ncpu = k.ncpu ∧ Orderly k' ∧ Outside k' ∧
      ∃ m', ReflTransGen (LockStep k.ncpu) m m' ∧ m'.Disciplined ∧ Rests k.ncpu k' m' from
    hall.2.2.2
  induction h with
  | refl => exact ⟨rfl, ho, hout, m, .refl, hm, hr⟩
  | tail _ hstep ih =>
      obtain ⟨ev, hfair, hstep⟩ := hstep
      obtain ⟨hncpu, ho₁, hout₁, m₁, hpath₁, hm₁, hr₁⟩ := ih
      rw [← hncpu] at hr₁
      obtain ⟨m₂, hpath, hr₂⟩ := ev.lock_path ho₁ hm₁ hr₁ hstep
      rw [hncpu] at hpath hr₂
      obtain ⟨ho₂, hout₂⟩ := ev.orderly ho₁ hout₁ hfair hstep
      have hm₂ : m₂.Disciplined := by
        clear hr₂
        induction hpath with
        | refl => exact hm₁
        | tail _ hlock ih => exact hlock.disciplined ih
      exact ⟨(Event.step_ncpu hstep).trans hncpu, ho₂, hout₂, m₂, hpath₁.trans hpath, hm₂, hr₂⟩

/-- Processors that wait in `mp_main`. -/
def waitingCpus : LockMachine := ⟨false, none, fun _ => ⟨.lockReadLocked .mpMain, .started, 0, 0⟩⟩

/-- Two processors come to user code, each after it had the lock. -/
theorem entries_lock_path_two : ∃ m, ReflTransGen (LockStep 2) waitingCpus m ∧
    (m.cpus 0).point = .user ∧ (m.cpus 1).point = .user := by
  have hsome : (bootEnvs 16 2 2).any (fun k => (runEvents k [.start 0]).any (fun k₁ =>
      (runEvents k₁ [.start 1]).any (fun k₂ => decide (k.ncpu = 2 ∧
        (k₂.cpus 0).place = .user ∧ (k₂.cpus 1).place = .user)))) = true := by decide +kernel
  simp only [Option.any_eq_true] at hsome
  obtain ⟨k, hk, k₁, hk₁, k₂, hk₂, hends⟩ := hsome
  obtain ⟨hncpu, h₀, h₁⟩ := of_decide_eq_true hends
  have hbooting := (bootEnvs_booted (by decide) (by decide) hk).booting
  have hdisciplined : waitingCpus.Disciplined :=
    ⟨exclusive_free (fun _ => rfl) rfl, fun _ => ⟨rfl, rfl, by simp [waitingCpus, Point.OnPath]⟩⟩
  have hrests : Rests k.ncpu k waitingCpus := by
    refine ⟨rfl, rfl, fun c _ => ?_⟩
    rw [hbooting.cpus c]
    exact .boot
  have hrun : Entries k k₂ := by
    refine (ReflTransGen.single ⟨.start 0, start_fair k 0, ?_⟩).tail ⟨.start 1, start_fair k₁ 1, ?_⟩
    · simpa [runEvents] using hk₂
    · simpa [runEvents] using hk₁
  obtain ⟨m, hpath, -, hr⟩ := entries_lock_path hbooting.orderly.1 hbooting.orderly.2
    hdisciplined hrests hrun
  have hpoint : ∀ c, c < 2 → (k₂.cpus c).place = .user → (m.cpus c).point = .user := by
    intro c hc hplace
    have hstands := hr.point c (hncpu ▸ hc)
    rw [hplace] at hstands
    generalize (m.cpus c).point = p at hstands
    cases hstands
    rfl
  exact ⟨m, hncpu ▸ hpath, hpoint 0 (by decide) h₀, hpoint 1 (by decide) h₁⟩

end Jos
