import Mathlib.Logic.Function.Basic

/-!
# Spin locks that know their owner

A lock is a flag, taken with an atomic exchange, and a note of who holds it,
written after the flag is taken and cleared before it is given back.  The four
steps of a client are `acquire`, `record`, `clear` and `release`, and those of
several clients may come in any order.

`Exclusive` says that at most one client is between its exchanges, and that the
note names a client exactly while it is between `record` and `clear`.  So a
client that reads the note learns whether the lock is its own, although the flag
and the note are read one after the other.
-/

namespace SpinLocks

universe u

variable {ι : Type u} [DecidableEq ι]

/-- Where a client is. -/
inductive Phase where
  | outside
  | taken
  | inside
  | cleared
deriving DecidableEq

structure State (ι : Type u) where
  locked : Bool
  owner : Option ι
  phase : ι → Phase

/-- One step of one client. -/
inductive Step : State ι → State ι → Prop where
  | acquire {s : State ι} (i : ι) : s.phase i = .outside → s.locked = false →
      Step s ⟨true, s.owner, Function.update s.phase i .taken⟩
  | record {s : State ι} (i : ι) : s.phase i = .taken →
      Step s ⟨s.locked, some i, Function.update s.phase i .inside⟩
  | clear {s : State ι} (i : ι) : s.phase i = .inside →
      Step s ⟨s.locked, none, Function.update s.phase i .cleared⟩
  | release {s : State ι} (i : ι) : s.phase i = .cleared →
      Step s ⟨false, s.owner, Function.update s.phase i .outside⟩

/-- The lock does its work. -/
structure Exclusive (s : State ι) : Prop where
  locked : ∀ i, s.phase i ≠ .outside → s.locked = true
  unique : ∀ i j, s.phase i ≠ .outside → s.phase j ≠ .outside → i = j
  owner : ∀ i, s.owner = some i ↔ s.phase i = .inside

omit [DecidableEq ι] in
/-- Nobody holds the lock at first. -/
theorem exclusive_free {s : State ι} (hphase : ∀ i, s.phase i = .outside)
    (howner : s.owner = none) : Exclusive s := by
  refine ⟨fun i h => absurd (hphase i) h, fun i _ h => absurd (hphase i) h,
    fun i => ?_⟩
  rw [howner, hphase i]
  simp

/-- A client that holds the lock moves on, and the others stay outside. -/
theorem Exclusive.update {s : State ι} (h : Exclusive s) {i : ι} {p : Phase}
    {o : Option ι} (hi : s.phase i ≠ .outside)
    (ho : ∀ j, o = some j ↔ j = i ∧ p = .inside) :
    Exclusive ⟨s.locked, o, Function.update s.phase i p⟩ := by
  have hothers : ∀ j, j ≠ i → s.phase j = .outside := fun j hj => by
    by_contra hout
    exact hj (h.unique j i hout hi)
  have honly : ∀ j, Function.update s.phase i p j ≠ .outside → j = i := by
    intro j hj
    by_contra hne
    rw [Function.update_of_ne hne] at hj
    exact hj (hothers j hne)
  refine ⟨fun _ _ => h.locked i hi, fun j j' hj hj' =>
    (honly j hj).trans (honly j' hj').symm, fun j => ?_⟩
  rw [ho j]
  by_cases hj : j = i
  · subst hj
    simp
  · simp [hj, hothers j hj]

theorem Step.exclusive {s s' : State ι} (hstep : Step s s')
    (h : Exclusive s) : Exclusive s' := by
  cases hstep with
  | acquire i hi hfree =>
      have hall : ∀ j, s.phase j = .outside := fun j => by
        by_contra hj
        exact absurd (hfree.symm.trans (h.locked j hj)) (by decide)
      have honly : ∀ j, Function.update s.phase i .taken j ≠ .outside → j = i := by
        intro j hj
        by_contra hne
        rw [Function.update_of_ne hne] at hj
        exact hj (hall j)
      refine ⟨fun _ _ => rfl, fun j j' hj hj' =>
        (honly j hj).trans (honly j' hj').symm, fun j => ?_⟩
      rw [h.owner j]
      by_cases hj : j = i
      · subst hj
        simp [hi]
      · simp [hj]
  | record i hi =>
      refine h.update (by rw [hi]; decide) (fun j => ?_)
      simp [eq_comm]
  | clear i hi => exact h.update (by rw [hi]; decide) (by simp)
  | release i hi =>
      have hout : s.phase i ≠ .outside := by
        rw [hi]
        decide
      have hall : ∀ j, Function.update s.phase i .outside j = .outside := by
        intro j
        by_cases hj : j = i
        · subst hj
          simp
        · rw [Function.update_of_ne hj]
          by_contra hne
          exact hj (h.unique j i hne hout)
      refine ⟨fun j hj => absurd (hall j) hj, fun j _ hj => absurd (hall j) hj,
        fun j => ?_⟩
      rw [h.owner j]
      by_cases hj : j = i
      · subst hj
        simp [hi]
      · change _ ↔ Function.update s.phase i .outside j = _
        rw [Function.update_of_ne hj]

end SpinLocks
