import Mathlib.Logic.Function.Basic

/-!
# Programs that return, leave or stop

A program over a state type runs to one of three ends.  It *returns* a value
to its caller, it *leaves* (control goes somewhere else and never comes back
to the caller), or it *stops* the machine (an assertion fails, or a loop is
entered that is never left).  The last two skip every statement that follows.

The module gives the monad of such programs, its weakest preconditions, and
one rule for every way of putting programs together: sequencing, a counted
loop with an invariant, and running a program on one component of the state.

* `wp_bind`, `wp_forRange`, `wp_zoom` are the rules.
* `Returns` is the total-correctness triple of a program that always returns.
* `Partial` is the postcondition that asks nothing of a program that stops.
* `Stays` says of a program that it never leaves.
-/

namespace Programs

/-- The three ways in which a program ends. -/
inductive Outcome (σ α : Type) where
  | ret (a : α) (s : σ)
  | exit (s : σ)
  | stop (s : σ)

/-- The state in which a program ends, however it ends. -/
def Outcome.state {σ α : Type} : Outcome σ α → σ
  | .ret _ s => s
  | .exit s => s
  | .stop s => s

/-- A program is the map from its first state to its end. -/
structure Prog (σ α : Type) where
  run : σ → Outcome σ α

variable {σ τ α β : Type}

namespace Prog

instance : Monad (Prog σ) where
  pure a := ⟨fun s => .ret a s⟩
  bind m f := ⟨fun s =>
    match m.run s with
    | .ret a s' => (f a).run s'
    | .exit s' => .exit s'
    | .stop s' => .stop s'⟩

/-- The whole state. -/
def get : Prog σ σ := ⟨fun s => .ret s s⟩

/-- Change the state. -/
def modify (f : σ → σ) : Prog σ Unit := ⟨fun s => .ret () (f s)⟩

/-- Control leaves the program for good. -/
def exit : Prog σ α := ⟨fun s => .exit s⟩

/-- The machine stops. -/
def stop : Prog σ α := ⟨fun s => .stop s⟩

/-- Run a program on one component of a larger state. -/
def zoom (view : σ → τ) (put : τ → σ → σ) (m : Prog τ α) : Prog σ α := ⟨fun s =>
  match m.run (view s) with
  | .ret a t => .ret a (put t s)
  | .exit t => .exit (put t s)
  | .stop t => .stop (put t s)⟩

/-- `if (c) m;` -/
def when (c : Prop) [Decidable c] (m : Prog σ Unit) : Prog σ Unit :=
  if c then m else pure ()

/-- The counted loop `for (j = i; j < i + n; j++) body j`. -/
def forRange (i : Nat) : Nat → (Nat → Prog σ Unit) → Prog σ Unit
  | 0, _ => pure ()
  | n + 1, body => do
      body i
      forRange (i + 1) n body

@[simp] theorem run_pure (a : α) (s : σ) :
    (pure a : Prog σ α).run s = .ret a s := rfl

@[simp] theorem run_get (s : σ) :
    (get : Prog σ σ).run s = .ret s s := rfl

@[simp] theorem run_modify (f : σ → σ) (s : σ) :
    (modify f).run s = .ret () (f s) := rfl

@[simp] theorem run_exit (s : σ) :
    (exit : Prog σ α).run s = .exit s := rfl

@[simp] theorem run_stop (s : σ) :
    (stop : Prog σ α).run s = .stop s := rfl

theorem run_bind (m : Prog σ α) (f : α → Prog σ β) (s : σ) :
    (m >>= f).run s =
      match m.run s with
      | .ret a s' => (f a).run s'
      | .exit s' => .exit s'
      | .stop s' => .stop s' := rfl

theorem bind_assoc {γ : Type} (m : Prog σ α) (f : α → Prog σ β)
    (g : β → Prog σ γ) :
    m >>= f >>= g = m >>= fun a => f a >>= g := by
  refine congrArg Prog.mk (funext (fun s => ?_))
  show (m >>= f >>= g).run s = _
  rw [run_bind, run_bind]
  cases m.run s <;> rfl

theorem bind_congr {m : Prog σ α} {f g : α → Prog σ β} (h : ∀ a, f a = g a) :
    m >>= f = m >>= g := congrArg _ (funext h)

theorem bind_pure (m : Prog σ α) : (m >>= fun a => pure a) = m := by
  refine congrArg Prog.mk (funext (fun s => ?_))
  show (m >>= fun a => pure a).run s = _
  rw [run_bind]
  cases m.run s <;> rfl

/-- Running past a program that returned. -/
theorem run_bind_ret
    {m : Prog σ α} {f : α → Prog σ β} {s t : σ} {a : α}
    (h : m.run s = .ret a t) :
    (m >>= f).run s = (f a).run t := by
  rw [run_bind, h]

theorem bind_ret_iff {m : Prog σ α} {f : α → Prog σ β} {b : β} {s t : σ} :
    (m >>= f).run s = .ret b t ↔
      ∃ a s', m.run s = .ret a s' ∧ (f a).run s' = .ret b t := by
  rw [run_bind]
  constructor
  · intro h
    cases hm : m.run s with
    | ret a s' => exact ⟨a, s', rfl, by rwa [hm] at h⟩
    | exit s' => simp [hm] at h
    | stop s' => simp [hm] at h
  · rintro ⟨a, s', hm, h⟩
    rwa [hm]

theorem bind_exit_iff {m : Prog σ α} {f : α → Prog σ β} {s t : σ} :
    (m >>= f).run s = .exit t ↔ m.run s = .exit t ∨
      ∃ a s', m.run s = .ret a s' ∧ (f a).run s' = .exit t := by
  rw [run_bind]
  constructor
  · intro h
    cases hm : m.run s with
    | ret a s' => exact Or.inr ⟨a, s', rfl, by rwa [hm] at h⟩
    | exit s' => exact Or.inl (by simpa [hm] using h)
    | stop s' => simp [hm] at h
  · rintro (hm | ⟨a, s', hm, h⟩)
    · rw [hm]
    · rwa [hm]

theorem run_zoom (view : σ → τ) (put : τ → σ → σ) (m : Prog τ α) (s : σ) :
    (m.zoom view put).run s =
      match m.run (view s) with
      | .ret a t => .ret a (put t s)
      | .exit t => .exit (put t s)
      | .stop t => .stop (put t s) := rfl

theorem run_zoom_ret
    {view : σ → τ} {put : τ → σ → σ} {m : Prog τ α} {s : σ} {t : τ} {a : α}
    (h : m.run (view s) = .ret a t) :
    (m.zoom view put).run s = .ret a (put t s) := by
  rw [run_zoom, h]

@[simp] theorem run_when_true {c : Prop} [Decidable c] {m : Prog σ Unit}
    {s : σ} (h : c) :
    (when c m).run s = m.run s := by
  rw [when, if_pos h]

@[simp] theorem run_when_false {c : Prop} [Decidable c] {m : Prog σ Unit}
    {s : σ} (h : ¬ c) :
    (when c m).run s = .ret () s := by
  rw [when, if_neg h]
  rfl

end Prog

/-- What is asked of the three ends of a program. -/
structure Post (σ α : Type) where
  ret : α → σ → Prop
  exit : σ → Prop
  stop : σ → Prop

/-- Weakest precondition. -/
def wp (m : Prog σ α) (Q : Post σ α) (s : σ) : Prop :=
  match m.run s with
  | .ret a s' => Q.ret a s'
  | .exit s' => Q.exit s'
  | .stop s' => Q.stop s'

/-- The program returns, and its value and last state satisfy `Q`. -/
def Returns (m : Prog σ α) (Q : α → σ → Prop) (s : σ) : Prop :=
  wp m ⟨Q, fun _ => False, fun _ => False⟩ s

section Rules

variable {Q Q' : Post σ α} {s : σ}

@[simp] theorem wp_pure (a : α) :
    wp (pure a) Q s ↔ Q.ret a s := Iff.rfl

@[simp] theorem wp_get {Q : Post σ σ} :
    wp Prog.get Q s ↔ Q.ret s s := Iff.rfl

@[simp] theorem wp_modify {Q : Post σ Unit} (f : σ → σ) :
    wp (Prog.modify f) Q s ↔ Q.ret () (f s) := Iff.rfl

@[simp] theorem wp_exit :
    wp (Prog.exit : Prog σ α) Q s ↔ Q.exit s := Iff.rfl

@[simp] theorem wp_stop :
    wp (Prog.stop : Prog σ α) Q s ↔ Q.stop s := Iff.rfl

theorem wp_ite {c : Prop} [Decidable c] {m m' : Prog σ α}
    (hyes : c → wp m Q s) (hno : ¬ c → wp m' Q s) :
    wp (if c then m else m') Q s := by
  split
  · exact hyes ‹c›
  · exact hno ‹¬ c›

theorem wp_when {Q : Post σ Unit} {c : Prop} [Decidable c]
    {m : Prog σ Unit}
    (hyes : c → wp m Q s) (hno : ¬ c → Q.ret () s) :
    wp (Prog.when c m) Q s := wp_ite hyes hno

/-- Sequencing: an early end of the first program ends the whole. -/
@[simp] theorem wp_bind
    (m : Prog σ α) (f : α → Prog σ β) (Q : Post σ β) :
    wp (m >>= f) Q s ↔
      wp m ⟨fun a s' => wp (f a) Q s', Q.exit, Q.stop⟩ s := by
  unfold wp
  rw [Prog.run_bind]
  cases m.run s <;> rfl

theorem wp_get_bind {f : σ → Prog σ β} {Q : Post σ β} :
    wp (Prog.get >>= f) Q s ↔ wp (f s) Q s := Iff.rfl

theorem wp_ret_bind {m : Prog σ α} {f : α → Prog σ β} {Q : Post σ β} {a : α}
    {t : σ} (hm : m.run s = .ret a t) (h : wp (f a) Q t) :
    wp (m >>= f) Q s := by
  unfold wp at h ⊢
  rwa [Prog.run_bind_ret hm]

/-- An assertion: the program goes on or stops. -/
theorem wp_assert {P : Prop} [Decidable P] {f : Unit → Prog σ β} {Q : Post σ β}
    (hyes : P → wp (f ()) Q s) (hno : ¬ P → Q.stop s) :
    wp (Prog.when (¬ P) Prog.stop >>= f) Q s := by
  rw [wp_bind]
  exact wp_when hno (fun h => hyes (Decidable.not_not.mp h))

theorem wp_modify_bind {g : σ → σ} {f : Unit → Prog σ β} {Q : Post σ β} :
    wp (Prog.modify g >>= f) Q s ↔ wp (f ()) Q (g s) := Iff.rfl

/-- A component program changes its component only. -/
@[simp] theorem wp_zoom
    (view : σ → τ) (put : τ → σ → σ) (m : Prog τ α) :
    wp (m.zoom view put) Q s ↔
      wp m ⟨fun a t => Q.ret a (put t s), fun t => Q.exit (put t s),
        fun t => Q.stop (put t s)⟩ (view s) := by
  unfold wp
  rw [Prog.run_zoom]
  cases m.run (view s) <;> rfl

theorem wp_mono {m : Prog σ α}
    (h : wp m Q s)
    (hret : ∀ a s', Q.ret a s' → Q'.ret a s')
    (hexit : ∀ s', Q.exit s' → Q'.exit s')
    (hstop : ∀ s', Q.stop s' → Q'.stop s') :
    wp m Q' s := by
  unfold wp at h ⊢
  cases hm : m.run s <;> simp only [hm] at h ⊢
  · exact hret _ _ h
  · exact hexit _ h
  · exact hstop _ h

/-- A postcondition that every end meets. -/
theorem wp_of_always {m : Prog σ α}
    (hret : ∀ a s', Q.ret a s') (hexit : ∀ s', Q.exit s')
    (hstop : ∀ s', Q.stop s') : wp m Q s := by
  unfold wp
  cases m.run s
  · exact hret _ _
  · exact hexit _
  · exact hstop _

/-- A program known to return can be followed by anything that copes with
what it returns. -/
theorem wp_of_returns {m : Prog σ α} {R : α → σ → Prop}
    (h : Returns m R s)
    (hret : ∀ a s', R a s' → Q.ret a s') :
    wp m Q s :=
  wp_mono h hret (fun _ => False.elim) (fun _ => False.elim)

theorem returns_bind {m : Prog σ α} {f : α → Prog σ β} {R : α → σ → Prop}
    {R' : β → σ → Prop}
    (h : Returns m R s)
    (hret : ∀ a s', R a s' → Returns (f a) R' s') :
    Returns (m >>= f) R' s :=
  (wp_bind m f _).mpr (wp_of_returns h hret)

theorem Returns.mono {m : Prog σ α} {R R' : α → σ → Prop}
    (h : Returns m R s)
    (hret : ∀ a s', R a s' → R' a s') :
    Returns m R' s :=
  wp_of_returns h hret

theorem returns_iff {m : Prog σ α} {R : α → σ → Prop} :
    Returns m R s ↔ ∃ a s', m.run s = .ret a s' ∧ R a s' := by
  unfold Returns wp
  cases hm : m.run s with
  | ret a s' =>
      constructor
      · exact fun h => ⟨a, s', rfl, h⟩
      · rintro ⟨b, t, hbt, h⟩
        cases hbt
        exact h
  | exit s' => simp
  | stop s' => simp

theorem wp_of_ret {m : Prog σ α} {a : α} {s' : σ}
    (hm : m.run s = .ret a s') (h : Q.ret a s') : wp m Q s := by
  unfold wp
  rwa [hm]

theorem wp_of_exit {m : Prog σ α} {s' : σ}
    (hm : m.run s = .exit s') (h : Q.exit s') : wp m Q s := by
  unfold wp
  rwa [hm]

theorem wp_of_stop {m : Prog σ α} {s' : σ}
    (hm : m.run s = .stop s') (h : Q.stop s') : wp m Q s := by
  unfold wp
  rwa [hm]

/-- The precondition of an end that is known. -/
theorem wp_ret {m : Prog σ α} {a : α} {s' : σ}
    (h : wp m Q s) (hm : m.run s = .ret a s') : Q.ret a s' := by
  unfold wp at h
  rwa [hm] at h

/-- The value of a run that returned. -/
theorem Returns.value {m : Prog σ α} {R : α → σ → Prop} {a : α} {s' : σ}
    (h : Returns m R s) (hm : m.run s = .ret a s') : R a s' := wp_ret h hm

theorem wp_exited {m : Prog σ α} {s' : σ}
    (h : wp m Q s) (hm : m.run s = .exit s') : Q.exit s' := by
  unfold wp at h
  rwa [hm] at h

/-- The loop rule: an invariant indexed by the loop counter. -/
theorem wp_forRange {Q : Post σ Unit} {body : Nat → Prog σ Unit}
    (I : Nat → σ → Prop) (i n : Nat)
    (hbody : ∀ j s, i ≤ j → j < i + n → I j s →
      wp (body j) ⟨fun _ s' => I (j + 1) s', Q.exit, Q.stop⟩ s)
    (hdone : ∀ s, I (i + n) s → Q.ret () s)
    (hI : I i s) :
    wp (Prog.forRange i n body) Q s := by
  induction n generalizing i s with
  | zero => exact hdone s hI
  | succ n ih =>
      unfold Prog.forRange
      rw [wp_bind]
      refine wp_mono (hbody i s (Nat.le_refl i) (by omega) hI) ?_
        (fun _ h => h) (fun _ h => h)
      intro _ s' hs'
      refine ih (i + 1) ?_ ?_ hs'
      · intro j t hij hj
        exact hbody j t (by omega) (by omega)
      · intro t ht
        exact hdone t (by rwa [show i + 1 + n = i + (n + 1) by omega] at ht)

/-- A loop whose every turn returns returns. -/
theorem returns_forRange {body : Nat → Prog σ Unit}
    (I : Nat → σ → Prop) (i n : Nat)
    (hbody : ∀ j s, i ≤ j → j < i + n → I j s →
      Returns (body j) (fun _ s' => I (j + 1) s') s)
    (hI : I i s) :
    Returns (Prog.forRange i n body) (fun _ s' => I (i + n) s') s :=
  wp_forRange I i n hbody (fun _ h => h) hI

end Rules

/-! ## Calls whose failure is a panic -/

section Checked

variable {m : Prog σ Int} {R : Int → σ → Prop} {s : σ}

/-- A result below zero stops the program. -/
theorem wp_checked {f : Int → Prog σ β} {Q : Post σ β} (h : Returns m R s)
    (hpanic : ∀ r s', R r s' → r < 0 → Q.stop s')
    (hgoes : ∀ r s', R r s' → ¬ r < 0 → wp (f r) Q s') :
    wp (m >>= fun r => Prog.when (r < 0) Prog.stop >>= fun _ => f r) Q s := by
  rw [wp_bind]
  refine wp_of_returns h (fun r s' hr => ?_)
  change wp (Prog.when (r < 0) Prog.stop >>= fun _ => f r) Q s'
  rw [wp_bind]
  exact wp_when (hpanic r s' hr) (hgoes r s' hr)

/-- The same at the end of a function. -/
theorem wp_checked_end {Q : Post σ Unit} (h : Returns m R s)
    (hpanic : ∀ r s', R r s' → r < 0 → Q.stop s')
    (hgoes : ∀ r s', R r s' → ¬ r < 0 → Q.ret () s') :
    wp (m >>= fun r => Prog.when (r < 0) Prog.stop) Q s := by
  rw [wp_bind]
  exact wp_of_returns h (fun r s' hr => wp_when (hpanic r s' hr) (hgoes r s' hr))

end Checked

/-! ## Programs that may stop -/

/-- The postcondition that does not ask anything of a program that stops. -/
def Partial (ret : α → σ → Prop) (exit : σ → Prop) : Post σ α :=
  ⟨ret, exit, fun _ => True⟩

/-- Behind an assertion that has not failed. -/
theorem wp_when_stop {c : Prop} [Decidable c] {f : Unit → Prog σ β} {s : σ}
    {R : β → σ → Prop} {X : σ → Prop} (h : ¬ c → wp (f ()) (Partial R X) s) :
    wp (Prog.when c Prog.stop >>= f) (Partial R X) s :=
  (wp_bind _ _ _).mpr (wp_when (fun _ => trivial) h)

/-- A program that returns or stops, and never leaves. -/
def Stays (m : Prog σ α) : Prop :=
  ∀ s, wp m (Partial (fun _ _ => True) (fun _ => False)) s

section Staying

theorem Stays.pure (a : α) : Stays (pure a : Prog σ α) := fun _ => trivial

theorem Stays.get : Stays (Prog.get : Prog σ σ) := fun _ => trivial

theorem Stays.modify (f : σ → σ) : Stays (Prog.modify f) := fun _ => trivial

theorem Stays.stop : Stays (Prog.stop : Prog σ α) := fun _ => trivial

theorem Stays.bind {m : Prog σ α} {f : α → Prog σ β}
    (hm : Stays m) (hf : ∀ a, Stays (f a)) : Stays (m >>= f) := fun s =>
  (wp_bind m f _).mpr
    (wp_mono (hm s) (fun a s' _ => hf a s') (fun _ h => h) (fun _ h => h))

theorem Stays.ite {c : Prop} [Decidable c] {m m' : Prog σ α}
    (hm : Stays m) (hm' : Stays m') : Stays (if c then m else m') := by
  split
  · exact hm
  · exact hm'

theorem Stays.when {c : Prop} [Decidable c] {m : Prog σ Unit}
    (hm : Stays m) : Stays (Prog.when c m) :=
  hm.ite (Stays.pure ())

theorem Stays.forRange {body : Nat → Prog σ Unit} (h : ∀ i, Stays (body i))
    (i n : Nat) : Stays (Prog.forRange i n body) := by
  induction n generalizing i with
  | zero => exact Stays.pure ()
  | succ n ih => exact (h i).bind (fun _ => ih (i + 1))

/-- A program that stays is known by what it returns. -/
theorem wp_of_stays {m : Prog σ α} {s : σ} {R : α → σ → Prop}
    {X : σ → Prop}
    (hm : Stays m) (hret : ∀ a s', m.run s = .ret a s' → R a s') :
    wp m (Partial R X) s := by
  have h := hm s
  unfold wp at h ⊢
  cases hrun : m.run s with
  | ret a s' => exact hret a s' hrun
  | exit s' =>
      rw [hrun] at h
      exact h.elim
  | stop s' => trivial

/-- A component program that stays is known by what it returns. -/
theorem wp_zoom_of_stays {view : σ → τ} {put : τ → σ → σ} {m : Prog τ α}
    {s : σ} {R : α → σ → Prop} {X : σ → Prop}
    (hm : Stays m)
    (hret : ∀ a t, m.run (view s) = .ret a t → R a (put t s)) :
    wp (m.zoom view put) (Partial R X) s :=
  (wp_zoom view put m).mpr (wp_of_stays hm hret)

/-- Two things that are known of one program. -/
theorem wp_and {m : Prog σ α} {s : σ} {R R' : α → σ → Prop} {X X' : σ → Prop}
    (h : wp m (Partial R X) s) (h' : wp m (Partial R' X') s) :
    wp m (Partial (fun a s' => R a s' ∧ R' a s') (fun s' => X s' ∧ X' s')) s := by
  unfold wp at h h' ⊢
  cases hrun : m.run s with
  | ret a s' =>
      rw [hrun] at h h'
      exact ⟨h, h'⟩
  | exit s' =>
      rw [hrun] at h h'
      exact ⟨h, h'⟩
  | stop s' => trivial

/-- Sequencing, for the postcondition that asks nothing of a stop. -/
theorem partial_bind {m : Prog σ α} {f : α → Prog σ β} {s : σ}
    {R : α → σ → Prop} {X exit : σ → Prop} {ret : β → σ → Prop}
    (h : wp m (Partial R X) s)
    (hret : ∀ a s', R a s' → wp (f a) (Partial ret exit) s')
    (hexit : ∀ s', X s' → exit s') :
    wp (m >>= f) (Partial ret exit) s :=
  (wp_bind m f _).mpr (wp_mono h hret hexit (fun _ h => h))

theorem stays_bind {m : Prog σ α} {f : α → Prog σ β} {s : σ}
    {exit : σ → Prop} {ret : β → σ → Prop}
    (hm : Stays m)
    (hret : ∀ a s', m.run s = .ret a s' → wp (f a) (Partial ret exit) s') :
    wp (m >>= f) (Partial ret exit) s :=
  partial_bind (wp_of_stays (X := fun _ => False) hm hret)
    (fun _ _ h => h) (fun _ => False.elim)

end Staying

end Programs
