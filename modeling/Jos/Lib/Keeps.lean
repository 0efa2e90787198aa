import Jos.Lib.Prog

/-!
# Predicates that a program keeps

A program keeps a predicate on states if it holds of every state in which the
program returns, once it holds of the first; nothing is asked of a program that
stops.  The rules follow the ways of putting programs together.

`Ends` is the stronger form that also asks for the predicate where the program stops
or leaves, `Gives` is the triple that asks nothing there, and `Yields` says something of
every value that a program returns.
-/

namespace Programs

variable {σ α β : Type} {P : σ → Prop}

/-- The program returns only to states with `P` if it starts in one. -/
def Keeps (P : σ → Prop) (m : Prog σ α) : Prop :=
  ∀ s, P s → wp m (Partial (fun _ s' => P s') (fun _ => False)) s

namespace Keeps

theorem pure (a : α) : Keeps P (pure a : Prog σ α) := fun _ h => h

theorem get : Keeps P (Prog.get : Prog σ σ) := fun _ h => h

theorem stop : Keeps P (Prog.stop : Prog σ α) := fun _ _ => trivial

theorem modify {f : σ → σ} (hf : ∀ s, P s → P (f s)) : Keeps P (Prog.modify f) := hf

theorem bind {m : Prog σ α} {f : α → Prog σ β} (hm : Keeps P m)
    (hf : ∀ a, Keeps P (f a)) : Keeps P (m >>= f) := fun s h =>
  partial_bind (hm s h) (fun a s' h' => hf a s' h') (fun _ => False.elim)

theorem ite {c : Prop} [Decidable c] {m m' : Prog σ α} (hm : Keeps P m)
    (hm' : Keeps P m') : Keeps P (if c then m else m') := by
  split
  · exact hm
  · exact hm'

theorem when {c : Prop} [Decidable c] {m : Prog σ Unit} (hm : Keeps P m) :
    Keeps P (Prog.when c m) := hm.ite (pure ())

theorem forRange {body : Nat → Prog σ Unit} (h : ∀ i, Keeps P (body i)) (i n : Nat) :
    Keeps P (Prog.forRange i n body) := by
  induction n generalizing i with
  | zero => exact pure ()
  | succ n ih => exact (h i).bind (fun _ => ih (i + 1))

end Keeps

/-- However the program ends, it ends in a state with `P` if it starts in one. -/
def Ends (P : σ → Prop) (m : Prog σ α) : Prop := ∀ s, P s → P (m.run s).state

namespace Ends

theorem pure (a : α) : Ends P (pure a : Prog σ α) := fun _ h => h

theorem get : Ends P (Prog.get : Prog σ σ) := fun _ h => h

theorem stop : Ends P (Prog.stop : Prog σ α) := fun _ h => h

theorem exit : Ends P (Prog.exit : Prog σ α) := fun _ h => h

theorem modify {f : σ → σ} (hf : ∀ s, P s → P (f s)) : Ends P (Prog.modify f) := hf

/-- What holds where a program ends, holds where it ends with a program behind it that
keeps it. -/
theorem behind {m : Prog σ α} {f : α → Prog σ β} {s : σ} (hm : P (m.run s).state)
    (hf : ∀ a, Ends P (f a)) : P ((m >>= f).run s).state := by
  rw [Prog.run_bind]
  cases hrun : m.run s with
  | ret a s' =>
      rw [hrun] at hm
      exact hf a s' hm
  | exit s' =>
      rw [hrun] at hm
      exact hm
  | stop s' =>
      rw [hrun] at hm
      exact hm

theorem bind {m : Prog σ α} {f : α → Prog σ β} (hm : Ends P m)
    (hf : ∀ a, Ends P (f a)) : Ends P (m >>= f) := fun s h => behind (hm s h) hf

theorem ite {c : Prop} [Decidable c] {m m' : Prog σ α} (hm : Ends P m)
    (hm' : Ends P m') : Ends P (if c then m else m') := by
  split
  · exact hm
  · exact hm'

theorem when {c : Prop} [Decidable c] {m : Prog σ Unit} (hm : Ends P m) :
    Ends P (Prog.when c m) := hm.ite (pure ())

/-- A loop whose every turn keeps the predicate keeps it. -/
theorem forRange_of_lt {body : Nat → Prog σ Unit} {i n : Nat}
    (h : ∀ j, i ≤ j → j < i + n → Ends P (body j)) : Ends P (Prog.forRange i n body) := by
  induction n generalizing i with
  | zero => exact pure ()
  | succ n ih =>
      exact (h i (Nat.le_refl i) (by omega)).bind (fun _ =>
        ih (fun j hj hlt => h j (by omega) (by omega)))

theorem forRange {body : Nat → Prog σ Unit} (h : ∀ i, Ends P (body i)) (i n : Nat) :
    Ends P (Prog.forRange i n body) := forRange_of_lt (fun j _ _ => h j)

/-- A component program keeps what does not depend on its component. -/
theorem zoom {τ : Type} {view : σ → τ} {put : τ → σ → σ} {m : Prog τ α}
    (hput : ∀ t s, P s → P (put t s)) : Ends P (m.zoom view put) := by
  intro s h
  rw [Prog.run_zoom]
  cases m.run (view s) with
  | ret a t => exact hput t s h
  | exit t => exact hput t s h
  | stop t => exact hput t s h

theorem exits {m : Prog σ α} {s s' : σ} (hm : Ends P m) (h : P s)
    (hrun : m.run s = .exit s') : P s' := by
  have hend := hm s h
  rwa [hrun] at hend

theorem returns {m : Prog σ α} {s s' : σ} {a : α} (hm : Ends P m) (h : P s)
    (hrun : m.run s = .ret a s') : P s' := by
  have hend := hm s h
  rwa [hrun] at hend

theorem after {m : Prog σ α} {s : σ} (hm : Ends P m) (h : P s) :
    wp m (Partial (fun _ s' => P s') (fun _ => True)) s := by
  have hend := hm s h
  unfold wp
  cases hrun : m.run s with
  | ret a s' =>
      rw [hrun] at hend
      exact hend
  | exit s' => trivial
  | stop s' => trivial

/-- What a component program keeps of its component. -/
theorem component {τ : Type} {R : τ → Prop} {view : σ → τ} {put : τ → σ → σ} {m : Prog τ α}
    (hm : Ends R m) (hput : ∀ t s, view (put t s) = t) :
    Ends (fun s => R (view s)) (m.zoom view put) := by
  intro s h
  have hend := hm (view s) h
  rw [Prog.run_zoom]
  cases hrun : m.run (view s) with
  | ret a t =>
      rw [hrun] at hend
      exact (hput t s).symm ▸ hend
  | exit t =>
      rw [hrun] at hend
      exact (hput t s).symm ▸ hend
  | stop t =>
      rw [hrun] at hend
      exact (hput t s).symm ▸ hend

end Ends

/-- From states with `P`, the program returns only as `R` says. -/
def Gives (P : σ → Prop) (m : Prog σ α) (R : α → σ → Prop) : Prop :=
  ∀ s, P s → ∀ a s', m.run s = .ret a s' → R a s'

theorem Gives.of_wp {m : Prog σ α} {R : α → σ → Prop} {X : σ → Prop}
    (h : ∀ s, P s → wp m (Partial R X) s) : Gives P m R :=
  fun s hs _ _ hrun => wp_ret (h s hs) hrun

theorem Gives.bind {m : Prog σ α} {f : α → Prog σ β} {R : α → σ → Prop} {R' : β → σ → Prop}
    {s : σ} (h : Gives P m R) (hs : P s)
    (hf : ∀ a s', R a s' → wp (f a) (Partial R' (fun _ => True)) s') :
    wp (m >>= f) (Partial R' (fun _ => True)) s := by
  have hret := h s hs
  unfold wp
  rw [Prog.run_bind]
  cases hrun : m.run s with
  | ret a s' => exact hf a s' (hret a s' hrun)
  | exit s' => trivial
  | stop s' => trivial

/-- Every value that the program returns satisfies `R`. -/
def Yields (R : α → Prop) (m : Prog σ α) : Prop := ∀ s a s', m.run s = .ret a s' → R a

namespace Yields

variable {R : α → Prop} {R' : β → Prop}

theorem pure {a : α} (h : R a) : Yields R (pure a : Prog σ α) := by
  intro s b s' hrun
  cases hrun
  exact h

theorem stop : Yields R (Prog.stop : Prog σ α) := fun _ _ _ hrun => nomatch hrun

theorem any (m : Prog σ α) : Yields (fun _ => True) m := fun _ _ _ _ => trivial

theorem bind {m : Prog σ α} {f : α → Prog σ β} (hm : Yields R m)
    (hf : ∀ a, R a → Yields R' (f a)) : Yields R' (m >>= f) := by
  intro s b t hrun
  obtain ⟨a, s', hfirst, hrest⟩ := Prog.bind_ret_iff.mp hrun
  exact hf a (hm s a s' hfirst) s' b t hrest

/-- What the second program returns. -/
theorem last {m : Prog σ α} {f : α → Prog σ β} (hf : ∀ a, Yields R' (f a)) :
    Yields R' (m >>= f) := (any m).bind (fun a _ => hf a)

theorem ite {c : Prop} [Decidable c] {m m' : Prog σ α} (hm : c → Yields R m)
    (hm' : ¬ c → Yields R m') : Yields R (if c then m else m') := by
  split
  · exact hm ‹c›
  · exact hm' ‹¬ c›

theorem zoom {τ : Type} {view : σ → τ} {put : τ → σ → σ} {m : Prog τ α}
    (hm : Yields R m) : Yields R (m.zoom view put) := by
  intro s a s' hrun
  rw [Prog.run_zoom] at hrun
  cases hfirst : m.run (view s) with
  | ret b t =>
      rw [hfirst] at hrun
      cases hrun
      exact hm (view s) _ t hfirst
  | exit t => simp [hfirst] at hrun
  | stop t => simp [hfirst] at hrun

end Yields

end Programs
