import Mathlib.Logic.Relation

/-!
# Loops with a condition

`whileLoop go step` runs `while (go s) s = step s`, for a body that may fail,
with a bound on the number of turns.  `Turns` relates the states that the loop
goes through.

* `whileLoop_ends`: a loop whose turns never fail and decrease a measure ends, and
  `whileLoop_keeps`: with what its turns keep.
* `Turns.keeps`: what one turn keeps, all turns keep.
* `Turns.rest`: turns are deterministic, so a state met on the way lies before
  the last one.
-/

namespace WhileLoop

open Relation

variable {σ : Type} {go : σ → Prop} {step : σ → Option σ}

/-- `while (go s) s = step s`, for less than the given number of turns. -/
def whileLoop (go : σ → Prop) [DecidablePred go] (step : σ → Option σ) :
    Nat → σ → Option σ
  | 0, _ => none
  | fuel + 1, s => if go s then (step s).bind (whileLoop go step fuel) else some s

/-- The loop goes through the second state after the first. -/
def Turns (go : σ → Prop) (step : σ → Option σ) : σ → σ → Prop :=
  ReflTransGen (fun s s' => go s ∧ step s = some s')

theorem Turns.refl (s : σ) : Turns go step s s := ReflTransGen.refl

theorem Turns.head {s s' t : σ} (hgo : go s) (hstep : step s = some s')
    (h : Turns go step s' t) : Turns go step s t := ReflTransGen.head ⟨hgo, hstep⟩ h

/-- What one turn keeps, all turns keep. -/
theorem Turns.keeps {P : σ → Prop} {s s' : σ} (h : Turns go step s s')
    (hstep : ∀ a b, P a → go a → step a = some b → P b) (hs : P s) : P s' := by
  induction h with
  | refl => exact hs
  | tail _ hturn ih => exact hstep _ _ ih hturn.1 hturn.2

/-- A state that is met before the loop ends leads to its end. -/
theorem Turns.rest {s s₁ s₂ : σ} (h₁ : Turns go step s s₁) (h₂ : Turns go step s s₂)
    (hend : ¬ go s₂) : Turns go step s₁ s₂ := by
  induction h₁ using ReflTransGen.head_induction_on with
  | refl => exact h₂
  | head hturn _ ih =>
      refine ih ?_
      rcases ReflTransGen.cases_head h₂ with rfl | ⟨t, hturn', hrest⟩
      · exact absurd hturn.1 hend
      · obtain rfl := Option.some.inj (hturn.2.symm.trans hturn'.2)
        exact hrest

/-- A loop ends in one state only. -/
theorem Turns.unique {s s₁ s₂ : σ} (h₁ : Turns go step s s₁) (h₂ : Turns go step s s₂)
    (hend₁ : ¬ go s₁) (hend₂ : ¬ go s₂) : s₁ = s₂ := by
  rcases ReflTransGen.cases_head (h₁.rest h₂ hend₂) with rfl | ⟨t, hturn, -⟩
  · rfl
  · exact absurd hturn.1 hend₁

/-- More fuel changes nothing. -/
theorem whileLoop_mono [DecidablePred go] {fuel fuel' : Nat} {s s' : σ}
    (h : whileLoop go step fuel s = some s') (hle : fuel ≤ fuel') :
    whileLoop go step fuel' s = some s' := by
  induction fuel generalizing fuel' s with
  | zero => cases h
  | succ fuel ih =>
      obtain ⟨fuel', rfl⟩ := Nat.exists_eq_succ_of_ne_zero (by omega : fuel' ≠ 0)
      rw [whileLoop] at h ⊢
      split at h
      · next hgo =>
          obtain ⟨t, ht, hrest⟩ := Option.bind_eq_some_iff.mp h
          rw [if_pos hgo, ht, Option.bind_some]
          exact ih hrest (by omega)
      · next hgo => rw [if_neg hgo, h]

/-- A loop that gets to its end returns it, with enough fuel. -/
theorem Turns.whileLoop [DecidablePred go] {s s' : σ} (h : Turns go step s s')
    (hend : ¬ go s') : ∃ n, ∀ fuel, n ≤ fuel → whileLoop go step fuel s = some s' := by
  induction h using ReflTransGen.head_induction_on with
  | refl =>
      refine ⟨1, fun fuel hfuel => ?_⟩
      obtain ⟨fuel, rfl⟩ := Nat.exists_eq_succ_of_ne_zero (by omega : fuel ≠ 0)
      rw [WhileLoop.whileLoop, if_neg hend]
  | head hturn _ ih =>
      obtain ⟨n, hn⟩ := ih
      refine ⟨n + 1, fun fuel hfuel => ?_⟩
      obtain ⟨fuel, rfl⟩ := Nat.exists_eq_succ_of_ne_zero (by omega : fuel ≠ 0)
      rw [WhileLoop.whileLoop, if_pos hturn.1, hturn.2]
      exact hn fuel (by omega)

/-- A loop whose turns never fail and decrease a measure ends. -/
theorem whileLoop_ends [DecidablePred go] {P : σ → Prop} (measure : σ → Nat)
    (hstep : ∀ a, P a → go a → ∃ b, step a = some b ∧ P b ∧ measure b < measure a)
    {fuel : Nat} {s : σ} (hs : P s) (hfuel : measure s < fuel) :
    ∃ s', whileLoop go step fuel s = some s' ∧ Turns go step s s' ∧ ¬ go s' := by
  induction fuel generalizing s with
  | zero => exact absurd hfuel (Nat.not_lt_zero _)
  | succ fuel ih =>
      by_cases hgo : go s
      · obtain ⟨b, hb, hPb, hlt⟩ := hstep s hs hgo
        obtain ⟨s', hrun, hturns, hend⟩ := ih hPb (by omega)
        refine ⟨s', ?_, hturns.head hgo hb, hend⟩
        rw [whileLoop, if_pos hgo, hb]
        exact hrun
      · exact ⟨s, by rw [whileLoop, if_neg hgo], .refl s, hgo⟩

/-- What such a loop keeps, holds where it ends. -/
theorem whileLoop_keeps (go : σ → Prop) [DecidablePred go] (step : σ → Option σ)
    (P : σ → Prop) (measure : σ → Nat)
    (hstep : ∀ a, P a → go a → ∃ b, step a = some b ∧ P b ∧ measure b < measure a)
    {fuel : Nat} {s : σ} (hs : P s) (hfuel : measure s < fuel) :
    ∃ s', whileLoop go step fuel s = some s' ∧ P s' ∧ ¬ go s' := by
  obtain ⟨s', hrun, hturns, hend⟩ := whileLoop_ends measure hstep hs hfuel
  refine ⟨s', hrun, hturns.keeps (fun a b ha hgo hab => ?_) hs, hend⟩
  obtain ⟨b', hb', hP, -⟩ := hstep a ha hgo
  obtain rfl := Option.some.inj (hab.symm.trans hb')
  exact hP

end WhileLoop
