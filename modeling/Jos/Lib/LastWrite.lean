import Mathlib.Data.List.Basic

/-!
# The last write wins

Writers that are applied one after another to a memory, a function of places.
Each one changes some places only, those that it covers (`Frames`).

* `foldl_of_none`: a place that no writer covers is kept.
* `none_or_last`: either no writer covers a place, or one of them is the last.
* `foldl_of_last`: then its write is what is found.
-/

namespace LastWrite

variable {ω ι β : Type} {apply : (ι → β) → ω → ι → β} {covers : ω → ι → Prop}
  {x : ι} {ws : List ω}

/-- A writer changes only what it covers. -/
def Frames (apply : (ι → β) → ω → ι → β) (covers : ω → ι → Prop) : Prop :=
  ∀ v w x, ¬ covers w x → apply v w x = v x

theorem foldl_of_none (h : Frames apply covers) (hnone : ∀ w, w ∈ ws → ¬ covers w x)
    (v : ι → β) : ws.foldl apply v x = v x := by
  induction ws generalizing v with
  | nil => rfl
  | cons w ws ih =>
      rw [List.foldl_cons, ih (fun w' hw' => hnone w' (List.mem_cons_of_mem w hw')),
        h v w x (hnone w List.mem_cons_self)]

theorem none_or_last (covers : ω → ι → Prop) (x : ι) (ws : List ω) :
    (∀ w, w ∈ ws → ¬ covers w x) ∨
      ∃ a w b, ws = a ++ w :: b ∧ covers w x ∧ ∀ w', w' ∈ b → ¬ covers w' x := by
  induction ws with
  | nil => exact Or.inl (fun w hw => absurd hw List.not_mem_nil)
  | cons w ws ih =>
      rcases ih with hnone | ⟨a, w', b, rfl, hcovers, hlast⟩
      · by_cases hw : covers w x
        · exact Or.inr ⟨[], w, ws, rfl, hw, hnone⟩
        · refine Or.inl (fun w' hw' => ?_)
          rcases List.mem_cons.mp hw' with rfl | hw'
          · exact hw
          · exact hnone w' hw'
      · exact Or.inr ⟨w :: a, w', b, rfl, hcovers, hlast⟩

theorem foldl_of_last (h : Frames apply covers) {a b : List ω} {w : ω}
    (hlast : ∀ w', w' ∈ b → ¬ covers w' x) (v : ι → β) :
    (a ++ w :: b).foldl apply v x = apply (a.foldl apply v) w x := by
  rw [List.foldl_append, List.foldl_cons, foldl_of_none h hlast]

end LastWrite
