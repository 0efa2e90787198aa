import Mathlib.Data.List.Basic

/-!
# Items in a ring of cells

Position `p` of a ring of `n` cells is cell `p % n`, so that a queue of at most `n`
items can move on for ever.  `Span holds n head xs` says that the cells from
position `head` on hold the items `xs`.

`Span.push` is what filling the cell behind the last item does, and `Span.congr` is
the frame rule: cells that hold none of the items may change.

In a ring that is never full, later items replace earlier ones: `Recent holds n xs` says
that the cells hold the last `n` of the items that went round, and `Recent.get` which one
a position behind the last item holds.
-/

namespace Ring

variable {α : Type} {holds holds' : Nat → α → Prop} {n head : Nat} {x : α} {xs : List α}

/-- The cells from position `head` on hold the items, in order. -/
def Span (holds : Nat → α → Prop) (n : Nat) : Nat → List α → Prop
  | _, [] => True
  | head, x :: xs => holds (head % n) x ∧ Span holds n (head + 1) xs

/-- Positions less than one turn apart are different cells. -/
theorem mod_ne {p q : Nat} (h : p < q) (h' : q < p + n) : p % n ≠ q % n := by
  intro heq
  have hzero : (q - p) % n = 0 := Nat.sub_mod_eq_zero_of_mod_eq heq.symm
  rw [Nat.mod_eq_of_lt (by omega)] at hzero
  omega

/-- The next position is the next cell. -/
theorem mod_succ (p : Nat) : (p % n + 1) % n = (p + 1) % n := by
  simp

/-- Where in the ring the items begin is all that matters. -/
theorem Span.rebase {head' : Nat} (h : Span holds n head xs)
    (heq : head' % n = head % n) : Span holds n head' xs := by
  induction xs generalizing head head' with
  | nil => trivial
  | cons x xs ih =>
      refine ⟨heq ▸ h.1, ih h.2 ?_⟩
      rw [← mod_succ head', heq, mod_succ]

/-- The cell of an item. -/
theorem Span.get (h : Span holds n head xs) {i : Nat} (hi : i < xs.length) :
    holds ((head + i) % n) (xs.get ⟨i, hi⟩) := by
  induction xs generalizing head i with
  | nil => exact absurd hi (Nat.not_lt_zero i)
  | cons x xs ih =>
      cases i with
      | zero => exact h.1
      | succ i =>
          have hshift : head + (i + 1) = head + 1 + i := by omega
          rw [hshift]
          exact ih h.2 (Nat.lt_of_succ_lt_succ hi)

/-- What is kept of the cells that hold the items. -/
theorem Span.congr (h : Span holds n head xs)
    (hkeep : ∀ i y, i < xs.length → holds ((head + i) % n) y → holds' ((head + i) % n) y) :
    Span holds' n head xs := by
  induction xs generalizing head with
  | nil => trivial
  | cons x xs ih =>
      refine ⟨hkeep 0 x (by simp) h.1, ih h.2 (fun i y hi hy => ?_)⟩
      have hshift : head + 1 + i = head + (i + 1) := by omega
      rw [hshift] at hy ⊢
      exact hkeep (i + 1) y (by simpa using hi) hy

/-- Filling the cell behind the last item. -/
theorem Span.push (h : Span holds n head xs) (hroom : xs.length < n)
    (hkeep : ∀ c y, c ≠ (head + xs.length) % n → holds c y → holds' c y)
    (hx : holds' ((head + xs.length) % n) x) : Span holds' n head (xs ++ [x]) := by
  induction xs generalizing head with
  | nil => exact ⟨hx, trivial⟩
  | cons y ys ih =>
      have hlen : head + (y :: ys).length = head + 1 + ys.length := by
        rw [List.length_cons]
        omega
      rw [hlen] at hkeep hx
      refine ⟨hkeep _ y ?_ h.1, ih h.2 (by simp at hroom; omega) hkeep hx⟩
      exact mod_ne (by omega) (by simp at hroom; omega)

/-- The items that the cells from position `head` on hold, if they are a function of
the cell. -/
def items (f : Nat → α) (n head k : Nat) : List α :=
  (List.range k).map (fun i => f ((head + i) % n))

theorem Span.items_eq {f : Nat → α} (h : Span (fun c x => f c = x) n head xs) :
    items f n head xs.length = xs := by
  unfold items
  induction xs generalizing head with
  | nil => rfl
  | cons x xs ih =>
      rw [List.length_cons, List.range_succ_eq_map, List.map_cons, List.map_map]
      refine congrArg₂ _ h.1 ?_
      refine Eq.trans (List.map_congr_left (fun i _ => ?_)) (ih h.2)
      have hshift : head + (i + 1) = head + 1 + i := by omega
      exact congrArg (fun p => f (p % n)) hshift

/-! ## Items that replace earlier ones -/

/-- The cells hold the last `n` of the items that went round the ring. -/
def Recent (holds : Nat → α → Prop) (n : Nat) (xs : List α) : Prop :=
  ∀ j y, xs[j]? = some y → xs.length ≤ j + n → holds (j % n) y

/-- The next item replaces the one a turn before it. -/
theorem Recent.push (h : Recent holds n xs)
    (hkeep : ∀ c y, c ≠ xs.length % n → holds c y → holds' c y)
    (hx : holds' (xs.length % n) x) : Recent holds' n (xs ++ [x]) := by
  intro j y hj hrecent
  rw [List.length_append, List.length_singleton] at hrecent
  by_cases hold : j < xs.length
  · rw [List.getElem?_append_left hold] at hj
    exact hkeep _ y (mod_ne hold (by omega)) (h j y hj (by omega))
  · obtain ⟨hlt, -⟩ := List.getElem?_eq_some_iff.mp hj
    rw [List.length_append, List.length_singleton] at hlt
    obtain rfl : j = xs.length := by omega
    rw [List.getElem?_concat_length] at hj
    exact Option.some.inj hj ▸ hx

/-- A position whose cell is not the next one to fill holds the last item of its cell. -/
theorem Recent.get (h : Recent holds n xs) (hn : 0 < n) {r : Nat} (hr : r ≤ xs.length)
    (hne : r % n ≠ xs.length % n) :
    ∃ i y, r ≤ i ∧ xs.length ≤ i + n ∧ i % n = r % n ∧ xs[i]? = some y ∧ holds (r % n) y := by
  have hlt : r < xs.length := Nat.lt_of_le_of_ne hr (fun heq => hne (heq ▸ rfl))
  have hdiv := Nat.div_add_mod (xs.length - 1 - r) n
  have hmod := Nat.mod_lt (xs.length - 1 - r) hn
  have hcell : (r + n * ((xs.length - 1 - r) / n)) % n = r % n := Nat.add_mul_mod_self_left _ _ _
  have hin : r + n * ((xs.length - 1 - r) / n) < xs.length := by omega
  have hrecent : xs.length ≤ r + n * ((xs.length - 1 - r) / n) + n := by omega
  refine ⟨_, xs[r + n * ((xs.length - 1 - r) / n)], Nat.le_add_right _ _, hrecent, hcell,
    List.getElem?_eq_getElem hin, ?_⟩
  exact hcell ▸ h _ _ (List.getElem?_eq_getElem hin) hrecent

end Ring
