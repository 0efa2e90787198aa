import Mathlib.Data.Nat.ModEq
import Mathlib.Tactic.Ring

/-!
# Ones' complement sums

Numbers below a base are added with the carry put back, so that only the sum modulo
`b - 1` matters, and whether it is zero: a sum that is not zero never folds to zero.

* `eq_rep`: what is congruent to a sum, bounded, and zero with it, represents it.
* `sumFrom_append`: digits at odd and even places, with a second string behind the first.
-/

namespace OnesSum

/-- The number up to `m` that represents the sum `n`. -/
def rep (m n : Nat) : Nat := if n = 0 then 0 else (n - 1) % m + 1

/-- Put the carry back. -/
def fold (b n : Nat) : Nat := n / b + n % b

/-- The sum of digits of base `b` in pairs, with the less significant digit of a pair first. -/
def pairs (b : Nat) : List Nat → Nat
  | [] => 0
  | [x] => x
  | x :: y :: l => x + b * y + pairs b l

section Rep

variable {m n k r : Nat}

@[simp] theorem rep_zero : rep m 0 = 0 := rfl

theorem rep_le (hm : 0 < m) : rep m n ≤ m := by
  unfold rep
  split
  · omega
  · exact Nat.mod_lt _ hm

@[simp] theorem rep_eq_zero : rep m n = 0 ↔ n = 0 := by
  unfold rep
  split
  · simp [*]
  · simp [*]

theorem rep_modEq : rep m n ≡ n [MOD m] := by
  unfold rep
  split
  · simp [*, Nat.ModEq]
  · next hn =>
      calc (n - 1) % m + 1 ≡ n - 1 + 1 [MOD m] := (Nat.mod_modEq _ _).add_right 1
        _ ≡ n [MOD m] := by rw [Nat.sub_add_cancel (by omega)]

/-- A representative is known by its class, its size and whether it is zero. -/
theorem eq_rep (hm : 0 < m) (hle : r ≤ m) (hmod : r ≡ n [MOD m]) (hzero : r = 0 ↔ n = 0) :
    r = rep m n := by
  have hrep : r ≡ rep m n [MOD m] := hmod.trans rep_modEq.symm
  have hle' : rep m n ≤ m := rep_le hm
  by_cases hn : n = 0
  · rw [hzero.mpr hn, hn, rep_zero]
  · have hr : r ≠ 0 := mt hzero.mp hn
    have hr' : rep m n ≠ 0 := mt rep_eq_zero.mp hn
    have hpred : r - 1 ≡ rep m n - 1 [MOD m] := by
      refine Nat.ModEq.add_right_cancel' 1 ?_
      rwa [Nat.sub_add_cancel (by omega), Nat.sub_add_cancel (by omega)]
    have heq : r - 1 = rep m n - 1 := hpred.eq_of_lt_of_lt (by omega) (by omega)
    omega

theorem rep_congr (hm : 0 < m) (hmod : n ≡ k [MOD m]) (hzero : n = 0 ↔ k = 0) :
    rep m n = rep m k :=
  eq_rep hm (rep_le hm) (rep_modEq.trans hmod) (rep_eq_zero.trans hzero)

theorem rep_add (hm : 0 < m) : rep m (rep m n + k) = rep m (n + k) :=
  rep_congr hm (rep_modEq.add_right k) (by simp)

theorem rep_mul (hm : 0 < m) : rep m (k * rep m n) = rep m (k * n) :=
  rep_congr hm (rep_modEq.mul_left k) (by simp)

/-- The greatest representative is that of the multiples but zero. -/
theorem rep_eq_self (hm : 0 < m) : rep m n = m ↔ n ≠ 0 ∧ n ≡ 0 [MOD m] := by
  constructor
  · intro h
    constructor
    · rintro rfl
      rw [rep_zero] at h
      omega
    · have hmod : rep m n ≡ n [MOD m] := rep_modEq
      rw [h] at hmod
      exact hmod.symm.trans (by simp [Nat.ModEq])
  · rintro ⟨hn, hmod⟩
    refine (eq_rep hm (Nat.le_refl m) ?_ ?_).symm
    · exact Nat.ModEq.trans (by simp [Nat.ModEq]) hmod.symm
    · omega

/-- A sum and the complement of its representative cancel. -/
theorem complement_modEq (hm : 0 < m) : n + (m - rep m n) ≡ 0 [MOD m] := by
  have hle : rep m n ≤ m := rep_le hm
  calc n + (m - rep m n) ≡ rep m n + (m - rep m n) [MOD m] := rep_modEq.symm.add_right _
    _ = m := Nat.add_sub_cancel' hle
    _ ≡ 0 [MOD m] := by simp [Nat.ModEq]

theorem complement_ne_zero (hm : 0 < m) : n + (m - rep m n) ≠ 0 := by
  intro h
  have hn : n = 0 := by omega
  rw [hn, rep_zero] at h
  omega

end Rep

section Fold

variable {b n : Nat}

theorem fold_modEq (hb : 1 < b) : fold b n ≡ n [MOD b - 1] := by
  have hone : b ≡ 1 [MOD b - 1] := by
    have hsum : b = b - 1 + 1 := by omega
    conv => lhs; rw [hsum]
    simp [Nat.ModEq]
  calc fold b n = 1 * (n / b) + n % b := by rw [fold, Nat.one_mul]
    _ ≡ b * (n / b) + n % b [MOD b - 1] := (hone.symm.mul_right _).add_right _
    _ = n := Nat.div_add_mod n b

theorem fold_eq_zero : fold b n = 0 ↔ n = 0 := by
  unfold fold
  constructor
  · intro h
    obtain ⟨hdiv, hmod⟩ := Nat.add_eq_zero_iff.mp h
    have hn := Nat.div_add_mod n b
    rw [hdiv, hmod] at hn
    simpa using hn.symm
  · rintro rfl
    simp

end Fold

section Pairs

variable {b x : Nat} {l l' : List Nat}

theorem square_modEq (hb : 0 < b) : b * b ≡ 1 [MOD b * b - 1] := by
  have hsum : b * b = b * b - 1 + 1 := (Nat.sub_add_cancel (Nat.mul_pos hb hb)).symm
  conv => lhs; rw [hsum]
  simp [Nat.ModEq]

/-- One more digit changes the places of all others. -/
theorem pairs_cons (hb : 0 < b) : pairs b (x :: l) ≡ x + b * pairs b l [MOD b * b - 1] := by
  induction l generalizing x with
  | nil => simp [pairs, Nat.ModEq]
  | cons y l ih =>
      calc pairs b (x :: y :: l) = x + (b * y + 1 * pairs b l) := by simp [pairs]; ring
        _ ≡ x + (b * y + b * b * pairs b l) [MOD b * b - 1] :=
            (((square_modEq hb).symm.mul_right _).add_left _).add_left _
        _ = x + b * (y + b * pairs b l) := by ring
        _ ≡ x + b * pairs b (y :: l) [MOD b * b - 1] := (ih.symm.mul_left b).add_left x

theorem pairs_append (hb : 0 < b) :
    pairs b (l ++ l') ≡ pairs b l + b ^ l.length * pairs b l' [MOD b * b - 1] := by
  induction l with
  | nil => simp [pairs, Nat.ModEq]
  | cons x l ih =>
      calc pairs b (x :: (l ++ l')) ≡ x + b * pairs b (l ++ l') [MOD b * b - 1] := pairs_cons hb
        _ ≡ x + b * (pairs b l + b ^ l.length * pairs b l') [MOD b * b - 1] :=
            (ih.mul_left b).add_left x
        _ = x + b * pairs b l + b ^ (x :: l).length * pairs b l' := by
            rw [List.length_cons]
            ring
        _ ≡ pairs b (x :: l) + b ^ (x :: l).length * pairs b l' [MOD b * b - 1] :=
            (pairs_cons hb).symm.add_right _

theorem pairs_eq_zero (hb : 0 < b) : pairs b l = 0 ↔ ∀ x ∈ l, x = 0 := by
  induction l using pairs.induct with
  | case1 => simp [pairs]
  | case2 x => simp [pairs]
  | case3 x y l ih =>
      simp [pairs, ih, Nat.ne_of_gt hb, and_assoc]

/-- Two digits in the middle, behind full pairs. -/
theorem pairs_even {y : Nat} (heven : l.length % 2 = 0) :
    pairs b (l ++ x :: y :: l') = pairs b (l ++ 0 :: 0 :: l') + (x + b * y) := by
  induction l using pairs.induct with
  | case1 => simp [pairs]; ring
  | case2 z => simp at heven
  | case3 z w l ih =>
      simp only [List.length_cons] at heven
      simp only [List.cons_append, pairs, ih (by omega)]
      ring

end Pairs

end OnesSum
