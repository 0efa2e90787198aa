import Mathlib.Data.Nat.Nth
import Mathlib.Data.Nat.PrimeFin

/-!
# Sifting numbers

A number is *sifted* by some divisors if it is at least two and none of them divides it.
A list in which every number is the first one that is sifted by those before it is a list
of primes, with none left out.

* `first_primes_iff`: the first number sifted by the first primes is the next prime.
* `siftedFrom_primes`: a list that was made by sifting is the list of the first primes.
-/

namespace Sieve

/-- None of the divisors divides `n`. -/
def Sifted (ps : List Nat) (n : Nat) : Prop := 2 ≤ n ∧ ∀ q ∈ ps, ¬ q ∣ n

/-- No number from `lo` to `hi` is sifted. -/
def Clear (ps : List Nat) (lo hi : Nat) : Prop := ∀ n, lo ≤ n → n < hi → ¬ Sifted ps n

/-- The least number that is sifted. -/
def First (ps : List Nat) (p : Nat) : Prop := Sifted ps p ∧ Clear ps 0 p

/-- Each number of the list is the first one that is left by `ps` and those before it. -/
def SiftedFrom : List Nat → List Nat → Prop
  | _, [] => True
  | ps, p :: l => First ps p ∧ SiftedFrom (ps ++ [p]) l

/-- The first `k` primes. -/
noncomputable def firstPrimes (k : Nat) : List Nat := (List.range k).map (Nat.nth Nat.Prime)

section Facts

variable {ps l : List Nat} {p q n k lo mid hi : Nat}

theorem sifted_append : Sifted (ps ++ [p]) n ↔ Sifted ps n ∧ ¬ p ∣ n := by
  constructor
  · rintro ⟨htwo, hall⟩
    exact ⟨⟨htwo, fun q hq => hall q (by simp [hq])⟩, hall p (by simp)⟩
  · rintro ⟨⟨htwo, hall⟩, hp⟩
    refine ⟨htwo, fun q hq => ?_⟩
    rcases List.mem_append.mp hq with hq | hq
    · exact hall q hq
    · rw [List.mem_singleton.mp hq]
      exact hp

theorem Clear.append (h : Clear ps lo hi) : Clear (ps ++ [p]) lo hi := by
  intro n hlo hhi hn
  exact h n hlo hhi (sifted_append.mp hn).1

theorem Clear.trans (h : Clear ps lo mid) (h' : Clear ps mid hi) : Clear ps lo hi := by
  intro n hlo hhi
  by_cases hmid : n < mid
  · exact h n hlo hmid
  · exact h' n (by omega) hhi

/-- A divisor sifts its multiples. -/
theorem clear_dvd (h : p ∣ n) : Clear (ps ++ [p]) n (n + 1) := by
  intro m hlo hhi hm
  obtain rfl : m = n := by omega
  exact (sifted_append.mp hm).2 h

theorem First.unique (hp : First ps p) (hq : First ps q) : p = q := by
  have hle : ¬ q < p := fun hlt => hp.2 q (Nat.zero_le q) hlt hq.1
  have hge : ¬ p < q := fun hlt => hq.2 p (Nat.zero_le p) hlt hp.1
  omega

theorem firstPrimes_succ : firstPrimes (k + 1) = firstPrimes k ++ [Nat.nth Nat.Prime k] := by
  simp [firstPrimes, List.range_succ]

theorem mem_firstPrimes : q ∈ firstPrimes k ↔ ∃ i, i < k ∧ Nat.nth Nat.Prime i = q := by
  simp [firstPrimes]

theorem prime_of_mem_firstPrimes (h : q ∈ firstPrimes k) : q.Prime := by
  obtain ⟨i, -, rfl⟩ := mem_firstPrimes.mp h
  exact Nat.nth_mem_of_infinite Nat.infinite_setOfPred_prime i

/-- A prime below the `k`th is one of those before it. -/
theorem mem_firstPrimes_of_lt (hq : q.Prime) (hlt : q < Nat.nth Nat.Prime k) :
    q ∈ firstPrimes k := by
  have hnth : Nat.nth Nat.Prime (Nat.count Nat.Prime q) = q := Nat.nth_count hq
  refine mem_firstPrimes.mpr ⟨_, ?_, hnth⟩
  rw [← hnth] at hlt
  exact (Nat.nth_strictMono Nat.infinite_setOfPred_prime).lt_iff_lt.mp hlt

/-- The first number that the first primes leave is the next prime. -/
theorem first_firstPrimes : First (firstPrimes k) (Nat.nth Nat.Prime k) := by
  have hprime : (Nat.nth Nat.Prime k).Prime := Nat.nth_mem_of_infinite Nat.infinite_setOfPred_prime k
  constructor
  · refine ⟨hprime.two_le, fun q hq hdvd => ?_⟩
    have hqprime := prime_of_mem_firstPrimes hq
    obtain ⟨i, hi, rfl⟩ := mem_firstPrimes.mp hq
    have hlt : Nat.nth Nat.Prime i < Nat.nth Nat.Prime k :=
      Nat.nth_strictMono Nat.infinite_setOfPred_prime hi
    have heq := (Nat.prime_dvd_prime_iff_eq hqprime hprime).mp hdvd
    omega
  · rintro n - hlt ⟨htwo, hall⟩
    have hfac : n.minFac.Prime := Nat.minFac_prime (by omega)
    have hle : n.minFac ≤ n := Nat.minFac_le (by omega)
    exact hall _ (mem_firstPrimes_of_lt hfac (by omega)) (Nat.minFac_dvd n)

theorem first_primes_iff : First (firstPrimes k) p ↔ p = Nat.nth Nat.Prime k := by
  constructor
  · exact fun h => h.unique first_firstPrimes
  · rintro rfl
    exact first_firstPrimes

/-- Sifting makes the list of primes, from where it begins. -/
theorem siftedFrom_primes (h : SiftedFrom (firstPrimes k) l) :
    firstPrimes k ++ l = firstPrimes (k + l.length) := by
  induction l generalizing k with
  | nil => simp
  | cons p l ih =>
      obtain ⟨hfirst, hrest⟩ := h
      rw [first_primes_iff] at hfirst
      subst hfirst
      rw [← firstPrimes_succ] at hrest
      have hlist := ih hrest
      rw [firstPrimes_succ, List.append_assoc] at hlist
      rw [List.length_cons, show k + (l.length + 1) = k + 1 + l.length by omega]
      exact hlist

end Facts

end Sieve
