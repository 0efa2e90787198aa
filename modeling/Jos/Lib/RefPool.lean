import Jos.Lib.Chain
import Mathlib.Data.Finset.Card
import Mathlib.Algebra.Notation.Pi.Basic

/-!
# Pools of reference-counted objects

An allocator owns a set of *managed* objects.  At any time an object is on the
free list, *held* (handed out, with no reference to it yet), or referenced at
least once.  `Pool` is the discipline that keeps these three apart; it speaks
about the number of references only, not about where they are.

* `Pool.alloc`, `Pool.drop` move an object between the free list and its
  holder.
* `Pool.retain`, `Pool.release` count a reference up and down; the release of
  the last reference puts the object on the free list.

`card_filter_update` is the other half of every counting argument: where the
references are kept in slots, changing one slot changes the count of one
object by at most one.
-/

namespace RefPool

universe u v

section Pool

variable {α : Type u} [DecidableEq α]

/-- One more reference to `p`. -/
def incr (refs : α → Nat) (p : α) : α → Nat :=
  Function.update refs p (refs p + 1)

/-- One reference to `p` less. -/
def decr (refs : α → Nat) (p : α) : α → Nat :=
  Function.update refs p (refs p - 1)

theorem incr_apply (refs : α → Nat) (p q : α) :
    incr refs p q = refs q + if p = q then 1 else 0 := by
  unfold incr
  rw [Function.update_apply]
  by_cases hq : q = p
  · rw [if_pos hq, if_pos hq.symm, hq]
  · rw [if_neg hq, if_neg (Ne.symm hq), Nat.add_zero]

theorem decr_apply (refs : α → Nat) (p q : α) :
    decr refs p q = refs q - if p = q then 1 else 0 := by
  unfold decr
  rw [Function.update_apply]
  by_cases hq : q = p
  · rw [if_pos hq, if_pos hq.symm, hq]
  · rw [if_neg hq, if_neg (Ne.symm hq), Nat.sub_zero]

theorem eq_incr {refs refs' : α → Nat} {q : α}
    (h : ∀ p, refs' p = refs p + if q = p then 1 else 0) : refs' = incr refs q := by
  funext p
  rw [h p, incr_apply]

theorem eq_decr {refs refs' : α → Nat} {q : α}
    (h : ∀ p, refs' p + (if q = p then 1 else 0) = refs p) : refs' = decr refs q := by
  funext p
  rw [decr_apply, ← h p, Nat.add_sub_cancel]

theorem le_incr (refs : α → Nat) (p q : α) : refs q ≤ incr refs p q := by
  rw [incr_apply]
  omega

theorem decr_le (refs : α → Nat) (p q : α) : decr refs p q ≤ refs q := by
  rw [decr_apply]
  omega

/-- The order of a reference made and another one dropped does not matter. -/
theorem decr_incr {refs : α → Nat} {p q : α} (hq : 0 < refs q) :
    decr (incr refs p) q = incr (decr refs q) p := by
  funext x
  rw [decr_apply, incr_apply, incr_apply, decr_apply]
  by_cases hx : q = x
  · subst hx
    rw [if_pos rfl]
    omega
  · rw [if_neg hx, Nat.sub_zero, Nat.sub_zero]

/-- Every managed object is free, held, or referenced, and only one of these. -/
structure Pool (managed : Set α) (free : List α) (held : Finset α)
    (refs : α → Nat) : Prop where
  nodup : free.Nodup
  free_managed : ∀ p, p ∈ free → p ∈ managed
  held_managed : ∀ p, p ∈ held → p ∈ managed
  held_unreferenced : ∀ p, p ∈ held → refs p = 0
  mem_free : ∀ p, p ∈ managed → (p ∈ free ↔ refs p = 0 ∧ p ∉ held)

namespace Pool

variable {managed : Set α} {free : List α} {held : Finset α} {refs : α → Nat}
  {p : α}

omit [DecidableEq α] in
theorem free_unreferenced
    (h : Pool managed free held refs) (hp : p ∈ free) : refs p = 0 :=
  ((h.mem_free p (h.free_managed p hp)).mp hp).1

omit [DecidableEq α] in
theorem free_not_held
    (h : Pool managed free held refs) (hp : p ∈ free) : p ∉ held :=
  ((h.mem_free p (h.free_managed p hp)).mp hp).2

omit [DecidableEq α] in
theorem not_free_of_held
    (h : Pool managed free held refs) (hp : p ∈ held) : p ∉ free :=
  fun hf => h.free_not_held hf hp

omit [DecidableEq α] in
theorem not_free_of_referenced
    (h : Pool managed free held refs) (hp : refs p ≠ 0) : p ∉ free :=
  fun hf => hp (h.free_unreferenced hf)

/-- The first free object goes to a holder. -/
theorem alloc
    (h : Pool managed (p :: free) held refs) :
    Pool managed free (insert p held) refs where
  nodup := (List.nodup_cons.mp h.nodup).2
  free_managed q hq := h.free_managed q (List.mem_cons_of_mem p hq)
  held_managed q hq := by
    rcases Finset.mem_insert.mp hq with rfl | hq
    · exact h.free_managed q List.mem_cons_self
    · exact h.held_managed q hq
  held_unreferenced q hq := by
    rcases Finset.mem_insert.mp hq with rfl | hq
    · exact h.free_unreferenced List.mem_cons_self
    · exact h.held_unreferenced q hq
  mem_free q hq := by
    have hp : p ∉ free := (List.nodup_cons.mp h.nodup).1
    have hmem := h.mem_free q hq
    rw [List.mem_cons] at hmem
    by_cases hqp : q = p
    · subst hqp
      simp [hp]
    · simp only [hqp, false_or] at hmem
      simp [hmem, hqp]

/-- A holder gives an object back that it never referenced. -/
theorem drop
    (h : Pool managed free held refs) (hp : p ∈ held) :
    Pool managed (p :: free) (held.erase p) refs where
  nodup := List.nodup_cons.mpr ⟨h.not_free_of_held hp, h.nodup⟩
  free_managed q hq := by
    rcases List.mem_cons.mp hq with rfl | hq
    · exact h.held_managed q hp
    · exact h.free_managed q hq
  held_managed q hq := h.held_managed q (Finset.mem_of_mem_erase hq)
  held_unreferenced q hq :=
    h.held_unreferenced q (Finset.mem_of_mem_erase hq)
  mem_free q hq := by
    by_cases hqp : q = p
    · subst hqp
      simp [h.held_unreferenced q hp]
    · simp [h.mem_free q hq, hqp]

/-- A reference is made to an object that is held or already referenced. -/
theorem retain
    (h : Pool managed free held refs) (hp : p ∉ free) :
    Pool managed free (held.erase p) (incr refs p) where
  nodup := h.nodup
  free_managed := h.free_managed
  held_managed q hq := h.held_managed q (Finset.mem_of_mem_erase hq)
  held_unreferenced q hq := by
    obtain ⟨hqp, hq⟩ := Finset.mem_erase.mp hq
    rw [incr, Function.update_of_ne hqp]
    exact h.held_unreferenced q hq
  mem_free q hq := by
    by_cases hqp : q = p
    · subst hqp
      simp [incr, hp]
    · simp [incr, h.mem_free q hq, hqp]

theorem held_decr {q : α}
    (h : Pool managed free held refs) (hp : 0 < refs p) (hq : q ∈ held) :
    decr refs p q = 0 := by
  have hzero := h.held_unreferenced q hq
  have hqp : q ≠ p := by
    rintro rfl
    omega
  rw [decr, Function.update_of_ne hqp]
  exact hzero

/-- A reference is dropped and others remain. -/
theorem release_shared
    (h : Pool managed free held refs) (hp : 1 < refs p) :
    Pool managed free held (decr refs p) where
  nodup := h.nodup
  free_managed := h.free_managed
  held_managed := h.held_managed
  held_unreferenced _ hq := h.held_decr (by omega) hq
  mem_free q hq := by
    rw [h.mem_free q hq]
    by_cases hqp : q = p
    · subst hqp
      simp only [decr, Function.update_self]
      constructor
      · rintro ⟨h0, _⟩; omega
      · rintro ⟨h0, _⟩; omega
    · simp [decr, hqp]

/-- The last reference is dropped: the object is free again. -/
theorem release_last
    (h : Pool managed free held refs) (hm : p ∈ managed)
    (hp : refs p = 1) :
    Pool managed (p :: free) held (decr refs p) where
  nodup :=
    List.nodup_cons.mpr ⟨h.not_free_of_referenced (by omega), h.nodup⟩
  free_managed q hq := by
    rcases List.mem_cons.mp hq with rfl | hq
    · exact hm
    · exact h.free_managed q hq
  held_managed := h.held_managed
  held_unreferenced _ hq := h.held_decr (by omega) hq
  mem_free q hq := by
    rw [List.mem_cons, h.mem_free q hq]
    by_cases hqp : q = p
    · subst hqp
      have hheld : q ∉ held := fun hh => by
        have := h.held_unreferenced q hh
        omega
      simp [decr, hp, hheld]
    · simp [decr, hqp]

end Pool

end Pool

section Slots

variable {ι : Type u} {α : Type v} [DecidableEq ι] [DecidableEq α]

/-- Where two slot assignments agree except at one slot, the numbers of slots
that name an object differ by that slot alone. -/
theorem card_filter_update
    {S : Finset ι} {f g : ι → Option α} {i : ι} (p : α)
    (hi : i ∈ S)
    (hfg : ∀ j, j ∈ S → j ≠ i → g j = f j) :
    (S.filter (fun j => g j = some p)).card + (if f i = some p then 1 else 0) =
      (S.filter (fun j => f j = some p)).card +
        (if g i = some p then 1 else 0) := by
  have hsplit : ∀ h : ι → Option α,
      (S.filter (fun j => h j = some p)).card =
        ((S.erase i).filter (fun j => h j = some p)).card +
          (if h i = some p then 1 else 0) := by
    intro h
    rw [← Finset.insert_erase hi, Finset.filter_insert, Finset.erase_insert
      (Finset.notMem_erase i S)]
    split
    · rw [Finset.card_insert_of_notMem (by simp)]
    · rfl
  have hrest :
      (S.erase i).filter (fun j => g j = some p) =
        (S.erase i).filter (fun j => f j = some p) := by
    refine Finset.filter_congr (fun j hj => ?_)
    rw [hfg j (Finset.mem_of_mem_erase hj) (Finset.ne_of_mem_erase hj)]
  rw [hsplit g, hsplit f, hrest]
  omega

omit [DecidableEq ι] in
/-- Where two slot assignments agree, they count the same. -/
theorem card_filter_congr
    {S : Finset ι} {f g : ι → Option α} (p : α)
    (hfg : ∀ j, j ∈ S → g j = f j) :
    (S.filter (fun j => g j = some p)).card =
      (S.filter (fun j => f j = some p)).card := by
  congr 1
  exact Finset.filter_congr (fun j hj => by rw [hfg j hj])

end Slots

end RefPool
