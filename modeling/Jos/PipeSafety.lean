import Jos.PipeSpaces
import Mathlib.Logic.Relation

/-!
# A pipe is found closed only when its other end is gone

The buffer of a pipe is mapped next to every descriptor page of it, so it has at
least as many references as both ends together (`Pipe.refs_ends_le`).  The
invariant `PipeInv` of a run says that every routine in progress is safe, that a
count stays right until its reader is rescheduled, and that an end which is gone
does not come back.
-/

namespace Jos

open Relation

variable {P : Pipe} {u u' : Users} {isPipe : Nat → Bool} {s s' : PipeState}

/-! ## Counting -/

/-- Where a space is paired, an end has the buffer next to it. -/
theorem Pipe.Paired.beside {e v q : Nat} (h : P.Paired (u.spaces e))
    (hq : (u.spaces e).page v = some q) (he : P.IsEnd q) :
    v + 32 < userPages ∧ (u.spaces e).page (v + 32) = some P.buf := by
  obtain ⟨i, hi, hv, hd⟩ := h.fd v q hq he
  have hdata : v + 32 = dataPage i := by
    rw [hv, fdPage_nat hi, dataPage_nat hi]
    omega
  rw [hdata]
  refine ⟨?_, hd⟩
  rw [dataPage_nat hi]
  unfold userPages
  omega

/-- The buffer is mapped next to every end. -/
theorem Pipe.refs_ends_le (h : ∀ e, P.Paired (u.spaces e)) :
    u.refs P.rfd + u.refs P.wfd ≤ u.refs P.buf := by
  have hdisj : Disjoint (u.entries P.rfd) (u.entries P.wfd) := by
    refine Finset.disjoint_left.mpr (fun r hr hw => P.rfd_ne_wfd ?_)
    rw [Users.mem_entries] at hr hw
    exact Option.some.inj (hr.2.symm.trans hw.2)
  have hend : ∀ r, r ∈ u.entries P.rfd ∪ u.entries P.wfd →
      r.1 < nenv ∧ ∃ q, (u.spaces r.1).page r.2 = some q ∧ P.IsEnd q := by
    intro r hr
    rcases Finset.mem_union.mp hr with hr | hr
    · rw [Users.mem_entries] at hr
      exact ⟨hr.1.1, P.rfd, hr.2, Or.inl rfl⟩
    · rw [Users.mem_entries] at hr
      exact ⟨hr.1.1, P.wfd, hr.2, Or.inr rfl⟩
  unfold Users.refs
  rw [← Finset.card_union_of_disjoint hdisj]
  refine Finset.card_le_card_of_injOn (fun r => (r.1, r.2 + 32)) ?_ ?_
  · intro r hr
    obtain ⟨he, q, hq, hend⟩ := hend r hr
    obtain ⟨hlt, hbuf⟩ := (h r.1).beside hq hend
    exact Users.mem_entries.mpr ⟨⟨he, hlt⟩, hbuf⟩
  · intro r _ r' _ hrr
    obtain ⟨h₁, h₂⟩ := Prod.mk.inj hrr
    exact Prod.ext h₁ (by omega)

/-- The buffer is mapped only in data slots. -/
theorem Pipe.refs_buf_le (h : ∀ e, P.Paired (u.spaces e)) :
    u.refs P.buf ≤ 32768 := by
  have hdata : ∀ r, r ∈ u.entries P.buf →
      r.1 < 1024 ∧ 0xD0020 ≤ r.2 ∧ r.2 < 0xD0040 := by
    intro r hr
    rw [Users.mem_entries] at hr
    obtain ⟨i, hi, hv⟩ := (h r.1).data r.2 hr.2
    rw [dataPage_nat hi] at hv
    exact ⟨hr.1.1, by omega, by omega⟩
  rw [← Finset.card_range 32768]
  refine Finset.card_le_card_of_injOn (fun r => r.1 * 32 + (r.2 - 0xD0020)) ?_ ?_
  · intro r hr
    have hr := hdata r hr
    have hlt : r.1 * 32 + (r.2 - 0xD0020) < 32768 := by omega
    exact Finset.mem_range.mpr hlt
  · intro r hr r' hr' hrr
    have hr := hdata r hr
    have hr' := hdata r' hr'
    have hrr : r.1 * 32 + (r.2 - 0xD0020) = r'.1 * 32 + (r'.2 - 0xD0020) := hrr
    exact Prod.ext (by omega) (by omega)

/-! ## One step of a routine -/

namespace LibCode

variable {e q : Nat} {c c' : LibCode}

/-- Pages of the pipe that no entry maps stay away. -/
theorem Effect.refs_eq_zero (h : Effect P.pages e u u') (he : e < nenv)
    (hq : q ∈ P.pages) (hz : u.refs q = 0) : u'.refs q = 0 := by
  rw [Users.refs_eq_zero] at hz ⊢
  cases h with
  | same => exact hz
  | @set y z w _ hw =>
      intro x v hx hv hp
      by_cases hxy : x = y
      · subst hxy
        rw [Users.set_space_self] at hp
        rcases Space.page_set_eq hp with ⟨-, ht⟩ | ⟨-, ht⟩
        · obtain ⟨t, htw, rfl⟩ := Option.map_eq_some_iff.mp ht
          rcases hw t htw with hnot | ⟨src, hsrc, hpage⟩
          · exact hnot hq
          · exact hz e src he hsrc hpage
        · exact hz x v hx hv ht
      · rw [Users.set_space_of_ne hxy] at hp
        exact hz x v hx hv hp
  | @wipe y _ _ _ _ =>
      intro x v hx hv hp
      by_cases hxy : x = y
      · subst hxy
        simp [Users.setSpace, Space.page] at hp
      · rw [Users.setSpace_of_ne hxy] at hp
        exact hz x v hx hv hp
  | start _ => exact hz

/-- A routine that is safe stays so, and gives the children it makes nothing of the
pipe. -/
theorem Step.safe (hs : Step P.pages e c u c' u') (he : u.life e = .alive)
    (hp : P.Paired (u.spaces e)) (hsafe : P.Safe P.Matched c (u.spaces e)) :
    P.Paired (u'.spaces e) ∧ P.Safe P.Matched c' (u'.spaces e) := by
  have child : ∀ {y z : Nat} {w : Option UserPte}, u.life y = .embryo e →
      (u.set y z w).spaces e = u.spaces e := by
    intro y z w hy
    refine Users.set_space_of_ne ?_
    rintro rfl
    simp [he] at hy
  cases hs with
  | look => exact ⟨hp, hsafe⟩
  | unmap hv =>
      rw [Users.set_space_self]
      exact hsafe.1 hv
  | unmapFails hv => exact ⟨hp, hsafe.2 hv⟩
  | map _ hdst hw _ =>
      rw [Users.set_space_self]
      exact hsafe.1 _ hw hdst
  | mapFails => exact ⟨hp, hsafe.2⟩
  | alloc _ _ hw =>
      rw [Users.set_space_self]
      exact hsafe.1 _ hw
  | allocFails => exact ⟨hp, hsafe.2⟩
  | request => exact ⟨hp, hsafe _⟩
  | receive _ hw =>
      rw [Users.set_space_self]
      exact hsafe.1 _ hw
  | receiveFails => exact ⟨hp, hsafe.2⟩
  | @exofork _ _ d _ hfree =>
      have hne : e ≠ d := by
        rintro rfl
        simp [he] at hfree
      rw [Users.setSpace_of_ne hne]
      exact ⟨hp, hsafe _⟩
  | exoforkFails => exact ⟨hp, hsafe _⟩
  | copy hchild _ _ _ _ =>
      rw [child hchild]
      exact ⟨hp, hsafe.2 _⟩
  | copyFails => exact ⟨hp, hsafe.2 _⟩
  | allocChild hchild _ _ _ =>
      rw [child hchild]
      exact ⟨hp, hsafe _⟩
  | allocChildFails => exact ⟨hp, hsafe _⟩
  | start _ => exact ⟨hp, hsafe⟩
  | @destroy d _ _ hchild =>
      have hne : e ≠ d := by
        rintro rfl
        simp [he] at hchild
      rw [Users.setSpace_of_ne hne]
      exact ⟨hp, hsafe⟩

/-- Whatever is not running holds nothing of the pipe, before and after. -/
theorem Step.plain (hs : Step P.pages e c u c' u') (he : u.life e = .alive)
    (hsafe : P.Safe P.Matched c (u.spaces e))
    (hplain : ∀ x, u.life x ≠ .alive → P.Plain (u.spaces x))
    {x : Nat} (hx : u.life x ≠ .alive) : P.Plain (u'.spaces x) := by
  have hne : x ≠ e := by
    rintro rfl
    exact hx he
  have child : ∀ {y z : Nat} {w : UserPte}, w.page ∉ P.pages →
      P.Plain ((u.set y z (some w)).spaces x) := by
    intro y z w hw
    by_cases hxy : x = y
    · subst hxy
      rw [Users.set_space_self]
      exact (hplain x hx).set (fun t ht => by cases ht; exact hw)
    · rw [Users.set_space_of_ne hxy]
      exact hplain x hx
  have wipe : ∀ {y : Nat} {l : Life},
      P.Plain (((u.setLife y l).setSpace y (fun _ => none)).spaces x) := by
    intro y l
    by_cases hxy : x = y
    · subst hxy
      rw [Users.setSpace_self]
      exact fun v q hq => by simp [Space.page] at hq
    · rw [Users.setSpace_of_ne hxy]
      exact hplain x hx
  cases hs with
  | look => exact hplain x hx
  | unmap _ =>
      rw [Users.set_space_of_ne hne]
      exact hplain x hx
  | unmapFails _ => exact hplain x hx
  | map _ _ _ _ =>
      rw [Users.set_space_of_ne hne]
      exact hplain x hx
  | mapFails => exact hplain x hx
  | alloc _ _ _ =>
      rw [Users.set_space_of_ne hne]
      exact hplain x hx
  | allocFails => exact hplain x hx
  | request => exact hplain x hx
  | receive _ _ =>
      rw [Users.set_space_of_ne hne]
      exact hplain x hx
  | receiveFails => exact hplain x hx
  | exofork _ _ => exact wipe
  | exoforkFails => exact hplain x hx
  | @copy _ _ _ _ _ _ w _ _ _ hw _ => exact child (hsafe.1 w hw)
  | copyFails => exact hplain x hx
  | allocChild _ _ _ hw => exact child hw
  | allocChildFails => exact hplain x hx
  | start _ => exact hplain x hx
  | destroy _ => exact wipe

end LibCode

end Jos
