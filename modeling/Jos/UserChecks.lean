import Jos.Partial

/-!
# What `user_mem_check` checks

The check goes over the pages of a range, from the page of its first byte up to the
next page boundary behind its end, and passes exactly if each of them is present
below `ULIM` with the flags asked for.  The end is computed modulo `2 ^ 32`.
-/

namespace Jos

open Programs

variable {m m' : PhysMem} {d : Nat} {va len perm stop p q : U32}

/-- The page of address `q` is present, below `ULIM`, and has the flags `perm`. -/
def PageOk (m : PhysMem) (d : Nat) (perm q : U32) : Prop :=
  q < ulim ∧ ∃ w, entryOf m.mem d (pdx q) (ptx q) = some w ∧ w &&& perm = perm

/-- Every page that `user_mem_check` looks at is fine. -/
def RangeOk (m : PhysMem) (d : Nat) (va len perm : U32) : Prop :=
  ∀ q : U32, q.toNat % 4096 = 0 → roundDown va pgsize ≤ q →
    q < roundUp (va + len) pgsize → PageOk m d perm q

theorem pgdirWalk_found {pte : Option PtePtr}
    (h : (pgdirWalk d p false).run m = .ret pte m') :
    m' = m ∧ pte = (tableOf m.mem d (pdx p)).map (fun t => ⟨t, ptx p⟩) := by
  have hm := pgdirWalk_ret h
  cases ht : tableOf m.mem d (pdx p) with
  | none =>
      rw [pgdirWalk_absent ht] at h
      cases h
      exact ⟨rfl, rfl⟩
  | some t =>
      obtain ⟨hp, rfl⟩ := tableOf_eq_some.mp ht
      unfold pgdirWalk at h
      rw [Prog.run_bind_ret (readPte_eq _), if_pos hp] at h
      unfold pgdirEntry at h
      rw [Prog.run_bind_ret (readPte_eq _)] at h
      by_cases hn : pgnum (m.mem d (pdx p)) < m.npages
      · rw [Prog.run_bind_ret (kaddr_eq (by rwa [pgnum_pteAddr])), pgnum_pteAddr] at h
        cases h
        exact ⟨rfl, rfl⟩
      · rw [Prog.run_bind, kaddr, Prog.run_bind_ret (Prog.run_get m),
          if_pos (by rw [pgnum_pteAddr]; exact Nat.le_of_not_lt hn)] at h
        exact absurd h (by simp)

/-- What one turn of the loop asks. -/
def badEntry (m : PhysMem) (perm p : U32) (pte : Option PtePtr) : Bool :=
  decide (ulim ≤ p) ||
    match pte with
    | none => true
    | some q =>
        decide (¬ HasFlag (m.mem q.page q.idx) pteP) ||
        decide (m.mem q.page q.idx &&& perm ≠ perm)

theorem badEntry_iff : badEntry m perm p
      ((tableOf m.mem d (pdx p)).map (fun t => ⟨t, ptx p⟩)) = false ↔
    PageOk m d perm p := by
  unfold badEntry PageOk entryOf
  cases tableOf m.mem d (pdx p) with
  | none => simp
  | some t =>
      by_cases hp : HasFlag (m.mem t (ptx p)) pteP
      · simp [hp]
      · simp [hp]

/-- The loop passes exactly if every page from `p` on is fine. -/
theorem userMemCheckLoop_iff {fuel : Nat} {r : Int}
    (hp : p.toNat % 4096 = 0) (hstop : stop.toNat % 4096 = 0)
    (h : (userMemCheckLoop d va perm stop fuel p).run m = .ret r m') :
    r = 0 ↔ ∀ q : U32, q.toNat % 4096 = 0 → p ≤ q → q < stop → PageOk m d perm q := by
  induction fuel generalizing p with
  | zero => exact absurd h (by simp [userMemCheckLoop])
  | succ fuel ih =>
      unfold userMemCheckLoop at h
      by_cases hlt : p < stop
      · rw [if_pos hlt, Prog.bind_ret_iff] at h
        obtain ⟨pte, m₁, hwalk, h⟩ := h
        obtain ⟨rfl, rfl⟩ := pgdirWalk_found hwalk
        rw [Prog.run_bind_ret (Prog.run_get m₁)] at h
        change (if badEntry m₁ perm p
            ((tableOf m₁.mem d (pdx p)).map (fun t => ⟨t, ptx p⟩)) = true then
          Prog.modify (fun m => { m with userMemCheckAddr := if p < va then va else p })
            >>= fun _ => pure (-eFault)
          else userMemCheckLoop d va perm stop fuel (p + pgsize)).run m₁ = .ret r m' at h
        have hpstop : p.toNat < stop.toNat := BitVec.lt_def.mp hlt
        have hnext : (p + pgsize).toNat = p.toNat + 4096 := by
          have hmax := stop.isLt
          unfold pgsize
          bv_omega
        cases hbad : badEntry m₁ perm p
            ((tableOf m₁.mem d (pdx p)).map (fun t => ⟨t, ptx p⟩)) with
        | true =>
            rw [if_pos hbad] at h
            cases h
            refine ⟨fun hr => absurd hr (by decide), fun hall => ?_⟩
            have hok := badEntry_iff.mpr (hall p hp (BitVec.le_refl p) hlt)
            exact absurd (hbad.symm.trans hok) (by simp)
        | false =>
            have hok : PageOk m₁ d perm p := badEntry_iff.mp hbad
            rw [if_neg (by rw [hbad]; simp)] at h
            rw [ih (by omega) h]
            constructor
            · intro hall q hq hpq hqs
              by_cases hqp : q = p
              · rw [hqp]
                exact hok
              · refine hall q hq ?_ hqs
                rw [BitVec.le_def] at hpq ⊢
                have hne : q.toNat ≠ p.toNat := fun he => hqp (BitVec.eq_of_toNat_eq he)
                omega
            · intro hall q hq hpq hqs
              refine hall q hq ?_ hqs
              rw [BitVec.le_def] at hpq ⊢
              omega
      · rw [if_neg hlt] at h
        cases h
        refine ⟨fun _ q _ hpq hqs => ?_, fun _ => rfl⟩
        rw [BitVec.le_def] at hpq
        rw [BitVec.lt_def] at hlt hqs
        omega

theorem roundDown_mod (a : U32) : (roundDown a pgsize).toNat % 4096 = 0 := by
  rw [roundDown_toNat]
  omega

/-- `user_mem_check` passes exactly if every page it looks at is fine. -/
theorem userMemCheck_iff {r : Int} (h : (userMemCheck d va len perm).run m = .ret r m') :
    r = 0 ↔ RangeOk m d va len perm := by
  unfold userMemCheck at h
  generalize npdentries * nptentries + 1 = fuel at h
  exact userMemCheckLoop_iff (roundDown_mod va) (roundDown_mod _) h

end Jos
