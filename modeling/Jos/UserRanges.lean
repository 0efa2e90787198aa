import Jos.UserChecks

/-!
# Which ranges `user_mem_check` is right about

A range of addresses is a range of natural numbers: it may be empty, and it may go past the
end of the address space.  `user_mem_check` rounds both ends to pages in 32-bit arithmetic.  It
is right about the ranges that end before the last page, and about few of the others.
-/

namespace Jos

namespace UserRanges

open Programs

/-- A page directory: the tables it names are pages of the memory. -/
structure PageDirectory (m : PhysMem) where
  page : Nat
  tables : ∀ i t, i < npdentries → tableOf m.mem page i = some t → t < m.npages

/-- The address is below `ULIM`, on a page that is present with all bits of `perm`. -/
def Accessible (m : PhysMem) (d : Nat) (perm : U32) (x : Nat) : Prop :=
  x < ulim.toNat ∧
    ∃ w, entryOf m.mem d (pdx (BitVec.ofNat 32 x)) (ptx (BitVec.ofNat 32 x)) = some w ∧
      w &&& perm = perm

/-- The addresses of `[va, va + len)`. -/
def range (va len : U32) : Set Nat := {x | va.toNat ≤ x ∧ x < va.toNat + len.toNat}

/-- `user_mem_check` has said of the whole range what it should. -/
structure Checked (m : PhysMem) (d : Nat) (va len perm : U32) (r : Int) (m' : PhysMem) : Prop where
  passes : r = 0 ↔ ∀ x, x ∈ range va len → Accessible m d perm x
  fails : (¬ ∀ x, x ∈ range va len → Accessible m d perm x) → r = -eFault ∧
    IsLeast {x | x ∈ range va len ∧ ¬ Accessible m d perm x} m'.userMemCheckAddr.toNat

/-- The ranges about which `user_mem_check` is right: the empty ones whose page it does not look
at or finds accessible; the others that end before the last page; and of those that go past the
end of the address space the ones that end, modulo `2 ^ 32`, in the page where they begin or
behind it, if that page is not accessible. -/
def Rounded (m : PhysMem) (d : Nat) (va len perm : U32) : Prop :=
  (len = 0#32 ∧ (va.toNat % 4096 = 0 ∨ 2 ^ 32 - 4096 < va.toNat ∨
    Accessible m d perm va.toNat)) ∨
  (len ≠ 0#32 ∧ va.toNat + len.toNat ≤ 2 ^ 32 - 4096) ∨
  (2 ^ 32 + va.toNat / 4096 * 4096 < va.toNat + len.toNat ∧
    va.toNat + len.toNat ≤ 2 ^ 33 - 4096 ∧ ¬ Accessible m d perm va.toNat)

variable {m : PhysMem} {d : Nat} {va len perm stop p q : U32} {x : Nat}

/-! ## Pages -/

theorem pageOk_iff (hq : q.toNat = x / 4096 * 4096) (hx : x < 2 ^ 32) :
    PageOk m d perm q ↔ Accessible m d perm x := by
  have hpdx : pdx q = pdx (BitVec.ofNat 32 x) := by
    rw [pdx_eq, pdx_eq, hq, BitVec.toNat_ofNat, Nat.mod_eq_of_lt hx]
    omega
  have hptx : ptx q = ptx (BitVec.ofNat 32 x) := by
    rw [ptx_eq, ptx_eq, hq, BitVec.toNat_ofNat, Nat.mod_eq_of_lt hx]
    omega
  have hulim : q < ulim ↔ x < ulim.toNat := by
    rw [BitVec.lt_def, hq, ulim_toNat]
    omega
  unfold PageOk Accessible
  rw [hpdx, hptx, hulim]

/-- The page of an address. -/
theorem page_toNat (hx : x < 2 ^ 32) :
    (BitVec.ofNat 32 (x / 4096 * 4096)).toNat = x / 4096 * 4096 := by
  rw [BitVec.toNat_ofNat]
  exact Nat.mod_eq_of_lt (by omega)

/-- The last page is not accessible, and nothing behind it. -/
theorem not_accessible (hx : 2 ^ 32 - 4096 ≤ x) : ¬ Accessible m d perm x := by
  rintro ⟨hlt, -⟩
  rw [ulim_toNat] at hlt
  omega

/-! ## The loop -/

theorem PageDirectory.walk (pgdir : PageDirectory m) (p : U32) :
    (pgdirWalk pgdir.page p false).run m =
      .ret ((tableOf m.mem pgdir.page (pdx p)).map (fun t => ⟨t, ptx p⟩)) m := by
  cases ht : tableOf m.mem pgdir.page (pdx p) with
  | none => exact pgdirWalk_absent ht
  | some t =>
      obtain ⟨hp, hpage⟩ := tableOf_eq_some.mp ht
      have hlt : pgnum (pteAddr (m.mem pgdir.page (pdx p))) < m.npages := by
        rw [pgnum_pteAddr, hpage]
        exact pgdir.tables _ t (pdx_lt p) ht
      unfold pgdirWalk
      rw [Prog.run_bind_ret (readPte_eq _), if_pos hp]
      unfold pgdirEntry
      rw [Prog.run_bind_ret (readPte_eq _), Prog.run_bind_ret (kaddr_eq hlt), pgnum_pteAddr, hpage]
      rfl

/-- The loop passes when all pages are fine, and it stops at the first one that is not. -/
theorem userMemCheckLoop_spec (pgdir : PageDirectory m) (va perm : U32) (fuel : Nat)
    (hp : p.toNat % 4096 = 0) (hstop : stop.toNat % 4096 = 0) (hpos : 0 < fuel)
    (hfuel : stop.toNat < p.toNat + 4096 * fuel) :
    ((userMemCheckLoop pgdir.page va perm stop fuel p).run m = .ret 0 m ∧
      ∀ q : U32, q.toNat % 4096 = 0 → p ≤ q → q < stop → PageOk m pgdir.page perm q) ∨
    ∃ q : U32, (userMemCheckLoop pgdir.page va perm stop fuel p).run m =
        .ret (-eFault) { m with userMemCheckAddr := if q < va then va else q } ∧
      q.toNat % 4096 = 0 ∧ p ≤ q ∧ q < stop ∧ ¬ PageOk m pgdir.page perm q ∧
      ∀ q' : U32, q'.toNat % 4096 = 0 → p ≤ q' → q' < q → PageOk m pgdir.page perm q' := by
  induction fuel generalizing p with
  | zero => exact absurd hpos (Nat.lt_irrefl 0)
  | succ fuel ih =>
      unfold userMemCheckLoop
      by_cases hlt : p < stop
      · rw [if_pos hlt, Prog.run_bind_ret (pgdir.walk p), Prog.run_bind_ret (Prog.run_get m)]
        change ((if badEntry m perm p
              ((tableOf m.mem pgdir.page (pdx p)).map (fun t => ⟨t, ptx p⟩)) = true then
            Prog.modify (fun m => { m with userMemCheckAddr := if p < va then va else p })
              >>= fun _ => pure (-eFault)
            else userMemCheckLoop pgdir.page va perm stop fuel (p + pgsize)).run m = _ ∧ _) ∨
          ∃ q : U32, (if badEntry m perm p
              ((tableOf m.mem pgdir.page (pdx p)).map (fun t => ⟨t, ptx p⟩)) = true then
            Prog.modify (fun m => { m with userMemCheckAddr := if p < va then va else p })
              >>= fun _ => pure (-eFault)
            else userMemCheckLoop pgdir.page va perm stop fuel (p + pgsize)).run m = _ ∧ _
        have hpstop : p.toNat < stop.toNat := BitVec.lt_def.mp hlt
        have hnext : (p + pgsize).toNat = p.toNat + 4096 := by
          have hmax := stop.isLt
          unfold pgsize
          bv_omega
        cases hbad : badEntry m perm p
            ((tableOf m.mem pgdir.page (pdx p)).map (fun t => ⟨t, ptx p⟩)) with
        | true =>
            rw [if_pos rfl]
            refine Or.inr ⟨p, rfl, hp, BitVec.le_refl p, hlt, fun hok => ?_,
              fun q' _ hle hlt' => ?_⟩
            · exact absurd (hbad.symm.trans (badEntry_iff.mpr hok)) (by simp)
            · exact absurd (BitVec.lt_def.mp hlt') (Nat.not_lt.mpr (BitVec.le_def.mp hle))
        | false =>
            have hok : PageOk m pgdir.page perm p := badEntry_iff.mp hbad
            rw [if_neg (by simp)]
            -- a page behind `p` is `p + PGSIZE` or behind it
            have hbehind : ∀ q' : U32, q'.toNat % 4096 = 0 → p ≤ q' →
                q' = p ∨ p + pgsize ≤ q' := by
              intro q' hq' hle
              rw [BitVec.le_def] at hle ⊢
              by_cases heq : q'.toNat = p.toNat
              · exact Or.inl (BitVec.eq_of_toNat_eq heq)
              · exact Or.inr (by omega)
            have hfuel' : 0 < fuel := by omega
            rcases ih (p := p + pgsize) (by omega) hfuel' (by omega) with
              ⟨hrun, hall⟩ | ⟨q, hrun, hq, hle, hlt', hnot, hall⟩
            · refine Or.inl ⟨hrun, fun q' hq' hle' hlt' => ?_⟩
              rcases hbehind q' hq' hle' with rfl | hle''
              · exact hok
              · exact hall q' hq' hle'' hlt'
            · refine Or.inr ⟨q, hrun, hq, ?_, hlt', hnot, fun q' hq' hle' hlt'' => ?_⟩
              · rw [BitVec.le_def] at hle ⊢
                omega
              · rcases hbehind q' hq' hle' with rfl | hle''
                · exact hok
                · exact hall q' hq' hle'' hlt''
      · rw [if_neg hlt]
        refine Or.inl ⟨rfl, fun q' _ hle hlt' => ?_⟩
        rw [BitVec.le_def] at hle
        rw [BitVec.lt_def] at hlt hlt'
        omega

/-- Where the loop ends. -/
theorem roundUp_end (va len : U32) :
    (roundUp (va + len) pgsize).toNat =
      (((va.toNat + len.toNat) % 2 ^ 32 + 4095) / 4096 * 4096) % 2 ^ 32 := by
  have hsum : (va + len).toNat = (va.toNat + len.toNat) % 2 ^ 32 := BitVec.toNat_add va len
  by_cases hwrap : (va + len).toNat + 4095 < 2 ^ 32
  · rw [roundUp_toNat hwrap, hsum]
    rw [hsum] at hwrap
    exact (Nat.mod_eq_of_lt (by omega)).symm
  · rw [roundUp_wraps (Nat.le_of_not_lt hwrap), BitVec.toNat_ofNat]
    rw [hsum] at hwrap
    omega

/-- The pages are those of the addresses from `va` rounded down up to the end of the loop. -/
theorem userMemCheck_spec (pgdir : PageDirectory m) (va len perm : U32) :
    ((userMemCheck pgdir.page va len perm).run m = .ret 0 m ∧
      ∀ x, va.toNat / 4096 * 4096 ≤ x → x < (roundUp (va + len) pgsize).toNat →
        Accessible m pgdir.page perm x) ∨
    ∃ q : U32, (userMemCheck pgdir.page va len perm).run m =
        .ret (-eFault) { m with userMemCheckAddr := if q < va then va else q } ∧
      q.toNat % 4096 = 0 ∧ va.toNat / 4096 * 4096 ≤ q.toNat ∧
      q.toNat < (roundUp (va + len) pgsize).toNat ∧
      (∀ x, x / 4096 * 4096 = q.toNat → ¬ Accessible m pgdir.page perm x) ∧
      ∀ x, va.toNat / 4096 * 4096 ≤ x → x < q.toNat → Accessible m pgdir.page perm x := by
  have hmax := (roundUp (va + len) pgsize).isLt
  have hend := roundDown_mod (va + len + pgsize - 1#32)
  have hbelow : ∀ stop : U32, (∀ q : U32, q.toNat % 4096 = 0 → roundDown va pgsize ≤ q → q < stop →
      PageOk m pgdir.page perm q) → ∀ x, stop.toNat % 4096 = 0 → va.toNat / 4096 * 4096 ≤ x →
        x < stop.toNat → Accessible m pgdir.page perm x := by
    intro stop hall x hstop hle hlt
    have hx : x < 2 ^ 32 := hlt.trans stop.isLt
    have hpage := page_toNat hx
    refine (pageOk_iff hpage hx).mp (hall _ ?_ ?_ ?_)
    · rw [hpage]
      omega
    · rw [BitVec.le_def, roundDown_toNat, hpage]
      omega
    · rw [BitVec.lt_def, hpage]
      omega
  have hfuel : 4096 * (npdentries * nptentries + 1) = 2 ^ 32 + 4096 := by
    unfold npdentries nptentries
    omega
  unfold userMemCheck
  generalize npdentries * nptentries + 1 = fuel at hfuel
  have hloop := userMemCheckLoop_spec pgdir va perm fuel (roundDown_mod va) hend (by omega)
    (by omega)
  rcases hloop with ⟨hrun, hall⟩ | ⟨q, hrun, hq, hle, hlt, hnot, hall⟩
  · exact Or.inl ⟨hrun, fun x => hbelow _ hall x hend⟩
  · rw [BitVec.le_def, roundDown_toNat] at hle
    refine Or.inr ⟨q, hrun, hq, hle, BitVec.lt_def.mp hlt, fun x hx hacc => ?_,
      fun x => hbelow q hall x hq⟩
    have hx' : x < 2 ^ 32 := by
      have hqlt := q.isLt
      omega
    exact hnot ((pageOk_iff hx.symm hx').mpr hacc)

/-! ## The ranges -/

/-- A range that is not empty and goes into the last page is not accessible. -/
theorem range_not_accessible (hlen : len ≠ 0#32) (hlast : 2 ^ 32 - 4096 < va.toNat + len.toNat) :
    ¬ ∀ x, x ∈ range va len → Accessible m d perm x := by
  have hpos : 0 < len.toNat := Nat.pos_of_ne_zero (fun h => hlen (BitVec.eq_of_toNat_eq h))
  intro hall
  exact not_accessible (by omega) (hall (va.toNat + len.toNat - 1) ⟨by omega, by omega⟩)

theorem range_empty (hlen : len = 0#32) : ∀ x, x ∈ range va len → Accessible m d perm x := by
  rintro x ⟨hle, hlt⟩
  rw [hlen] at hlt
  exact absurd hlt (Nat.not_lt.mpr hle)

/-- When `user_mem_check` returns 0. -/
theorem passed_iff (hall : ∀ x, va.toNat / 4096 * 4096 ≤ x →
      x < (roundUp (va + len) pgsize).toNat → Accessible m d perm x) :
    Checked m d va len perm 0 m ↔ Rounded m d va len perm := by
  have hend := roundUp_end va len
  have hva := va.isLt
  have hchecked : Checked m d va len perm 0 m ↔ ∀ x, x ∈ range va len → Accessible m d perm x :=
    ⟨fun h => h.passes.mp rfl, fun h => ⟨⟨fun _ => h, fun _ => rfl⟩, fun hnot => absurd h hnot⟩⟩
  rw [hchecked]
  by_cases hlen : len = 0#32
  · have hzero : len.toNat = 0 := by rw [hlen]; rfl
    refine iff_of_true (range_empty hlen) (Or.inl ⟨hlen, ?_⟩)
    by_cases haligned : va.toNat % 4096 = 0
    · exact Or.inl haligned
    by_cases hlast : 2 ^ 32 - 4096 < va.toNat
    · exact Or.inr (Or.inl hlast)
    · exact Or.inr (Or.inr (hall _ (by omega) (by omega)))
  · have hpos : 0 < len.toNat := Nat.pos_of_ne_zero (fun h => hlen (BitVec.eq_of_toNat_eq h))
    by_cases hlast : va.toNat + len.toNat ≤ 2 ^ 32 - 4096
    · refine iff_of_true (fun x hx => hall x ?_ ?_) (Or.inr (Or.inl ⟨hlen, hlast⟩))
      · have hle := hx.1
        omega
      · have hlt := hx.2
        omega
    · refine iff_of_false (range_not_accessible hlen (Nat.lt_of_not_le hlast)) ?_
      rintro (⟨hzero, -⟩ | ⟨-, hle⟩ | ⟨hwrap, hle, hnot⟩)
      · exact hlen hzero
      · exact hlast hle
      · exact hnot (hall _ (by omega) (by omega))

/-- When `user_mem_check` stops at the page `q`. -/
theorem failed_iff {m' : PhysMem} (hq : q.toNat % 4096 = 0)
    (haddr : m'.userMemCheckAddr = if q < va then va else q)
    (hle : va.toNat / 4096 * 4096 ≤ q.toNat) (hlt : q.toNat < (roundUp (va + len) pgsize).toNat)
    (hnot : ∀ x, x / 4096 * 4096 = q.toNat → ¬ Accessible m d perm x)
    (hall : ∀ x, va.toNat / 4096 * 4096 ≤ x → x < q.toNat → Accessible m d perm x) :
    Checked m d va len perm (-eFault) m' ↔ Rounded m d va len perm := by
  have hend := roundUp_end va len
  have hva := va.isLt
  have hlenlt := len.isLt
  have hmax : m'.userMemCheckAddr.toNat = max va.toNat q.toNat := by
    rw [haddr]
    split_ifs with h
    · exact (Nat.max_eq_left (BitVec.lt_def.mp h).le).symm
    · exact (Nat.max_eq_right (Nat.le_of_not_lt (fun h' => h (BitVec.lt_def.mpr h')))).symm
  -- the page is the first one that is not accessible
  have hbad : ¬ Accessible m d perm (max va.toNat q.toNat) := hnot _ (by omega)
  have hleast : max va.toNat q.toNat < va.toNat + len.toNat →
      Checked m d va len perm (-eFault) m' := by
    intro hin
    have hmem : max va.toNat q.toNat ∈ range va len := ⟨Nat.le_max_left _ _, hin⟩
    refine ⟨iff_of_false (by decide) (fun h => hbad (h _ hmem)), fun _ => ⟨rfl, ?_, ?_⟩⟩
    · rw [hmax]
      exact ⟨hmem, hbad⟩
    · rintro y ⟨hy, hynot⟩
      rw [hmax]
      have hyle := hy.1
      refine Nat.max_le.mpr ⟨hyle, Nat.le_of_not_lt (fun hylt => hynot (hall y (by omega) hylt))⟩
  by_cases hlen : len = 0#32
  · have hzero : len.toNat = 0 := by rw [hlen]; rfl
    refine iff_of_false (fun h => ?_) ?_
    · exact absurd (h.passes.mpr (range_empty hlen)) (by decide)
    · rintro (⟨-, haligned | hlast | hacc⟩ | ⟨hne, -⟩ | ⟨hwrap, -, -⟩)
      · omega
      · omega
      · exact hnot _ (by omega) hacc
      · exact hne hlen
      · omega
  · have hpos : 0 < len.toNat := Nat.pos_of_ne_zero (fun h => hlen (BitVec.eq_of_toNat_eq h))
    by_cases hlast : va.toNat + len.toNat ≤ 2 ^ 32 - 4096
    · exact iff_of_true (hleast (by omega)) (Or.inr (Or.inl ⟨hlen, hlast⟩))
    · -- only the page of `va` was looked at
      exact iff_of_true (hleast (by omega))
        (Or.inr (Or.inr ⟨by omega, by omega, hnot _ (by omega)⟩))

/-- `user_mem_check` returns, and it is right exactly about the ranges of `Rounded`. -/
theorem userMemCheck_right_iff (pgdir : PageDirectory m) (va len perm : U32) :
    ∃ r m', (userMemCheck pgdir.page va len perm).run m = .ret r m' ∧
      (Checked m pgdir.page va len perm r m' ↔ Rounded m pgdir.page va len perm) := by
  rcases userMemCheck_spec pgdir va len perm with ⟨hrun, hall⟩ | ⟨q, hrun, hq, hle, hlt, hnot, hall⟩
  · exact ⟨0, m, hrun, passed_iff hall⟩
  · exact ⟨_, _, hrun, failed_iff hq rfl hle hlt hnot hall⟩

/-- Memory of two pages, both empty. -/
def emptyMemory : PhysMem where
  npages := 2
  pages := fun _ => ⟨none, 0#16⟩
  pageFreeList := none
  kernPgdir := 0
  mem := fun _ _ => 0#32
  userMemCheckAddr := 0#32
  cr3 := fun _ => 0
  tlb := fun _ _ => none

/-- A page directory in which nothing is present. -/
def emptyDirectory : PageDirectory emptyMemory where
  page := 1
  tables := fun _ _ _ h => absurd (tableOf_eq_some.mp h).1 (not_hasFlag_zero _)

/-- With `va = 0x1000` and `len = 0xFFFFFFFF` the end wraps to `0x1000`: no page is looked at, and
`user_mem_check` returns 0 although nothing is accessible. -/
theorem userMemCheck_wraps :
    (userMemCheck emptyDirectory.page 0x1000#32 0xFFFFFFFF#32 pteU).run emptyMemory =
        .ret 0 emptyMemory ∧
      ¬ Checked emptyMemory emptyDirectory.page 0x1000#32 0xFFFFFFFF#32 pteU 0 emptyMemory := by
  constructor
  · unfold userMemCheck userMemCheckLoop
    rw [if_neg (by decide)]
    rfl
  · intro h
    refine range_not_accessible (by decide) (by decide) (h.passes.mp rfl)

end UserRanges

end Jos
