import Jos.Malloc

/-!
# What the allocator does to pages

Each function of `lib/malloc.c` in terms of page numbers: `isfree` looks for a
range of unmapped pages below `mend` (`FreeRange`), the search stops at one or
has seen that there is none, the allocating loop takes a range of pages or leaves
all of them unmapped, and `free` drops one reference to the page in which a block
ends, and with the last of them that page.
-/

namespace Jos

open Programs Bytes

namespace Malloc

/-- A page between `mbegin` and `mend`. -/
def InHeap (p : Nat) : Prop := 32768 ≤ p ∧ p < 65536

/-- The address of the word that counts the references to a page. -/
def refAddr (p : Nat) : Nat := p * 4096 + 4092

/-- The reference count of a page. -/
def refOf (h : Heap) (p : Nat) : U32 := word h.mem (refAddr p)

/-- The addresses from page `p` up to `e` are below `mend` and not mapped. -/
def FreeRange (h : Heap) (p e : Nat) : Prop :=
  ∀ q, p ≤ q → q * 4096 < e → q < 65536 ∧ h.uvpt q = none

theorem mbegin_toNat : mbegin.toNat = 32768 * 4096 := by decide

theorem mend_toNat : mend.toNat = 65536 * 4096 := by decide

theorem pgsize_toNat : pgsize.toNat = 4096 := by decide

section Addresses

variable {va : U32} {p : Nat}

theorem pgnum_of_page (hva : va.toNat = p * 4096) : pgnum va = p := by
  rw [pgnum_eq, hva]
  omega

/-- The next page. -/
theorem add_pgsize (hva : va.toNat = p * 4096) (hp : p ≤ 65536) :
    (va + pgsize).toNat = (p + 1) * 4096 := by
  rw [BitVec.toNat_add, hva, pgsize_toNat]
  omega

theorem nextPage_toNat (hva : va.toNat = p * 4096) (hp : p ≤ 65536) :
    (nextPage va).toNat = (p + 1) * 4096 := by
  unfold nextPage
  exact add_pgsize hva hp

/-- A page below `mend` may be passed to the system calls. -/
theorem page_arg (hva : va.toNat = p * 4096) (hp : p < 65536) :
    ¬ (utop ≤ va ∨ va % pgsize ≠ 0#32) := by
  rintro (hutop | hoff)
  · rw [BitVec.le_def, utop_toNat, hva] at hutop
    omega
  · apply hoff
    apply BitVec.eq_of_toNat_eq
    rw [BitVec.toNat_umod, hva, pgsize_toNat]
    change p * 4096 % 4096 = 0
    omega

end Addresses

/-! ## System calls -/

/-- A page is mapped, and is zero. -/
def takePage (h : Heap) (p : Nat) (cont : Bool) : Heap :=
  { h with
    uvpt := Function.update h.uvpt p (some cont)
    mem := fun x => if x / 4096 = p then 0#8 else h.mem x
    allocs := h.allocs + 1 }

section Calls

variable {h : Heap} {va a w : U32} {p : Nat}

theorem sysPageUnmap_run (hva : va.toNat = p * 4096) (hp : p < 65536) :
    (sysPageUnmap va).run h =
      .ret 0 { h with uvpt := Function.update h.uvpt p none } := by
  unfold sysPageUnmap
  rw [if_neg (page_arg hva hp), pgnum_of_page hva]
  rfl

theorem sysPageAlloc_run (cont : Bool) (hva : va.toNat = p * 4096) (hp : p < 65536) :
    (sysPageAlloc va cont).run h =
      if h.hasPage h.allocs then .ret 0 (takePage h p cont)
      else .ret (-eNoMem) { h with allocs := h.allocs + 1 } := by
  unfold sysPageAlloc
  rw [if_neg (page_arg hva hp), pgnum_of_page hva]
  rw [Prog.run_bind_ret (a := h) (t := h) rfl,
    Prog.run_bind_ret (t := { h with allocs := h.allocs + 1 }) rfl]
  by_cases hpage : h.hasPage h.allocs
  · rw [if_pos hpage, if_pos hpage]
    rfl
  · rw [if_neg hpage, if_neg hpage]
    rfl

theorem loadWord_run (hpage : h.uvpt (pgnum a) ≠ none) :
    (loadWord a).run h = .ret (word h.mem a.toNat) h := by
  unfold loadWord
  rw [Prog.run_bind_ret (a := h) (t := h) rfl,
    Prog.run_bind_ret (Prog.run_when_false hpage)]
  rfl

theorem storeWord_run (hpage : h.uvpt (pgnum a) ≠ none) :
    (storeWord a w).run h = .ret () { h with mem := setWord h.mem a.toNat w } := by
  unfold storeWord
  rw [Prog.run_bind_ret (a := h) (t := h) rfl,
    Prog.run_bind_ret (Prog.run_when_false hpage)]
  rfl

end Calls

/-! ## Looking for address space -/

section Search

variable {h : Heap} {v n : U32} {p : Nat}

theorem FreeRange.cons_iff {e : Nat} (hlt : p * 4096 < e) :
    FreeRange h p e ↔ (p < 65536 ∧ h.uvpt p = none) ∧ FreeRange h (p + 1) e := by
  constructor
  · intro hfree
    exact ⟨hfree p (Nat.le_refl p) hlt, fun q hq => hfree q (by omega)⟩
  · rintro ⟨hp, hrest⟩ q hq he
    rcases Nat.eq_or_lt_of_le hq with rfl | hq
    · exact hp
    · exact hrest q hq he

theorem isfreeLoop_run (h : Heap) (endVa : U32) :
    ∀ (fuel : Nat) {va : U32} {p : Nat}, va.toNat = p * 4096 → p ≤ 65536 →
      65536 < p + fuel →
      ∃ b, (isfreeLoop endVa fuel va).run h = .ret b h ∧
        (b = true ↔ FreeRange h p endVa.toNat) := by
  intro fuel
  induction fuel with
  | zero =>
      intro va p _ hp hfuel
      omega
  | succ fuel ih =>
      intro va p hva hp hfuel
      unfold isfreeLoop
      by_cases hlt : va < endVa
      · rw [if_pos hlt]
        rw [BitVec.lt_def, hva] at hlt
        rw [Prog.run_bind_ret (a := h) (t := h) rfl, pgnum_of_page hva]
        rw [FreeRange.cons_iff hlt]
        by_cases hout : mend ≤ va ∨ h.uvpt p ≠ none
        · rw [if_pos hout]
          refine ⟨false, rfl, iff_of_false (by simp) ?_⟩
          rintro ⟨⟨hp', hnone⟩, -⟩
          rcases hout with hend | hmapped
          · rw [BitVec.le_def, mend_toNat, hva] at hend
            omega
          · exact hmapped hnone
        · rw [if_neg hout]
          rw [not_or, not_not, BitVec.le_def, mend_toNat, hva] at hout
          have hp' : p < 65536 := by omega
          obtain ⟨b, hrun, hb⟩ := ih (add_pgsize hva hp) (by omega) (by omega)
          exact ⟨b, hrun, hb.trans ⟨fun hfree => ⟨⟨hp', hout.2⟩, hfree⟩, And.right⟩⟩
      · rw [if_neg hlt]
        rw [BitVec.lt_def, hva] at hlt
        exact ⟨true, rfl, iff_of_true rfl (fun q hq he => by omega)⟩

/-- `isfree` of a page of the heap and a number of bytes. -/
theorem isfree_run (hv : v.toNat = p * 4096) (hp : p < 65536)
    (hn : n.toNat ≤ 0x100000) :
    ∃ b, (isfree v n).run h = .ret b h ∧
      (b = true ↔ FreeRange h p (p * 4096 + n.toNat)) := by
  have hend : (v + n).toNat = p * 4096 + n.toNat := by
    rw [BitVec.toNat_add, hv]
    omega
  have hloop := isfreeLoop_run h (v + n) 0x10001 hv (by omega)
    (by omega)
  unfold isfree
  rw [← hend]
  exact hloop

/-- The search stops at a page of the heap with enough address space behind it, or has
been at every page of the heap and found none. -/
theorem mallocSearch_run (hn : (n + 4#32).toNat ≤ 0x100000) :
    ∀ (fuel nwrap : Nat) {h : Heap} {p : Nat}, h.mptr.toNat = p * 4096 → InHeap p →
      nwrap ≤ 1 → 98304 ≤ p + 32768 * nwrap + fuel →
      (nwrap = 1 → ∀ q, 32768 ≤ q → q < p →
        ¬ FreeRange h q (q * 4096 + (n + 4#32).toNat)) →
      ∃ b a, (mallocSearch n fuel nwrap).run h = .ret b { h with mptr := a } ∧
        (b = true → ∃ q, a.toNat = q * 4096 ∧ InHeap q ∧
          FreeRange h q (q * 4096 + (n + 4#32).toNat)) ∧
        (b = false → a = mbegin ∧ ∀ q, InHeap q →
          ¬ FreeRange h q (q * 4096 + (n + 4#32).toNat)) := by
  intro fuel
  induction fuel with
  | zero =>
      rintro nwrap h p - ⟨-, hhi⟩ hwrap hfuel -
      clear hn
      omega
  | succ fuel ih =>
      rintro nwrap h p hmptr hp hwrap hfuel hpast
      obtain ⟨hlo, hhi⟩ := hp
      obtain ⟨b, hrun, hb⟩ := isfree_run (h := h) hmptr hhi hn
      unfold mallocSearch
      rw [Prog.run_bind_ret (a := h) (t := h) rfl, Prog.run_bind_ret hrun]
      cases b with
      | true =>
          rw [if_pos rfl]
          exact ⟨true, h.mptr, rfl, fun _ => ⟨p, hmptr, ⟨hlo, hhi⟩, hb.mp rfl⟩,
            fun hh => absurd hh (by decide)⟩
      | false =>
          have hnot : ¬ FreeRange h p (p * 4096 + (n + 4#32).toNat) := fun hfree =>
            absurd (hb.mpr hfree) (by decide)
          have hnext := nextPage_toNat hmptr (by omega)
          rw [if_neg (by decide), Prog.run_bind_ret
            (t := { h with mptr := nextPage h.mptr }) rfl]
          by_cases hend : nextPage h.mptr = mend
          · -- the pointer stands at `mend`: it goes on at `mbegin`, or has been everywhere
            rw [if_pos hend, Prog.run_bind_ret (t := { h with mptr := mbegin }) rfl]
            have hlast : p + 1 = 65536 := by
              have hnat := congrArg BitVec.toNat hend
              rw [hnext, mend_toNat] at hnat
              omega
            by_cases hwrap2 : nwrap + 1 = 2
            · rw [if_pos hwrap2]
              refine ⟨false, mbegin, rfl, fun hh => absurd hh (by decide),
                fun _ => ⟨rfl, ?_⟩⟩
              rintro q ⟨hq, hq'⟩
              rcases Nat.lt_or_ge q p with hlt | hge
              · exact hpast (by omega) q hq hlt
              · obtain rfl : q = p := by omega
                exact hnot
            · rw [if_neg hwrap2]
              obtain ⟨b, a, hrun, htrue, hfalse⟩ := ih (nwrap + 1)
                (h := { h with mptr := mbegin }) (p := 32768) mbegin_toNat
                ⟨Nat.le_refl _, by decide⟩ (by omega) (by omega)
                (fun _ q hq hq' => by omega)
              exact ⟨b, a, hrun, htrue, hfalse⟩
          · rw [if_neg hend]
            have hmore : p + 1 < 65536 := by
              by_contra hover
              apply hend
              apply BitVec.eq_of_toNat_eq
              rw [hnext, mend_toNat]
              omega
            obtain ⟨b, a, hrun, htrue, hfalse⟩ := ih nwrap
              (h := { h with mptr := nextPage h.mptr }) (p := p + 1) hnext ⟨by omega, hmore⟩
              hwrap (by omega) (fun hone q hq hq' => by
                rcases Nat.lt_or_ge q p with hlt | hge
                · exact hpast hone q hq hlt
                · obtain rfl : q = p := by omega
                  exact hnot)
            exact ⟨b, a, hrun, htrue, hfalse⟩

end Search

/-! ## Taking pages -/

section Pages

variable {h h₀ : Heap} {p k count : Nat}

/-- The address of page `p + k`, for the loops that start at `mptr`. -/
theorem mptr_page (hmptr : h.mptr.toNat = p * 4096) (hp : p + k ≤ 65536) :
    (h.mptr + BitVec.ofNat 32 (k * 4096)).toNat = (p + k) * 4096 := by
  rw [BitVec.toNat_add, BitVec.toNat_ofNat, hmptr]
  omega

theorem mallocUndo_run :
    ∀ (k : Nat) {h : Heap}, h.mptr.toNat = p * 4096 → p + k < 65536 →
      (mallocUndo k).run h = .ret () { h with
        uvpt := fun q => if p ≤ q ∧ q ≤ p + k then none else h.uvpt q } := by
  intro k
  induction k with
  | zero =>
      intro h hmptr hp
      unfold mallocUndo
      rw [Prog.run_bind_ret (a := h) (t := h) rfl,
        Prog.run_bind_ret (sysPageUnmap_run hmptr hp)]
      refine congrArg (fun u => Outcome.ret () { h with uvpt := u }) (funext (fun q => ?_))
      by_cases hq : q = p
      · rw [hq, Function.update_self, if_pos (by omega)]
      · rw [Function.update_of_ne hq, if_neg (by omega)]
  | succ k ih =>
      intro h hmptr hp
      unfold mallocUndo
      rw [Prog.run_bind_ret (a := h) (t := h) rfl, Prog.run_bind_ret
        (sysPageUnmap_run (mptr_page hmptr (k := k + 1) (by omega)) hp)]
      rw [ih (h := { h with uvpt := Function.update h.uvpt (p + (k + 1)) none }) hmptr
        (by omega)]
      refine congrArg (fun u => Outcome.ret () { h with uvpt := u }) (funext (fun q => ?_))
      by_cases hq : q = p + (k + 1)
      · rw [hq, if_neg (by omega), if_pos (by omega)]
        exact Function.update_self _ _ _
      · by_cases hin : p ≤ q ∧ q ≤ p + k
        · rw [if_pos hin, if_pos (by omega)]
        · rw [if_neg hin, if_neg (by omega)]
          exact Function.update_of_ne hq _ _

/-- The first `k` of `count` pages from page `p` on are taken, all but the last of the
`count` with `PTE_CONTINUED`, and nothing else changed. -/
structure Taken (p k count : Nat) (h₀ h : Heap) : Prop where
  mptr : h.mptr = h₀.mptr
  hasPage : h.hasPage = h₀.hasPage
  inside : ∀ q, p ≤ q → q < p + k → h.uvpt q = some (decide (q + 1 < p + count))
  outside : ∀ q, ¬ (p ≤ q ∧ q < p + k) → h.uvpt q = h₀.uvpt q
  mem : ∀ x, ¬ (p ≤ x / 4096 ∧ x / 4096 < p + k) → h.mem x = h₀.mem x

theorem Taken.refl : Taken p 0 count h h :=
  ⟨rfl, rfl, fun q _ _ => by omega, fun _ _ => rfl, fun _ _ => rfl⟩

/-- One page more. -/
theorem Taken.succ (ht : Taken p k count h₀ h) :
    Taken p (k + 1) count h₀ (takePage h (p + k) (decide (p + k + 1 < p + count))) := by
  refine ⟨ht.mptr, ht.hasPage, fun q hlo hhi => ?_, fun q hq => ?_, fun x hx => ?_⟩
  · by_cases hqk : q = p + k
    · rw [hqk]
      exact Function.update_self _ _ _
    · exact (Function.update_of_ne hqk _ _).trans (ht.inside q hlo (by omega))
  · exact (Function.update_of_ne (by omega) _ _).trans (ht.outside q (by omega))
  · exact (if_neg (by omega)).trans (ht.mem x (by omega))

/-- The loop takes all the pages, or none because the kernel had too few. -/
theorem mallocPages_run {size : Nat} (hmptr : h₀.mptr.toNat = p * 4096)
    (hfree : FreeRange h₀ p (p * 4096 + size)) (hcount : count = (size + 4095) / 4096) :
    ∀ (fuel : Nat) {h : Heap} {k : Nat}, Taken p k count h₀ h → k ≤ count →
      count < k + fuel →
      (∃ h', (mallocPages size fuel k).run h = .ret (some (count * 4096)) h' ∧
        Taken p count count h₀ h') ∨
      (∃ h' k', (mallocPages size fuel k).run h = .ret none h' ∧ h'.uvpt = h₀.uvpt ∧
        h'.mptr = h₀.mptr ∧ h'.hasPage = h₀.hasPage ∧ k' ≤ count ∧
        (∀ x, ¬ (p ≤ x / 4096 ∧ x / 4096 < p + k') → h'.mem x = h₀.mem x) ∧
        ∃ i, h₀.hasPage i = false) := by
  intro fuel
  induction fuel with
  | zero =>
      intro h k _ hk hfuel
      omega
  | succ fuel ih =>
      intro h k ht hk hfuel
      unfold mallocPages
      by_cases hlt : k * 4096 < size
      · rw [if_pos hlt, Prog.run_bind_ret (a := h) (t := h) rfl]
        have hlt' : (p + k) * 4096 < p * 4096 + size := by
          rw [Nat.add_mul]
          exact Nat.add_lt_add_left hlt _
        have hpk := hfree (p + k) (by omega) hlt'
        have hva := mptr_page (h := h) (p := p) (k := k) (by rw [ht.mptr]; exact hmptr)
          (by omega)
        have hcont : decide (k * 4096 + 4096 < size) =
            decide (p + k + 1 < p + count) := by
          rw [decide_eq_decide]
          omega
        rw [hcont]
        have hcall := sysPageAlloc_run (h := h)
          (decide (p + k + 1 < p + count)) hva hpk.1
        by_cases hpage : h.hasPage h.allocs
        · rw [if_pos hpage] at hcall
          rw [Prog.run_bind_ret hcall, if_neg (by decide)]
          exact ih ht.succ (by omega) (by omega)
        · rw [if_neg hpage] at hcall
          rw [Prog.run_bind_ret hcall, if_pos (by decide)]
          rw [Prog.run_bind_ret (mallocUndo_run (p := p) k
            (h := { h with allocs := h.allocs + 1 }) (by rw [← hmptr, ← ht.mptr])
            hpk.1)]
          refine Or.inr ⟨_, k, rfl, funext (fun q => ?_), ht.mptr, ht.hasPage, hk,
            ht.mem, h.allocs, ?_⟩
          · change (if p ≤ q ∧ q ≤ p + k then none else h.uvpt q) = h₀.uvpt q
            by_cases hin : p ≤ q ∧ q ≤ p + k
            · rw [if_pos hin, (hfree q hin.1
                (Nat.lt_of_le_of_lt (Nat.mul_le_mul_right 4096 hin.2) hlt')).2]
            · rw [if_neg hin, ht.outside q (by omega)]
          · rw [← ht.hasPage]
            exact Bool.eq_false_iff.mpr hpage
      · rw [if_neg hlt]
        obtain rfl : k = count := by omega
        exact Or.inl ⟨h, rfl, ht⟩

end Pages

/-! ## Dropping a reference -/

section Drop

variable {h : Heap} {v : U32} {first last : Nat}

/-- The pages before the last of a block are unmapped, and a reference to the last
page is dropped, and with the last reference the page. -/
def dropped (h : Heap) (first last : Nat) : Heap :=
  { h with
    mem := setWord h.mem (refAddr last) (refOf h last - 1#32)
    uvpt := fun q =>
      if first ≤ q ∧ q < last ∨ q = last ∧ refOf h last = 1#32 then none else h.uvpt q }

theorem freeLoop_run :
    ∀ (fuel : Nat) {h : Heap} {c : U32} {first : Nat}, c.toNat = first * 4096 →
      32768 ≤ first → first ≤ last → last < 65536 → last < first + fuel →
      (∀ q, first ≤ q → q < last → h.uvpt q = some true) → h.uvpt last = some false →
      ∃ c', c'.toNat = last * 4096 ∧ (freeLoop fuel c).run h = .ret c' { h with
        uvpt := fun q => if first ≤ q ∧ q < last then none else h.uvpt q } := by
  intro fuel
  induction fuel with
  | zero =>
      intro h c first _ _ hle _ hfuel
      omega
  | succ fuel ih =>
      intro h c first hc hlo hle hhi hfuel hcont hlast
      unfold freeLoop
      rw [Prog.run_bind_ret (a := h) (t := h) rfl, pgnum_of_page hc]
      by_cases hend : first = last
      · subst hend
        rw [if_neg (by rw [hlast]; decide)]
        refine ⟨c, hc, congrArg (fun u => Outcome.ret c { h with uvpt := u })
          (funext (fun q => ?_))⟩
        rw [if_neg (by omega)]
      · rw [if_pos (hcont first (Nat.le_refl _) (by omega)),
          Prog.run_bind_ret (sysPageUnmap_run hc (by omega))]
        have hnext := nextPage_toNat hc (by omega)
        have hin : mbegin ≤ nextPage c ∧ nextPage c < mend := by
          rw [BitVec.le_def, BitVec.lt_def, hnext, mbegin_toNat, mend_toNat]
          omega
        rw [Prog.run_bind_ret (Prog.run_when_false (not_not.mpr hin))]
        obtain ⟨c', hc', hrun⟩ := ih
          (h := { h with uvpt := Function.update h.uvpt first none }) hnext (by omega)
          (by omega) hhi (by omega)
          (fun q hq hq' => (Function.update_of_ne (by omega) _ _).trans
            (hcont q (by omega) hq'))
          ((Function.update_of_ne (by omega) _ _).trans hlast)
        refine ⟨c', hc', hrun.trans (congrArg
          (fun u => Outcome.ret c' { h with uvpt := u }) (funext (fun q => ?_)))⟩
        by_cases hq : q = first
        · rw [hq, if_neg (by omega), if_pos (by omega)]
          exact Function.update_self _ _ _
        · by_cases hmid : first + 1 ≤ q ∧ q < last
          · rw [if_pos hmid, if_pos (by omega)]
          · rw [if_neg hmid, if_neg (by omega)]
            exact Function.update_of_ne hq _ _

/-- `free` of an address in page `first`. -/
theorem free_run (hv : v.toNat / 4096 = first) (hlo : 32768 ≤ first)
    (hle : first ≤ last) (hhi : last < 65536)
    (hcont : ∀ q, first ≤ q → q < last → h.uvpt q = some true)
    (hlast : h.uvpt last = some false) :
    (free v).run h = .ret () (dropped h first last) := by
  have hlt := v.isLt
  have hne : v ≠ 0#32 := by
    rintro rfl
    change 0 / 4096 = first at hv
    omega
  have hin : mbegin ≤ v ∧ v < mend := by
    rw [BitVec.le_def, BitVec.lt_def, mbegin_toNat, mend_toNat]
    omega
  have hdown : (roundDown v pgsize).toNat = first * 4096 := by
    rw [roundDown_toNat, hv]
  obtain ⟨c, hc, hloop⟩ := freeLoop_run 0x10001 hdown hlo hle hhi (by omega) hcont hlast
  have href : (c + pgsize - 4#32).toNat = refAddr last := by
    have hnext := add_pgsize hc (by omega)
    have hfour : (4#32 : U32).toNat = 4 := rfl
    rw [BitVec.toNat_sub_of_le (by rw [BitVec.le_def, hnext, hfour]; omega), hnext, hfour,
      refAddr]
    omega
  have hpage : pgnum (c + pgsize - 4#32) = last := by
    rw [pgnum_eq, href, refAddr]
    omega
  let h₁ : Heap := { h with
    uvpt := fun q => if first ≤ q ∧ q < last then none else h.uvpt q }
  have hmapped : h₁.uvpt (pgnum (c + pgsize - 4#32)) ≠ none := by
    rw [hpage]
    change (if first ≤ last ∧ last < last then none else h.uvpt last) ≠ none
    rw [if_neg (by omega), hlast]
    simp
  unfold free
  rw [if_neg hne, Prog.run_bind_ret (Prog.run_when_false (not_not.mpr hin)),
    Prog.run_bind_ret hloop]
  simp only
  rw [Prog.run_bind_ret (loadWord_run hmapped), Prog.run_bind_ret (storeWord_run hmapped)]
  have hword : word h₁.mem (c + pgsize - 4#32).toNat = refOf h last := by
    rw [href]
    rfl
  rw [hword, href]
  have hzero : refOf h last - 1#32 = 0#32 ↔ refOf h last = 1#32 := by
    constructor
    · intro hh
      rw [← BitVec.sub_add_cancel (refOf h last) 1#32, hh]
      rfl
    · intro hh
      rw [hh]
      rfl
  by_cases hone : refOf h last = 1#32
  · rw [Prog.run_when_true (hzero.mpr hone),
      Prog.run_bind_ret (sysPageUnmap_run hc hhi)]
    refine congrArg (fun u => Outcome.ret () { h with
      mem := setWord h.mem (refAddr last) (refOf h last - 1#32), uvpt := u })
      (funext (fun q => ?_))
    by_cases hq : q = last
    · rw [hq, if_pos (Or.inr ⟨rfl, hone⟩)]
      exact Function.update_self _ _ _
    · refine (Function.update_of_ne hq _ _).trans ?_
      exact if_congr ⟨Or.inl, fun hh => hh.resolve_right (fun hr => hq hr.1)⟩ rfl rfl
  · rw [Prog.run_when_false (fun hh => hone (hzero.mp hh))]
    refine congrArg (fun u => Outcome.ret () { h with
      mem := setWord h.mem (refAddr last) (refOf h last - 1#32), uvpt := u })
      (funext (fun q => ?_))
    exact if_congr ⟨Or.inl, fun hh => hh.resolve_right (fun hr => hone hr.2)⟩ rfl rfl

end Drop

end Malloc

end Jos
