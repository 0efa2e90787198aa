import Jos.UserMem
import Jos.Windows

/-!
# The address space of the kernel

What `mem_init` maps is what `inc/memlayout.h` draws: every address from `UTOP` on is
looked up in `kern_pgdir` the way the processor does, and found where the drawing has
it, or not at all.
-/

namespace Jos

open Programs

/-- The physical address at which the processor finds `va`. -/
def PhysMem.physAddr (m : PhysMem) (dir : Nat) (va : U32) : Option Nat :=
  (m.kernelPage dir va false).map (fun p => p * 4096 + pgoff va)

/-- The end of the stack of processor `n`. -/
def kstacktopOf (n : Nat) : U32 := kstacktop - BitVec.ofNat 32 n * (kstksize + kstkgap)

/-- The address lies in the stack of processor `n`. -/
def InStack (n : Nat) (va : U32) : Prop := kstacktopOf n - kstksize ≤ va ∧ va < kstacktopOf n

/-- `inc/memlayout.h`, from `UTOP` on. -/
structure MemLayout (b : BootInfo) (s : BootState) : Prop where
  envs : ∀ i, i < ptsize.toNat →
    s.vm.physAddr s.vm.kernPgdir (uenvs + BitVec.ofNat 32 i) =
      some ((s.envsVa - kernbase).toNat + i)
  pages : ∀ i, i < ptsize.toNat →
    s.vm.physAddr s.vm.kernPgdir (upages + BitVec.ofNat 32 i) =
      some ((s.pagesVa - kernbase).toNat + i)
  /-- The page directory as page tables: slot `i` holds the page table of slot `i`. -/
  tables : ∀ i o, i < npdentries → o < 4096 →
    s.vm.physAddr s.vm.kernPgdir (uvpt + BitVec.ofNat 32 (i * 4096 + o)) =
      (tableOf s.vm.mem s.vm.kernPgdir i).map (fun t => t * 4096 + o)
  physical : ∀ i, i < 2 ^ 32 - kernbase.toNat →
    s.vm.physAddr s.vm.kernPgdir (kernbase + BitVec.ofNat 32 i) = some i
  cpuStacks : ∀ n i, n < ncpuMax → i < kstksize.toNat →
    s.vm.physAddr s.vm.kernPgdir (kstacktopOf n - kstksize + BitVec.ofNat 32 i) =
      some ((b.percpuKstacks n - kernbase).toNat + i)
  guards : ∀ va, mmiolim ≤ va → va < kstacktop → (∀ n, n < ncpuMax → ¬ InStack n va) →
    s.vm.physAddr s.vm.kernPgdir va = none
  mmio : ∀ va, mmiobase ≤ va → va < mmiolim → s.vm.physAddr s.vm.kernPgdir va = none
  user : ∀ va, utop ≤ va → s.vm.userPage s.vm.kernPgdir va false ≠ none → va < ulim

section Layout

variable {d p : Nat} {pages : Nat → Prop} {l : Layout} {free : List Nat} {m : PhysMem}
  {va perm : U32} {b : BootInfo} {s : BootState}

/-! ## One address -/

/-- What the processor reads is what the layout says. -/
theorem KernSpace.entryOf_eq (h : KernSpace d pages l free m) (hne : pdx va ≠ pdx uvpt) :
    entryOf m.mem d (pdx va) (ptx va) =
      if HasFlag (l (pdx va) (ptx va)) pteP then some (l (pdx va) (ptx va)) else none := by
  cases ht : tableOf m.mem d (pdx va) with
  | some t => rw [entryOf_of_table ht, h.words _ t _ hne ht (ptx_lt va)]
  | none =>
      have hzero : l (pdx va) (ptx va) = 0#32 := by
        by_contra hw
        exact h.mapped _ _ hne (ptx_lt va) hw ht
      rw [entryOf_of_no_table ht, hzero, if_neg (not_hasFlag_zero pteP)]

theorem KernSpace.physAddr_some (h : KernSpace d pages l free m)
    (hne : pdx va ≠ pdx uvpt) (hp : p < 2 ^ 20) (hperm : perm.toNat < 4096)
    (hw : l (pdx va) (ptx va) = page2pa p ||| pteP ||| perm) :
    m.physAddr d va = some (p * 4096 + pgoff va) := by
  have hflag : HasFlag (page2pa p ||| pteP ||| perm) pteP :=
    (hasFlag_or _ _ _).mpr (Or.inl (hasFlag_or_pteP _))
  have hnum : pgnum (page2pa p ||| pteP ||| perm) = p := by
    rw [BitVec.or_assoc]
    refine pgnum_page2pa_or hp ?_
    have hone : pteP.toNat < 2 ^ 12 := by decide
    rw [BitVec.toNat_or]
    exact Nat.or_lt_two_pow hone hperm
  unfold PhysMem.physAddr PhysMem.kernelPage
  rw [h.entryOf_eq hne, hw, if_pos hflag]
  simp [hnum]

theorem KernSpace.physAddr_none (h : KernSpace d pages l free m)
    (hne : pdx va ≠ pdx uvpt) (hw : l (pdx va) (ptx va) = 0#32) :
    m.physAddr d va = none := by
  unfold PhysMem.physAddr PhysMem.kernelPage
  rw [h.entryOf_eq hne, hw, if_neg (not_hasFlag_zero pteP)]
  rfl

/-- The window through which the directory sees itself. -/
theorem KernSpace.physAddr_self (h : KernSpace d pages l free m) (hd : d < 2 ^ 20)
    (hva : pdx va = pdx uvpt) :
    m.physAddr d va = (tableOf m.mem d (ptx va)).map (fun t => t * 4096 + pgoff va) := by
  have hself : tableOf m.mem d (pdx va) = some d := by
    rw [hva, tableOf_eq_some, h.self]
    refine ⟨hasFlag_or_pteP _, ?_⟩
    rw [BitVec.or_assoc]
    exact pgnum_page2pa_or hd (by decide)
  unfold PhysMem.physAddr PhysMem.kernelPage
  rw [entryOf_of_table hself, tableOf]
  by_cases hp : HasFlag (m.mem d (ptx va)) pteP
  · simp [hp]
  · simp [hp]

/-- The number of the page of an address. -/
theorem pdx_ptx (va : U32) : pdx va * 1024 + ptx va = va.toNat / 4096 := by
  rw [pdx_eq, ptx_eq]
  omega

/-! ## The stacks -/

/-- A page of the stack of processor `n`. -/
theorem Layout.cpuStacks_at {k n c i j : Nat} (hn : n < k) (hk : k ≤ 8) (hc : c < 8)
    (hpage : i * 1024 + j = 983032 - 16 * n + c) :
    l.cpuStacks b k i j =
      page2pa (pgnum (b.percpuKstacks n - kernbase) + c) ||| pteP ||| pteW := by
  induction k with
  | zero => exact absurd hn (Nat.not_lt_zero n)
  | succ k ih =>
      unfold Layout.cpuStacks Layout.region
      rcases Nat.lt_succ_iff_lt_or_eq.mp hn with hlt | rfl
      · rw [if_neg (by omega)]
        exact ih hlt (by omega)
      · rw [if_pos ⟨by omega, by omega⟩]
        congr 4
        omega

/-- A page of no stack. -/
theorem Layout.cpuStacks_outside {k i j : Nat}
    (hout : ∀ n, n < k → ¬ (983032 - 16 * n ≤ i * 1024 + j ∧ i * 1024 + j < 983040 - 16 * n))
    (hk : k ≤ 8) : l.cpuStacks b k i j = l i j := by
  induction k with
  | zero => rfl
  | succ k ih =>
      have hlast := hout k (Nat.lt_succ_self k)
      unfold Layout.cpuStacks Layout.region
      rw [if_neg (by omega)]
      exact ih (fun n hn => hout n (Nat.lt_succ_of_lt hn)) (by omega)

/-- What lies between the window of the page tables and `KERNBASE`, outside the
stacks. -/
theorem BootInfo.kernLayout_zero {i j : Nat} (hlow : 958 * 1024 ≤ i * 1024 + j)
    (hhigh : i * 1024 + j < 960 * 1024)
    (hout : ∀ n, n < 8 →
      ¬ (983032 - 16 * n ≤ i * 1024 + j ∧ i * 1024 + j < 983040 - 16 * n)) :
    b.kernLayout i j = 0#32 := by
  unfold BootInfo.kernLayout
  rw [Layout.cpuStacks_outside (k := ncpuMax) hout (Nat.le_refl 8)]
  have hfirst := hout 0 (by omega)
  unfold Layout.region
  rw [if_neg (by omega), if_neg (by omega), if_neg (by omega), if_neg (by omega)]
  rfl

/-! ## Ranges of addresses -/

/-- An address of a range that starts at page number `v`. -/
theorem address_range {a : U32} {v i : Nat} (ha : a.toNat = v * 4096)
    (hlt : v * 4096 + i < 2 ^ 32) :
    pdx (a + BitVec.ofNat 32 i) * 1024 + ptx (a + BitVec.ofNat 32 i) = v + i / 4096 ∧
      pgoff (a + BitVec.ofNat 32 i) = i % 4096 := by
  have hsum : (a + BitVec.ofNat 32 i).toNat = v * 4096 + i := by
    rw [BitVec.toNat_add, BitVec.toNat_ofNat, ha]
    omega
  rw [pdx_ptx, pgoff_eq, hsum]
  omega

/-- A window of one page table. -/
theorem KernSpace.physAddr_window (h : KernSpace d pages l free m) {a : U32} {q w i : Nat}
    (ha : a.toNat = w * 1024 * 4096) (_ : w < 1024) (hne : w ≠ 957)
    (hq : q + 1024 ≤ 2 ^ 20) (hperm : perm.toNat < 4096)
    (hl : ∀ j, j < nptentries → l w j = page2pa (q + j) ||| pteP ||| perm)
    (hi : i < ptsize.toNat) :
    m.physAddr d (a + BitVec.ofNat 32 i) = some (q * 4096 + i) := by
  have hpt : ptsize.toNat = 4194304 := by decide
  obtain ⟨-, -, huvpt, -, -⟩ := pdx_windows
  have hend : w * 1024 * 4096 + i < 2 ^ 32 := by omega
  obtain ⟨hpage, hoff⟩ := address_range ha (i := i) hend
  have hptx := ptx_lt (a + BitVec.ofNat 32 i)
  have hslot : pdx (a + BitVec.ofNat 32 i) = w := by omega
  have hindex : ptx (a + BitVec.ofNat 32 i) = i / 4096 := by omega
  rw [h.physAddr_some (p := q + ptx (a + BitVec.ofNat 32 i)) (by rw [hslot, huvpt]; exact hne)
    (by omega) hperm (by rw [hslot]; exact hl _ hptx), hoff, hindex, Nat.add_mul,
    Nat.add_assoc, Nat.div_add_mod']

/-- The directory seen as page tables. -/
theorem KernSpace.physAddr_tables (h : KernSpace d pages l free m) (hd : d < 2 ^ 20)
    {i o : Nat} (hi : i < npdentries) (ho : o < 4096) :
    m.physAddr d (uvpt + BitVec.ofNat 32 (i * 4096 + o)) =
      (tableOf m.mem d i).map (fun t => t * 4096 + o) := by
  have hi : i < 1024 := hi
  obtain ⟨-, -, huvpt, -, -⟩ := pdx_windows
  have hbase : uvpt.toNat = 957 * 1024 * 4096 := by decide
  obtain ⟨hpage, hoff⟩ := address_range hbase (i := i * 4096 + o) (by omega)
  have hptx := ptx_lt (uvpt + BitVec.ofNat 32 (i * 4096 + o))
  have hslot : pdx (uvpt + BitVec.ofNat 32 (i * 4096 + o)) = 957 := by omega
  have hentry : ptx (uvpt + BitVec.ofNat 32 (i * 4096 + o)) = i := by omega
  have hmod : (i * 4096 + o) % 4096 = o := by omega
  rw [h.physAddr_self hd (hslot.trans huvpt.symm), hentry, hoff, hmod]

/-- Physical memory at `KERNBASE`. -/
theorem KernSpace.physAddr_physical (h : KernSpace d pages l free m) (hk : KernbaseMapped l)
    {i : Nat} (hi : i < 2 ^ 32 - kernbase.toNat) :
    m.physAddr d (kernbase + BitVec.ofNat 32 i) = some i := by
  have hbase : kernbase.toNat = 960 * 1024 * 4096 := by decide
  rw [hbase] at hi
  obtain ⟨hpage, hoff⟩ := address_range hbase (i := i) (by omega)
  have hptx := ptx_lt (kernbase + BitVec.ofNat 32 i)
  have hpdx := pdx_lt (kernbase + BitVec.ofNat 32 i)
  generalize kernbase + BitVec.ofNat 32 i = va at hpage hoff hptx hpdx ⊢
  clear hbase
  have hlow : 960 ≤ pdx va := by omega
  have hindex : (pdx va - 960) * 1024 + ptx va = i / 4096 := by
    obtain ⟨c, hc⟩ := Nat.exists_eq_add_of_le hlow
    rw [hc, Nat.add_mul, Nat.add_assoc] at hpage
    rw [hc, Nat.add_sub_cancel_left]
    exact Nat.add_left_cancel hpage
  have hframe : i / 4096 < 2 ^ 20 := by omega
  obtain ⟨-, -, huvpt, -, hslot⟩ := pdx_windows
  have hw := hk (pdx va) (ptx va) (by rw [hslot]; exact hlow) hpdx hptx
  rw [hslot, hindex] at hw
  have hne : pdx va ≠ pdx uvpt := by
    rw [huvpt]
    exact Ne.symm (Nat.ne_of_lt (Nat.lt_of_lt_of_le (by decide) hlow))
  have hperm : pteW.toNat < 4096 := by decide
  rw [h.physAddr_some (p := i / 4096) hne hframe hperm hw, hoff, Nat.div_add_mod']

theorem kstacktopOf_toNat {n : Nat} (hn : n < ncpuMax) :
    (kstacktopOf n).toNat = (983040 - 16 * n) * 4096 := by
  have hn : n < 8 := hn
  have hbase : kstacktop.toNat = 983040 * 4096 := by decide
  have hgap : (kstksize + kstkgap).toNat = 16 * 4096 := by decide
  have hoff : (BitVec.ofNat 32 n * (kstksize + kstkgap)).toNat = n * (16 * 4096) := by
    rw [BitVec.toNat_mul, BitVec.toNat_ofNat, hgap]
    omega
  unfold kstacktopOf
  rw [BitVec.toNat_sub_of_le (by rw [BitVec.le_def]; omega), hbase, hoff]
  omega

theorem kstack_toNat {n : Nat} (hn : n < ncpuMax) :
    (kstacktopOf n - kstksize).toNat = (983032 - 16 * n) * 4096 := by
  have htop := kstacktopOf_toNat hn
  have hn : n < 8 := hn
  have hsize : kstksize.toNat = 8 * 4096 := by decide
  rw [BitVec.toNat_sub_of_le (by rw [BitVec.le_def]; omega), htop, hsize]
  omega

/-- The kernel's data are pages of physical memory, below the top of the address
space. -/
theorem stack_start {a : U32} (hle : kernbase ≤ a) (ha : a.toNat % 4096 = 0) :
    pgnum (a - kernbase) * 4096 = (a - kernbase).toNat ∧ pgnum (a - kernbase) < 65536 := by
  have hsub : (a - kernbase).toNat = a.toNat - 0xF0000000 := BitVec.toNat_sub_of_le hle
  have hlt := a.isLt
  have hbase : 0xF0000000 ≤ a.toNat := hle
  rw [pgnum_eq, hsub]
  omega

/-- The stack of processor `n`. -/
theorem KernSpace.physAddr_stack (h : KernSpace d pages b.kernLayout free m)
    {n i : Nat} (hn : n < ncpuMax) (hi : i < kstksize.toNat) :
    m.physAddr d (kstacktopOf n - kstksize + BitVec.ofNat 32 i) =
      some ((b.percpuKstacks n - kernbase).toNat + i) := by
  have hn' : n < 8 := hn
  have hsize : kstksize.toNat = 8 * 4096 := by decide
  obtain ⟨-, -, huvpt, -, -⟩ := pdx_windows
  obtain ⟨hpage, hoff⟩ := address_range (kstack_toNat hn) (i := i) (by omega)
  have hptx := ptx_lt (kstacktopOf n - kstksize + BitVec.ofNat 32 i)
  generalize kstacktopOf n - kstksize + BitVec.ofNat 32 i = va at hpage hoff hptx ⊢
  have hw : b.kernLayout (pdx va) (ptx va) = _ :=
    Layout.cpuStacks_at (k := ncpuMax) hn (Nat.le_refl 8) (by omega) hpage
  obtain ⟨hstart, hframe⟩ :=
    stack_start (b.percpuKstacks_linked n) (b.percpuKstacks_aligned n)
  rw [h.physAddr_some (by omega) (by omega) (by decide) hw, hoff, Nat.add_mul, hstart,
    Nat.add_assoc, Nat.div_add_mod']

/-- The stack region and the MMIO window, outside the stacks. -/
theorem KernSpace.physAddr_gap (h : KernSpace d pages b.kernLayout free m)
    (hlow : mmiobase ≤ va) (hhigh : va < kstacktop)
    (hout : ∀ n, n < ncpuMax → ¬ InStack n va) : m.physAddr d va = none := by
  have hpage := pdx_ptx va
  have hbase : kstacktop.toNat = 983040 * 4096 := by decide
  have hmmio : mmiobase.toNat = 958 * 1024 * 4096 := by decide
  obtain ⟨-, -, huvpt, -, -⟩ := pdx_windows
  have hptx := ptx_lt va
  rw [BitVec.le_def] at hlow
  rw [BitVec.lt_def] at hhigh
  refine h.physAddr_none (by omega) (BootInfo.kernLayout_zero (by omega) (by omega)
    (fun n hn hin => hout n hn ⟨?_, ?_⟩))
  · rw [BitVec.le_def, kstack_toNat hn]
    omega
  · rw [BitVec.lt_def, kstacktopOf_toNat hn]
    omega

/-- No stack reaches into the MMIO window. -/
theorem not_inStack {n : Nat} (hn : n < ncpuMax) (hva : va < mmiolim) : ¬ InStack n va := by
  rintro ⟨hle, -⟩
  have hn' : n < 8 := hn
  have hlim : mmiolim.toNat = 959 * 1024 * 4096 := by decide
  rw [BitVec.le_def, kstack_toNat hn] at hle
  rw [BitVec.lt_def] at hva
  omega

/-- What user code can see above `UTOP` lies below the MMIO window. -/
theorem KernSpace.user_lt (h : KernSpace d pages l free m) (hw : Windows b l)
    (hlow : utop ≤ va) (huser : m.userPage d va false ≠ none) : va < ulim := by
  rw [BitVec.le_def, utop_toNat] at hlow
  rw [BitVec.lt_def, ulim_toNat]
  by_contra hge
  have hpage := pdx_ptx va
  have hptx := ptx_lt va
  obtain ⟨henvs, hpages, huvpt, -, -⟩ := pdx_windows
  refine huser ?_
  unfold PhysMem.userPage
  rw [h.entryOf_eq (by omega)]
  split
  · rfl
  · rename_i w hsome
    split at hsome
    · cases hsome
      rw [if_neg]
      rintro ⟨⟨-, hu⟩, -⟩
      exact hw.others _ _ hptx (by omega) (by omega) hu
    · cases hsome

end Layout

/-- After `mem_init` the address space of the kernel is the one of `inc/memlayout.h`. -/
theorem kern_address_space {b : BootInfo} {s : BootState} (h : MemInit b s) :
    MemLayout b s := by
  obtain ⟨hmapped, free, hspace, -⟩ := h.kernLayout
  have hdir : s.vm.kernPgdir = b.dirPage := hspace.kernPgdir
  obtain ⟨henvs, hpages, huvpt, hmmio, hslot⟩ := pdx_windows
  obtain ⟨hpagesPage, henvsPage, hused⟩ := b.pages_eq
  have hfits := b.fits_iff.mp hmapped.fits
  obtain ⟨-, hpagesPa, -⟩ := paddr_page hmapped.pagesVa
  obtain ⟨-, henvsPa, -⟩ := paddr_page hmapped.envsVa
  have hw : Windows b b.kernLayout := windows_kernLayout
  exact {
    envs := fun i hi => by
      rw [hdir, henvsPa]
      refine hspace.physAddr_window (w := 955) (by decide) (by decide) (by decide) (by omega)
        (show pteU.toNat < 4096 by decide) (fun j hj => ?_) hi
      rw [← hw.envsWindow j hj, henvs]
    pages := fun i hi => by
      rw [hdir, hpagesPa]
      refine hspace.physAddr_window (w := 956) (by decide) (by decide) (by decide) (by omega)
        (show pteU.toNat < 4096 by decide) (fun j hj => ?_) hi
      rw [← hw.pagesWindow j hj, hpages]
    tables := fun i o hi ho => by
      rw [hdir]
      exact hspace.physAddr_tables (by omega) hi ho
    physical := fun i hi => by
      rw [hdir]
      exact hspace.physAddr_physical kernbaseMapped_kernLayout hi
    cpuStacks := fun n i hn hi => by
      rw [hdir]
      exact hspace.physAddr_stack hn hi
    guards := fun va hlow hhigh hout => by
      rw [hdir]
      have hbelow : mmiobase ≤ mmiolim := by decide
      exact hspace.physAddr_gap (BitVec.le_trans hbelow hlow) hhigh hout
    mmio := fun va hlow hhigh => by
      rw [hdir]
      have hbelow : mmiolim < kstacktop := by decide
      exact hspace.physAddr_gap hlow (BitVec.lt_trans hhigh hbelow)
        (fun n hn => not_inStack hn hhigh)
    user := fun va hlow huser => by
      rw [hdir] at huser
      exact hspace.user_lt hw hlow huser }

/-- The machine with 8 MB. -/
theorem kern_address_space_small : ∃ s, MemInit smallBoot s ∧ MemLayout smallBoot s := by
  obtain ⟨s, hs⟩ := memInit_completes smallBoot_enough
  exact ⟨s, hs, kern_address_space hs⟩

end Jos
