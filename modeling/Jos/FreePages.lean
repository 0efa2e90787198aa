import Jos.Windows

/-!
# Which pages `page_init` frees

`i386_detect_memory` counts the pages of base memory, and the comment in
`page_init` gives them as free, with the I/O hole after them.  The loop takes
the hole to start at `IOPHYSMEM` instead, so with less base memory than that
the pages between are on the list although there is no memory behind them.
-/

namespace Jos

open Programs LinkedList

/-- `npages_basemem`, as `i386_detect_memory` computes it. -/
def BootInfo.npagesBasemem (b : BootInfo) : Nat := b.basemem.toNat / 4

/-- What `boot_alloc(0)` returns. -/
def BootState.allocMark (b : BootInfo) (s : BootState) : U32 :=
  s.nextfree.getD (roundUp b.kernelEnd pgsize)

/-- The first page that is not used by the kernel. -/
def BootState.firstUnused (b : BootInfo) (s : BootState) : Nat :=
  pgnum (s.allocMark b - kernbase)

/-- The pages of base memory without the first one and the one at
`MPENTRY_PADDR`, and the pages from the first one on that the kernel does not
use. -/
def BootInfo.ToFree (b : BootInfo) (used p : Nat) : Prop :=
  p < b.npages ∧
    ((1 ≤ p ∧ p < b.npagesBasemem ∧ p ≠ pgnum mpentryPaddr) ∨ used ≤ p)

/-- The free list has the pages that are to be free, each once, and none of the
others. -/
def BootInfo.FreesRight (b : BootInfo) (used : Nat) (m : PhysMem) : Prop :=
  ∃ free, Chain (fun p => (m.pages p).ppLink) m.pageFreeList free ∧ free.Nodup ∧
    (∀ p, p ∈ free ↔ b.ToFree used p) ∧ 0 ∉ free ∧
    (∀ p, b.npagesBasemem ≤ p → p < pgnum extphysmem → p ∉ free) ∧
    ∀ p, pgnum extphysmem ≤ p → p < used → p ∉ free

/-- Base memory reaches to `IOPHYSMEM`, or there is no memory above it. -/
def BootInfo.BaseFull (b : BootInfo) : Prop :=
  b.npagesBasemem = pgnum iophysmem ∨ (b.extmem = 0#16 ∧ b.ext16mem = 0#16)

section Frees

variable {b : BootInfo} {s : BootState}

/-- `page_init`, wherever `boot_alloc` has come to. -/
theorem pageInit_returns (hn : s.vm.npages = b.npages) (hlist : s.vm.pageFreeList = none)
    (hmark : kernbase ≤ s.allocMark b) :
    Returns (pageInit b)
      (fun _ s' => PagesLinked (s.firstUnused b) b.npages s.vm s'.vm) s := by
  unfold pageInit
  refine bootAlloc_bind (a := s.allocMark b) rfl ?_
  refine paddr_bind (fun _ => ?_) (fun hlt => absurd hmark (BitVec.not_le.mpr hlt))
  rw [wp_get_bind]
  refine (wp_zoom _ _ _).mpr ?_
  have hcount : (s.mark (roundUp (s.allocMark b + 0#32) pgsize)).vm.npages = b.npages := hn
  rw [hcount]
  refine wp_forRange (fun n m => PagesLinked (s.firstUnused b) n s.vm m) 0 b.npages
    (fun n m _ _ h => pageInitPage_linked h) (fun m h => ?_) ?_
  · rwa [Nat.zero_add] at h
  · exact ⟨rfl, rfl, rfl, [], hlist, fun p => by simp, fun p hp => by simp at hp⟩

/-- Memory above 1 MB leaves no page number out below it. -/
theorem BootInfo.npages_base (b : BootInfo) :
    (b.extmem = 0#16 ∧ b.ext16mem = 0#16 ∧ b.npages = b.npagesBasemem) ∨
      (¬ (b.extmem = 0#16 ∧ b.ext16mem = 0#16) ∧ 256 ≤ b.npages) := by
  unfold npages npagesBasemem
  dsimp only
  by_cases h16 : b.ext16mem = 0#16
  · by_cases hext : b.extmem = 0#16
    · exact Or.inl ⟨hext, h16, by simp [h16, hext]⟩
    · refine Or.inr ⟨fun h => hext h.1, ?_⟩
      simp only [h16, hext, ne_eq, not_true_eq_false, not_false_eq_true, if_true, if_false]
      omega
  · refine Or.inr ⟨fun h => h16 h.2, ?_⟩
    simp only [h16, ne_eq, not_false_eq_true, if_true]
    omega

theorem freesRight_iff {used : Nat} {m₀ m : PhysMem} (h : PagesLinked used b.npages m₀ m)
    (hbase : b.npagesBasemem ≤ pgnum iophysmem) (hused : pgnum extphysmem ≤ used) :
    b.FreesRight used m ↔ b.BaseFull := by
  obtain ⟨-, -, -, free, hchain, hfree, -⟩ := h
  have hmp : pgnum mpentryPaddr = 7 := by decide
  have hio : pgnum iophysmem = 160 := by decide
  have hext : pgnum extphysmem = 256 := by decide
  unfold BootInfo.FreesRight BootInfo.BaseFull BootInfo.ToFree
  rw [hio] at hbase ⊢
  rw [hext] at hused ⊢
  rw [hmp]
  constructor
  · rintro ⟨free', hchain', -, hright, -⟩
    obtain rfl := hchain'.unique hchain
    refine b.npages_base.elim (fun h => Or.inr ⟨h.1, h.2.1⟩) (fun h => Or.inl ?_)
    -- the last page below the hole is on the list
    have hlast := (hright 159).mp ((hfree 159).mpr (by omega))
    omega
  · intro hfull
    have hno : ∀ p, ¬ (p < b.npages ∧ b.npagesBasemem ≤ p ∧ p < 160) := by
      rintro p ⟨hp, hlow, hhigh⟩
      rcases b.npages_base with ⟨-, -, heq⟩ | ⟨hmem, -⟩
      · omega
      · rcases hfull with hfull | hfull
        · omega
        · exact hmem hfull
    refine ⟨free, hchain, hchain.nodup, fun p => ?_, fun h0 => ?_, fun p hlow hhigh hp => ?_,
      fun p hlow hhigh hp => ?_⟩
    · rw [hfree p]
      have := hno p
      omega
    · have := (hfree 0).mp h0
      omega
    · have := (hfree p).mp hp
      have := hno p
      omega
    · have := (hfree p).mp hp
      omega

/-- `page_init` frees the right pages if and only if base memory reaches to
`IOPHYSMEM` or there is no memory above it. -/
theorem page_init_frees (hn : s.vm.npages = b.npages) (hlist : s.vm.pageFreeList = none)
    (hbase : b.npagesBasemem ≤ pgnum iophysmem)
    (hmark : kernbase.toNat + extphysmem.toNat ≤ (s.allocMark b).toNat) :
    Returns (pageInit b) (fun _ s' => b.FreesRight (s.firstUnused b) s'.vm) s ↔
      b.BaseFull := by
  have hle : kernbase ≤ s.allocMark b := BitVec.le_def.mpr (by omega)
  obtain ⟨a, s', hrun, hlinked⟩ := returns_iff.mp (pageInit_returns hn hlist hle)
  have hused : pgnum extphysmem ≤ s.firstUnused b := by
    unfold BootState.firstUnused
    rw [pgnum_eq, pgnum_eq, BitVec.toNat_sub_of_le hle]
    exact Nat.div_le_div_right (by omega)
  have hiff := freesRight_iff hlinked hbase hused
  rw [returns_iff]
  constructor
  · rintro ⟨a', s'', hrun', h⟩
    rw [hrun] at hrun'
    obtain ⟨-, rfl⟩ := Outcome.ret.inj hrun'
    exact hiff.mp h
  · intro h
    exact ⟨a, s', hrun, hiff.mpr h⟩

/-- The first call of `boot_alloc`, with memory cleared. -/
def BootInfo.bootState (b : BootInfo) : BootState where
  vm := { bootMemory b.npages with pages := fun _ => ⟨none, 0#16⟩, pageFreeList := none }
  nextfree := none
  pagesVa := 0#32
  envsVa := 0#32

theorem page_init_frees_small : smallBoot.npagesBasemem ≤ pgnum iophysmem ∧
    Returns (pageInit smallBoot) (fun _ s' =>
      smallBoot.FreesRight (smallBoot.bootState.firstUnused smallBoot) s'.vm)
      smallBoot.bootState :=
  ⟨by decide, (page_init_frees rfl rfl (by decide) (by decide)).mpr (Or.inl (by decide))⟩

/-- A machine with 512 KB of base memory. -/
def shortBoot : BootInfo := { smallBoot with basemem := 512#16 }

/-- The pages from 128 on, behind the base memory, are put on the list. -/
theorem page_init_frees_hole : shortBoot.npagesBasemem = 128 ∧
    ¬ Returns (pageInit shortBoot) (fun _ s' =>
      shortBoot.FreesRight (shortBoot.bootState.firstUnused shortBoot) s'.vm)
      shortBoot.bootState := by
  refine ⟨by decide, fun h => ?_⟩
  obtain ⟨a, s', hrun, hlinked⟩ := returns_iff.mp
    (pageInit_returns (b := shortBoot) (s := shortBoot.bootState) rfl rfl (by decide))
  have hright := h.value hrun
  rcases (freesRight_iff hlinked (by decide) (by decide)).mp hright with hfull | hnone
  · exact absurd hfull (by decide)
  · exact absurd hnone.1 (by decide)

end Frees

end Jos
