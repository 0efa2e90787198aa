import Jos.MemInit

/-!
# What `mem_init` leaves

First half: where `kern_pgdir` and the arrays lie, and which pages are free.
Everything that `boot_alloc` hands out lies in the 4 MB that the kernel can
address while it starts; if it does not fit, the kernel faults.
-/

namespace Jos

open Programs LinkedList

/-! ## Places in physical memory -/

namespace BootInfo

variable (b : BootInfo)

/-- The page of `kern_pgdir`, the first behind the kernel. -/
def dirPage : Nat := (b.kernelEnd.toNat + 4095) / 4096 - kernbase.toNat / 4096

/-- The first page of `pages`. -/
def pagesPage : Nat := b.dirPage + 1

/-- The first page of `envs`. -/
def envsPage : Nat := b.pagesPage + (b.npages * 8 + 4095) / 4096

/-- `kernel_used_page`: the first page behind the arrays. -/
def usedPage : Nat := b.envsPage + 31

/-- The kernel can address what it allocates. -/
def Fits : Prop := b.usedPage ≤ 1024

/-- The page is free after `page_init`. -/
def FreePage (p : Nat) : Prop :=
  p < b.npages ∧ p ≠ 0 ∧ p ≠ 7 ∧ ¬ (160 ≤ p ∧ p < b.usedPage)

instance (p : Nat) : Decidable (b.FreePage p) :=
  inferInstanceAs (Decidable (_ ∧ _))

theorem npages_lt : b.npages < 2 ^ 21 := by
  have h₁ := b.ext16mem.isLt
  have h₂ := b.extmem.isLt
  have h₃ := b.basemem.isLt
  unfold npages
  dsimp only
  split
  · omega
  · split <;> omega

theorem dirPage_ge : 256 ≤ b.dirPage := by
  have h := BitVec.le_def.mp b.linked
  have hsum : (kernbase + extphysmem).toNat = 0xF0100000 := by decide
  have hbase : kernbase.toNat = 0xF0000000 := by decide
  unfold dirPage
  rw [hbase]
  omega

end BootInfo

/-- The first half of `mem_init` is done. -/
structure Allotted (b : BootInfo) (s : BootState) : Prop where
  fits : b.Fits
  npages : s.vm.npages = b.npages
  kernPgdir : s.vm.kernPgdir = b.dirPage
  pagesVa : s.pagesVa.toNat = kernbase.toNat + b.pagesPage * 4096
  envsVa : s.envsVa.toNat = kernbase.toNat + b.envsPage * 4096
  dir : ∀ i, i ≠ pdx uvpt → s.vm.mem b.dirPage i = 0#32
  self : s.vm.mem b.dirPage (pdx uvpt) = page2pa b.dirPage ||| pteU ||| pteP
  free : ∃ free, Chain (fun p => (s.vm.pages p).ppLink) s.vm.pageFreeList free ∧
    (∀ p, p ∈ free ↔ b.FreePage p) ∧
    ∀ p, p ∈ free → (s.vm.pages p).ppRef = 0#16

/-- The program returns a state that satisfies `R`, unless something fails that
`ok` rules out. -/
abbrev Unless {σ α : Type} (ok : Prop) (R : α → σ → Prop) : Post σ α :=
  ⟨R, fun _ => False, fun _ => ¬ ok⟩

section Alloc

variable {b : BootInfo} {s : BootState} {m : PhysMem}

/-! ## `page_init` -/

/-- The pages below `n` have been looked at. -/
def PagesLinked (used n : Nat) (m₀ m : PhysMem) : Prop :=
  m.npages = m₀.npages ∧ m.kernPgdir = m₀.kernPgdir ∧ m.mem = m₀.mem ∧
  ∃ free, Chain (fun p => (m.pages p).ppLink) m.pageFreeList free ∧
    (∀ p, p ∈ free ↔ p < n ∧ p ≠ 0 ∧ p ≠ 7 ∧ ¬ (160 ≤ p ∧ p < used)) ∧
    ∀ p, p ∈ free → (m.pages p).ppRef = 0#16

theorem pageInitPage_linked {used n : Nat} {m₀ : PhysMem}
    (h : PagesLinked used n m₀ m) :
    PagesLinked used (n + 1) m₀ (pageInitPage used n m) := by
  obtain ⟨hn, hk, hmem, free, hchain, hfree, href⟩ := h
  have hmp : pgnum mpentryPaddr = 7 := by decide
  have hio : pgnum iophysmem = 160 := by decide
  have hnot : n ∉ free := fun hh => Nat.lt_irrefl n ((hfree n).mp hh).1
  have hkeep : (n = 0 ∨ n = 7 ∨ (160 ≤ n ∧ n < used)) →
      PagesLinked used (n + 1) m₀ ((m.setRef n 1#16).setLink n none) := by
    intro hused
    refine ⟨hn, hk, hmem, free, ?_, fun p => ?_, fun p hp => ?_⟩
    · refine hchain.congr (fun p hp => ?_)
      have hpn : p ≠ n := fun hh => hnot (hh ▸ hp)
      simp [PhysMem.setLink, PhysMem.setRef, hpn]
    · rw [hfree p]
      omega
    · have hpn : p ≠ n := fun hh => hnot (hh ▸ hp)
      have := href p hp
      simpa [PhysMem.setLink, PhysMem.setRef, hpn] using this
  unfold pageInitPage
  rw [hmp, hio]
  split
  · rename_i h0
    exact hkeep (Or.inl h0)
  split
  · rename_i _ h7
    exact hkeep (Or.inr (Or.inl h7))
  split
  · rename_i _ _ hhole
    exact hkeep (Or.inr (Or.inr hhole))
  · rename_i h0 h7 hhole
    refine ⟨hn, hk, hmem, n :: free, ?_, fun p => ?_, fun p hp => ?_⟩
    · have hpush := hchain.push hnot
      refine hpush.congr (fun p hp => ?_)
      by_cases hpn : p = n
      · subst hpn
        simp [PhysMem.setFreeList, PhysMem.setLink]
      · simp [PhysMem.setFreeList, PhysMem.setLink, PhysMem.setRef, hpn]
    · rw [List.mem_cons, hfree p]
      omega
    · by_cases hpn : p = n
      · subst hpn
        simp [PhysMem.setFreeList, PhysMem.setLink, PhysMem.setRef]
      · have hp' : p ∈ free := (List.mem_cons.mp hp).resolve_left hpn
        have := href p hp'
        simpa [PhysMem.setFreeList, PhysMem.setLink, PhysMem.setRef, hpn] using this

/-! ## `boot_alloc` -/

/-- `boot_alloc` moves its mark. -/
def BootState.mark (s : BootState) (next : U32) : BootState :=
  { s with nextfree := some next }

theorem bootAlloc_run {a : U32}
    (ha : s.nextfree.getD (roundUp b.kernelEnd pgsize) = a) (n : U32) :
    (bootAlloc b n).run s = .ret a (s.mark (roundUp (a + n) pgsize)) := by
  subst ha
  rfl

/-- What `boot_alloc` gives and what it will give next, from page number `p` of
physical memory on. -/
theorem roundUp_page {a n : U32} {p pgs : Nat}
    (ha : a.toNat = kernbase.toNat + p * 4096) (hp : p ≤ 1024)
    (hn : (n.toNat + 4095) / 4096 = pgs) (hpgs : pgs ≤ 4096) :
    (roundUp (a + n) pgsize).toNat = kernbase.toNat + (p + pgs) * 4096 := by
  have hbase : kernbase.toNat = 0xF0000000 := by decide
  have hsum : (a + n).toNat = a.toNat + n.toNat := by
    rw [BitVec.toNat_add]
    omega
  rw [roundUp_toNat (by omega), hsum]
  omega

theorem bootAlloc_bind {β : Type} {f : U32 → Prog BootState β}
    {Q : Post BootState β} {a n : U32}
    (ha : s.nextfree.getD (roundUp b.kernelEnd pgsize) = a)
    (h : wp (f a) Q (s.mark (roundUp (a + n) pgsize))) :
    wp (bootAlloc b n >>= f) Q s :=
  wp_ret_bind (bootAlloc_run ha n) h

theorem paddr_bind {σ β : Type} {s : σ} {kva : U32} {f : U32 → Prog σ β}
    {Q : Post σ β} (hyes : kernbase ≤ kva → wp (f (kva - kernbase)) Q s)
    (hno : kva < kernbase → Q.stop s) : wp (paddr kva >>= f) Q s := by
  unfold paddr
  rw [wp_bind]
  exact wp_ite hno (fun h => hyes (BitVec.not_lt.mp h))

theorem entryStores_bind {β : Type} {f : Unit → Prog BootState β}
    {Q : Post BootState β} {kva n : U32}
    (hyes : kva.toNat + n.toNat ≤ kernbase.toNat + ptsize.toNat → wp (f ()) Q s)
    (hno : ¬ kva.toNat + n.toNat ≤ kernbase.toNat + ptsize.toNat → Q.stop s) :
    wp (entryStores kva n >>= f) Q s := by
  unfold entryStores
  exact wp_assert hyes hno

theorem onBoot_modify_bind {β : Type} {g : PhysMem → PhysMem}
    {f : Unit → Prog BootState β} {Q : Post BootState β} :
    wp (onBoot (Prog.modify g) >>= f) Q s ↔
      wp (f ()) Q { s with vm := g s.vm } := Iff.rfl

/-- A kernel address of a page of physical memory. -/
theorem paddr_page {a : U32} {p : Nat}
    (ha : a.toNat = kernbase.toNat + p * 4096) :
    kernbase ≤ a ∧ (a - kernbase).toNat = p * 4096 ∧ pgnum (a - kernbase) = p := by
  have hle : kernbase ≤ a := by
    rw [BitVec.le_def]
    omega
  have hsub : (a - kernbase).toNat = p * 4096 := by
    rw [BitVec.toNat_sub_of_le hle]
    omega
  exact ⟨hle, hsub, by rw [pgnum_eq, hsub]; omega⟩

/-- `page_init`, from a mark behind the arrays. -/
theorem pageInit_wp {next : U32}
    (hnext : s.nextfree = some next)
    (hpage : next.toNat = kernbase.toNat + b.usedPage * 4096)
    (hnpages : s.vm.npages = b.npages) (hlist : s.vm.pageFreeList = none)
    {Q : Post BootState Unit}
    (hdone : ∀ (next' : U32) (m : PhysMem), PagesLinked b.usedPage b.npages s.vm m →
      Q.ret () { s.mark next' with vm := m }) :
    wp (pageInit b) Q s := by
  obtain ⟨hle, -, hnum⟩ := paddr_page hpage
  unfold pageInit
  have hmark : s.nextfree.getD (roundUp b.kernelEnd pgsize) = next := by
    rw [hnext, Option.getD_some]
  refine bootAlloc_bind hmark ?_
  refine paddr_bind (fun _ => ?_) (fun hlt => absurd hle (BitVec.not_le.mpr hlt))
  rw [wp_get_bind, hnum]
  refine (wp_zoom _ _ _).mpr ?_
  have hcount : (s.mark (roundUp (next + 0#32) pgsize)).vm.npages = b.npages := hnpages
  rw [hcount]
  refine wp_forRange (fun n m => PagesLinked b.usedPage n s.vm m) 0 b.npages
    (fun n m _ _ h => pageInitPage_linked h) (fun m h => ?_) ?_
  · rw [Nat.zero_add] at h
    exact hdone _ m h
  · exact ⟨rfl, rfl, rfl, [], hlist, fun p => by simp, fun p hp => by simp at hp⟩

theorem BootInfo.fits_iff : b.Fits ↔ b.usedPage ≤ 1024 := Iff.rfl

/-- The places of the arrays, in numbers. -/
theorem BootInfo.pages_eq : b.pagesPage = b.dirPage + 1 ∧
    b.envsPage = b.pagesPage + (b.npages * 8 + 4095) / 4096 ∧
    b.usedPage = b.envsPage + 31 := ⟨rfl, rfl, rfl⟩

/-- The arrays, from a mark behind `kern_pgdir`. -/
theorem memInitArrays_wp {pagesVa : U32} (hnext : s.nextfree = some pagesVa)
    (hpagesVa : pagesVa.toNat = kernbase.toNat + b.pagesPage * 4096)
    (hle : b.pagesPage ≤ 1024) (hnpages : s.vm.npages = b.npages)
    (hdir : s.vm.kernPgdir = b.dirPage)
    (hwords : ∀ i, i ≠ pdx uvpt → s.vm.mem b.dirPage i = 0#32)
    (huvpt : s.vm.mem b.dirPage (pdx uvpt) = page2pa b.dirPage ||| pteU ||| pteP)
    (hlist : s.vm.pageFreeList = none) :
    wp (memInitArrays b) (Unless b.Fits (fun _ s' => Allotted b s')) s := by
  have hbase : kernbase.toNat = 0xF0000000 := by decide
  have hpt : ptsize.toNat = 4194304 := by decide
  have hlt := b.npages_lt
  obtain ⟨-, henvs, hused⟩ := b.pages_eq
  have hsize : (BitVec.ofNat 32 b.npages * pageInfoSize).toNat = b.npages * 8 := by
    rw [BitVec.toNat_mul, BitVec.toNat_ofNat,
      show pageInfoSize.toNat = 8 by decide]
    omega
  have henvsSize : (BitVec.ofNat 32 nenv * envSize).toNat = 126976 := by decide
  unfold memInitArrays
  refine bootAlloc_bind (a := pagesVa) ?_ ?_
  · rw [hnext, Option.getD_some]
  rw [wp_modify_bind]
  refine entryStores_bind (fun hstore => ?_) (fun hstore => ?_)
  swap
  · show ¬ b.Fits
    rw [hsize] at hstore
    rw [b.fits_iff]
    omega
  rw [hsize] at hstore
  rw [onBoot_modify_bind]
  have henvsVa : (roundUp (pagesVa + BitVec.ofNat 32 b.npages * pageInfoSize)
      pgsize).toNat = kernbase.toNat + b.envsPage * 4096 :=
    roundUp_page hpagesVa hle (by rw [hsize]) (by omega)
  generalize roundUp (pagesVa + BitVec.ofNat 32 b.npages * pageInfoSize)
    pgsize = envsVa at henvsVa ⊢
  refine bootAlloc_bind (a := envsVa) ?_ ?_
  · exact Option.getD_some
  rw [wp_modify_bind]
  refine entryStores_bind (fun hstore₂ => ?_) (fun hstore₂ => ?_)
  swap
  · show ¬ b.Fits
    rw [henvsSize] at hstore₂
    rw [b.fits_iff]
    omega
  rw [henvsSize] at hstore₂
  have hnext₂ : (roundUp (envsVa + BitVec.ofNat 32 nenv * envSize) pgsize).toNat =
      kernbase.toNat + b.usedPage * 4096 :=
    roundUp_page henvsVa (by omega) (by rw [henvsSize]) (by decide)
  generalize roundUp (envsVa + BitVec.ofNat 32 nenv * envSize) pgsize = next
    at hnext₂ ⊢
  refine pageInit_wp ?_ hnext₂ ?_ ?_ (fun next' m h => ?_)
  · exact rfl
  · exact hnpages
  · exact hlist
  obtain ⟨hn, hk, hmem, free, hchain, hfree, href⟩ := h
  refine ⟨by rw [b.fits_iff]; omega, hn.trans hnpages, hk.trans hdir, hpagesVa,
    henvsVa, fun i hi => ?_, ?_, free, hchain, hfree, href⟩
  · exact (congrFun (congrFun hmem b.dirPage) i).trans (hwords i hi)
  · exact (congrFun (congrFun hmem b.dirPage) (pdx uvpt)).trans huvpt

/-- The first half of `mem_init`. -/
theorem memInitAlloc_wp (hnext : s.nextfree = none)
    (hlist : s.vm.pageFreeList = none) :
    wp (memInitAlloc b) (Unless b.Fits (fun _ s' => Allotted b s')) s := by
  have hbase : kernbase.toNat = 0xF0000000 := by decide
  have hpt : ptsize.toNat = 4194304 := by decide
  have hpg : pgsize.toNat = 4096 := by decide
  have hlinked := BitVec.le_def.mp b.linked
  have hext : (kernbase + extphysmem).toNat = 0xF0100000 := by decide
  have hdir : b.dirPage = (b.kernelEnd.toNat + 4095) / 4096 - 0xF0000 := by
    rw [BootInfo.dirPage, hbase]
  obtain ⟨hpages, henvs, hused⟩ := b.pages_eq
  have hfirst : s.nextfree.getD (roundUp b.kernelEnd pgsize) =
      roundUp b.kernelEnd pgsize := by
    rw [hnext, Option.getD_none]
  unfold memInitAlloc
  rw [onBoot_modify_bind]
  refine bootAlloc_bind (a := roundUp b.kernelEnd pgsize) ?_ ?_
  · exact hfirst
  -- the end of the kernel may lie in the last page of the address space
  rcases Nat.lt_or_ge (b.kernelEnd.toNat + 4095) (2 ^ 32) with hwrap | hwrap
  swap
  · rw [roundUp_wraps hwrap]
    refine entryStores_bind (fun _ => paddr_bind (fun hle => absurd hle (by decide))
      (fun _ => ?_)) (fun _ => ?_)
    all_goals
      show ¬ b.Fits
      rw [b.fits_iff]
      omega
  have hdirVa : (roundUp b.kernelEnd pgsize).toNat =
      kernbase.toNat + b.dirPage * 4096 := by
    rw [roundUp_toNat hwrap]
    omega
  generalize roundUp b.kernelEnd pgsize = dirVa at hdirVa ⊢
  refine entryStores_bind (fun hstore => ?_) (fun hstore => ?_)
  swap
  · show ¬ b.Fits
    rw [b.fits_iff]
    omega
  obtain ⟨hle, hpa, hnum⟩ := paddr_page hdirVa
  have hpage : dirVa - kernbase = page2pa b.dirPage :=
    BitVec.eq_of_toNat_eq (hpa.trans (page2pa_toNat (by omega)).symm)
  refine paddr_bind (fun _ => ?_) (fun hlt => absurd hle (BitVec.not_le.mpr hlt))
  rw [hnum, onBoot_modify_bind]
  refine onBoot_modify_bind.mpr ?_
  have hpagesVa : (roundUp (dirVa + pgsize) pgsize).toNat =
      kernbase.toNat + b.pagesPage * 4096 :=
    roundUp_page hdirVa (by omega) (by decide) (by decide)
  generalize roundUp (dirVa + pgsize) pgsize = pagesVa at hpagesVa ⊢
  refine memInitArrays_wp ?_ hpagesVa (by omega) ?_ ?_ ?_ ?_ ?_
  · exact rfl
  · exact rfl
  · exact rfl
  · intro i hi
    simp [PhysMem.setWord, PhysMem.setPage, hi, BootState.mark]
  · simp [PhysMem.setWord, PhysMem.setPage, BootState.mark, hpage]
  · exact hlist

end Alloc

end Jos
