import Jos.PageAccounting

/-!
# `mem_init`

How `kern/pmap.c` sets up memory: `boot_alloc` takes the page directory and the
arrays `pages` and `envs` from behind the kernel image, `page_init` links the
pages that are left over, and `boot_map_region` fills the part of `kern_pgdir`
above `UTOP`.

The self-checks take free pages and put them back, and what they do besides is
left open (`SelfChecked`).  Of `check_kern_pgdir` the loop over physical memory
is kept, for it bounds the memory that the kernel accepts, and of `check_page`
the page table it leaves for the MMIO region.
-/

namespace Jos

open Programs LinkedList

/-! ## `inc/memlayout.h`, `kern/cpu.h` -/

/-- `IOPHYSMEM`. -/
def iophysmem : U32 := 0x0A0000#32

/-- `EXTPHYSMEM`. -/
def extphysmem : U32 := 0x100000#32

/-- `MPENTRY_PADDR`. -/
def mpentryPaddr : U32 := 0x7000#32

/-- `KSTKSIZE`, the size of a kernel stack. -/
def kstksize : U32 := 8#32 * pgsize

/-- `KSTKGAP`, the size of a kernel stack guard. -/
def kstkgap : U32 := 8#32 * pgsize

/-- `NCPU`, the processors the kernel has room for. -/
def ncpuMax : Nat := 8

/-- `sizeof(struct PageInfo)`. -/
def pageInfoSize : U32 := 8#32

/-- `sizeof(struct Env)`. -/
def envSize : U32 := 124#32

/-! ## The state of `mem_init` -/

/-- What the linker and the CMOS tell the kernel.  The linker puts the kernel
at the start of extended memory, the stacks among its data and aligned to
pages. -/
structure BootInfo where
  /-- The symbol `end`. -/
  kernelEnd : U32
  bootstack : U32
  percpuKstacks : Nat → U32
  basemem : U16
  extmem : U16
  ext16mem : U16
  linked : kernbase + extphysmem ≤ kernelEnd
  bootstack_linked : kernbase ≤ bootstack
  bootstack_aligned : bootstack.toNat % 4096 = 0
  percpuKstacks_linked : ∀ i, kernbase ≤ percpuKstacks i
  percpuKstacks_aligned : ∀ i, (percpuKstacks i).toNat % 4096 = 0

/-- `i386_detect_memory`: the number of pages.  The CMOS counts kilobytes, and
above 16 MB units of 64 kilobytes. -/
def BootInfo.npages (b : BootInfo) : Nat :=
  let totalmem :=
    if b.ext16mem ≠ 0#16 then 16 * 1024 + b.ext16mem.toNat * 64
    else if b.extmem ≠ 0#16 then 1 * 1024 + b.extmem.toNat
    else b.basemem.toNat
  totalmem / 4

/-- Memory, and the variables that only `mem_init` sets. -/
structure BootState where
  vm : PhysMem
  /-- The static variable of `boot_alloc`. -/
  nextfree : Option U32
  /-- The address of the array `pages`. -/
  pagesVa : U32
  /-- The address of the array `envs`. -/
  envsVa : U32

/-- Run a function of `kern/pmap.c` on memory. -/
def onBoot {α : Type} (m : Prog PhysMem α) : Prog BootState α :=
  m.zoom (fun s => s.vm) (fun vm s => { s with vm := vm })

/-- `PADDR`, which panics below `KERNBASE`. -/
@[irreducible] def paddr {σ : Type} (kva : U32) : Prog σ U32 :=
  if kva < kernbase then Prog.stop else pure (kva - kernbase)

/-! ## Before the page allocator -/

/-- `boot_alloc`. -/
def bootAlloc (b : BootInfo) (n : U32) : Prog BootState U32 := do
  let s ← Prog.get
  let result := s.nextfree.getD (roundUp b.kernelEnd pgsize)
  Prog.modify (fun s => { s with nextfree := some (roundUp (result + n) pgsize) })
  pure result

/-- The stores of `memset` before `kern_pgdir` is loaded: `entry_pgdir` maps
4 MB at `KERNBASE`, and beyond them the kernel faults. -/
@[irreducible] def entryStores (kva n : U32) : Prog BootState Unit :=
  Prog.when (¬ (kva.toNat + n.toNat ≤ kernbase.toNat + ptsize.toNat)) Prog.stop

/-- One turn of the loop of `page_init`. -/
def pageInitPage (kernelUsedPage i : Nat) (m : PhysMem) : PhysMem :=
  if i = 0 then
    (m.setRef i 1#16).setLink i none
  else if i = pgnum mpentryPaddr then
    (m.setRef i 1#16).setLink i none
  else if pgnum iophysmem ≤ i ∧ i < kernelUsedPage then
    (m.setRef i 1#16).setLink i none
  else
    ((m.setRef i 0#16).setLink i m.pageFreeList).setFreeList (some i)

/-- `page_init`. -/
def pageInit (b : BootInfo) : Prog BootState Unit := do
  let kernelUsed ← bootAlloc b 0#32
  let pa ← paddr kernelUsed
  let s ← Prog.get
  onBoot (Prog.forRange 0 s.vm.npages (fun i =>
    Prog.modify (pageInitPage (pgnum pa) i)))

/-- `mem_init` takes the arrays `pages` and `envs`, and links the free pages. -/
def memInitArrays (b : BootInfo) : Prog BootState Unit := do
  let pagesSize := BitVec.ofNat 32 b.npages * pageInfoSize
  let pages ← bootAlloc b pagesSize
  Prog.modify (fun s => { s with pagesVa := pages })
  entryStores pages pagesSize
  onBoot (Prog.modify (fun m =>
    { m with pages := fun p => if p < b.npages then ⟨none, 0#16⟩ else m.pages p }))
  let envsSize := BitVec.ofNat 32 nenv * envSize
  let envs ← bootAlloc b envsSize
  Prog.modify (fun s => { s with envsVa := envs })
  entryStores envs envsSize
  pageInit b

/-- The first half of `mem_init`, up to `page_init`. -/
def memInitAlloc (b : BootInfo) : Prog BootState Unit := do
  onBoot (Prog.modify (fun m => { m with npages := b.npages }))
  let dir ← bootAlloc b pgsize
  entryStores dir pgsize
  let pa ← paddr dir
  onBoot (Prog.modify (fun m =>
    { m.setPage (pgnum pa) (fun _ => 0#32) with kernPgdir := pgnum pa }))
  onBoot (writePte ⟨pgnum pa, pdx uvpt⟩ (pa ||| pteU ||| pteP))
  memInitArrays b

/-! ## `kern_pgdir` -/

/-- One turn of the loop of `boot_map_region`. -/
def bootMapPage (pgdir : Nat) (va pa perm : U32) : Prog PhysMem Unit := do
  match ← pgdirWalk pgdir va true with
  | none => Prog.stop
  | some pte => writePte pte (pa ||| pteP ||| perm)

/-- `boot_map_region`. -/
def bootMapRegion (pgdir : Nat) (va size pa perm : U32) : Prog PhysMem Unit :=
  let pgs := (size / pgsize).toNat + (if size % pgsize ≠ 0#32 then 1 else 0)
  Prog.forRange 0 pgs (fun i =>
    bootMapPage pgdir (va + BitVec.ofNat 32 i * pgsize)
      (pa + BitVec.ofNat 32 i * pgsize) perm)

/-- `mem_init_mp`. -/
def memInitMp (b : BootInfo) (pgdir : Nat) : Prog PhysMem Unit :=
  Prog.forRange 0 ncpuMax (fun i => do
    let pa ← paddr (b.percpuKstacks i)
    bootMapRegion pgdir
      (kstacktop - kstksize - BitVec.ofNat 32 i * (kstksize + kstkgap))
      kstksize pa pteW)

/-- `check_va2pa`. -/
def checkVa2pa (pgdir : Nat) (va : U32) : Prog PhysMem U32 := do
  let pde ← readPte ⟨pgdir, pdx va⟩
  if ¬ HasFlag pde pteP then
    pure (~~~0#32)
  else do
    let p ← kaddr (pteAddr pde)
    let pte ← readPte ⟨p, ptx va⟩
    if ¬ HasFlag pte pteP then pure (~~~0#32) else pure (pteAddr pte)

/-- The loop of `check_kern_pgdir` over physical memory. -/
def checkPhysMem (pgdir : Nat) : Prog PhysMem Unit := do
  let m ← Prog.get
  Prog.forRange 0 (BitVec.ofNat 32 m.npages * pgsize / pgsize).toNat (fun n => do
    let i := BitVec.ofNat 32 n * pgsize
    let pa ← checkVa2pa pgdir (kernbase + i)
    Prog.when (pa ≠ i) Prog.stop)

/-- The second half of `mem_init`, from the first self-checks on. -/
def memInitMap (b : BootInfo) : Prog BootState Unit := do
  let s ← Prog.get
  let pgdir := s.vm.kernPgdir
  -- what `check_page` leaves of the MMIO region
  match ← onBoot (pgdirWalk pgdir mmiobase true) with
  | none => Prog.stop
  | some _ => do
      let pages ← paddr s.pagesVa
      onBoot (bootMapRegion pgdir upages ptsize pages pteU)
      let envs ← paddr s.envsVa
      onBoot (bootMapRegion pgdir uenvs ptsize envs pteU)
      let bootstack ← paddr b.bootstack
      onBoot (bootMapRegion pgdir (kstacktop - kstksize) kstksize bootstack pteW)
      onBoot (bootMapRegion pgdir kernbase (0xFFFFFFFF#32 - kernbase + 1#32) 0#32
        pteW)
      onBoot (memInitMp b pgdir)
      onBoot (checkPhysMem pgdir)
      onBoot (lcr3 0 pgdir)

/-! ## `mem_init` -/

/-- The self-checks take free pages and put them back: the free list has the
same pages, and nothing else is written. -/
structure SelfChecked (m m' : PhysMem) : Prop where
  npages : m'.npages = m.npages
  kernPgdir : m'.kernPgdir = m.kernPgdir
  ref : ∀ p, (m'.pages p).ppRef = (m.pages p).ppRef
  freeList : ∀ free, Chain (fun p => (m.pages p).ppLink) m.pageFreeList free →
    ∃ free', free'.Perm free ∧
      Chain (fun p => (m'.pages p).ppLink) m'.pageFreeList free' ∧
      ∀ q, q ∉ free → m'.mem q = m.mem q

/-- Three pages are free: `check_page_installed_pgdir` allocates as many. -/
def PhysMem.ThreeFree (m : PhysMem) : Prop :=
  ∃ p q r, m.pageFreeList = some p ∧ (m.pages p).ppLink = some q ∧
    (m.pages q).ppLink = some r

/-- `mem_init` completes and leaves `s`. -/
def MemInit (b : BootInfo) (s : BootState) : Prop :=
  ∃ s₀ s₁ s₂ : BootState, ∃ m₁ m : PhysMem,
    s₀.nextfree = none ∧ s₀.vm.pageFreeList = none ∧
    (memInitAlloc b).run s₀ = .ret () s₁ ∧
    SelfChecked s₁.vm m₁ ∧
    (memInitMap b).run { s₁ with vm := m₁ } = .ret () s₂ ∧
    SelfChecked s₂.vm m ∧ m.ThreeFree ∧ s = { s₂ with vm := m }

end Jos
