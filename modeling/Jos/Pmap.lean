import Jos.Machine

/-!
# `kern/pmap.c`

Page allocation, the two-level page tables, and the check of user addresses.
Every function is written as the source has it, in the order of its effects.
`KADDR` and `pa2page` panic on an address beyond physical memory; `page_free`
panics on a page that is referenced or linked.
-/

namespace Jos

open Programs

/-! ## Addresses of pages -/

/-- `page2pa`. -/
def page2pa (pp : Nat) : U32 := BitVec.ofNat 32 pp <<< 12

/-- `pa2page`. -/
def pa2page (pa : U32) : Prog PhysMem Nat := do
  let m ← Prog.get
  if m.npages ≤ pgnum pa then Prog.stop else pure (pgnum pa)

/-- `KADDR`, giving the page that is addressed. -/
def kaddr (pa : U32) : Prog PhysMem Nat := do
  let m ← Prog.get
  if m.npages ≤ pgnum pa then Prog.stop else pure (pgnum pa)

/-- `page2kva`. -/
def page2kva (pp : Nat) : Prog PhysMem Nat := kaddr (page2pa pp)

/-- Read the entry at a `pte_t *`. -/
def readPte (pte : PtePtr) : Prog PhysMem U32 := do
  let m ← Prog.get
  pure (m.mem pte.page pte.idx)

/-- Write the entry at a `pte_t *`. -/
def writePte (pte : PtePtr) (w : U32) : Prog PhysMem Unit :=
  Prog.modify (fun m => m.setWord pte.page pte.idx w)

/-! ## Tracking of physical pages -/

/-- `page_alloc`; the flag is `ALLOC_ZERO`. -/
def pageAlloc (allocZero : Bool) : Prog PhysMem (Option Nat) := do
  let m ← Prog.get
  match m.pageFreeList with
  | none => pure none
  | some result => do
      Prog.modify (fun m => m.setFreeList (m.pages result).ppLink)
      Prog.modify (fun m => m.setLink result none)
      if allocZero then
        let kva ← page2kva result
        Prog.modify (fun m => m.setPage kva (fun _ => 0#32))
        pure (some result)
      else
        pure (some result)

/-- `page_free`. -/
def pageFree (pp : Nat) : Prog PhysMem Unit := do
  let m ← Prog.get
  if (m.pages pp).ppRef ≠ 0#16 ∨ (m.pages pp).ppLink ≠ none then
    Prog.stop
  else
    Prog.modify (fun m => (m.setLink pp m.pageFreeList).setFreeList (some pp))

/-- `pp->pp_ref++`. -/
def pageIncref (pp : Nat) : Prog PhysMem Unit :=
  Prog.modify (fun m => m.setRef pp ((m.pages pp).ppRef + 1#16))

/-- `page_decref`. -/
def pageDecref (pp : Nat) : Prog PhysMem Unit := do
  Prog.modify (fun m => m.setRef pp ((m.pages pp).ppRef - 1#16))
  let m ← Prog.get
  Prog.when ((m.pages pp).ppRef = 0#16) (pageFree pp)

/-! ## Page tables -/

/-- The last step of `pgdir_walk`: into the table that the directory entry
names. -/
def pgdirEntry (pgdir : Nat) (va : U32) : Prog PhysMem (Option PtePtr) := do
  let pde ← readPte ⟨pgdir, pdx va⟩
  let table ← kaddr (pteAddr pde)
  pure (some ⟨table, ptx va⟩)

/-- `pgdir_walk`. -/
def pgdirWalk (pgdir : Nat) (va : U32) (create : Bool) :
    Prog PhysMem (Option PtePtr) := do
  let pde ← readPte ⟨pgdir, pdx va⟩
  if HasFlag pde pteP then
    pgdirEntry pgdir va
  else if create then
    match ← pageAlloc true with
    | none => pure none
    | some pp => do
        pageIncref pp
        writePte ⟨pgdir, pdx va⟩ (page2pa pp ||| pteP ||| pteU ||| pteW)
        pgdirEntry pgdir va
  else
    pure none

/-- `page_lookup`; the entry pointer is stored only when a page is found. -/
def pageLookup (pgdir : Nat) (va : U32) :
    Prog PhysMem (Option (Nat × PtePtr)) := do
  match ← pgdirWalk pgdir va false with
  | none => pure none
  | some pte => do
      let w ← readPte pte
      if HasFlag w pteP then
        let pp ← pa2page (pteAddr w)
        pure (some (pp, pte))
      else
        pure none

/-- `tlb_invalidate`: `invlpg` unless another address space is in use. -/
def tlbInvalidate (tc : ThisCpu) (pgdir : Nat) (va : U32) :
    Prog PhysMem Unit :=
  Prog.when (tc.curPgdir = none ∨ tc.curPgdir = some (some pgdir)) <|
    Prog.modify (fun m =>
      { m with
        tlb := Function.update m.tlb tc.cpu
          (Function.update (m.tlb tc.cpu) (pgnum va) none) })

/-- Load a page directory and forget all cached translations. -/
def PhysMem.loadCr3 (m : PhysMem) (cpu pgdir : Nat) : PhysMem :=
  { m with
    cr3 := Function.update m.cr3 cpu pgdir
    tlb := Function.update m.tlb cpu (fun _ => none) }

/-- `lcr3`. -/
def lcr3 (cpu pgdir : Nat) : Prog PhysMem Unit :=
  Prog.modify (fun m => m.loadCr3 cpu pgdir)

/-- `page_remove`. -/
def pageRemove (tc : ThisCpu) (pgdir : Nat) (va : U32) :
    Prog PhysMem Unit := do
  match ← pageLookup pgdir va with
  | none => pure ()
  | some (pp, pte) => do
      pageDecref pp
      writePte pte 0#32
      tlbInvalidate tc pgdir va

/-- `page_insert`. -/
def pageInsert (tc : ThisCpu) (pgdir pp : Nat) (va perm : U32) :
    Prog PhysMem Int := do
  match ← pgdirWalk pgdir va true with
  | none => pure (-eNoMem)
  | some pte => do
      pageIncref pp
      let w ← readPte pte
      Prog.when (HasFlag w pteP) (pageRemove tc pgdir va)
      writePte pte (page2pa pp ||| perm ||| pteP)
      pure 0

/-! ## Checking user addresses -/

/-- The loop of `user_mem_check`.  The number of turns is bounded by the pages
of the address space; a loop that went round more often would never end. -/
def userMemCheckLoop (pgdir : Nat) (va perm stop : U32) :
    Nat → U32 → Prog PhysMem Int
  | 0, _ => Prog.stop
  | fuel + 1, p =>
      if p < stop then do
        let pte ← pgdirWalk pgdir p false
        let m ← Prog.get
        let bad : Bool :=
          decide (ulim ≤ p) ||
          match pte with
          | none => true
          | some q =>
              decide (¬ HasFlag (m.mem q.page q.idx) pteP) ||
              decide (m.mem q.page q.idx &&& perm ≠ perm)
        if bad then
          Prog.modify (fun m =>
            { m with userMemCheckAddr := if p < va then va else p })
          pure (-eFault)
        else
          userMemCheckLoop pgdir va perm stop fuel (p + pgsize)
      else
        pure 0

/-- `user_mem_check`, for the page directory of the environment. -/
@[irreducible] def userMemCheck (pgdir : Nat) (va len perm : U32) : Prog PhysMem Int :=
  userMemCheckLoop pgdir va perm (roundUp (va + len) pgsize)
    (npdentries * nptentries + 1) (roundDown va pgsize)

end Jos
