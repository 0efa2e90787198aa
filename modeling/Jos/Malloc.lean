import Jos.Lib.Bytes
import Jos.Lib.Prog
import Jos.Mmu

/-!
# `lib/malloc.c`

The allocator of user programs.  It keeps its state in the page table of the
environment, which it reads through `uvpt`: a page of the heap is unmapped, or it
belongs whole to a block that goes on in the next page (`PTE_CONTINUED`), or its
last word counts the references to it.  `mptr` is where the next block may begin.
-/

namespace Jos

open Programs Bytes

/-- The memory of an environment and the one variable of the allocator. -/
structure Heap where
  /-- What `uvpt` says of a page: not present, or whether `PTE_CONTINUED` is set. -/
  uvpt : Nat → Option Bool
  mem : Bytes.Memory
  mptr : U32
  /-- Whether the kernel has the memory for the `i`-th `sys_page_alloc`. -/
  hasPage : Nat → Bool
  /-- The calls of `sys_page_alloc` so far. -/
  allocs : Nat

namespace Malloc

/-- The largest size of one chunk is below this. -/
def maxMalloc : U32 := 0x100000#32

def mbegin : U32 := 0x08000000#32

def mend : U32 := 0x10000000#32

/-! ## System calls and memory -/

/-- `sys_page_alloc(0, va, PTE_P|PTE_U|PTE_W|cont)`. -/
def sysPageAlloc (va : U32) (cont : Bool) : Prog Heap Int := do
  if utop ≤ va ∨ va % pgsize ≠ 0#32 then
    pure (-eInval)
  else do
    let h ← Prog.get
    Prog.modify (fun h => { h with allocs := h.allocs + 1 })
    if h.hasPage h.allocs then do
      Prog.modify (fun h =>
        { h with
          uvpt := Function.update h.uvpt (pgnum va) (some cont)
          mem := fun x => if x / 4096 = pgnum va then 0#8 else h.mem x })
      pure 0
    else
      pure (-eNoMem)

/-- `sys_page_unmap(0, va)`. -/
def sysPageUnmap (va : U32) : Prog Heap Int := do
  if utop ≤ va ∨ va % pgsize ≠ 0#32 then
    pure (-eInval)
  else do
    Prog.modify (fun h => { h with uvpt := Function.update h.uvpt (pgnum va) none })
    pure 0

/-- Read the word at `a`: a page fault if the page is not present. -/
def loadWord (a : U32) : Prog Heap U32 := do
  let h ← Prog.get
  Prog.when (h.uvpt (pgnum a) = none) Prog.stop
  pure (word h.mem a.toNat)

/-- Write the word at `a`. -/
def storeWord (a w : U32) : Prog Heap Unit := do
  let h ← Prog.get
  Prog.when (h.uvpt (pgnum a) = none) Prog.stop
  Prog.modify (fun h => { h with mem := setWord h.mem a.toNat w })

def setMptr (a : U32) : Prog Heap Unit := Prog.modify (fun h => { h with mptr := a })

/-! ## The functions -/

/-- The address a page further. -/
@[irreducible] def nextPage (a : U32) : U32 := a + pgsize

/-- The loop of `isfree`.  Every turn but the last looks at one of the 65536 pages
below `mend`. -/
def isfreeLoop (endVa : U32) : Nat → U32 → Prog Heap Bool
  | 0, _ => Prog.stop
  | fuel + 1, va =>
      if va < endVa then do
        let h ← Prog.get
        if mend ≤ va ∨ h.uvpt (pgnum va) ≠ none then
          pure false
        else
          isfreeLoop endVa fuel (va + pgsize)
      else
        pure true

/-- `isfree`. -/
def isfree (v n : U32) : Prog Heap Bool := isfreeLoop (v + n) 0x10001 v

/-- The loop of `free` over the pages with `PTE_CONTINUED`, all below `mend`. -/
def freeLoop : Nat → U32 → Prog Heap U32
  | 0, _ => Prog.stop
  | fuel + 1, c => do
      let h ← Prog.get
      if h.uvpt (pgnum c) = some true then do
        let _ ← sysPageUnmap c
        Prog.when (¬ (mbegin ≤ nextPage c ∧ nextPage c < mend)) Prog.stop
        freeLoop fuel (nextPage c)
      else
        pure c

/-- `free`. -/
def free (v : U32) : Prog Heap Unit :=
  if v = 0#32 then
    pure ()
  else do
    Prog.when (¬ (mbegin ≤ v ∧ v < mend)) Prog.stop
    let c ← freeLoop 0x10001 (roundDown v pgsize)
    let ref := c + pgsize - 4#32
    let w ← loadWord ref
    storeWord ref (w - 1#32)
    Prog.when (w - 1#32 = 0#32) (do
      let _ ← sysPageUnmap c
      pure ())

/-- The search of `malloc` for address space.  The pointer goes at most once round
the whole address space before it comes to `mend` for the second time. -/
def mallocSearch (n : U32) : Nat → Nat → Prog Heap Bool
  | 0, _ => Prog.stop
  | fuel + 1, nwrap => do
      let h ← Prog.get
      if ← isfree h.mptr (n + 4#32) then
        pure true
      else do
        setMptr (nextPage h.mptr)
        if nextPage h.mptr = mend then do
          setMptr mbegin
          if nwrap + 1 = 2 then
            pure false
          else
            mallocSearch n fuel (nwrap + 1)
        else
          mallocSearch n fuel nwrap

/-- `for (; i >= 0; i -= PGSIZE)` in `malloc`, with `i` at `k` pages. -/
def mallocUndo : Nat → Prog Heap Unit
  | 0 => do
      let h ← Prog.get
      let _ ← sysPageUnmap h.mptr
      pure ()
  | k + 1 => do
      let h ← Prog.get
      let _ ← sysPageUnmap (h.mptr + BitVec.ofNat 32 ((k + 1) * 4096))
      mallocUndo k

/-- The loop of `malloc` that allocates pages for `size` bytes, `n + 4`, with `i` at
`k` pages.  Its value is the last `i`, or nothing if the kernel is out of memory. -/
def mallocPages (size : Nat) : Nat → Nat → Prog Heap (Option Nat)
  | 0, _ => Prog.stop
  | fuel + 1, k =>
      if k * 4096 < size then do
        let h ← Prog.get
        let cont : Bool := decide (k * 4096 + 4096 < size)
        let r ← sysPageAlloc (h.mptr + BitVec.ofNat 32 (k * 4096)) cont
        if r < 0 then do
          mallocUndo k
          pure none
        else
          mallocPages size fuel (k + 1)
      else
        pure (some (k * 4096))

/-- The end of `malloc`: new pages for `n` bytes. -/
def mallocFresh (n : U32) : Prog Heap U32 := do
  if ← mallocSearch n 0x200000 0 then do
    match ← mallocPages (n + 4#32).toNat 0x200000 0 with
    | none => pure 0#32
    | some i => do
        let h ← Prog.get
        storeWord (h.mptr + BitVec.ofNat 32 i - 4#32) 2#32
        setMptr (h.mptr + n)
        pure h.mptr
  else
    pure 0#32

/-- `malloc`, once `n` is a multiple of 4. -/
def mallocRounded (n : U32) : Prog Heap U32 := do
  let h ← Prog.get
  if maxMalloc ≤ n then
    pure 0#32
  else if h.mptr % pgsize ≠ 0#32 then
    if pgnum h.mptr = pgnum (h.mptr + n - 1#32 + 4#32) then do
      let ref := roundUp h.mptr pgsize - 4#32
      let w ← loadWord ref
      storeWord ref (w + 1#32)
      setMptr (h.mptr + n)
      pure h.mptr
    else do
      free h.mptr
      setMptr (roundDown (h.mptr + pgsize) pgsize)
      mallocFresh n
  else
    mallocFresh n

/-- `malloc`. -/
def malloc (n : U32) : Prog Heap U32 := do
  let h ← Prog.get
  Prog.when (h.mptr = 0#32) (setMptr mbegin)
  mallocRounded (roundUp n 4#32)

end Malloc

end Jos
