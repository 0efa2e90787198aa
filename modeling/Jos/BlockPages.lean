import Jos.BlockCache
import Jos.UserCalls

/-!
# `fs/bc.c` with its page-table entries

The block cache once more, one level below `Store`: whether a block is in memory and
whether it was written is read from the entries that the hardware marks, and changed with
the page system calls.  There may be no memory for a page; the disk does not fail.
-/

namespace Jos.Bc

open Programs Bytes User

/-- `PTE_A` and `PTE_D`, which the hardware sets. -/
def pteA : U32 := 0x020#32
def pteD : U32 := 0x040#32

/-- `DISKMAP`, `DISKSIZE`, `BLKSIZE`, as words. -/
def diskmapVa : U32 := 0x10000000#32
def disksizeVa : U32 := 0xC0000000#32
def blksizeVa : U32 := 4096#32

/-- The number of blocks that the disk map has room for. -/
def mapBlocks : Nat := 0xC0000

/-- The page number of a block. -/
def blockPage (b : Nat) : Nat := 0x10000 + b

/-- The file server's pages, the disk, by block and offset, whether `super` and `bitmap`
are set, and the blocks that were written to the disk. -/
structure Cache where
  caller : Caller
  disk : Nat → Bytes.Memory
  super : Bool
  bitmap : Bool
  written : List Nat

abbrev CacheProg : Type → Type := Prog Cache

def onCaller {α : Type} (m : Prog Caller α) : CacheProg α :=
  m.zoom (fun s => s.caller) (fun c s => { s with caller := c })

/-! ## The hardware -/

theorem userFlags_or {perm f : U32} (h : UserFlags perm) : UserFlags (perm ||| f) := by
  unfold UserFlags at *
  apply BitVec.eq_of_getLsbD_eq
  intro i hi
  have hbit := congrArg (fun w => w.getLsbD i) h
  simp only [BitVec.getLsbD_and, BitVec.getLsbD_or] at hbit ⊢
  cases hp : perm.getLsbD i <;> cases hu : pteU.getLsbD i <;> cases hpp : pteP.getLsbD i <;>
    simp_all

/-- Flags are added to the entry of a page number. -/
def mark (t : PageTable) (v : Nat) (f : U32) : PageTable where
  entry := Function.update t.entry v ((t.entry v).map (fun w => ⟨w.page, w.perm ||| f⟩))
  table := t.table
  below := fun v' w h => by
    by_cases hv : v' = v
    · subst hv
      rw [Function.update_self, Option.map_eq_some_iff] at h
      obtain ⟨w', hw', -⟩ := h
      exact t.below v' w' hw'
    · rw [Function.update_of_ne hv] at h
      exact t.below v' w h
  flags := fun v' w h => by
    by_cases hv : v' = v
    · subst hv
      rw [Function.update_self, Option.map_eq_some_iff] at h
      obtain ⟨w', hw', rfl⟩ := h
      exact userFlags_or (t.flags v' w' hw')
    · rw [Function.update_of_ne hv] at h
      exact t.flags v' w h
  tabled := fun v' w h => by
    by_cases hv : v' = v
    · subst hv
      rw [Function.update_self, Option.map_eq_some_iff] at h
      obtain ⟨w', hw', -⟩ := h
      exact t.tabled v' w' hw'
    · rw [Function.update_of_ne hv] at h
      exact t.tabled v' w h

/-- The entry of a page number is marked. -/
def touchPage (v : Nat) (f : U32) : CacheProg Unit :=
  Prog.modify (fun s => { s with caller := { s.caller with own := mark s.caller.own v f } })

/-- The page that is mapped for an access, if there is one; otherwise the access faults. -/
def mappedFor (write : Bool) (c : Caller) (a : U32) : Option UserPte :=
  (c.own.entry (pgnum a)).filter (fun w => !write || decide (HasFlag w.perm pteW))

/-- An access, with a way to handle its fault; after that it is tried once more. -/
def access (handle : CacheProg Unit) (write : Bool) (a : U32) : CacheProg UserPte := do
  let s ← Prog.get
  Prog.when (mappedFor write s.caller a = none) handle
  let s ← Prog.get
  match mappedFor write s.caller a with
  | none => Prog.stop
  | some w => do
      touchPage (pgnum a) (if write then pteA ||| pteD else pteA)
      pure w

/-- Load a word, which does not cross pages. -/
def readWord (handle : CacheProg Unit) (a : U32) : CacheProg U32 := do
  let w ← access handle false a
  let s ← Prog.get
  pure (word (s.caller.bytes w.page) (pgoff a))

/-! ## `bc.c` -/

/-- `uvpt[PGNUM(va)]`, its flags. -/
def uvptFlags (c : Caller) (va : U32) : U32 :=
  match c.own.entry (pgnum va) with
  | none => 0#32
  | some w => w.perm

/-- `va_is_mapped`. -/
def vaIsMapped (c : Caller) (va : U32) : Bool :=
  c.own.table (pgnum va / 1024) && decide (HasFlag (uvptFlags c va) pteP)

/-- `va_is_dirty`. -/
def vaIsDirty (c : Caller) (va : U32) : Bool := decide (HasFlag (uvptFlags c va) pteD)

/-- `(addr - DISKMAP) / BLKSIZE`. -/
def blockno (addr : U32) : U32 := (addr - diskmapVa) / blksizeVa

/-- An address that is not in the disk map. -/
def OutOfMap (addr : U32) : Prop := addr < diskmapVa ∨ diskmapVa + disksizeVa ≤ addr

instance (addr : U32) : Decidable (OutOfMap addr) := inferInstanceAs (Decidable (_ ∨ _))

/-- `&super->s_nblocks` and `&bitmap[blockno / 32]`. -/
def snblocksAddr : U32 := diskmapVa + blksizeVa + 4#32
def bitmapAddr (b : U32) : U32 := diskmapVa + 2#32 * blksizeVa + 4#32 * (b / 32#32)

/-- `block_is_free`. -/
def blockIsFree (read : U32 → CacheProg U32) (b : U32) : CacheProg Bool := do
  let s ← Prog.get
  if s.super = false then pure false
  else do
    let nblocks ← read snblocksAddr
    if nblocks ≤ b then pure false
    else do
      let w ← read (bitmapAddr b)
      pure (decide (w &&& (1#32 <<< (b % 32#32).toNat) ≠ 0#32))

/-- `ide_read` of the block at an address: the processor stores what comes from the
disk. -/
def ideRead (b : Nat) (addr : U32) : CacheProg Unit := do
  let s ← Prog.get
  match mappedFor true s.caller addr with
  -- there was no memory: the handler faults itself, while the disk waits
  | none => Prog.stop
  | some w => do
      Prog.modify (fun s => { s with caller := { s.caller with
        bytes := Function.update s.caller.bytes w.page (s.disk b) } })
      touchPage (pgnum addr) (pteA ||| pteD)

/-- `ide_write` of the block at an address. -/
def ideWrite (b : Nat) (addr : U32) : CacheProg Unit := do
  let s ← Prog.get
  match mappedFor false s.caller addr with
  | none => Prog.stop
  | some w => do
      Prog.modify (fun s => { s with
        disk := Function.update s.disk b (s.caller.bytes w.page)
        written := s.written ++ [b] })
      touchPage (pgnum addr) pteA

/-- The page is mapped onto itself, without the marks of the hardware. -/
def remap (addr : U32) : CacheProg Unit := do
  let s ← Prog.get
  let r ← onCaller (sysPageMap (pgnum addr) .own (pgnum addr)
    (uvptFlags s.caller addr &&& pteSyscall))
  Prog.when (r < 0) Prog.stop

/-- `bc_pgfault`, with a way to read words. -/
def bcPgfault (read : U32 → CacheProg U32) (addr : U32) : CacheProg Unit := do
  Prog.when (OutOfMap addr) Prog.stop
  let s ← Prog.get
  Prog.when (s.super = true) (do
    let nblocks ← read snblocksAddr
    Prog.when (nblocks ≤ blockno addr) Prog.stop)
  let page := roundDown addr pgsize
  let _ ← onCaller (sysPageAlloc .own (pgnum page) (pteW ||| pteU ||| pteP))
  ideRead (blockno addr).toNat page
  remap page
  let s ← Prog.get
  Prog.when (s.bitmap = true) (do
    let free ← blockIsFree read (blockno addr)
    Prog.when (free = true) Prog.stop)

/-- Load a word, with faults that nest at most `n` times: the exception stack is one
page. -/
def loadWord : Nat → U32 → CacheProg U32
  | 0, a => readWord Prog.stop a
  | n + 1, a => readWord (bcPgfault (loadWord n) a) a

section Nesting

-- how far faults nest
variable (n : Nat)

/-- A load. -/
def loadByte (a : U32) : CacheProg U8 := do
  let w ← access (bcPgfault (loadWord n) a) false a
  let s ← Prog.get
  pure (s.caller.bytes w.page (pgoff a))

/-- A store. -/
def storeByte (a : U32) (x : U8) : CacheProg Unit := do
  let w ← access (bcPgfault (loadWord n) a) true a
  Prog.modify (fun s => { s with caller := { s.caller with
    bytes := Function.update s.caller.bytes w.page
      (Function.update (s.caller.bytes w.page) (pgoff a) x) } })

/-- `diskaddr`. -/
def diskaddr (b : U32) : CacheProg U32 := do
  Prog.when (b = 0#32) Prog.stop
  let s ← Prog.get
  Prog.when (s.super = true) (do
    let nblocks ← loadWord (n + 1) snblocksAddr
    Prog.when (nblocks ≤ b) Prog.stop)
  pure (diskmapVa + b * blksizeVa)

end Nesting

/-- `flush_block`. -/
def flushBlock (addr : U32) : CacheProg Unit := do
  Prog.when (OutOfMap addr) Prog.stop
  let page := roundDown addr pgsize
  let s ← Prog.get
  Prog.when (vaIsMapped s.caller page = true ∧ vaIsDirty s.caller page = true) (do
    ideWrite (blockno addr).toNat page
    remap page)

/-! ## What the program does -/

/-- What the file server does with the cache; it unmaps only pages that are clean.
Offsets are in the block. -/
inductive CacheOp where
  | load (b : U32) (o : Nat)
  | store (b : U32) (o : Nat) (x : U8)
  | flush (addr : U32)
  | unmap (b : Nat)
  | setSuper
  | setBitmap

/-- The operation is one on the disk map. -/
def CacheOp.Allowed (s : Cache) : CacheOp → Prop
  | .load b o => b.toNat < mapBlocks ∧ o < 4096
  | .store b o _ => b.toNat < mapBlocks ∧ o < 4096
  | .flush addr => ¬ OutOfMap addr
  | .unmap b => b < mapBlocks ∧ ∀ w, s.caller.own.entry (blockPage b) = some w →
      ¬ HasFlag w.perm pteD
  | .setSuper => True
  | .setBitmap => True

/-- An operation, and the byte that it loads. -/
def CacheOp.exec (n : Nat) : CacheOp → CacheProg (Option U8)
  | .load b o => do
      let a ← diskaddr n b
      let x ← loadByte (n + 1) (a + BitVec.ofNat 32 o)
      pure (some x)
  | .store b o x => do
      let a ← diskaddr n b
      storeByte (n + 1) (a + BitVec.ofNat 32 o) x
      pure none
  | .flush addr => do
      flushBlock addr
      pure none
  | .unmap b => do
      let _ ← onCaller (sysPageUnmap (blockPage b))
      pure none
  | .setSuper => do
      Prog.modify (fun s => { s with super := true })
      pure none
  | .setBitmap => do
      Prog.modify (fun s => { s with bitmap := true })
      pure none

end Jos.Bc
