import Mathlib.Data.BitVec
import Jos.UserCalls
import Jos.LoadIcode
import Jos.FileSystem

/-!
# `lib/spawn.c`

`spawn` with the bytes that it moves: the header that it reads into `elf_buf`, the stack
page that `init_stack` fills, and the pages of the segments.  What the file server and
the kernel answer is a parameter; every request that is refused is recorded, and so is
every place where a program header is looked for.
-/

namespace Jos.User

open Programs

/-- `E_NO_FREE_ENV`, `E_MAX_OPEN`, `E_BAD_PATH`, `E_NOT_EXEC`. -/
def eMaxOpen : Int := 10
def eBadPath : Int := 12
def eNotExec : Int := 14

/-- `MAXPATHLEN`. -/
def maxPathLen : Nat := 1024

/-- `UTEMP`. -/
def utemp : U32 := 0x400000#32

/-- `ELF_PROG_FLAG_WRITE`. -/
def elfProgFlagWrite : U32 := 2#32

/-- `struct Proghdr`, the fields that are used. -/
structure Proghdr where
  pType : U32
  pOffset : U32
  pVa : U32
  pFilesz : U32
  pMemsz : U32
  pFlags : U32

/-- The program header at offset `o`. -/
def programHeader (b : Binary) (o : Nat) : Proghdr where
  pType := b.u32 o
  pOffset := b.u32 (o + 4)
  pVa := b.u32 (o + 8)
  pFilesz := b.u32 (o + 16)
  pMemsz := b.u32 (o + 20)
  pFlags := b.u32 (o + 24)

/-- A request of `spawn` that was refused. -/
inductive Refusal where
  | exofork
  | arguments
  | stackPage
  | segmentPage
  | read
deriving DecidableEq

/-- What `spawn` depends on besides its arguments. -/
structure Setting where
  device : Nat → Device
  /-- The answer to the open request: the page of the descriptor, or an error. -/
  opened : Except Int Nat
  opened_neg : ∀ r, opened = .error r → r < 0
  opened_file : ∀ p, opened = .ok p → ∃ r, device p = .other r
  /-- The answer to the `k`th read request, at an offset of the file. -/
  read : Nat → U32 → Nat → FsResult (List U8)
  /-- The environment that `env_alloc` finds. -/
  slot : Option Int
  slot_pos : ∀ c, slot = some c → 0 < c
  /-- What is in memory at a program header that is not in `elf_buf`. -/
  stray : Nat → Option Proghdr

/-- The calling environment, `fd_offset` of the file, and what was recorded. -/
structure SpawnState where
  caller : Caller
  offset : U32
  requests : Nat
  headers : List Nat
  refused : List Refusal

def onCaller {α : Type} (m : Prog Caller α) : Prog SpawnState α :=
  m.zoom (fun s => s.caller) (fun c s => { s with caller := c })

/-- A request was refused. -/
def refuse (q : Refusal) : Prog SpawnState Unit :=
  Prog.modify (fun s => { s with refused := s.refused ++ [q] })

section Spawn

variable (g : Setting)

/-! ## Files -/

/-- `fd_alloc`, from descriptor `i` on. -/
def fdAlloc : Nat → Nat → Prog Caller (Option Nat)
  | _, 0 => pure none
  | i, n + 1 => do
      let s ← Prog.get
      match s.own.entry (fdPage i) with
      | none => pure (some i)
      | some _ => fdAlloc (i + 1) n

/-- The page of the descriptor arrives.  The server panics if it cannot send it. -/
def receiveFd (fd p : Nat) : Prog Caller Unit := do
  let s ← Prog.get
  if hw : fdPage fd < userPages ∧ UserFlags (pteP ||| pteU ||| pteW ||| pteShare) then do
    let r ← pageInsert .own s.own (fdPage fd) ⟨p, pteP ||| pteU ||| pteW ||| pteShare⟩ hw
    Prog.when (r < 0) Prog.stop
  else Prog.stop

/-- `open`. -/
def openFile (path : List U8) : Prog SpawnState Int := do
  if maxPathLen ≤ path.length then pure (-eBadPath)
  else do
    match ← onCaller (fdAlloc 0 maxFd) with
    | none => pure (-eMaxOpen)
    | some fd =>
        match g.opened with
        | .error r => do
            -- `fd_close`, of a descriptor that need not exist
            let _ ← onCaller (close g.device fd)
            pure r
        | .ok p => do
            onCaller (receiveFd fd p)
            Prog.modify (fun s => { s with offset := 0#32 })
            pure fd

/-- `read`, of an open file. -/
def readFile (fd : Int) (n : Nat) : Prog SpawnState (Int × List U8) := do
  let r ← onCaller (fdLookup fd)
  if r < 0 then pure (r, [])
  else do
    let s ← Prog.get
    Prog.modify (fun s => { s with requests := s.requests + 1 })
    match g.read s.requests s.offset n with
    | .error e => do
        refuse .read
        pure (e.code.toInt, [])
    | .ok bs => do
        Prog.when (¬ (bs.length ≤ n ∧ bs.length ≤ 4096)) Prog.stop
        Prog.modify (fun s => { s with offset := s.offset + BitVec.ofNat 32 bs.length })
        pure (bs.length, bs)

/-- The loop of `readn`, of at most `k` turns. -/
def readLoop (fd : Int) : Nat → Nat → Prog SpawnState (Int × List U8)
  | 0, _ => pure (0, [])
  | k + 1, n => do
      if n = 0 then pure (0, [])
      else do
        let (m, bs) ← readFile g fd n
        if m < 0 then pure (m, [])
        else if m = 0 then pure (0, [])
        else do
          let (tot, rest) ← readLoop fd k (n - bs.length)
          pure (if tot < 0 then tot else bs.length + tot, bs ++ rest)

/-- `readn`: what it returns, and the bytes that are in the buffer then. -/
def readn (fd : Int) (n : Nat) : Prog SpawnState (Int × List U8) := readLoop g fd (n + 1) n

/-- `seek`. -/
def seek (fd : Int) (offset : U32) : Prog SpawnState Int := do
  let r ← onCaller (fdLookup fd)
  if r < 0 then pure r
  else do
    Prog.modify (fun s => { s with offset := offset })
    pure 0

/-! ## The child -/

/-- `sys_exofork`. -/
def sysExofork : Prog Caller Int :=
  match g.slot with
  | none => pure (-eNoFreeEnv)
  | some c => do
      -- the page directory
      let ok ← needPage
      if ok then do
        Prog.modify (fun s => { s with child := some PageTable.empty })
        pure c
      else pure (-eNoMem)

/-- `sys_env_destroy`. -/
def sysEnvDestroy : Prog Caller Unit := Prog.modify (fun s => { s with child := none })

/-- Store a byte through an own mapping; a fault does not return. -/
def storeByte (a : U32) (b : U8) : Prog Caller Unit := do
  let s ← Prog.get
  match s.own.entry (pgnum a) with
  | none => Prog.stop
  | some w =>
      if HasFlag w.perm pteW then
        Prog.modify (fun s => { s with
          bytes := Function.update s.bytes w.page
            (Function.update (s.bytes w.page) (pgoff a) b) })
      else Prog.stop

def storeBytes (a : U32) : List U8 → Prog Caller Unit
  | [] => pure ()
  | b :: bs => do
      storeByte a b
      storeBytes (a + 1#32) bs

def storeU32 (a w : U32) : Prog Caller Unit := storeBytes a (bytesOfU32 w)

/-! ## `init_stack` -/

/-- `string_size`. -/
def stringSize (argv : List (List U8)) : U32 :=
  (argv.map (fun a => BitVec.ofNat 32 (a.length + 1))).sum

/-- `string_store`, at first. -/
def stringStore (argv : List (List U8)) : U32 := utemp + pgsize - stringSize argv

/-- `argv_store`. -/
def argvStore (argv : List (List U8)) : U32 :=
  roundDown (stringStore argv) 4#32 - 4#32 * BitVec.ofNat 32 (argv.length + 1)

/-- `UTEMP2USTACK`. -/
def utemp2Ustack (addr : U32) : U32 := addr + (ustacktop - pgsize) - utemp

/-- The loop of `init_stack`: the `i`th string goes to `stringStore`.  Returns the end
of the strings. -/
def storeArgs (argvStore : U32) : Nat → U32 → List (List U8) → Prog Caller U32
  | _, stringStore, [] => pure stringStore
  | i, stringStore, arg :: args => do
      storeU32 (argvStore + 4#32 * BitVec.ofNat 32 i) (utemp2Ustack stringStore)
      storeBytes stringStore (arg ++ [0#8])
      storeArgs argvStore (i + 1) (stringStore + BitVec.ofNat 32 (arg.length + 1)) args

/-- `init_stack` after the test of the arguments, with the page at `UTEMP`: the stack is
filled. -/
def fillStack (argv : List (List U8)) : Prog Caller Unit := do
  let last ← storeArgs (argvStore argv) 0 (stringStore argv) argv
  storeU32 (argvStore argv + 4#32 * BitVec.ofNat 32 argv.length) 0#32
  Prog.when (last ≠ utemp + pgsize) Prog.stop
  storeU32 (argvStore argv - 4#32) (utemp2Ustack (argvStore argv))
  storeU32 (argvStore argv - 8#32) (BitVec.ofNat 32 argv.length)

/-- `init_stack`: what it returns, and `*init_esp`. -/
def initStack (argv : List (List U8)) : Prog SpawnState (Int × U32) := do
  if argvStore argv - 8#32 < utemp then do
    refuse .arguments
    pure (-eNoMem, 0#32)
  else do
    let r ← onCaller (sysPageAlloc .own utempPage (pteP ||| pteU ||| pteW))
    if r < 0 then do
      refuse .stackPage
      pure (r, 0#32)
    else do
      onCaller (fillStack argv)
      let esp := utemp2Ustack (argvStore argv - 8#32)
      let r ← onCaller (sysPageMap utempPage .child (stackPages - 1) (pteP ||| pteU ||| pteW))
      if r < 0 then do
        refuse .stackPage
        let _ ← onCaller (sysPageUnmap utempPage)
        pure (r, esp)
      else do
        let _ ← onCaller (sysPageUnmap utempPage)
        pure (0, esp)

-- the unifier is not to try the test of the arguments
attribute [irreducible] initStack

/-! ## `map_segment` -/

/-- `map_segment` at offset `i` of the segment, from addresses and sizes that start at a
page. -/
def mapPage (fd : Int) (va filesz fileoffset perm i : U32) : Prog SpawnState Int := do
  if filesz ≤ i then do
    let r ← onCaller (sysPageAlloc .child (pgnum (va + i)) perm)
    Prog.when (r < 0) (refuse .segmentPage)
    pure r
  else do
    let r ← onCaller (sysPageAlloc .own utempPage (pteP ||| pteU ||| pteW))
    if r < 0 then do
      refuse .segmentPage
      pure r
    else do
      let r ← seek fd (fileoffset + i)
      if r < 0 then pure r
      else do
        let (r, bs) ← readn g fd (min 4096 (filesz - i).toNat)
        onCaller (storeBytes utemp bs)
        if r < 0 then pure r
        else do
          let r ← onCaller (sysPageMap utempPage .child (pgnum (va + i)) perm)
          Prog.when (r < 0) Prog.stop
          let _ ← onCaller (sysPageUnmap utempPage)
          pure 0

/-- The loop of `map_segment`, of at most `k` turns: the pages of the address space are
used up before. -/
def mapPages (fd : Int) (va memsz filesz fileoffset perm : U32) :
    Nat → U32 → Prog SpawnState Int
  | 0, _ => Prog.stop
  | k + 1, i => do
      if memsz ≤ i then pure 0
      else do
        let r ← mapPage g fd va filesz fileoffset perm i
        if r < 0 then pure r
        else mapPages fd va memsz filesz fileoffset perm k (i + pgsize)

/-- `map_segment`. -/
def mapSegment (fd : Int) (va memsz filesz fileoffset perm : U32) : Prog SpawnState Int :=
  let i := BitVec.ofNat 32 (pgoff va)
  mapPages g fd (va - i) (memsz + i) (filesz + i) (fileoffset - i) perm (2 ^ 20 + 1) 0#32

/-! ## `spawn` -/

/-- Where program header `i` is, counted from the start of `elf_buf`. -/
def headerOffset (b : Binary) (i : Nat) : Nat :=
  (b.u32 28 + BitVec.ofNat 32 (32 * i)).toNat

/-- The program header at offset `o` from `elf_buf`. -/
def loadHeader (b : Binary) (o : Nat) : Prog SpawnState Proghdr := do
  Prog.modify (fun s => { s with headers := s.headers ++ [o] })
  if o + 32 ≤ 512 then pure (programHeader b o)
  else
    match g.stray o with
    | none => Prog.stop
    | some ph => pure ph

/-- The loop of `spawn` over the program headers, from header `i` on. -/
def mapSegments (fd : Int) (b : Binary) : Nat → Nat → Prog SpawnState Int
  | _, 0 => pure 0
  | i, n + 1 => do
      let ph ← loadHeader g b (headerOffset b i)
      if ph.pType ≠ elfProgLoad then mapSegments fd b (i + 1) n
      else do
        let perm := if HasFlag ph.pFlags elfProgFlagWrite then pteP ||| pteU ||| pteW
          else pteP ||| pteU
        let r ← mapSegment g fd ph.pVa ph.pMemsz ph.pFilesz ph.pOffset perm
        if r < 0 then pure r
        else mapSegments fd b (i + 1) n

/-- `copy_shared_pages`. -/
def copySharedPages : Prog Caller Unit :=
  Prog.forRange 0 userPages (fun v => do
    let s ← Prog.get
    match s.own.entry v with
    | none => pure ()
    | some w =>
        Prog.when (HasFlag w.perm pteU ∧ HasFlag w.perm pteShare) (do
          let _ ← sysPageMap v .child v (w.perm &&& pteSyscall)
          pure ()))

-- nor to run the loop
attribute [irreducible] copySharedPages

/-- `elf_buf`, from the bytes that were read. -/
def elfBuf (bs : List U8) : Binary := fun o => bs.getD o 0#8

/-- The header of the program: `elf_buf`, or what `spawn` returns if it cannot be read. -/
def readHeader (path : List U8) : Prog SpawnState (Except Int (Int × List U8)) := do
  let fd ← openFile g path
  if fd < 0 then pure (.error fd)
  else do
    let (n, bs) ← readn g fd 512
    if n ≠ 512 ∨ (elfBuf bs).eMagic ≠ elfMagic then do
      let _ ← onCaller (close g.device fd)
      pure (.error (-eNotExec))
    else pure (.ok (fd, bs))

/-- `spawn`, once it has the header. -/
def spawnImage (fd : Int) (b : Binary) (argv : List (List U8)) : Prog SpawnState Int := do
  let child ← onCaller (sysExofork g)
  if child < 0 then do
    refuse .exofork
    pure child
  else do
    let (r, _) ← initStack argv
    if r < 0 then pure r
    else do
      let r ← mapSegments g fd b 0 b.ePhnum
      if r < 0 then do
        onCaller sysEnvDestroy
        let _ ← onCaller (close g.device fd)
        pure r
      else do
        let _ ← onCaller (close g.device fd)
        onCaller copySharedPages
        pure child

/-- `spawn`. -/
def spawn (path : List U8) (argv : List (List U8)) : Prog SpawnState Int := do
  match ← readHeader g path with
  | .error r => pure r
  | .ok (fd, bs) => spawnImage g fd (elfBuf bs) argv

end Spawn

end Jos.User
