import Jos.BlockCache

/-!
# `fs/fs.c`: files and directories

A `struct File *` and a pointer to a block slot are addresses in the memory of the
file server; a path is the list of its characters.  Sizes and offsets are 32-bit
words: `off_t` is signed, `size_t` is not, and a comparison of the two is
unsigned.
-/

namespace Jos

open Programs Bytes

/-- `NDIRECT`. -/
def ndirect : Nat := 10

/-- `NINDIRECT`. -/
def nindirect : Nat := 1024

/-- `BLKFILES`. -/
def blkfiles : Nat := 16

/-- `MAXNAMELEN`. -/
def maxnamelen : Nat := 128

/-- `FTYPE_DIR`. -/
def ftypeDir : U32 := 1#32

/-- `FS_MAGIC`. -/
def fsMagic : U32 := 0x4A0530AE#32

/-- The character `/`. -/
def slash : U8 := 47#8

/-- `&super->s_root`. -/
def rootVa : Nat := superVa + 8

/-- `&f->f_size`. -/
def fSizeVa (f : Nat) : Nat := f + 128

/-- `&f->f_type`. -/
def fTypeVa (f : Nat) : Nat := f + 132

/-- `&f->f_direct[i]`. -/
def fDirectVa (f i : Nat) : Nat := f + 136 + 4 * i

/-- `&f->f_indirect`. -/
def fIndirectVa (f : Nat) : Nat := f + 176

/-- The errors of `fs.c`. -/
inductive FsErr where
  | inval
  | noDisk
  | notFound
  | badPath
  | fileExists
deriving DecidableEq

/-- The value that is returned for an error. -/
def FsErr.code : FsErr → U32
  | .inval => -3#32
  | .noDisk => -9#32
  | .notFound => -11#32
  | .badPath => -12#32
  | .fileExists => -13#32

/-- A result or an error. -/
abbrev FsResult (α : Type) : Type := Except FsErr α

/-- The number of blocks of a file with `n` bytes, as `file_truncate_blocks` and
`file_flush` compute it. -/
def blocksFor (n : U32) : U32 := (n + 4095#32).sdiv 4096#32

namespace Fs

/-! ## Blocks -/

/-- `block_is_free`. -/
def blockIsFree (b : Nat) : FsProg Bool := isFree loadWord b

/-- `free_block`. -/
def freeBlock (b : Nat) : FsProg Unit := do
  Prog.when (b = 0) Prog.stop
  let w ← loadWord (bitmapVa b)
  storeWord (bitmapVa b) (w ||| 1#32 <<< (b % 32))

/-- The loop of `alloc_block`, from block `b` on. -/
def allocFrom (b : Nat) : Nat → FsProg (Option Nat)
  | 0 => pure none
  | n + 1 => do
      let free ← blockIsFree b
      if free then do
        let w ← loadWord (bitmapVa b)
        storeWord (bitmapVa b) (w &&& ~~~(1#32 <<< (b % 32)))
        let va ← diskaddr (2 + b / 32 / nindirect)
        flushBlock va
        pure (some b)
      else allocFrom (b + 1) n

/-- `alloc_block`. -/
def allocBlock : FsProg (Option Nat) := do
  let nblocks ← loadWord snblocksVa
  allocFrom 0 nblocks.toNat

/-- `check_super`. -/
def checkSuper : FsProg Unit := do
  let magic ← loadWord superVa
  Prog.when (magic ≠ fsMagic) Prog.stop
  let nblocks ← loadWord snblocksVa
  Prog.when (disksize / blksize < nblocks.toNat) Prog.stop

/-- `assert(!block_is_free(b))`. -/
def assertUsed (b : Nat) : FsProg Unit := do
  let free ← blockIsFree b
  Prog.when (free = true) Prog.stop

/-- `check_bitmap`. -/
def checkBitmap : FsProg Unit := do
  let nblocks ← loadWord snblocksVa
  Prog.forRange 0 ((nblocks.toNat + 32767) / 32768) (fun i => assertUsed (2 + i))
  assertUsed 0
  assertUsed 1

/-- `fs_init`.  Before `super` is set, `bc_init` reads the super block in; `check_bc`,
which it runs first, leaves the disk as it was. -/
def fsInit : FsProg Unit := do
  change (fun s => s.pageIn 1)
  checkSuper
  checkBitmap

/-! ## Blocks of files -/

/-- `file_block_walk`. -/
def fileBlockWalk (f filebno : Nat) (alloc : Bool) : FsProg (FsResult Nat) := do
  if ndirect + nindirect ≤ filebno then pure (.error .inval)
  else if filebno < ndirect then pure (.ok (fDirectVa f filebno))
  else do
    let indirect ← loadWord (fIndirectVa f)
    if indirect ≠ 0#32 then do
      let indirects ← diskaddr indirect.toNat
      pure (.ok (indirects + 4 * (filebno - ndirect)))
    else if alloc = false then pure (.error .notFound)
    else do
      let r ← allocBlock
      match r with
      | none => pure (.error .noDisk)
      | some bn => do
          note (.tookIndirect f bn)
          storeWord (fIndirectVa f) (BitVec.ofNat 32 bn)
          let va ← diskaddr bn
          flushBlock va
          let indirects ← diskaddr bn
          pure (.ok (indirects + 4 * (filebno - ndirect)))

/-- `file_get_block`. -/
def fileGetBlock (f filebno : Nat) : FsProg (FsResult Nat) := do
  let r ← fileBlockWalk f filebno true
  match r with
  | .error e => pure (.error e)
  | .ok pdiskbno => do
      let w ← loadWord pdiskbno
      if w = 0#32 then do
        let r ← allocBlock
        match r with
        | none => pure (.error .noDisk)
        | some bn => do
            note (.took f filebno bn)
            storeWord pdiskbno (BitVec.ofNat 32 bn)
            let va ← diskaddr bn
            flushBlock va
            let w ← loadWord pdiskbno
            let blk ← diskaddr w.toNat
            pure (.ok blk)
      else do
        let blk ← diskaddr w.toNat
        pure (.ok blk)

/-! ## Directories -/

/-- `strcmp(s, name) == 0`, of the string at an address. -/
def strEq (va : Nat) : List U8 → FsProg Bool
  | [] => do
      let x ← loadByte va
      pure (decide (x = 0#8))
  | c :: cs => do
      let x ← loadByte va
      if x = c then strEq (va + 1) cs else pure false

/-- `strcpy`, to an address. -/
def strCpy (va : Nat) : List U8 → FsProg Unit
  | [] => storeByte va 0#8
  | c :: cs => do
      storeByte va c
      strCpy (va + 1) cs

/-- The loop of `dir_lookup` over the files of a block. -/
def findName (name : List U8) (f : Nat) : Nat → FsProg (Option Nat)
  | 0 => pure none
  | n + 1 => do
      let same ← strEq f name
      if same then pure (some f) else findName name (f + 256) n

/-- The loop of `dir_alloc_file` over the files of a block. -/
def findFree (f : Nat) : Nat → FsProg (Option Nat)
  | 0 => pure none
  | n + 1 => do
      let x ← loadByte f
      if x = 0#8 then pure (some f) else findFree (f + 256) n

/-- The loops over the blocks of a directory, from block `i` on. -/
def dirScan (find : Nat → FsProg (Option Nat)) (dir i : Nat) :
    Nat → FsProg (FsResult (Option Nat))
  | 0 => pure (.ok none)
  | n + 1 => do
      let r ← fileGetBlock dir i
      match r with
      | .error e => pure (.error e)
      | .ok blk => do
          let r ← find blk
          match r with
          | some f => pure (.ok (some f))
          | none => dirScan find dir (i + 1) n

/-- The number of blocks of a directory: its size is a multiple of `BLKSIZE`. -/
def dirBlocks (dir : Nat) : FsProg Nat := do
  let size ← loadWord (fSizeVa dir)
  Prog.when (size.srem 4096#32 ≠ 0#32) Prog.stop
  pure (size.sdiv 4096#32).toNat

/-- `dir_lookup`. -/
def dirLookup (dir : Nat) (name : List U8) : FsProg (FsResult Nat) := do
  let nblock ← dirBlocks dir
  let r ← dirScan (fun blk => findName name blk blkfiles) dir 0 nblock
  match r with
  | .error e => pure (.error e)
  | .ok (some f) => pure (.ok f)
  | .ok none => pure (.error .notFound)

/-- `dir_alloc_file`. -/
def dirAllocFile (dir : Nat) : FsProg (FsResult Nat) := do
  let nblock ← dirBlocks dir
  let r ← dirScan (fun blk => findFree blk blkfiles) dir 0 nblock
  match r with
  | .error e => pure (.error e)
  | .ok (some f) => do
      note (.entry dir f)
      pure (.ok f)
  | .ok none => do
      let size ← loadWord (fSizeVa dir)
      note (.resized dir (size + 4096#32))
      storeWord (fSizeVa dir) (size + 4096#32)
      let r ← fileGetBlock dir nblock
      match r with
      | .error e => pure (.error e)
      | .ok blk => do
          note (.entry dir blk)
          pure (.ok blk)

/-- What `walk_path` finds: a file and the directory that it is in, or the directory
that it should be in and its name, or neither. -/
inductive Walked where
  | found (dir : Option Nat) (f : Nat)
  | missing (dir : Nat) (name : List U8)
  | fails (e : FsErr)

/-- `skip_slash`. -/
def skipSlash : List U8 → List U8
  | [] => []
  | c :: cs => if c = slash then skipSlash cs else c :: cs

/-- The loop of `walk_path`, with the rest of the path; every turn takes at least one
character of it. -/
def walkFrom (dir : Option Nat) (f : Nat) : Nat → List U8 → FsProg Walked
  | 0, _ => pure (.found dir f)
  | _ + 1, [] => pure (.found dir f)
  | n + 1, path => do
      let name := path.takeWhile (· ≠ slash)
      let rest := skipSlash (path.dropWhile (· ≠ slash))
      if maxnamelen ≤ name.length then pure (.fails .badPath)
      else do
        let type ← loadWord (fTypeVa f)
        if type ≠ ftypeDir then pure (.fails .notFound)
        else do
          let r ← dirLookup f name
          match r with
          | .ok g => walkFrom (some f) g n rest
          | .error e =>
              if e = .notFound ∧ rest = [] then pure (.missing f name)
              else pure (.fails e)

/-- `walk_path`. -/
def walkPath (path : List U8) : FsProg Walked :=
  walkFrom none rootVa path.length (skipSlash path)

/-! ## Files -/

/-- The loop of `file_flush`, from block `i` on. -/
def flushFrom (f i : Nat) : Nat → FsProg Unit
  | 0 => pure ()
  | n + 1 => do
      let r ← fileBlockWalk f i false
      match r with
      | .error _ => flushFrom f (i + 1) n
      | .ok pdiskbno => do
          let w ← loadWord pdiskbno
          if w = 0#32 then flushFrom f (i + 1) n
          else do
            let va ← diskaddr w.toNat
            flushBlock va
            flushFrom f (i + 1) n

/-- `file_flush`. -/
def fileFlush (f : Nat) : FsProg Unit := do
  let size ← loadWord (fSizeVa f)
  flushFrom f 0 (blocksFor size).toInt.toNat
  flushBlock f
  let indirect ← loadWord (fIndirectVa f)
  Prog.when (indirect ≠ 0#32) do
    let va ← diskaddr indirect.toNat
    flushBlock va

/-- `file_create`. -/
def fileCreate (path : List U8) : FsProg (FsResult Nat) := do
  let r ← walkPath path
  match r with
  | .found _ _ => pure (.error .fileExists)
  | .fails e => pure (.error e)
  | .missing dir name => do
      let r ← dirAllocFile dir
      match r with
      | .error e => pure (.error e)
      | .ok f => do
          strCpy f name
          fileFlush dir
          pure (.ok f)

/-- `file_open`. -/
def fileOpen (path : List U8) : FsProg (FsResult Nat) := do
  let r ← walkPath path
  match r with
  | .found _ f => pure (.ok f)
  | .missing _ _ => pure (.error .notFound)
  | .fails e => pure (.error e)

/-- The number of bytes that `file_read` and `file_write` copy in one turn, at `pos`
of a range that ends at `last`. -/
@[irreducible] def chunk (pos last : U32) : U32 :=
  let room := 4096#32 - pos.srem 4096#32
  if room ≤ last - pos then room else last - pos

/-- The place of `pos` in a block that is at `blk`; the remainder may be negative. -/
def inBlock (blk : Nat) (pos : U32) : Nat := (blk + (pos.srem 4096#32).toInt).toNat

/-- The loops of `file_read` and `file_write`, which copy between a buffer and the
blocks of a file; every turn copies at least one byte. -/
def copyFrom (f : Nat) (write : Bool) (last : U32) (buf : Nat) (pos : U32) :
    Nat → FsProg (FsResult Unit)
  | 0 => pure (.ok ())
  | n + 1 =>
      if pos < last then do
        let r ← fileGetBlock f (pos.sdiv 4096#32).toNat
        match r with
        | .error e => pure (.error e)
        | .ok blk => do
            let bn := chunk pos last
            let va := inBlock blk pos
            let dst := if write then va else buf
            let src := if write then buf else va
            note (.copied f dst src bn.toNat)
            memmove dst src bn.toNat
            copyFrom f write last (buf + bn.toNat) (pos + bn) n
      else pure (.ok ())

/-- `file_read`. -/
def fileRead (f buf : Nat) (count offset : U32) : FsProg U32 := do
  let size ← loadWord (fSizeVa f)
  if size.sle offset then pure 0#32
  else do
    let left := size - offset
    let count := if count ≤ left then count else left
    let r ← copyFrom f false (offset + count) buf offset count.toNat
    match r with
    | .error e => pure e.code
    | .ok () => pure count

/-- `file_free_block`. -/
def fileFreeBlock (f filebno : Nat) : FsProg (FsResult Unit) := do
  let r ← fileBlockWalk f filebno false
  match r with
  | .error e => pure (.error e)
  | .ok ptr => do
      let w ← loadWord ptr
      Prog.when (w ≠ 0#32) do
        freeBlock w.toNat
        note (.cleared f ptr)
        storeWord ptr 0#32
      pure (.ok ())

/-- The loop of `file_truncate_blocks`; its warnings are left out. -/
def freeFrom (f i : Nat) : Nat → FsProg Unit
  | 0 => pure ()
  | n + 1 => do
      let _ ← fileFreeBlock f i
      freeFrom f (i + 1) n

/-- `file_truncate_blocks`. -/
def fileTruncateBlocks (f : Nat) (newsize : U32) : FsProg Unit := do
  let size ← loadWord (fSizeVa f)
  let oldNblocks := (blocksFor size).toNat
  let newNblocks := (blocksFor newsize).toNat
  freeFrom f newNblocks (oldNblocks - newNblocks)
  let indirect ← loadWord (fIndirectVa f)
  Prog.when (newNblocks ≤ ndirect ∧ indirect ≠ 0#32) do
    freeBlock indirect.toNat
    note (.cleared f (fIndirectVa f))
    storeWord (fIndirectVa f) 0#32

/-- `file_set_size`. -/
def fileSetSize (f : Nat) (newsize : U32) : FsProg Unit := do
  let size ← loadWord (fSizeVa f)
  Prog.when (newsize.slt size) (fileTruncateBlocks f newsize)
  note (.resized f newsize)
  storeWord (fSizeVa f) newsize
  flushBlock f

/-- `file_write`. -/
def fileWrite (f buf : Nat) (count offset : U32) : FsProg U32 := do
  let size ← loadWord (fSizeVa f)
  Prog.when (size < offset + count) (fileSetSize f (offset + count))
  let r ← copyFrom f true (offset + count) buf offset count.toNat
  match r with
  | .error e => pure e.code
  | .ok () => pure count

/-- The loop of `fs_sync`. -/
def syncFrom (b : Nat) : Nat → FsProg Unit
  | 0 => pure ()
  | n + 1 => do
      let va ← diskaddr b
      flushBlock va
      syncFrom (b + 1) n

/-- `fs_sync`. -/
def fsSync : FsProg Unit := do
  let nblocks ← loadWord snblocksVa
  syncFrom 1 (nblocks.toNat - 1)

end Fs

end Jos
