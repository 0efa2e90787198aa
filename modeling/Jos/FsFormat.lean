import Jos.FileTree

/-!
# `fs/fsformat.c`: the image of a disk

The program runs on the host.  Its memory is one memory of bytes: `mmap` puts the
image where the file server has its disk, so that a block has the same address for
both, and `malloc` puts the directory after it.  The program stops where the source
panics, and leaves where the source calls `usage`.

A file of the host is a path, that is, a string without a null byte, and what can be
read from it.
-/

namespace Jos

open Programs Bytes

/-- `MAXFILESIZE`. -/
def maxfilesize : Nat := (ndirect + nindirect) * blksize

/-- `MAX_DIR_ENTS`. -/
def maxDirEnts : Nat := 128

/-- `FTYPE_REG`. -/
def ftypeReg : U32 := 0#32

/-- Where `malloc` has room for `MAX_DIR_ENTS` files. -/
def entsVa : Nat := 0x20000000

/-- The part of a path after its last slash. -/
def lastName (path : List U8) : List U8 :=
  (path.reverse.takeWhile (· ≠ slash)).reverse

/-- A regular file of the host; a path that ends in a slash is none. -/
structure HostFile where
  path : List U8
  data : List U8
  nul : 0#8 ∉ path
  named : lastName path ≠ []

/-- The name that a file gets in the image. -/
def HostFile.name (g : HostFile) : List U8 := lastName g.path

/-- The memory and the globals of the program. -/
structure Host where
  mem : Bytes.Memory
  nblocks : U32
  diskpos : Nat
  super : Nat
  bitmap : Nat

/-- `struct Dir`. -/
structure HostDir where
  f : Nat
  ents : Nat
  n : Nat

abbrev HostProg : Type → Type := Prog Host

/-- `ROUNDUP(n, BLKSIZE)` of an unsigned `n`. -/
def roundup (n : U32) : U32 := n - 1#32 + 4096#32 - (n - 1#32) % 4096#32

/-- `ROUNDUP(n, BLKSIZE)` of an `int`: the remainder has the sign of `n - 1`. -/
def roundupInt (n : U32) : U32 := n - 1#32 + 4096#32 - (n - 1#32).srem 4096#32

/-- `n` bytes from `va` on are set to `c`. -/
def fill (v : Bytes.Memory) (va n : Nat) (c : U8) : Bytes.Memory := fun x =>
  if va ≤ x ∧ x < va + n then c else v x

namespace Format

/-- Change the memory. -/
def store (f : Bytes.Memory → Bytes.Memory) : HostProg Unit :=
  Prog.modify (fun h => { h with mem := f h.mem })

/-- `blockof`. -/
def blockof (pos : Nat) : U32 := BitVec.ofNat 32 ((pos - diskmap) / blksize)

/-- `alloc`. -/
def alloc (bytes : U32) : HostProg Nat := do
  let h ← Prog.get
  let start := h.diskpos
  Prog.modify (fun h => { h with diskpos := h.diskpos + (roundup bytes).toNat })
  let h ← Prog.get
  Prog.when (h.nblocks ≤ blockof h.diskpos) Prog.stop
  pure start

/-- `strcpy`. -/
def strcpy (va : Nat) (s : List U8) : HostProg Unit :=
  store (fun v => setBytes v va (s ++ [0#8]))

/-- `opendisk`: the file is truncated to nothing and then to its size, so that it has
zeros only. -/
def opendisk : HostProg Unit := do
  let h ← Prog.get
  store (fun v => fill v diskmap (h.nblocks.toNat * blksize) 0#8)
  Prog.modify (fun h => { h with diskpos := diskmap })
  let _ ← alloc 4096#32
  let super ← alloc 4096#32
  Prog.modify (fun h => { h with super := super })
  store (fun v => setWord v super fsMagic)
  store (fun v => setWord v (super + 4) h.nblocks)
  store (fun v => setWord v (fTypeVa (super + 8)) ftypeDir)
  strcpy (super + 8) [slash]
  let nbitblocks := (h.nblocks + 32768#32 - 1#32) / 32768#32
  let bitmap ← alloc (nbitblocks * 4096#32)
  Prog.modify (fun h => { h with bitmap := bitmap })
  store (fun v => fill v bitmap (nbitblocks * 4096#32).toNat 0xFF#8)

/-- `finishdisk`. -/
def finishdisk : HostProg Unit := do
  let h ← Prog.get
  Prog.forRange 0 (blockof h.diskpos).toNat (fun i => do
    let slot := h.bitmap + 4 * (i / 32)
    store (fun v => setWord v slot (word v slot &&& ~~~(1#32 <<< (i % 32)))))

/-- The loops of `finishfile`, which put block `start + i` into slot `i - first`. -/
def putBlocks (slots : Nat) (start : U32) (first n : Nat) : HostProg Unit :=
  Prog.forRange first n (fun i =>
    store (fun v => setWord v (slots + 4 * (i - first)) (start + BitVec.ofNat 32 i)))

/-- `finishfile`. -/
def finishfile (f : Nat) (start len : U32) : HostProg Unit := do
  store (fun v => setWord v (fSizeVa f) len)
  let n := (roundup len / 4096#32).toNat
  putBlocks (fDirectVa f 0) start 0 (min n ndirect)
  Prog.when (min n ndirect = ndirect) do
    let ind ← alloc 4096#32
    store (fun v => setWord v (fIndirectVa f) (blockof ind))
    putBlocks ind start ndirect (n - ndirect)

/-- `startdir`, with a `malloc` that gives zeros. -/
def startdir (f : Nat) : HostProg HostDir := do
  store (fun v => fill v entsVa (maxDirEnts * 256) 0#8)
  pure ⟨f, entsVa, 0⟩

/-- `diradd`. -/
def diradd (d : HostDir) (type : U32) (name : List U8) : HostProg (Nat × HostDir) := do
  let out := d.ents + 256 * d.n
  Prog.when (maxDirEnts < d.n + 1) Prog.stop
  strcpy out name
  store (fun v => setWord v (fTypeVa out) type)
  pure (out, { d with n := d.n + 1 })

/-- `finishdir`. -/
def finishdir (d : HostDir) : HostProg Unit := do
  let size := BitVec.ofNat 32 (d.n * 256)
  let start ← alloc size
  store (fun v => move v start d.ents size.toNat)
  finishfile d.f (blockof start) (roundupInt size)

/-- `writefile`. -/
def writefile (d : HostDir) (g : HostFile) : HostProg HostDir := do
  Prog.when (maxfilesize ≤ g.data.length) Prog.stop
  let (f, d) ← diradd d ftypeReg g.name
  let size := BitVec.ofNat 32 g.data.length
  let start ← alloc size
  store (fun v => setBytes v start g.data)
  finishfile f (blockof start) size
  pure d

/-- The loop of `main`. -/
def writefiles (d : HostDir) : List HostFile → HostProg HostDir
  | [] => pure d
  | g :: gs => do
      let d ← writefile d g
      writefiles d gs

/-- `main`, once the number of blocks is parsed. -/
def main (nblocks : U32) (files : List HostFile) : HostProg Unit := do
  Prog.when (nblocks < 2#32 ∨ 1024#32 < nblocks) Prog.exit
  Prog.modify (fun h => { h with nblocks := nblocks })
  opendisk
  let h ← Prog.get
  let root ← startdir (h.super + 8)
  let root ← writefiles root files
  finishdir root
  finishdisk

end Format

end Jos
