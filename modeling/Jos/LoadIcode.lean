import Jos.Sched
import Jos.UserMem

/-!
# `env_create`: the environments the kernel starts with

`region_alloc`, `load_icode` and `env_create` of `kern/env.c`, which run only
while the kernel starts up.  The binary is the ELF image linked into the
kernel, byte by byte; `load_icode` copies its segments through the page
directory of the new environment.
-/

namespace Jos

open Programs

/-- An ELF image in memory. -/
abbrev Binary := Nat → U8

namespace Binary

def u16 (b : Binary) (o : Nat) : Nat := (b o).toNat + 256 * (b (o + 1)).toNat

def u32 (b : Binary) (o : Nat) : U32 :=
  u32OfBytes [b o, b (o + 1), b (o + 2), b (o + 3)]

/-- `e_magic`. -/
def eMagic (b : Binary) : U32 := b.u32 0

/-- `e_entry`. -/
def eEntry (b : Binary) : U32 := b.u32 24

/-- `e_phnum`. -/
def ePhnum (b : Binary) : Nat := b.u16 44

/-- Where program header `i` is: the headers follow `e_phoff`. -/
def ph (b : Binary) (i : Nat) : Nat := (b.u32 28).toNat + 32 * i

/-- `p_type`. -/
def pType (b : Binary) (i : Nat) : U32 := b.u32 (b.ph i)

/-- `p_offset`. -/
def pOffset (b : Binary) (i : Nat) : U32 := b.u32 (b.ph i + 4)

/-- `p_va`. -/
def pVa (b : Binary) (i : Nat) : U32 := b.u32 (b.ph i + 8)

/-- `p_filesz`. -/
def pFilesz (b : Binary) (i : Nat) : U32 := b.u32 (b.ph i + 16)

/-- `p_memsz`. -/
def pMemsz (b : Binary) (i : Nat) : U32 := b.u32 (b.ph i + 20)

end Binary

/-- `ELF_MAGIC`. -/
def elfMagic : U32 := 0x464C457F#32

/-- `ELF_PROG_LOAD`. -/
def elfProgLoad : U32 := 1#32

/-- `region_alloc`. -/
@[irreducible] def regionAlloc (c e : Nat) (va len : U32) : Prog Kernel Unit := do
  let start := roundDown va pgsize
  let size := roundUp (va + len) pgsize - start
  let pgs := (size / pgsize).toNat + (if size % pgsize ≠ 0#32 then 1 else 0)
  Prog.forRange 0 pgs (fun i => do
    match ← onVm (pageAlloc false) with
    | none => Prog.stop
    | some pp => do
        let k ← Prog.get
        match (k.envs e).envPgdir with
        | none => Prog.stop
        | some pgdir => do
            let r ← onVm (pageInsert (k.thisCpu c) pgdir pp
              (start + BitVec.ofNat 32 i * pgsize) (pteW ||| pteU))
            if r < 0 then Prog.stop else pure ())

/-- One turn of the loop of `load_icode`. -/
def loadSegment (c e : Nat) (binary : Binary) (i : Nat) : Prog Kernel Unit :=
  Prog.when (binary.pType i = elfProgLoad) (do
    regionAlloc c e (binary.pVa i) (binary.pMemsz i)
    -- memset, then memcpy
    Prog.forRange 0 (binary.pMemsz i).toNat (fun j =>
      pokeByte c (binary.pVa i + BitVec.ofNat 32 j) 0#8)
    Prog.forRange 0 (binary.pFilesz i).toNat (fun j =>
      pokeByte c (binary.pVa i + BitVec.ofNat 32 j)
        (binary ((binary.pOffset i).toNat + j))))

/-- `load_icode`. -/
def loadIcode (c e : Nat) (binary : Binary) : Prog Kernel Unit := do
  if binary.eMagic ≠ elfMagic then
    Prog.stop
  else do
    let k ← Prog.get
    match (k.envs e).envPgdir with
    | none => Prog.stop
    | some pgdir => do
        onVm (lcr3 c pgdir)
        Prog.forRange 0 binary.ePhnum (loadSegment c e binary)
        onVm (lcr3 c k.vm.kernPgdir)
        Prog.modify (fun k => k.modifyEnv e (fun v =>
          { v with envTf := { v.envTf with tfEip := binary.eEntry } }))
        regionAlloc c e (ustacktop - pgsize) pgsize

/-- `env_create`. -/
def envCreate (c : Nat) (binary : Binary) (type : EnvType) :
    Prog Kernel Unit := do
  match ← envAlloc 0#32 with
  | .error _ => Prog.stop
  | .ok newenv => do
      loadIcode c newenv binary
      Prog.modify (fun k => k.modifyEnv newenv (fun v =>
        { v with envType := type }))
      Prog.when (type = .fs)
        (Prog.modify (fun k => k.modifyEnv newenv (fun v =>
          { v with
            envTf := { v.envTf with
              tfEflags := v.envTf.tfEflags ||| flIoplMask } })))

end Jos
