import Mathlib.Tactic.IntervalCases
import Mathlib.Tactic.Tauto

/-!
# Words, addresses and page-table entries

The constants and macros of `inc/types.h`, `inc/mmu.h`, `inc/memlayout.h` and
`inc/error.h`, on 32-bit words.  An index into a page directory or a page
table, a page number and an offset are natural numbers; an address and a
page-table entry stay words, since their arithmetic wraps and their low bits
are flags.

Beside each macro stands the lemma that says which number it computes; the
rest of the development uses these lemmas and not the bit operations.
-/

namespace Jos

/-- `uint32_t`, `uintptr_t`, `physaddr_t`, `pte_t`, `pde_t`. -/
abbrev U32 := BitVec 32

/-- `uint16_t`. -/
abbrev U16 := BitVec 16

/-- `uint8_t`. -/
abbrev U8 := BitVec 8

/-! ## `inc/mmu.h` -/

/-- `PGSIZE`. -/
def pgsize : U32 := 4096#32

/-- `NPDENTRIES`. -/
def npdentries : Nat := 1024

/-- `NPTENTRIES`. -/
def nptentries : Nat := 1024

/-- `PTSIZE`, bytes mapped by a page directory entry. -/
def ptsize : U32 := 4096#32 * 1024#32

/-- `PTE_P`, present. -/
def pteP : U32 := 0x001#32

/-- `PTE_W`, writeable. -/
def pteW : U32 := 0x002#32

/-- `PTE_U`, user. -/
def pteU : U32 := 0x004#32

/-- `PTE_AVAIL`, the bits left to software. -/
def pteAvail : U32 := 0xE00#32

/-- `PTE_SYSCALL`, the flags that system calls may use. -/
def pteSyscall : U32 := pteAvail ||| pteP ||| pteW ||| pteU

/-- `FL_IF`. -/
def flIf : U32 := 0x00000200#32

/-- `FL_IOPL_MASK`. -/
def flIoplMask : U32 := 0x00003000#32

/-- `PDX(la)`, page directory index. -/
def pdx (la : U32) : Nat := ((la >>> 22) &&& 0x3FF#32).toNat

/-- `PTX(la)`, page table index. -/
def ptx (la : U32) : Nat := ((la >>> 12) &&& 0x3FF#32).toNat

/-- `PGNUM(la)`, page number. -/
def pgnum (la : U32) : Nat := (la >>> 12).toNat

/-- `PGOFF(la)`, offset in page. -/
def pgoff (la : U32) : Nat := (la &&& 0xFFF#32).toNat

/-- `PGADDR(d, t, o)`, the linear address made of two indexes and an offset. -/
def pgaddr (d t o : Nat) : U32 :=
  (BitVec.ofNat 32 d <<< 22) ||| (BitVec.ofNat 32 t <<< 12) |||
    BitVec.ofNat 32 o

/-- `PTE_ADDR(pte)`, the address in an entry. -/
def pteAddr (pte : U32) : U32 := pte &&& ~~~0xFFF#32

/-- The flag `f` is set in the entry `w`. -/
abbrev HasFlag (w f : U32) : Prop := w &&& f ≠ 0#32

/-! ## `inc/types.h` -/

/-- `ROUNDDOWN(a, n)`. -/
def roundDown (a n : U32) : U32 := a - a % n

/-- `ROUNDUP(a, n)`. -/
def roundUp (a n : U32) : U32 := roundDown (a + n - 1#32) n

/-! ## `inc/memlayout.h` -/

/-- `GD_KT`, kernel text. -/
def gdKt : U16 := 0x08#16

/-- `GD_UT`, user text. -/
def gdUt : U16 := 0x18#16

/-- `GD_UD`, user data. -/
def gdUd : U16 := 0x20#16

/-- `KERNBASE`. -/
def kernbase : U32 := 0xF0000000#32

/-- `KSTACKTOP`. -/
def kstacktop : U32 := kernbase

/-- `MMIOLIM`. -/
def mmiolim : U32 := kstacktop - ptsize

/-- `MMIOBASE`. -/
def mmiobase : U32 := mmiolim - ptsize

/-- `ULIM`. -/
def ulim : U32 := mmiobase

/-- `UVPT`, the user's view of its page tables. -/
def uvpt : U32 := ulim - ptsize

/-- `UPAGES`. -/
def upages : U32 := uvpt - ptsize

/-- `UENVS`. -/
def uenvs : U32 := upages - ptsize

/-- `UTOP`. -/
def utop : U32 := uenvs

/-- `UXSTACKTOP`. -/
def uxstacktop : U32 := utop

/-- `USTACKTOP`. -/
def ustacktop : U32 := utop - 2#32 * pgsize

/-! ## `inc/error.h` -/

/-- `E_BAD_ENV`. -/
def eBadEnv : Int := 2

/-- `E_INVAL`. -/
def eInval : Int := 3

/-- `E_NO_MEM`. -/
def eNoMem : Int := 4

/-- `E_NO_FREE_ENV`. -/
def eNoFreeEnv : Int := 5

/-- `E_FAULT`. -/
def eFault : Int := 6

/-- `E_IPC_NOT_RECV`. -/
def eIpcNotRecv : Int := 7

/-! ## What the macros compute -/

theorem utop_toNat : utop.toNat = 0xEEC00000 := by decide

theorem ulim_toNat : ulim.toNat = 0xEF800000 := by decide

/-- The number of page directory entries below `UTOP`. -/
def userPdes : Nat := pdx utop

theorem userPdes_eq : userPdes = 955 := by decide

theorem pdx_eq (la : U32) : pdx la = la.toNat / 2 ^ 22 := by
  have hlt := la.isLt
  unfold pdx
  rw [BitVec.toNat_and, BitVec.toNat_ushiftRight, Nat.shiftRight_eq_div_pow,
    show (0x3FF#32).toNat = 2 ^ 10 - 1 by decide,
    Nat.and_two_pow_sub_one_eq_mod]
  omega

theorem ptx_eq (la : U32) : ptx la = la.toNat / 4096 % 1024 := by
  unfold ptx
  rw [BitVec.toNat_and, BitVec.toNat_ushiftRight, Nat.shiftRight_eq_div_pow,
    show (0x3FF#32).toNat = 2 ^ 10 - 1 by decide,
    Nat.and_two_pow_sub_one_eq_mod]

theorem pgnum_eq (la : U32) : pgnum la = la.toNat / 4096 := by
  unfold pgnum
  rw [BitVec.toNat_ushiftRight, Nat.shiftRight_eq_div_pow]

theorem pgoff_eq (la : U32) : pgoff la = la.toNat % 4096 := by
  unfold pgoff
  rw [BitVec.toNat_and, show (0xFFF#32).toNat = 2 ^ 12 - 1 by decide,
    Nat.and_two_pow_sub_one_eq_mod]

theorem pdx_lt (la : U32) : pdx la < 1024 := by
  have := la.isLt
  rw [pdx_eq]
  omega

theorem ptx_lt (la : U32) : ptx la < 1024 := by
  rw [ptx_eq]
  omega

/-- An address is below `UTOP` exactly if its directory index is. -/
theorem pdx_lt_userPdes (la : U32) : pdx la < userPdes ↔ la < utop := by
  rw [pdx_eq, userPdes_eq, BitVec.lt_def, utop_toNat]
  omega

theorem pgaddr_toNat {d t : Nat} (hd : d < 1024) (ht : t < 1024) :
    (pgaddr d t 0).toNat = d * 2 ^ 22 + t * 4096 := by
  have hd' : (BitVec.ofNat 32 d <<< 22).toNat = d <<< 22 := by
    rw [BitVec.toNat_shiftLeft, BitVec.toNat_ofNat, Nat.shiftLeft_eq,
      Nat.shiftLeft_eq]
    omega
  have ht' : (BitVec.ofNat 32 t <<< 12).toNat = t * 4096 := by
    rw [BitVec.toNat_shiftLeft, BitVec.toNat_ofNat, Nat.shiftLeft_eq]
    omega
  unfold pgaddr
  rw [BitVec.or_zero, BitVec.toNat_or, hd', ht',
    ← Nat.shiftLeft_add_eq_or_of_lt (by omega), Nat.shiftLeft_eq]

theorem pdx_pgaddr {d t : Nat} (hd : d < 1024) (ht : t < 1024) :
    pdx (pgaddr d t 0) = d := by
  rw [pdx_eq, pgaddr_toNat hd ht]
  omega

theorem ptx_pgaddr {d t : Nat} (hd : d < 1024) (ht : t < 1024) :
    ptx (pgaddr d t 0) = t := by
  rw [ptx_eq, pgaddr_toNat hd ht]
  omega

theorem roundDown_toNat (a : U32) :
    (roundDown a pgsize).toNat = a.toNat / 4096 * 4096 := by
  have hlt := a.isLt
  have hmod : (a % pgsize).toNat = a.toNat % 4096 := by
    rw [BitVec.toNat_umod]
    rfl
  have hle : a % pgsize ≤ a := by
    rw [BitVec.le_def, hmod]
    omega
  unfold roundDown
  rw [BitVec.toNat_sub_of_le hle, hmod]
  omega

/-- `ROUNDUP` rounds up as long as the sum with `PGSIZE - 1` does not wrap. -/
theorem roundUp_toNat {a : U32} (h : a.toNat + 4095 < 2 ^ 32) :
    (roundUp a pgsize).toNat = (a.toNat + 4095) / 4096 * 4096 := by
  have hsum : (a + pgsize - 1#32).toNat = a.toNat + 4095 := by
    unfold pgsize
    bv_omega
  unfold roundUp
  rw [roundDown_toNat, hsum]

/-- In the last page of the address space `ROUNDUP` wraps to zero. -/
theorem roundUp_wraps {a : U32} (h : 2 ^ 32 ≤ a.toNat + 4095) :
    roundUp a pgsize = 0#32 := by
  have hlt := a.isLt
  have hsum : (a + pgsize - 1#32).toNat = a.toNat + 4095 - 2 ^ 32 := by
    unfold pgsize
    bv_omega
  apply BitVec.eq_of_toNat_eq
  unfold roundUp
  rw [roundDown_toNat, hsum, BitVec.toNat_ofNat]
  omega

theorem roundDown_eq_self (a : U32) :
    roundDown a pgsize = a ↔ a.toNat % 4096 = 0 := by
  rw [← BitVec.toNat_inj, roundDown_toNat]
  omega

/-! ## Entries -/

theorem hasFlag_or (a b f : U32) :
    HasFlag (a ||| b) f ↔ HasFlag a f ∨ HasFlag b f := by
  unfold HasFlag
  rw [show (a ||| b) &&& f = (a &&& f) ||| (b &&& f) by
    ext i hi
    simp only [BitVec.getElem_and, BitVec.getElem_or]
    cases a[i] <;> cases b[i] <;> cases f[i] <;> rfl]
  rw [Ne, BitVec.or_eq_zero_iff]
  tauto

/-- Every entry built with `PTE_P` is present. -/
@[simp] theorem hasFlag_or_pteP (a : U32) : HasFlag (a ||| pteP) pteP := by
  rw [hasFlag_or]
  exact Or.inr (by decide)

@[simp] theorem not_hasFlag_zero (f : U32) : ¬ HasFlag 0#32 f := by
  simp [HasFlag]

theorem pteAddr_toNat (pte : U32) :
    (pteAddr pte).toNat = pte.toNat / 4096 * 4096 := by
  have h : pteAddr pte = (pte >>> 12) <<< 12 := by
    unfold pteAddr
    ext i hi
    interval_cases i <;> simp
  have hlt := pte.isLt
  rw [h, BitVec.toNat_shiftLeft, BitVec.toNat_ushiftRight,
    Nat.shiftRight_eq_div_pow, Nat.shiftLeft_eq]
  omega

@[simp] theorem pgnum_pteAddr (pte : U32) : pgnum (pteAddr pte) = pgnum pte := by
  rw [pgnum_eq, pgnum_eq, pteAddr_toNat]
  omega

/-- Flags below `PGSIZE` leave the page number of an address alone. -/
theorem pgnum_or_of_lt {pa perm : U32}
    (hpa : pa.toNat % 4096 = 0) (hperm : perm.toNat < 4096) :
    pgnum (pa ||| perm) = pgnum pa := by
  rw [pgnum_eq, pgnum_eq, BitVec.toNat_or]
  have h : pa.toNat = (pa.toNat / 4096) <<< 12 := by
    rw [Nat.shiftLeft_eq]
    omega
  rw [h, ← Nat.shiftLeft_add_eq_or_of_lt (by omega), Nat.shiftLeft_eq]
  omega

end Jos
