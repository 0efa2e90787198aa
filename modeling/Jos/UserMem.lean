import Jos.AddressSpace
import Jos.Lib.Bytes
import Jos.Pmap

/-!
# Memory seen through page tables

The bytes of physical memory, the translation of a virtual address by the
processor, and the loads and stores the kernel does through addresses that
come from the user.

The kernel runs with write protection on (`CR0_WP`), so a store needs a
writable translation, and faults otherwise; a fault in the kernel is a panic.
Every byte the kernel loads or stores through a user address is recorded in
the trace of the machine.
-/

namespace Jos

open Programs

/-! ## Bytes of physical memory -/

namespace PhysMem

/-- Byte `o` of page `p`. -/
def byte (m : PhysMem) (p o : Nat) : U8 :=
  (m.mem p (o / 4) >>> (8 * (o % 4))).setWidth 8

def setByte (m : PhysMem) (p o : Nat) (b : U8) : PhysMem :=
  m.setWord p (o / 4)
    ((m.mem p (o / 4) &&& ~~~(0xFF#32 <<< (8 * (o % 4)))) |||
      (b.setWidth 32 <<< (8 * (o % 4))))

/-! ## Translation -/

/-- Both levels of the translation of `va` have the flag `f`. -/
def xlateHas (m : PhysMem) (dir : Nat) (va w f : U32) : Prop :=
  HasFlag (m.mem dir (pdx va)) f ∧ HasFlag w f

instance (m : PhysMem) (dir : Nat) (va w f : U32) :
    Decidable (m.xlateHas dir va w f) :=
  inferInstanceAs (Decidable (_ ∧ _))

/-- The page that an access of the kernel reaches. -/
def kernelPage (m : PhysMem) (dir : Nat) (va : U32) (write : Bool) :
    Option Nat :=
  match entryOf m.mem dir (pdx va) (ptx va) with
  | none => none
  | some w =>
      if write = true → m.xlateHas dir va w pteW then some (pgnum w) else none

/-- The page that an access of user code reaches. -/
def userPage (m : PhysMem) (dir : Nat) (va : U32) (write : Bool) :
    Option Nat :=
  match entryOf m.mem dir (pdx va) (ptx va) with
  | none => none
  | some w =>
      if m.xlateHas dir va w pteU ∧ (write = true → m.xlateHas dir va w pteW)
      then some (pgnum w) else none

end PhysMem

/-! ## Loads and stores of the kernel -/

/-- Load one byte. -/
def peekByte (c : Nat) (va : U32) : Prog Kernel U8 := do
  let k ← Prog.get
  match k.vm.kernelPage (k.vm.cr3 c) va false with
  | none => Prog.stop
  | some p => pure (k.vm.byte p (pgoff va))

/-- Store one byte. -/
def pokeByte (c : Nat) (va : U32) (b : U8) : Prog Kernel Unit := do
  let k ← Prog.get
  match k.vm.kernelPage (k.vm.cr3 c) va true with
  | none => Prog.stop
  | some p => Prog.modify (fun k => k.setVm (k.vm.setByte p (pgoff va) b))

/-- Load one byte from an address the user supplied. -/
def loadByte (c : Nat) (va : U32) : Prog Kernel U8 := do
  Prog.modify (fun k => k.log (.access va false))
  peekByte c va

/-- Store one byte to an address the user supplied. -/
def storeByte (c : Nat) (va : U32) (b : U8) : Prog Kernel Unit := do
  Prog.modify (fun k => k.log (.access va true))
  pokeByte c va b

/-- Load `n` bytes, lowest address first. -/
def loadBytes (c : Nat) (va : U32) : Nat → Prog Kernel (List U8)
  | 0 => pure []
  | n + 1 => do
      let b ← loadByte c va
      let bs ← loadBytes c (va + 1#32) n
      pure (b :: bs)

/-- Store bytes, lowest address first. -/
def storeBytes (c : Nat) (va : U32) : List U8 → Prog Kernel Unit
  | [] => pure ()
  | b :: bs => do
      storeByte c va b
      storeBytes c (va + 1#32) bs

/-- The bytes of a word, lowest first. -/
def bytesOfU32 (w : U32) : List U8 :=
  [w.setWidth 8, (w >>> 8).setWidth 8, (w >>> 16).setWidth 8,
    (w >>> 24).setWidth 8]

/-- The bytes of a half word, lowest first. -/
def bytesOfU16 (w : U16) : List U8 := [w.setWidth 8, (w >>> 8).setWidth 8]

/-- The word of up to four bytes, lowest first. -/
def u32OfBytes : List U8 → U32
  | [] => 0#32
  | b :: bs => b.setWidth 32 ||| (u32OfBytes bs <<< 8)

def loadU32 (c : Nat) (va : U32) : Prog Kernel U32 := do
  let bs ← loadBytes c va 4
  pure (u32OfBytes bs)

def storeU32 (c : Nat) (va w : U32) : Prog Kernel Unit :=
  storeBytes c va (bytesOfU32 w)

def storeU16 (c : Nat) (va : U32) (w : U16) : Prog Kernel Unit :=
  storeBytes c va (bytesOfU16 w)

/-! ## The bytes of words in memory -/

theorem bytesOfU32_getD {y : U32} {k : Nat} (hk : k < 4) :
    (bytesOfU32 y).getD k 0 = Bytes.byteOf y k := by
  have hdiv : ∀ j, BitVec.ofNat 8 (y.toNat / 256 ^ j) = (y >>> (8 * j)).setWidth 8 := by
    intro j
    apply BitVec.eq_of_toNat_eq
    rw [BitVec.toNat_setWidth, BitVec.toNat_ushiftRight, Nat.shiftRight_eq_div_pow,
      BitVec.toNat_ofNat, show 2 ^ (8 * j) = 256 ^ j by rw [Nat.pow_mul]]
  unfold Bytes.byteOf
  rw [hdiv]
  match k, hk with
  | 0, _ => simp [bytesOfU32]
  | 1, _ => rfl
  | 2, _ => rfl
  | 3, _ => rfl

theorem setBytes_word {v : Bytes.Memory} {a : Nat} {y : U32} :
    Bytes.setBytes v a (bytesOfU32 y) = Bytes.setWord v a y := by
  funext z
  unfold Bytes.setBytes Bytes.setWord
  change (if a ≤ z ∧ z < a + 4 then _ else _) = _
  by_cases hz : a ≤ z ∧ z < a + 4
  · rw [if_pos hz, if_pos hz, bytesOfU32_getD (by omega)]
  · rw [if_neg hz, if_neg hz]

/-- Words are stored by bytes. -/
theorem setWords_getD {v : Bytes.Memory} {a n : Nat} {ws : List U32} (hn : n < 4 * ws.length) :
    Bytes.setWords v a ws (a + n) = (ws.flatMap bytesOfU32).getD n 0 := by
  induction ws generalizing v a n with
  | nil => exact absurd hn (Nat.not_lt_zero n)
  | cons w ws ih =>
      have hlen : (bytesOfU32 w).length = 4 := rfl
      rw [Bytes.setWords, List.flatMap_cons]
      rcases Nat.lt_or_ge n 4 with hfirst | hrest
      · rw [Bytes.setWords_of_apart (by omega), List.getD_append _ _ _ _ (by omega),
          bytesOfU32_getD hfirst]
        unfold Bytes.setWord
        rw [if_pos (by omega), Nat.add_sub_cancel_left]
      · have haddr : a + n = a + 4 + (n - 4) := by omega
        rw [List.getD_append_right _ _ _ _ (by omega), hlen, haddr]
        exact ih (by rw [List.length_cons] at hn; omega)

end Jos
