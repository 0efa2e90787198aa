import Jos.Lib.StringInsns
import Jos.Mmu

/-!
# The two versions of `memset` and `memmove`

`lib/string.c` has them in assembly, with string instructions for bytes or for words, and
in plain C.  Both fill, or copy, the same bytes.
-/

namespace Jos
namespace StringOps

open StringInsns

/-! ## Assembly -/

namespace Asm

/-- `memset`: the memory afterwards, and the result. -/
def memset (m : Machine) (v c n : U32) : Machine × U32 :=
  if n = 0#32 then (m, v)
  else if v.toInt.tmod 4 = 0 ∧ n.toNat % 4 = 0 then
    let c := c &&& 0xFF#32
    let c := c <<< 24 ||| c <<< 16 ||| c <<< 8 ||| c
    (rep (stos 4) (cld { m with edi := v, eax := c, ecx := n / 4#32 }), v)
  else (rep (stos 1) (cld { m with edi := v, eax := c, ecx := n }), v)

/-- All three are multiples of a word. -/
def Aligned (s d n : U32) : Prop :=
  s.toInt.tmod 4 = 0 ∧ d.toInt.tmod 4 = 0 ∧ n.toNat % 4 = 0

instance (s d n : U32) : Decidable (Aligned s d n) :=
  inferInstanceAs (Decidable (_ ∧ _ ∧ _))

def memmove (m : Machine) (dst src n : U32) : Machine × U32 :=
  if src < dst ∧ dst < src + n then
    let s := src + n
    let d := dst + n
    if Aligned s d n then
      (cld (rep (movs 4) (std { m with edi := d - 4#32, esi := s - 4#32, ecx := n / 4#32 })),
        dst)
    else (cld (rep (movs 1) (std { m with edi := d - 1#32, esi := s - 1#32, ecx := n })), dst)
  else if Aligned src dst n then
    (rep (movs 4) (cld { m with edi := dst, esi := src, ecx := n / 4#32 }), dst)
  else (rep (movs 1) (cld { m with edi := dst, esi := src, ecx := n }), dst)

end Asm

/-! ## Plain C -/

namespace C

/-- `while (--m >= 0) *p++ = c`. -/
def setLoop (c : U8) (m : Int) (p : U32) (mem : StringInsns.Memory) : StringInsns.Memory :=
  if 0 ≤ m - 1 then setLoop c (m - 1) (p + 1#32) (Function.update mem p c) else mem
termination_by m.toNat

def memset (mem : StringInsns.Memory) (v c n : U32) : StringInsns.Memory × U32 :=
  (setLoop (c.setWidth 8) n.toInt v mem, v)

/-- `while (n-- > 0) *--d = *--s`. -/
def downLoop : Nat → U32 → U32 → StringInsns.Memory → StringInsns.Memory
  | 0, _, _, mem => mem
  | n + 1, d, s, mem =>
      downLoop n (d - 1#32) (s - 1#32) (Function.update mem (d - 1#32) (mem (s - 1#32)))

/-- `while (n-- > 0) *d++ = *s++`. -/
def upLoop : Nat → U32 → U32 → StringInsns.Memory → StringInsns.Memory
  | 0, _, _, mem => mem
  | n + 1, d, s, mem => upLoop n (d + 1#32) (s + 1#32) (Function.update mem d (mem s))

def memmove (mem : StringInsns.Memory) (dst src n : U32) : StringInsns.Memory × U32 :=
  if src < dst ∧ dst < src + n then (downLoop n.toNat (dst + n) (src + n) mem, dst)
  else (upLoop n.toNat dst src mem, dst)

end C

/-! ## `memset` -/

theorem cSetLoop_filled (c : U8) (n : Nat) (hn : n ≤ 2 ^ 32) (p : U32)
    (mem : StringInsns.Memory) :
    C.setLoop c n p mem = filled mem p n c := by
  induction n generalizing p mem with
  | zero =>
      rw [C.setLoop, if_neg (by decide)]
      funext x
      exact (filled_of_le (Nat.zero_le _)).symm
  | succ n ih =>
      have hnext : ((n + 1 : Nat) : Int) - 1 = n := by omega
      rw [C.setLoop, if_pos (by omega), hnext, ih (by omega), ← filled_one, Nat.add_comm n 1]
      exact filled_append (by decide) (by omega)

/-- The word that `stosl` stores has the same byte four times. -/
theorem byteAt_fourfold (c : U32) {i : Nat} (hi : i < 4) :
    byteAt ((c &&& 0xFF#32) <<< 24 ||| (c &&& 0xFF#32) <<< 16 ||| (c &&& 0xFF#32) <<< 8
      ||| (c &&& 0xFF#32)) i = c.setWidth 8 := by
  apply BitVec.eq_of_getLsbD_eq
  intro j hj
  interval_cases i <;> interval_cases j <;> simp [byteAt]

/-- A number of words, in bytes. -/
theorem words_toNat {n : U32} (h : n.toNat % 4 = 0) : 4 * (n / 4#32).toNat = n.toNat := by
  have hfour : (4#32).toNat = 4 := rfl
  rw [BitVec.toNat_udiv, hfour]
  omega

theorem asmMemset_filled (m : Machine) (v c n : U32) :
    (Asm.memset m v c n).1.mem = filled m.mem v n.toNat (c.setWidth 8) := by
  have hlt := n.isLt
  unfold Asm.memset
  split_ifs with hzero hwords
  · subst hzero
    funext x
    exact (filled_of_le (Nat.zero_le _)).symm
  · exact rep_stos_up rfl (by decide) (words_toNat hwords.2) (by omega)
      (fun i hi => byteAt_fourfold c hi)
  · refine rep_stos_up rfl (by decide) (Nat.one_mul _) (by omega) (fun i hi => ?_)
    obtain rfl : i = 0 := by omega
    simp [byteAt, cld]

/-! ## `memmove` -/

theorem cUpLoop_moved (n : Nat) (hn : n ≤ 2 ^ 32) (d s : U32) (mem : StringInsns.Memory)
    (hsafe : d = s ∨ n ≤ (d - s).toNat) : C.upLoop n d s mem = moved mem d s n := by
  induction n generalizing d s mem with
  | zero =>
      funext x
      exact (moved_of_le (Nat.zero_le _)).symm
  | succ n ih =>
      have hsafe' : d + 1#32 = s + 1#32 ∨ n ≤ (d + 1#32 - (s + 1#32)).toNat := by
        refine hsafe.imp (fun heq => by rw [heq]) (fun hfar => ?_)
        simp only [BitVec.toNat_sub, BitVec.toNat_add, BitVec.toNat_ofNat] at hfar ⊢
        omega
      rw [C.upLoop, ih (by omega) _ _ _ hsafe', ← moved_one, Nat.add_comm n 1]
      exact moved_append (by decide) (by omega) (by rwa [Nat.add_comm 1 n])

theorem cDownLoop_moved (n : Nat) (hn : n ≤ 2 ^ 32) (d s : U32) (mem : StringInsns.Memory)
    (hsafe : d = s ∨ n ≤ (s - d).toNat) :
    C.downLoop n (d + BitVec.ofNat 32 n) (s + BitVec.ofNat 32 n) mem = moved mem d s n := by
  induction n generalizing mem with
  | zero =>
      funext x
      exact (moved_of_le (Nat.zero_le _)).symm
  | succ n ih =>
      have hback : ∀ a : U32, a + BitVec.ofNat 32 (n + 1) - 1#32 = a + BitVec.ofNat 32 n := by
        intro a
        rw [BitVec.ofNat_add, ← BitVec.add_assoc, BitVec.add_sub_cancel]
      rw [C.downLoop, hback, hback, ← moved_one,
        ih (by omega) _ (hsafe.imp_right (fun hfar => by omega))]
      exact moved_prepend hn (by omega) hsafe

/-- The ranges do not go round the end of the memory. -/
structure NoWrap (dst src n : U32) : Prop where
  dst : dst.toNat + n.toNat ≤ 2 ^ 32
  src : src.toNat + n.toNat ≤ 2 ^ 32

/-- Where the copy goes upwards, it goes away from its source. -/
theorem NoWrap.up {dst src n : U32} (h : NoWrap dst src n)
    (hup : ¬ (src < dst ∧ dst < src + n)) : dst = src ∨ n.toNat ≤ (dst - src).toNat := by
  have hd := h.dst
  have hs := h.src
  simp only [BitVec.lt_def, BitVec.toNat_add] at hup
  by_cases heq : dst.toNat = src.toNat
  · exact Or.inl (BitVec.eq_of_toNat_eq heq)
  · right
    simp only [BitVec.toNat_sub]
    omega

/-- Where it goes downwards, too. -/
theorem NoWrap.down {dst src n : U32} (h : NoWrap dst src n)
    (hdown : src < dst ∧ dst < src + n) : n.toNat ≤ (src - dst).toNat := by
  have hd := h.dst
  have hs := h.src
  simp only [BitVec.lt_def, BitVec.toNat_add] at hdown
  simp only [BitVec.toNat_sub]
  omega

theorem cMemmove_moved {mem : StringInsns.Memory} {dst src n : U32} (h : NoWrap dst src n) :
    (C.memmove mem dst src n).1 = moved mem dst src n.toNat := by
  have hlt := n.isLt
  have hself : BitVec.ofNat 32 n.toNat = n := by simp
  unfold C.memmove
  split_ifs with hdir
  · have hdown := cDownLoop_moved n.toNat (by omega) dst src mem (Or.inr (h.down hdir))
    rwa [hself] at hdown
  · exact cUpLoop_moved n.toNat (by omega) dst src mem (h.up hdir)

theorem asmMemmove_moved {m : Machine} {dst src n : U32} (h : NoWrap dst src n) :
    (Asm.memmove m dst src n).1.mem = moved m.mem dst src n.toNat := by
  have hlt := n.isLt
  have hself : BitVec.ofNat 32 n.toNat = n := by simp
  have htop : ∀ a w : U32, a + n - w + w = a + BitVec.ofNat 32 n.toNat := by
    intro a w
    rw [hself, BitVec.sub_add_cancel]
  unfold Asm.memmove
  dsimp only
  split_ifs with hdir hwords hwords
  · exact rep_movs_down rfl (by decide) (words_toNat hwords.2.2) (by omega) (htop dst 4#32)
      (htop src 4#32) (Or.inr (h.down hdir))
  · exact rep_movs_down rfl (by decide) (Nat.one_mul _) (by omega) (htop dst 1#32)
      (htop src 1#32) (Or.inr (h.down hdir))
  · exact rep_movs_up rfl (by decide) (words_toNat hwords.2.2) (by omega) (h.up hdir)
  · exact rep_movs_up rfl (by decide) (Nat.one_mul _) (by omega) (h.up hdir)

/-- The two versions agree: the memory and the result are the same, and every byte that
is copied is the one that was in the source before. -/
theorem asm_agrees (m : Machine) (n : U32) (hn : n.toNat < 2 ^ 31) :
    (∀ v c, v.toNat + n.toNat ≤ 2 ^ 32 →
      (Asm.memset m v c n).1.mem = (C.memset m.mem v c n).1 ∧
        (Asm.memset m v c n).2 = (C.memset m.mem v c n).2) ∧
    (∀ dst src, NoWrap dst src n →
      (Asm.memmove m dst src n).1.mem = (C.memmove m.mem dst src n).1 ∧
        (Asm.memmove m dst src n).2 = (C.memmove m.mem dst src n).2 ∧
        ∀ i, i < n.toNat → (Asm.memmove m dst src n).1.mem (dst + BitVec.ofNat 32 i)
          = m.mem (src + BitVec.ofNat 32 i)) := by
  have hint : n.toInt = n.toNat := by
    rw [BitVec.toInt_eq_toNat_cond, if_pos (by omega)]
  refine ⟨fun v c _ => ⟨?_, ?_⟩, fun dst src h => ⟨?_, ?_, fun i hi => ?_⟩⟩
  · rw [asmMemset_filled]
    unfold C.memset
    rw [hint]
    exact (cSetLoop_filled _ _ (by omega) _ _).symm
  · unfold Asm.memset C.memset
    split_ifs <;> rfl
  · rw [asmMemmove_moved h, cMemmove_moved h]
  · unfold Asm.memmove C.memmove
    dsimp only
    split_ifs <;> rfl
  · have hoff : dst + BitVec.ofNat 32 i - dst = BitVec.ofNat 32 i := by
      rw [BitVec.add_comm, BitVec.add_sub_cancel]
    have hplace : (BitVec.ofNat 32 i).toNat = i := by
      rw [BitVec.toNat_ofNat]
      omega
    rw [asmMemmove_moved h, moved_of_lt (by rw [hoff, hplace]; exact hi), hoff]

/-- A memory in which every byte is its address, and the direction flag set. -/
def counting : Machine :=
  { mem := fun x => x.setWidth 8, df := true, edi := 0, esi := 0, eax := 0, ecx := 0 }

/-- Three words that overlap their copy. -/
theorem asm_agrees_overlap :
    (Asm.memmove counting 0x1004#32 0x1000#32 12#32).1.mem
        = (C.memmove counting.mem 0x1004#32 0x1000#32 12#32).1 ∧
      (Asm.memmove counting 0x1004#32 0x1000#32 12#32).1.mem (0x1004#32 + BitVec.ofNat 32 9)
        = 9#8 := by
  obtain ⟨hmem, -, hbytes⟩ :=
    (asm_agrees counting 12#32 (by decide)).2 0x1004#32 0x1000#32 ⟨by decide, by decide⟩
  exact ⟨hmem, hbytes 9 (by decide)⟩

end StringOps
end Jos
