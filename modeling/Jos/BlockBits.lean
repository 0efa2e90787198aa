import Jos.FileTree

/-!
# The bits of the block bitmap

`alloc_block` clears a bit of the bitmap and `free_block` sets one: `takeBit` and
`freeBit` are the memory after that, and nothing outside the bitmap has changed
(`BitsOnly`).
-/

namespace Jos

open Bytes

theorem bitmapVa_eq {b : Nat} : bitmapVa b = blkVa 2 + 4 * (b / 32) := rfl

/-- The memory after block `b` was taken. -/
def takeBit (v : Bytes.Memory) (b : Nat) : Bytes.Memory :=
  setWord v (bitmapVa b) (word v (bitmapVa b) &&& ~~~(1#32 <<< (b % 32)))

/-- The memory after block `b` was given back. -/
def freeBit (v : Bytes.Memory) (b : Nat) : Bytes.Memory :=
  setWord v (bitmapVa b) (word v (bitmapVa b) ||| 1#32 <<< (b % 32))

/-- Two memories that differ in the bitmap only. -/
def BitsOnly (v v' : Bytes.Memory) : Prop :=
  ∀ x, x < blkVa 2 ∨ blkVa (firstBlock v) ≤ x → v' x = v x

/-- Clearing one bit of the bitmap. -/
theorem bit_clear {v : Bytes.Memory} {i b : Nat} :
    (word (setWord v (bitmapVa i) (word v (bitmapVa i) &&& ~~~(1#32 <<< (i % 32))))
      (bitmapVa b)).getLsbD (b % 32) =
    ((word v (bitmapVa b)).getLsbD (b % 32) && decide (b ≠ i)) := by
  by_cases hword : b / 32 = i / 32
  · have hva : bitmapVa b = bitmapVa i := by
      rw [bitmapVa_eq, bitmapVa_eq, hword]
    rw [hva, word_setWord_self, BitVec.getLsbD_and, BitVec.getLsbD_not, BitVec.getLsbD_shiftLeft,
      BitVec.getLsbD_one]
    have hlt : b % 32 < 32 := Nat.mod_lt _ (by decide)
    by_cases hbi : b = i
    · simp [hbi]
    · have hne : ¬ (i % 32 ≤ b % 32 ∧ b % 32 - i % 32 = 0) := by omega
      have hbit : (decide (b % 32 < i % 32) || !decide (b % 32 - i % 32 = 0)) = true := by
        by_cases hle : i % 32 ≤ b % 32
        · simp [show ¬ b % 32 - i % 32 = 0 from fun h => hne ⟨hle, h⟩]
        · simp [Nat.lt_of_not_le hle]
      simp [hbi, hlt, hbit]
  · rw [word_setWord_of_apart (by rw [bitmapVa_eq, bitmapVa_eq]; omega)]
    have hne : b ≠ i := fun h => hword (by rw [h])
    simp [hne]

/-- Setting one bit of the bitmap. -/
theorem bit_set {v : Bytes.Memory} {i b : Nat} :
    (word (setWord v (bitmapVa i) (word v (bitmapVa i) ||| 1#32 <<< (i % 32)))
      (bitmapVa b)).getLsbD (b % 32) =
    ((word v (bitmapVa b)).getLsbD (b % 32) || decide (b = i)) := by
  by_cases hword : b / 32 = i / 32
  · have hva : bitmapVa b = bitmapVa i := by
      rw [bitmapVa_eq, bitmapVa_eq, hword]
    rw [hva, word_setWord_self, BitVec.getLsbD_or, BitVec.getLsbD_shiftLeft, BitVec.getLsbD_one]
    have hlt : b % 32 < 32 := Nat.mod_lt _ (by decide)
    by_cases hbi : b = i
    · subst hbi
      simp [hlt]
    · have hbit : (!decide (b % 32 < i % 32) && decide (b % 32 - i % 32 = 0)) = false := by
        by_cases hle : b % 32 < i % 32
        · simp [hle]
        · simp [show ¬ b % 32 - i % 32 = 0 by omega]
      rw [show decide (0 < 32) = true from rfl, Bool.true_and, Bool.and_assoc, hbit,
        decide_eq_false hbi, Bool.and_false]
  · rw [word_setWord_of_apart (by rw [bitmapVa_eq, bitmapVa_eq]; omega)]
    have hne : b ≠ i := fun h => hword (by rw [h])
    simp [hne]

section Bits

variable {v v' : Bytes.Memory} {b c : Nat}

theorem snblocksVa_lt : snblocksVa + 4 ≤ blkVa 2 := by decide

/-- The word of a block of the disk is in the bitmap. -/
theorem bitmapVa_range (hb : b < diskBlocks v) :
    blkVa 2 ≤ bitmapVa b ∧ bitmapVa b + 4 ≤ blkVa (firstBlock v) := by
  rw [bitmapVa_eq]
  unfold firstBlock blkVa blksize
  omega

theorem takeBit_bitsOnly (hb : b < diskBlocks v) : BitsOnly v (takeBit v b) := by
  intro x hx
  have hrange := bitmapVa_range hb
  exact setWord_of_apart (by omega)

theorem freeBit_bitsOnly (hb : b < diskBlocks v) : BitsOnly v (freeBit v b) := by
  intro x hx
  have hrange := bitmapVa_range hb
  exact setWord_of_apart (by omega)

theorem BitsOnly.diskBlocks (h : BitsOnly v v') : Jos.diskBlocks v' = Jos.diskBlocks v := by
  unfold Jos.diskBlocks
  refine congrArg BitVec.toNat (word_congr (fun x hle hlt => h x (Or.inl ?_)))
  exact Nat.lt_of_lt_of_le hlt snblocksVa_lt

theorem BitsOnly.firstBlock (h : BitsOnly v v') : Jos.firstBlock v' = Jos.firstBlock v := by
  unfold Jos.firstBlock
  rw [h.diskBlocks]

theorem free_iff : Free v b ↔
    b < diskBlocks v ∧ (word v (bitmapVa b)).getLsbD (b % 32) = true := Iff.rfl

theorem free_takeBit (hb : b < diskBlocks v) : Free (takeBit v b) c ↔ Free v c ∧ c ≠ b := by
  rw [free_iff, free_iff, (takeBit_bitsOnly hb).diskBlocks]
  unfold takeBit
  rw [bit_clear, Bool.and_eq_true, decide_eq_true_iff, and_assoc]

theorem free_freeBit (hb : b < diskBlocks v) : Free (freeBit v b) c ↔ Free v c ∨ c = b := by
  rw [free_iff, free_iff, (freeBit_bitsOnly hb).diskBlocks]
  unfold freeBit
  rw [bit_set, Bool.or_eq_true, decide_eq_true_iff]
  constructor
  · rintro ⟨hlt, hbit | rfl⟩
    · exact Or.inl ⟨hlt, hbit⟩
    · exact Or.inr rfl
  · rintro (⟨hlt, hbit⟩ | rfl)
    · exact ⟨hlt, Or.inl hbit⟩
    · exact ⟨hb, Or.inr rfl⟩

/-- The bits are read from the bitmap. -/
theorem free_congr (hblocks : diskBlocks v' = diskBlocks v)
    (h : ∀ x, blkVa 2 ≤ x → x < blkVa (firstBlock v) → v' x = v x) : Free v' b ↔ Free v b := by
  rw [free_iff, free_iff, hblocks]
  refine and_congr_right (fun hb => ?_)
  have hrange := bitmapVa_range hb
  have hword : word v' (bitmapVa b) = word v (bitmapVa b) :=
    word_congr (fun x hle hlt => h x (by omega) (by omega))
  rw [hword]

end Bits

end Jos
