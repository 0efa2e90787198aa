import Jos.FileReads

/-!
# Reading the bytes of a file

`file_read` into a buffer outside the disk: `fileRead_returns` is for an offset that is
not negative, in a file that has its blocks.
-/

namespace Jos

open Programs Bytes Fs

/-- `f->f_size`. -/
def fileSize (v : Bytes.Memory) (f : Nat) : U32 := word v (fSizeVa f)

/-- The number of bytes below the size, which may be negative. -/
def fileLength (v : Bytes.Memory) (f : Nat) : Nat := (fileSize v f).toInt.toNat

/-- All blocks below the size are there. -/
def Whole (v : Bytes.Memory) (f : Nat) : Prop := HasBlocks v f ((fileLength v f + 4095) / 4096)

/-- The disk is the same. -/
def DiskEq (v v' : Bytes.Memory) : Prop := ∀ x, InDisk x → v' x = v x

section Disk

variable {v v' : Bytes.Memory} {f b x k : Nat} {p : Slot}

/-- A block of the disk is in the disk map. -/
theorem inDisk_block (hblocks : diskBlocks v ≤ disksize / blksize) (hb : b < diskBlocks v)
    (hle : blkVa b ≤ x) (hlt : x < blkVa b + 4096) : InDisk x := by
  unfold disksize blksize at hblocks
  unfold blkVa blksize at *
  unfold InDisk disksize
  omega

theorem Meta.inDisk (hblocks : diskBlocks v ≤ disksize / blksize) (howned : Owned v)
    (h : Meta v x) : InDisk x := by
  cases h with
  | @record f hf hle hlt =>
      rcases hf.shape with rfl | ⟨b, j, hb, hj, -, rfl⟩
      · unfold rootVa superVa blksize at *
        unfold InDisk disksize
        omega
      · unfold fileVa blkfiles at *
        exact inDisk_block hblocks (hb.range howned).2.2 (by omega) (by omega)
  | @indirect f b hb hle hlt => exact inDisk_block hblocks (howned.range _ _ hb).2 hle hlt
  | @dir b hb hle hlt => exact inDisk_block hblocks (hb.range howned).2.2 hle hlt

theorem DiskEq.meta (h : DiskEq v v') (hblocks : diskBlocks v ≤ disksize / blksize)
    (howned : Owned v) : ∀ x, Meta v x → v' x = v x := fun x hx =>
  h x (hx.inDisk hblocks howned)

theorem DiskEq.diskBlocks (h : DiskEq v v') : Jos.diskBlocks v' = Jos.diskBlocks v := by
  unfold Jos.diskBlocks
  refine congrArg BitVec.toNat (word_congr (fun x hle hlt => h x ?_))
  unfold snblocksVa superVa blksize at *
  unfold InDisk disksize
  omega

theorem DiskEq.firstBlock (h : DiskEq v v') : Jos.firstBlock v' = Jos.firstBlock v := by
  unfold Jos.firstBlock
  rw [h.diskBlocks]

theorem DiskEq.free (h : DiskEq v v') : Free v' b ↔ Free v b := by
  have hblocks := h.diskBlocks
  unfold Jos.diskBlocks at hblocks
  unfold Free
  rw [hblocks]
  refine and_congr_right (fun hb => ?_)
  have hlt := (word v snblocksVa).isLt
  have hword : word v' (bitmapVa b) = word v (bitmapVa b) := by
    refine word_congr (fun x hle hlt => h x ?_)
    unfold bitmapVa blksize diskmap at *
    unfold InDisk diskmap disksize
    omega
  rw [hword]

theorem DiskEq.checked (h : DiskEq v v') (hc : Checked v) : Checked v' where
  blocks := h.diskBlocks ▸ hc.blocks
  reserved := fun b hb hfree => by
    rw [h.firstBlock] at hb
    exact hc.reserved b hb (h.free.mp hfree)

theorem DiskEq.owned (h : DiskEq v v') (hc : Checked v) (howned : Owned v) : Owned v' :=
  frame_owned (h.meta hc.blocks howned) howned h.firstBlock h.diskBlocks
    (fun _ _ _ hfree => h.free.mp hfree)

/-- The bytes of a file that has the block stay. -/
theorem DiskEq.fileByte (h : DiskEq v v') (hc : Checked v) (howned : Owned v) (hf : Reach v f)
    (hhas : (slotOf f (k / 4096)).Has v b) : Jos.fileByte v' f k = Jos.fileByte v f k := by
  have hholds : Holds v (slotOf f (k / 4096)) b := ⟨by rw [slotOf_file]; exact hf, hhas⟩
  have hval := frame_val (h.meta hc.blocks howned) ⟨hholds.reach, hhas.exist⟩
  unfold Jos.fileByte
  rw [hval, hhas.val]
  exact h _ (inDisk_block hc.blocks (howned.range _ _ hholds).2 (Nat.le_add_right _ _) (by omega))

end Disk

/-! ## Positions that are not negative -/

section Positions

variable {pos last : U32} {blk : Nat}

theorem msb_false (h : pos.toNat < 2 ^ 31) : pos.msb = false := by
  rw [BitVec.msb_eq_false_iff_two_mul_lt]
  omega

theorem sdiv_nat (h : pos.toNat < 2 ^ 31) : (pos.sdiv 4096#32).toNat = pos.toNat / 4096 := by
  rw [BitVec.sdiv_eq, msb_false h]
  exact BitVec.toNat_udiv

theorem srem_nat (h : pos.toNat < 2 ^ 31) : (pos.srem 4096#32).toNat = pos.toNat % 4096 := by
  rw [BitVec.srem_eq, msb_false h]
  exact BitVec.toNat_umod

theorem chunk_nat (hlt : pos.toNat < last.toNat) (h : pos.toNat < 2 ^ 31) :
    (chunk pos last).toNat = min (4096 - pos.toNat % 4096) (last.toNat - pos.toNat) := by
  have hrem : (pos.srem 4096#32).toNat = pos.toNat % 4096 := srem_nat (by omega)
  have hroom : (4096#32 - pos.srem 4096#32).toNat = 4096 - pos.toNat % 4096 := by
    rw [BitVec.toNat_sub, hrem]
    simp only [BitVec.toNat_ofNat]
    omega
  have hleft : (last - pos).toNat = last.toNat - pos.toNat := by
    rw [BitVec.toNat_sub]
    omega
  unfold chunk
  dsimp only
  split
  · have hle : 4096 - pos.toNat % 4096 ≤ last.toNat - pos.toNat := by
      rw [← hroom, ← hleft]
      assumption
    rw [hroom, Nat.min_eq_left hle]
  · have hle : ¬ 4096 - pos.toNat % 4096 ≤ last.toNat - pos.toNat := by
      rw [← hroom, ← hleft]
      assumption
    rw [hleft, Nat.min_eq_right (by omega)]

theorem inBlock_nat (h : pos.toNat < 2 ^ 31) : inBlock blk pos = blk + pos.toNat % 4096 := by
  have hrem := srem_nat h
  have hint : (pos.srem 4096#32).toInt = ((pos.toNat % 4096 : Nat) : Int) := by
    rw [BitVec.toInt_eq_toNat_of_lt (by rw [hrem]; omega), hrem]
  unfold inBlock
  rw [hint]
  omega

end Positions

/-! ## Reading -/

section Reading

variable {s s' : Fs} {f buf n : Nat} {pos last : U32}

/-- The memory after `n` bytes of a file from `pos` on were copied to `buf`. -/
def readTo (v : Bytes.Memory) (f pos buf n : Nat) : Bytes.Memory := fun x =>
  if buf ≤ x ∧ x < buf + n then fileByte v f (pos + (x - buf)) else v x

theorem readTo_diskEq {v : Bytes.Memory} {f pos : Nat}
    (hbuf : ∀ x, buf ≤ x → x < buf + n → ¬ InDisk x) : DiskEq v (readTo v f pos buf n) := by
  intro x hx
  exact if_neg (fun hin => hbuf x hin.1 hin.2 hx)

/-- One turn of the loop copies a part of a block. -/
theorem readTo_move {v : Bytes.Memory} {f pos b : Nat} (hhas : (slotOf f (pos / 4096)).Has v b)
    (hn : pos % 4096 + n ≤ 4096) :
    move v buf (blkVa b + pos % 4096) n = readTo v f pos buf n := by
  funext x
  unfold move readTo
  split
  · have hdiv : (pos + (x - buf)) / 4096 = pos / 4096 := by omega
    unfold fileByte
    rw [hdiv, hhas.val]
    exact congrArg v (by omega)
  · rfl

/-- Two parts that follow each other. -/
theorem readTo_readTo {v : Bytes.Memory} {f pos m : Nat}
    (hbytes : ∀ k, k < m → fileByte (readTo v f pos buf n) f (pos + n + k) =
      fileByte v f (pos + n + k)) :
    readTo (readTo v f pos buf n) f (pos + n) (buf + n) m = readTo v f pos buf (n + m) := by
  funext x
  show (if buf + n ≤ x ∧ x < buf + n + m then _ else readTo v f pos buf n x) = _
  by_cases hin : buf + n ≤ x ∧ x < buf + n + m
  · rw [if_pos hin, hbytes _ (by omega)]
    unfold readTo
    rw [if_pos (by omega)]
    exact congrArg (fileByte v f) (by omega)
  · rw [if_neg hin]
    unfold readTo
    by_cases hfirst : buf ≤ x ∧ x < buf + n
    · rw [if_pos hfirst, if_pos (by omega)]
    · rw [if_neg hfirst, if_neg (by omega)]

theorem Ready.diskEq (hs : Ready s) (hmapped : ∀ b, s.mapped b = true → s'.mapped b = true)
    (hview : DiskEq s.view s'.view) : Ready s' where
  super := hmapped 1 hs.super
  bits := hmapped 2 hs.bits
  checked := hview.checked hs.checked

namespace Fs

/-- The loop of `file_read`. -/
theorem copyFrom_read (hs : Ready s) (howned : Owned s.view) (hf : Reach s.view f)
    (hpos : pos.toNat ≤ last.toNat) (hlast : last.toNat < 2 ^ 31)
    (hblocks : HasBlocks s.view f ((last.toNat + 4095) / 4096))
    (hfuel : last.toNat - pos.toNat ≤ n)
    (hbuf : ∀ x, buf ≤ x → x < buf + (last.toNat - pos.toNat) → ¬ InDisk x) :
    Returns (copyFrom f false last buf pos n) (fun r s' => r = .ok () ∧ Ready s' ∧
      s'.view = readTo s.view f pos.toNat buf (last.toNat - pos.toNat)) s := by
  induction n generalizing buf pos s with
  | zero =>
      have hdone : last.toNat - pos.toNat = 0 := by omega
      refine ⟨rfl, hs, ?_⟩
      rw [hdone]
      funext x
      exact (if_neg (by omega)).symm
  | succ n ih =>
      unfold copyFrom
      refine wp_ite (fun hlt => ?_) (fun hge => ?_)
      · replace hlt : pos.toNat < last.toNat := hlt
        obtain ⟨b, hhas⟩ := hblocks (pos.toNat / 4096) (by omega)
        rw [sdiv_nat (by omega)]
        refine returns_bind (fileGetBlock_has hs howned hf hhas) (fun r s₁ h => ?_)
        obtain ⟨hloads, rfl⟩ := h
        have hs₁ := hs.loads hloads
        have hholds : Holds s.view (slotOf f (pos.toNat / 4096)) b :=
          ⟨by rw [slotOf_file]; exact hf, hhas⟩
        rw [← hloads.view] at howned hf hblocks hhas hholds ⊢
        dsimp only
        rw [if_neg (by decide), if_neg (by decide), inBlock_nat (by omega)]
        have hchunk := chunk_nat hlt (by omega)
        generalize hm : (chunk pos last).toNat = m at hchunk
        have hsum : (pos + chunk pos last).toNat = pos.toNat + m := by
          rw [BitVec.toNat_add, hm]
          omega
        refine wp_modify_bind.mpr (returns_bind (memmove_returns ⟨hs₁.super, hs₁.bits, hs₁.checked⟩
          (fun x hle hlt' => hholds.fine howned (by omega) (by omega))
          (fun x hle hlt' hdisk => absurd hdisk (hbuf x hle (by omega)))) (fun _ s₂ h => ?_))
        have hview : s₂.view = readTo s₁.view f pos.toNat buf m :=
          h.view.trans (readTo_move hhas (by omega))
        have hdisk : DiskEq s₁.view s₂.view := by
          rw [hview]
          exact readTo_diskEq (fun x hle hlt' => hbuf x hle (by omega))
        have hs₂ : Ready s₂ := hs₁.diskEq h.mapped hdisk
        have hmeta := hdisk.meta hs₁.checked.blocks howned
        refine Returns.mono (ih hs₂ (hdisk.owned hs₁.checked howned) ((frame_reach hmeta).mpr hf)
          (by omega) (fun i hi => ?_) (by omega) (fun x hle hlt' => hbuf x (by omega) (by omega)))
          (fun r s₃ h => ⟨h.1, h.2.1, ?_⟩)
        · obtain ⟨c, hc⟩ := hblocks i hi
          exact ⟨c, (frame_has hmeta (by rw [slotOf_file]; exact hf)).mpr hc⟩
        · have hrest : last.toNat - (pos + chunk pos last).toNat =
              last.toNat - pos.toNat - m := by omega
          rw [h.2.2, hrest, hsum, hview]
          refine (readTo_readTo (fun k hk => ?_)).trans ?_
          · obtain ⟨c, hc⟩ := hblocks ((pos.toNat + m + k) / 4096) (by omega)
            rw [← hview]
            exact hdisk.fileByte hs₁.checked howned hf hc
          · exact congrArg (readTo s₁.view f pos.toNat buf) (by omega)
      · replace hge : ¬ pos.toNat < last.toNat := hge
        have hdone : last.toNat - pos.toNat = 0 := by omega
        refine ⟨rfl, hs, ?_⟩
        rw [hdone]
        funext x
        exact (if_neg (by omega)).symm

/-- `file_read` from an offset that is not negative. -/
theorem fileRead_returns {count offset : U32} (hs : Ready s) (howned : Owned s.view)
    (hf : Reach s.view f) (hwhole : Whole s.view f) (hoffset : offset.toNat < 2 ^ 31)
    (hbuf : ∀ x, buf ≤ x →
      x < buf + min count.toNat (fileLength s.view f - offset.toNat) → ¬ InDisk x) :
    Returns (fileRead f buf count offset) (fun r s' =>
      r.toNat = min count.toNat (fileLength s.view f - offset.toNat) ∧ Ready s' ∧
      s'.view = readTo s.view f offset.toNat buf r.toNat) s := by
  have hint : offset.toInt = offset.toNat := BitVec.toInt_eq_toNat_of_lt (by omega)
  have hsize := (fileSize s.view f).toInt_lt
  unfold fileRead
  refine returns_bind (loadWord_field hs howned (a := 128) hf (by decide) (by decide))
    (fun w s₁ h => ?_)
  obtain ⟨hloads, rfl⟩ := h
  have hs₁ := hs.loads hloads
  rw [← hloads.view] at howned hf hwhole hbuf hsize ⊢
  change Returns (if (fileSize s₁.view f).sle offset then _ else _) _ _
  refine wp_ite (fun hle => ?_) (fun hlt => ?_)
  · have hzero : fileLength s₁.view f - offset.toNat = 0 := by
      rw [BitVec.sle_iff_toInt_le, hint] at hle
      unfold fileLength
      omega
    refine ⟨by rw [hzero]; simp, hs₁, ?_⟩
    funext x
    exact (if_neg (fun hin => by simp at hin; omega)).symm
  · have hlt' : (offset.toNat : Int) < (fileSize s₁.view f).toInt := by
      rw [BitVec.sle_iff_toInt_le, hint] at hlt
      omega
    have hnat : (fileSize s₁.view f).toNat = fileLength s₁.view f := by
      unfold fileLength
      rw [BitVec.toInt_eq_toNat_cond] at hlt' ⊢
      split at hlt' <;> split <;> omega
    have hsmall : fileLength s₁.view f < 2 ^ 31 := by
      unfold fileLength
      omega
    have hleft : (fileSize s₁.view f - offset).toNat = fileLength s₁.view f - offset.toNat := by
      rw [BitVec.toNat_sub, hnat]
      unfold fileLength at *
      omega
    have hcount : (if count ≤ fileSize s₁.view f - offset then count
        else fileSize s₁.view f - offset).toNat =
        min count.toNat (fileLength s₁.view f - offset.toNat) := by
      split
      · have hle : count.toNat ≤ (fileSize s₁.view f - offset).toNat := ‹_›
        omega
      · have hle : ¬ count.toNat ≤ (fileSize s₁.view f - offset).toNat := ‹_›
        omega
    have hin : offset.toNat < fileLength s₁.view f := by
      unfold fileLength
      omega
    have hlast : ∀ c : U32, c.toNat = min count.toNat (fileLength s₁.view f - offset.toNat) →
        (offset + c).toNat = offset.toNat + c.toNat := by
      intro c hc
      rw [BitVec.toNat_add]
      omega
    dsimp only
    generalize hc : (if count ≤ fileSize s₁.view f - offset then count
      else fileSize s₁.view f - offset) = c at hcount
    change (if count ≤ word s₁.view (f + 128) - offset then count
      else word s₁.view (f + 128) - offset) = c at hc
    rw [hc]
    have hsum := hlast c hcount
    refine returns_bind (copyFrom_read hs₁ howned hf (by omega) (by omega) (fun i hi =>
      hwhole i (by omega)) (by omega) (fun x hle hlt'' => hbuf x hle (by omega))) (fun r s₂ h => ?_)
    obtain ⟨rfl, hs₂, hview⟩ := h
    refine ⟨hcount, hs₂, ?_⟩
    rw [hview]
    exact congrArg (readTo s₁.view f offset.toNat buf) (by omega)

end Fs

end Reading

end Jos
