import Jos.BlockGetting

/-!
# Setting the size of a file

`file_set_size` gives back the blocks beyond the new size and sets the size.  This is for
files that are no directories; `fileSetSize_returns` is the result.
-/

namespace Jos

open Programs Bytes Fs

/-- The edits of `file_truncate_blocks` to `n` blocks. -/
def TruncateEdit (f n : Nat) (e : FileEdit) : Prop :=
  (∃ j, n ≤ j ∧ e = .clear (slotOf f j)) ∨ (n ≤ ndirect ∧ e = .clear (.indirect f))

/-- The slots from `n` to `m` are empty, and so is the indirect block if no slot in it can
be in use. -/
structure Truncated (v : Bytes.Memory) (f n m : Nat) : Prop where
  slots : ∀ j b, n ≤ j → j < m → ¬ (slotOf f j).Has v b
  indirect : n ≤ ndirect → indirectOf v f = 0

/-- The edits of `file_set_size`. -/
def SetSizeEdit (f : Nat) (newsize : U32) (e : FileEdit) : Prop :=
  TruncateEdit f (blocksFor newsize).toNat e ∨ e = .resize f newsize

section Resizing

variable {s s' : Fs} {v v' : Bytes.Memory} {f i j n m b : Nat} {p : Slot}

/-- A slot that is not held is not used. -/
theorem not_exists_large (h : ndirect + nindirect ≤ i) : ¬ (slotOf f i).Has v b := by
  intro hhas
  have hexist := hhas.exist
  unfold slotOf at hexist
  split at hexist
  · omega
  · have hlt : i - ndirect < nindirect := hexist.2
    omega

theorem not_has_noIndirect (h : NoIndirect v f i) : ¬ (slotOf f i).Has v b := by
  intro hhas
  have hexist := hhas.exist
  unfold slotOf at hexist
  rw [if_neg (Nat.not_lt.mpr h.1)] at hexist
  exact hexist.1 h.2

/-- The block of a file that is no directory does not have the slot that it is in. -/
theorem Holds.data_apart (hp : Holds v p b) (howned : Owned v) (hfile : ¬ IsDir v p.file) :
    p.va v + 4 ≤ blkVa b ∨ blkVa b + 4096 ≤ p.va v := by
  have hlo := (howned.range p b hp).1
  have htwo := firstBlock_ge (v := v)
  have hlive : Live v p := ⟨hp.reach, hp.has.exist⟩
  rcases hlive.cases with ⟨f, k, hf, hk, hva, -⟩ | ⟨f, k, hk, hblock, hentry, hva⟩
  · rcases hf.shape with rfl | ⟨c, l, hc, hl, -, rfl⟩
    · unfold rootVa superVa at hva
      unfold blkVa diskmap blksize at *
      omega
    · have hne : c ≠ b := by
        rintro rfl
        obtain ⟨dir, i, htype, -, hholds⟩ := hc.holds
        refine hfile ?_
        rw [howned.inj _ _ c hp hholds, slotOf_file]
        exact htype
      unfold fileVa blkVa diskmap blksize blkfiles at *
      omega
  · have hne : b ≠ indirectOf v f := by
      rintro rfl
      have heq := howned.inj _ _ _ hp hblock
      rw [hentry] at heq
      cases heq
    unfold blkVa diskmap blksize at *
    omega

/-- Clearing slots brings no blocks. -/
theorem Edits.has_of_clear {P : FileEdit → Prop} (h : Edits P v v') (hv : DiskOk v)
    (hP : ∀ e, P e → ∃ q, e = .clear q) (hf : Reach v p.file) (hhas : p.Has v' b) : p.Has v b := by
  have hheld : Holds v' p b := ⟨h.reach hv hf, hhas⟩
  refine (h.holds_of hv hheld (fun g i _ hg => ?_) (fun g _ hg => ?_)).has
  · obtain ⟨q, hq⟩ := hP _ hg
    cases hq
  · obtain ⟨q, hq⟩ := hP _ hg
    cases hq

namespace Fs

/-- `file_block_walk` does not take a block when it must not. -/
theorem fileBlockWalk_missing (hs : Mount s) (hf : Reach s.view f)
    (hno : ¬ (slotOf f i).Exists s.view) :
    Returns (fileBlockWalk f i false) (fun r s' => Loads s s' ∧ ∃ e, r = .error e) s := by
  unfold fileBlockWalk
  refine wp_ite (fun _ => ⟨Loads.refl, _, rfl⟩) (fun hsmall => ?_)
  refine wp_ite (fun hdirect => ?_) (fun hlarge => ?_)
  · refine absurd ?_ hno
    unfold slotOf
    rw [if_pos hdirect]
    exact hdirect
  · refine returns_bind (loadWord_field hs.ready hs.owned (a := 176) hf (by decide) (by decide))
      (fun w s₁ h₁ => ?_)
    obtain ⟨hloads, rfl⟩ := h₁
    refine wp_ite (fun hne => absurd ?_ hno) (fun _ => ⟨hloads, _, rfl⟩)
    unfold slotOf
    rw [if_neg hlarge]
    refine ⟨fun hzero => hne ?_, by omega⟩
    exact BitVec.eq_of_toNat_eq hzero

/-- A block is given back and its slot is cleared. -/
theorem clearSlot_returns (hs : Mount s) (hp : Holds s.view p b)
    (hfile : ¬ IsDir s.view p.file) :
    Returns (do
      freeBlock b
      note (.cleared f (p.va s.view))
      storeWord (p.va s.view) 0#32)
      (fun _ s' => Mount s' ∧ Edit s.view (.clear p) s'.view ∧ ∀ c, ¬ p.Has s'.view c) s := by
  have hlive : Live s.view p := ⟨hp.reach, hp.has.exist⟩
  have hrange := hs.owned.range p b hp
  refine returns_bind (freeBlock_returns hs.ready hrange.2 hrange.1) (fun _ s₁ h₁ => ?_)
  obtain ⟨hs₁, hview⟩ := h₁
  refine wp_modify_bind.mpr ?_
  have hedit : Edit s.view (.clear p) (setWord (freeBit s.view b) (p.va s.view) 0#32) :=
    .clear hp hfile
  have hdisk := hedit.diskOk hs.disk
  have hloses := clear_loses hs.disk hp hfile
  -- the block that the slot is in is not the one that is given back
  have hfine : Fine s₁ (p.va s.view) := by
    have hfar := hp.data_apart hs.owned hfile
    refine Live.fine_of_bits hs₁ ?_ hs.disk hlive (fun c hle hlt hheld hc => ?_)
    · rw [hview]
      exact freeBit_bitsOnly hrange.2
    · rw [hview] at hc
      obtain ⟨q, hq⟩ := hheld
      rcases (free_freeBit hrange.2).mp hc with hc | rfl
      · exact hs.owned.used q c hq hc
      · omega
  refine Returns.mono (storeWord_returns hs₁.note hlive.aligned hfine) (fun _ s₂ h₂ => ?_)
  have hview₂ : s₂.view = setWord (freeBit s.view b) (p.va s.view) 0#32 := by
    rw [h₂.view, ← hview]
  have hs₂ : Ready s₂ := by
    refine hs₁.note.stores h₂ ?_
    rw [← h₂.view, hview₂]
    exact hdisk.checked
  rw [← hview₂] at hedit hdisk hloses
  refine ⟨Mount.of_ready hs₂ hdisk, hedit, fun c hc => ?_⟩
  exact ((hloses.has p c hp.reach).mp hc).2.1 rfl

theorem fileFreeBlock_returns (hs : Mount s) (hf : Reach s.view f) (hfile : ¬ IsDir s.view f) :
    Returns (fileFreeBlock f i) (fun _ s' => Mount s' ∧
      Edits (· = .clear (slotOf f i)) s.view s'.view ∧ ∀ b, ¬ (slotOf f i).Has s'.view b) s := by
  unfold fileFreeBlock
  by_cases hexist : (slotOf f i).Exists s.view
  · refine returns_bind (fileBlockWalk_returns hs.ready hs.owned hf hexist) (fun r s₁ h₁ => ?_)
    obtain ⟨hloads, rfl⟩ := h₁
    have hs₁ := hs.loads hloads
    rw [← hloads.view] at hf hfile hexist ⊢
    have hlive := hf.live hexist
    refine returns_bind (loadWord_returns hs₁.ready hlive.aligned (hlive.fine hs₁.ready hs₁.owned))
      (fun w s₂ h₂ => ?_)
    obtain ⟨hloads₂, rfl⟩ := h₂
    have hs₂ := hs₁.loads hloads₂
    rw [← hloads₂.view] at hf hfile hexist hlive ⊢
    by_cases hzero : word s₂.view ((slotOf f i).va s₂.view) = 0#32
    · refine (wp_bind _ _ _).mpr (wp_when (fun hne => absurd hzero hne) (fun _ => ?_))
      refine ⟨hs₂, .refl, fun b hb => not_has_of_zero ?_ hb⟩
      unfold Slot.val
      rw [hzero]
      rfl
    · have hhas : (slotOf f i).Has s₂.view ((slotOf f i).val s₂.view) :=
        ⟨hexist, rfl, fun h => hzero (BitVec.eq_of_toNat_eq h)⟩
      have hheld : Holds s₂.view (slotOf f i) ((slotOf f i).val s₂.view) := ⟨hlive.reach, hhas⟩
      have hfile' : ¬ IsDir s₂.view (slotOf f i).file := by
        rw [slotOf_file]
        exact hfile
      unfold Prog.when
      rw [if_pos hzero]
      refine returns_bind (clearSlot_returns hs₂ hheld hfile') (fun _ s₃ h₃ => ?_)
      obtain ⟨hs₃, hedit, hnone⟩ := h₃
      exact ⟨hs₃, .one rfl hedit, hnone⟩
  · refine returns_bind (fileBlockWalk_missing hs hf hexist) (fun r s₁ h₁ => ?_)
    obtain ⟨hloads, e, rfl⟩ := h₁
    rw [← hloads.view] at hexist ⊢
    exact ⟨hs.loads hloads, .refl, fun b hb => hexist hb.exist⟩

/-- The loop of `file_truncate_blocks`. -/
theorem freeFrom_returns (hs : Mount s) (hf : Reach s.view f) (hfile : ¬ IsDir s.view f) :
    Returns (freeFrom f i n) (fun _ s' => Mount s' ∧
      Edits (fun e => ∃ j, i ≤ j ∧ e = .clear (slotOf f j)) s.view s'.view ∧
      ∀ j b, i ≤ j → j < i + n → ¬ (slotOf f j).Has s'.view b) s := by
  induction n generalizing i s with
  | zero => exact ⟨hs, .refl, fun j b hle hlt => absurd hlt (Nat.not_lt.mpr hle)⟩
  | succ n ih =>
      unfold freeFrom
      refine returns_bind (fileFreeBlock_returns hs hf hfile) (fun _ s₁ h₁ => ?_)
      obtain ⟨hs₁, hedits, hnone⟩ := h₁
      have hf₁ := hedits.reach hs.disk hf
      have hfile₁ : ¬ IsDir s₁.view f := mt (hedits.isDir hs.disk hf).mp hfile
      refine Returns.mono (ih hs₁ hf₁ hfile₁) (fun _ s₂ h₂ => ?_)
      obtain ⟨hs₂, hedits₂, hnone₂⟩ := h₂
      refine ⟨hs₂, (hedits.mono (fun e he => ⟨i, Nat.le_refl i, he⟩)).trans (hedits₂.mono ?_), ?_⟩
      · rintro e ⟨j, hle, rfl⟩
        exact ⟨j, by omega, rfl⟩
      · intro j b hle hlt hhas
        by_cases hij : j = i
        · subst hij
          refine hnone b (hedits₂.has_of_clear hs₁.disk ?_ (by rw [slotOf_file]; exact hf₁) hhas)
          rintro e ⟨k, -, rfl⟩
          exact ⟨_, rfl⟩
        · exact hnone₂ j b (by omega) (by omega) hhas

theorem fileTruncateBlocks_returns {newsize : U32} (hs : Mount s) (hf : Reach s.view f)
    (hfile : ¬ IsDir s.view f) :
    Returns (fileTruncateBlocks f newsize) (fun _ s' => Mount s' ∧
      Edits (TruncateEdit f (blocksFor newsize).toNat) s.view s'.view ∧
      Truncated s'.view f (blocksFor newsize).toNat (blocksFor (fileSize s.view f)).toNat) s := by
  unfold fileTruncateBlocks
  refine returns_bind (loadWord_field hs.ready hs.owned (a := 128) hf (by decide) (by decide))
    (fun w s₁ h₁ => ?_)
  obtain ⟨hloads, rfl⟩ := h₁
  have hs₁ := hs.loads hloads
  rw [← hloads.view] at hf hfile ⊢
  change Returns (freeFrom f (blocksFor newsize).toNat ((blocksFor (fileSize s₁.view f)).toNat -
    (blocksFor newsize).toNat) >>= _) _ s₁
  generalize (blocksFor newsize).toNat = n
  generalize (blocksFor (fileSize s₁.view f)).toNat = m
  refine returns_bind (freeFrom_returns hs₁ hf hfile) (fun _ s₂ h₂ => ?_)
  obtain ⟨hs₂, hedits, hnone⟩ := h₂
  have hf₂ := hedits.reach hs₁.disk hf
  have hfile₂ : ¬ IsDir s₂.view f := mt (hedits.isDir hs₁.disk hf).mp hfile
  replace hedits : Edits (TruncateEdit f n) s₁.view s₂.view :=
    hedits.mono (fun e he => Or.inl he)
  refine returns_bind (loadWord_field hs₂.ready hs₂.owned (a := 176) hf₂ (by decide) (by decide))
    (fun w s₃ h₃ => ?_)
  obtain ⟨hloads₃, rfl⟩ := h₃
  have hs₃ := hs₂.loads hloads₃
  rw [← hloads₃.view] at hedits hnone hf₂ hfile₂ ⊢
  have hslots : ∀ j b, n ≤ j → j < m → ¬ (slotOf f j).Has s₃.view b := fun j b hle hlt =>
    hnone j b hle (by omega)
  have hval : (word s₃.view (f + 176)).toNat = indirectOf s₃.view f := rfl
  refine wp_when (fun hand => ?_) (fun hnot => ?_)
  · obtain ⟨hn, hne⟩ := hand
    have hhas : (Slot.indirect f).Has s₃.view (indirectOf s₃.view f) :=
      ⟨trivial, rfl, fun hzero => hne (BitVec.eq_of_toNat_eq (hval.trans hzero))⟩
    have hheld : Holds s₃.view (.indirect f) (indirectOf s₃.view f) := ⟨hf₂, hhas⟩
    have hclear := clearSlot_returns (f := f) hs₃ hheld hfile₂
    rw [hval]
    refine Returns.mono hclear (fun _ s₄ h₄ => ?_)
    obtain ⟨hs₄, hedit, hgone⟩ := h₄
    refine ⟨hs₄, .step hedits (Or.inr ⟨hn, rfl⟩) hedit, fun j b hle hlt hhas => ?_, fun _ => ?_⟩
    · have hone : Edits (· = .clear (.indirect f)) s₃.view s₄.view := .one rfl hedit
      exact hslots j b hle hlt (hone.has_of_clear hs₃.disk (fun e he => ⟨_, he⟩)
        (by rw [slotOf_file]; exact hf₂) hhas)
    · by_contra hzero
      exact hgone _ ⟨trivial, rfl, hzero⟩
  · refine ⟨hs₃, hedits, hslots, fun hn => ?_⟩
    by_contra hne
    refine hnot ⟨hn, fun hzero => hne ?_⟩
    rw [← hval, hzero]
    rfl

/-- `file_set_size`, of a file that is no directory. -/
theorem fileSetSize_returns {newsize : U32} (hs : Mount s) (hf : Reach s.view f)
    (hfile : ¬ IsDir s.view f) :
    Returns (fileSetSize f newsize) (fun _ s' => Mount s' ∧ fileSize s'.view f = newsize ∧
      (newsize.slt (fileSize s.view f) = true →
        Edits (SetSizeEdit f newsize) s.view s'.view ∧
        Truncated s'.view f (blocksFor newsize).toNat (blocksFor (fileSize s.view f)).toNat) ∧
      (newsize.slt (fileSize s.view f) = false →
        Edits (· = .resize f newsize) s.view s'.view)) s := by
  unfold fileSetSize
  refine returns_bind (loadWord_field hs.ready hs.owned (a := 128) hf (by decide) (by decide))
    (fun w s₁ h₁ => ?_)
  obtain ⟨hloads, rfl⟩ := h₁
  have hs₁ := hs.loads hloads
  rw [← hloads.view] at hf hfile ⊢
  change Returns (Prog.when (newsize.slt (fileSize s₁.view f) = true) _ >>= _) _ s₁
  have hcut : Returns (Prog.when (newsize.slt (fileSize s₁.view f) = true)
      (fileTruncateBlocks f newsize)) (fun _ s' => Mount s' ∧
        (newsize.slt (fileSize s₁.view f) = true →
          Edits (TruncateEdit f (blocksFor newsize).toNat) s₁.view s'.view ∧
          Truncated s'.view f (blocksFor newsize).toNat
            (blocksFor (fileSize s₁.view f)).toNat) ∧
        (newsize.slt (fileSize s₁.view f) = false → s'.view = s₁.view)) s₁ := by
    refine wp_when (fun hlt => ?_) (fun hge => ?_)
    · refine Returns.mono (fileTruncateBlocks_returns hs₁ hf hfile) (fun _ s₂ h₂ => ?_)
      exact ⟨h₂.1, fun _ => h₂.2, fun hge => absurd hlt (by simp [hge])⟩
    · exact ⟨hs₁, fun hlt => absurd hlt hge, fun _ => rfl⟩
  refine returns_bind hcut (fun _ s₂ h₂ => ?_)
  obtain ⟨hs₂, hcut, hsame⟩ := h₂
  obtain ⟨hf₂, hfile₂⟩ : Reach s₂.view f ∧ ¬ IsDir s₂.view f := by
    by_cases hlt : newsize.slt (fileSize s₁.view f) = true
    · obtain ⟨hedits, -⟩ := hcut hlt
      exact ⟨hedits.reach hs₁.disk hf, mt (hedits.isDir hs₁.disk hf).mp hfile⟩
    · rw [hsame (by simpa using hlt)]
      exact ⟨hf, hfile⟩
  refine wp_modify_bind.mpr ?_
  have hedit : Edit s₂.view (.resize f newsize) (setWord s₂.view (fSizeVa f) newsize) :=
    .resize hf₂ hfile₂
  have hdisk := hedit.diskOk hs₂.disk
  have hfine : Fine s₂ (fSizeVa f) :=
    Reach.fine hs₂.ready hs₂.owned hf₂ (Nat.le_add_right _ _) (by unfold fSizeVa; omega)
  have haligned : fSizeVa f % 4 = 0 := by
    have hfour := hf₂.aligned
    unfold fSizeVa
    omega
  refine returns_bind (storeWord_returns hs₂.ready.note haligned hfine) (fun _ s₃ h₃ => ?_)
  have hview : s₃.view = setWord s₂.view (fSizeVa f) newsize := h₃.view
  have hs₃ : Mount s₃ := Mount.of_ready (hs₂.ready.note.stores h₃ hdisk.checked) (hview ▸ hdisk)
  refine Returns.mono (flushBlock_returns ?_) (fun _ s₄ h₄ => ?_)
  · exact (Meta.record hf₂ (Nat.le_refl f) (by omega)).inDisk hs₂.disk.checked.blocks hs₂.owned
  rw [← h₄.view] at hview
  refine ⟨Mount.of_ready (hs₃.ready.flushed h₄) (h₄.view ▸ hs₃.disk), ?_, fun hlt => ?_,
    fun hge => ?_⟩
  · unfold fileSize
    rw [hview, word_setWord_self]
  · obtain ⟨hedits, htrunc⟩ := hcut hlt
    rw [hview]
    refine ⟨.step (hedits.mono (fun e he => Or.inl he)) (Or.inr rfl) hedit, ?_⟩
    have hsame : SameTree s₂.view (setWord s₂.view (fSizeVa f) newsize) :=
      sizeStore_setWord.sameTree hs₂.owned hf₂ hfile₂
    refine ⟨fun j b hle hlt' hhas => htrunc.slots j b hle hlt' ?_, fun hn => ?_⟩
    · exact (hsame.has _ b (by rw [slotOf_file]; exact hf₂)).mp hhas
    · by_contra hne
      have hhas := (hsame.has (.indirect f) _ hf₂).mp ⟨trivial, rfl, hne⟩
      exact hhas.ne (hhas.val.symm.trans (htrunc.indirect hn))
  · rw [hview, ← hsame hge]
    exact .one rfl hedit

end Fs

end Resizing

end Jos
