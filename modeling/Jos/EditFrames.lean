import Jos.FileEdits

/-!
# What an edit leaves alone

The types and sizes of files, the blocks of slots, the bytes of files and the bitmap
stay as they are, unless an edit is about them.
-/

namespace Jos

open Bytes

section Frames

variable {v v' : Bytes.Memory} {e : FileEdit} {f g i b c k n lo x : Nat} {p q : Slot}

theorem Edit.isDir (he : Edit v e v') (h : DiskOk v) (hg : Reach v g) :
    IsDir v' g ↔ IsDir v g := by
  cases he with
  | buffer hdisk => exact frame_isDir (hdisk.meta h.checked.blocks h.owned) hg
  | take hf hexist hzero hb hw hdir =>
      exact (Edit.take_gains h hf hexist hzero hb hw hdir).2.fields.type g hg
  | takeIndirect hf hzero hb hw hblock =>
      exact (Edit.takeIndirect_gains h hf hzero hb hw hblock).2.fields.type g hg
  | data hp hfile hlo hrest =>
      exact frame_isDir (DataWrite.meta (fun x hx => hrest x (by omega)) h.owned hp hfile) hg
  | resize hf hfile => exact sizeStore_setWord.type h.owned hf hg
  | clear hp hfile => exact (clear_loses h hp hfile).fields.type g hg
  | grow hf _ _ _ => exact sizeStore_setWord.type h.owned hf hg
  | entry hb _ _ _ hrest _ => exact NameStore.type h.owned hb hrest hg

theorem Edit.fileSize (he : Edit v e v') (h : DiskOk v) (hg : Reach v g)
    (hresize : ∀ n, e ≠ .resize g n) (hgrow : e ≠ .grow g) :
    Jos.fileSize v' g = Jos.fileSize v g := by
  have hle : g ≤ fSizeVa g := Nat.le_add_right _ _
  have hlt : fSizeVa g + 4 ≤ g + 256 := by
    unfold fSizeVa
    omega
  cases he with
  | buffer hdisk => exact frame_word (hdisk.meta h.checked.blocks h.owned) hg hle hlt
  | take hf hexist hzero hb hw hdir =>
      exact (slotStore_bits (takeBit_bitsOnly hb.lt)).fileSize h.owned (hf.live hexist) hg
  | @takeIndirect f b w hf hzero hb hw hblock =>
      have hlive : Live v (.indirect f) := ⟨hf, trivial⟩
      have hstore : SlotStore v (setWord (takeBit v b) (fIndirectVa f) w) (.indirect f) w :=
        slotStore_bits (p := .indirect f) (takeBit_bitsOnly hb.lt)
      exact hstore.fileSize h.owned hlive hg
  | data hp hfile hlo hrest =>
      exact frame_word (DataWrite.meta (fun x hx => hrest x (by omega)) h.owned hp hfile) hg hle hlt
  | @resize f size hf hfile =>
      exact sizeStore_setWord.other h.owned hf hg (fun heq => hresize size (heq ▸ rfl))
  | clear hp hfile =>
      exact (slotStore_bits (freeBit_bitsOnly (h.owned.range _ _ hp).2)).fileSize h.owned
        ⟨hp.reach, hp.has.exist⟩ hg
  | grow hf _ _ _ => exact sizeStore_setWord.other h.owned hf hg (fun heq => hgrow (heq ▸ rfl))
  | entry hb _ _ _ hrest _ =>
      exact NameStore.field h.owned hb hrest hg (a := 128) (by decide) (by decide)

/-- A slot keeps its block unless it is cleared, or the indirect block that it is in is
given back. -/
theorem Edit.holds (he : Edit v e v') (h : DiskOk v) (hp : Holds v p b)
    (hclear : ∀ q, e = .clear q → p ≠ q ∧ ∀ f j, q = .indirect f → p ≠ .entry f j) :
    Holds v' p b := by
  cases he with
  | buffer hdisk => exact (frame_holds (hdisk.meta h.checked.blocks h.owned)).mpr hp
  | take hf hexist hzero hb hw hdir =>
      exact ((Edit.take_gains h hf hexist hzero hb hw hdir).2.holds
        (by rw [slotOf_file]; exact hf)).mpr (Or.inl hp)
  | takeIndirect hf hzero hb hw hblock =>
      exact ((Edit.takeIndirect_gains h hf hzero hb hw hblock).2.holds hf).mpr (Or.inl hp)
  | data hq hfile hlo hrest =>
      exact (frame_holds (DataWrite.meta (fun x hx => hrest x (by omega)) h.owned hq hfile)).mpr hp
  | resize hf hfile => exact (sizeStore_setWord.sameTree h.owned hf hfile).holds.mpr hp
  | clear hq hfile => exact (clear_loses h hq hfile).holds.mpr ⟨hp, hclear _ rfl⟩
  | grow hf htype hn hsize =>
      exact ((h.grow hf htype hn hsize sizeStore_setWord word_setWord_self).2.2 p b).mpr hp
  | entry hb hj hold hblank hrest hnew =>
      exact (NameStore.holds h.owned hb hj hrest hold hnew hblank).mpr hp

/-- A slot has a new block only because it was taken for it. -/
theorem Edit.holds_or (he : Edit v e v') (h : DiskOk v) (hp : Holds v' p b) :
    Holds v p b ∨ (∃ f i, p = slotOf f i ∧ e = .take f i b) ∨
      ∃ f, p = .indirect f ∧ e = .takeIndirect f b := by
  cases he with
  | buffer hdisk => exact Or.inl ((frame_holds (hdisk.meta h.checked.blocks h.owned)).mp hp)
  | take hf hexist hzero hb hw hdir =>
      rcases ((Edit.take_gains h hf hexist hzero hb hw hdir).2.holds
        (by rw [slotOf_file]; exact hf)).mp hp with hp | ⟨rfl, rfl⟩
      · exact Or.inl hp
      · exact Or.inr (Or.inl ⟨_, _, rfl, rfl⟩)
  | takeIndirect hf hzero hb hw hblock =>
      rcases ((Edit.takeIndirect_gains h hf hzero hb hw hblock).2.holds hf).mp hp with
        hp | ⟨rfl, rfl⟩
      · exact Or.inl hp
      · exact Or.inr (Or.inr ⟨_, rfl, rfl⟩)
  | data hq hfile hlo hrest =>
      exact Or.inl ((frame_holds
        (DataWrite.meta (fun x hx => hrest x (by omega)) h.owned hq hfile)).mp hp)
  | resize hf hfile => exact Or.inl ((sizeStore_setWord.sameTree h.owned hf hfile).holds.mp hp)
  | clear hq hfile => exact Or.inl ((clear_loses h hq hfile).holds.mp hp).1
  | grow hf htype hn hsize =>
      exact Or.inl (((h.grow hf htype hn hsize sizeStore_setWord word_setWord_self).2.2 p b).mp hp)
  | entry hb hj hold hblank hrest hnew =>
      exact Or.inl ((NameStore.holds h.owned hb hj hrest hold hnew hblank).mp hp)

/-- The words of slots are `Meta`. -/
theorem Live.meta (hp : Live v p) (hle : p.va v ≤ x) (hlt : x < p.va v + 4) : Meta v x := by
  rcases hp.cases with ⟨f, k, hf, hk, hva, -⟩ | ⟨f, j, hj, hblock, -, hva⟩
  · exact Meta.record hf (by omega) (by omega)
  · exact Meta.indirect hblock (by omega) (by omega)

/-- An edit that does not write data changes the bitmap and what is `Meta`. -/
theorem Edit.rest (he : Edit v e v') (h : DiskOk v) (hbuffer : e ≠ .buffer)
    (hdata : ∀ f k n, e ≠ .data f k n) (hmeta : ¬ Meta v x)
    (hbits : x < blkVa 2 ∨ blkVa (firstBlock v) ≤ x) : v' x = v x := by
  have hslot : ∀ p : Slot, Live v p → x < p.va v ∨ p.va v + 4 ≤ x := by
    intro p hp
    by_cases hle : p.va v ≤ x
    · exact Or.inr (Nat.le_of_not_lt (fun hlt => hmeta (hp.meta hle hlt)))
    · exact Or.inl (Nat.lt_of_not_le hle)
  have hfield : ∀ f, Reach v f → x < f ∨ f + 256 ≤ x := by
    intro f hf
    by_cases hle : f ≤ x
    · exact Or.inr (Nat.le_of_not_lt (fun hlt => hmeta (Meta.record hf hle hlt)))
    · exact Or.inl (Nat.lt_of_not_le hle)
  cases he with
  | buffer hdisk => exact absurd rfl hbuffer
  | take hf hexist hzero hb hw hdir =>
      exact (slotStore_bits (takeBit_bitsOnly hb.lt)).rest x (hslot _ (hf.live hexist)) hbits
  | @takeIndirect f b w hf hzero hb hw hblock =>
      have hlive : Live v (.indirect f) := ⟨hf, trivial⟩
      have hstore : SlotStore v (setWord (takeBit v b) (fIndirectVa f) w) (.indirect f) w :=
        slotStore_bits (p := .indirect f) (takeBit_bitsOnly hb.lt)
      exact hstore.rest x (hslot _ hlive) hbits
  | data hp hfile hlo hrest => exact absurd rfl (hdata _ _ _)
  | resize hf hfile =>
      have hfar := hfield _ hf
      exact sizeStore_setWord x (by omega)
  | clear hp hfile =>
      exact (slotStore_bits (freeBit_bitsOnly (h.owned.range _ _ hp).2)).rest x
        (hslot _ ⟨hp.reach, hp.has.exist⟩) hbits
  | grow hf _ _ _ =>
      have hfar := hfield _ hf
      exact sizeStore_setWord x (by omega)
  | @entry b j _ hb hj _ _ hrest _ =>
      refine hrest x ?_
      by_cases hle : blkVa b ≤ x
      · have hfar : ¬ x < blkVa b + 4096 := fun hlt => hmeta (Meta.dir hb hle hlt)
        unfold fileVa blkfiles at *
        omega
      · unfold fileVa
        omega

/-- The bytes of a file change only when they are written. -/
theorem Edit.byte (he : Edit v e v') (h : DiskOk v) (hp : Holds v (slotOf g i) b)
    (hfile : ¬ IsDir v g) (hlo : lo < 4096)
    (hdata : ∀ k n, e = .data g k n → 4096 * i + lo < k ∨ k + n ≤ 4096 * i + lo) :
    v' (blkVa b + lo) = v (blkVa b + lo) := by
  have hrange := h.owned.range _ b hp
  have hva := blkVa_not_bitmap hrange.1
  have hmeta := data_not_meta h.owned hp hfile (Nat.le_add_right _ lo) (by omega)
  cases he with
  | buffer hdisk =>
      exact hdisk _ (inDisk_block h.checked.blocks hrange.2 (Nat.le_add_right _ _) (by omega))
  | @data f i' b' lo' n' _ hq hfile' hn hrest =>
      refine hrest _ ?_
      by_cases hbb : b' = b
      · subst hbb
        obtain ⟨rfl, rfl⟩ := slotOf_inj (h.owned.inj _ _ _ hq hp)
        have hfar := hdata _ _ rfl
        omega
      · unfold blkVa blksize
        omega
  | take hf hexist hzero hb hw hdir =>
      exact (Edit.take hf hexist hzero hb hw hdir).rest h (by simp) (by simp) hmeta (by omega)
  | takeIndirect hf hzero hb hw hblock =>
      exact (Edit.takeIndirect hf hzero hb hw hblock).rest h (by simp) (by simp) hmeta (by omega)
  | resize hf hfile => exact (Edit.resize hf hfile).rest h (by simp) (by simp) hmeta (by omega)
  | clear hq hfile => exact (Edit.clear hq hfile).rest h (by simp) (by simp) hmeta (by omega)
  | grow hf htype hn hsize =>
      exact (Edit.grow hf htype hn hsize).rest h (by simp) (by simp) hmeta (by omega)
  | entry hb hj hold hblank hrest hnew =>
      exact (Edit.entry hb hj hold hblank hrest hnew).rest h (by simp) (by simp) hmeta (by omega)

/-- Memory outside the disk changes only where a buffer is. -/
theorem Edit.outside (he : Edit v e v') (h : DiskOk v) (hx : ¬ InDisk x) (hbuffer : e ≠ .buffer) :
    v' x = v x := by
  have hblocks := h.checked.blocks
  have hmeta : ¬ Meta v x := fun hm => hx (hm.inDisk hblocks h.owned)
  by_cases hdata : ∃ f k n, e = .data f k n
  · obtain ⟨f, k, n, rfl⟩ := hdata
    cases he with
    | @data f i b lo n _ hp hfile hn hrest =>
        refine hrest x ?_
        by_cases hle : blkVa b ≤ x
        · have hlt : ¬ x < blkVa b + 4096 := fun hlt =>
            hx (inDisk_block hblocks (h.owned.range _ b hp).2 hle hlt)
          omega
        · omega
  · refine he.rest h hbuffer (fun f k n heq => hdata ⟨f, k, n, heq⟩) hmeta ?_
    unfold InDisk at hx
    unfold firstBlock
    unfold disksize blksize at *
    unfold blkVa blksize
    omega

end Frames

/-! ## Sequences of edits -/

section Runs

variable {P : FileEdit → Prop} {v v' : Bytes.Memory} {g i b lo x : Nat} {p : Slot}

theorem Edits.diskOk (h : Edits P v v') (hv : DiskOk v) : DiskOk v' := by
  induction h with
  | refl => exact hv
  | step _ _ he ih => exact he.diskOk ih

theorem Edits.reach (h : Edits P v v') (hv : DiskOk v) (hg : Reach v g) : Reach v' g := by
  induction h with
  | refl => exact hg
  | step h _ he ih => exact (he.reach (h.diskOk hv)).mpr (Or.inl ih)

/-- Nothing gets a name. -/
theorem Edits.reach_iff (h : Edits P v v') (hv : DiskOk v) (hP : ∀ e g, P e → e ≠ .entry g) :
    Reach v' g ↔ Reach v g := by
  refine ⟨fun hg => ?_, h.reach hv⟩
  induction h with
  | refl => exact hg
  | step h he' he ih => exact ih (((he.reach (h.diskOk hv)).mp hg).resolve_right (hP _ _ he'))

theorem Edits.isDir (h : Edits P v v') (hv : DiskOk v) (hg : Reach v g) :
    IsDir v' g ↔ IsDir v g := by
  induction h with
  | refl => exact Iff.rfl
  | step h _ he ih => exact (he.isDir (h.diskOk hv) (h.reach hv hg)).trans ih

theorem Edits.fileSize (h : Edits P v v') (hv : DiskOk v) (hg : Reach v g)
    (hP : ∀ e, P e → (∀ n, e ≠ .resize g n) ∧ e ≠ .grow g) :
    Jos.fileSize v' g = Jos.fileSize v g := by
  induction h with
  | refl => rfl
  | step h he' he ih =>
      exact (he.fileSize (h.diskOk hv) (h.reach hv hg) (hP _ he').1 (hP _ he').2).trans ih

theorem Edits.holds (h : Edits P v v') (hv : DiskOk v) (hp : Holds v p b)
    (hP : ∀ e q, P e → e = .clear q → p ≠ q ∧ ∀ f j, q = .indirect f → p ≠ .entry f j) :
    Holds v' p b := by
  induction h with
  | refl => exact hp
  | step h he' he ih => exact he.holds (h.diskOk hv) ih (fun q heq => hP _ q he' heq)

/-- A slot gets a block only by an edit that takes it. -/
theorem Edits.holds_of (h : Edits P v v') (hv : DiskOk v) (hp : Holds v' p b)
    (htake : ∀ f i, p = slotOf f i → ¬ P (.take f i b))
    (hindirect : ∀ f, p = .indirect f → ¬ P (.takeIndirect f b)) : Holds v p b := by
  induction h with
  | refl => exact hp
  | step h he' he ih =>
      rcases he.holds_or (h.diskOk hv) hp with hold | ⟨f, i, hpi, rfl⟩ | ⟨f, hpi, rfl⟩
      · exact ih hold
      · exact absurd he' (htake f i hpi)
      · exact absurd he' (hindirect f hpi)

theorem Edits.byte (h : Edits P v v') (hv : DiskOk v) (hp : Holds v (slotOf g i) b)
    (hfile : ¬ IsDir v g) (hlo : lo < 4096)
    (hclear : ∀ e q, P e → e = .clear q → slotOf g i ≠ q ∧ q ≠ .indirect g)
    (hdata : ∀ e k n, P e → e = .data g k n → 4096 * i + lo < k ∨ k + n ≤ 4096 * i + lo) :
    v' (blkVa b + lo) = v (blkVa b + lo) := by
  have hP : ∀ e q, P e → e = .clear q → slotOf g i ≠ q ∧ ∀ f j, q = .indirect f →
      slotOf g i ≠ .entry f j := by
    intro e q he heq
    refine ⟨(hclear e q he heq).1, ?_⟩
    rintro f j rfl hslot
    have hfile := congrArg Slot.file hslot
    rw [slotOf_file] at hfile
    exact (hclear e _ he heq).2 (hfile ▸ rfl)
  induction h with
  | refl => rfl
  | step h he' he ih =>
      refine (he.byte (h.diskOk hv) (h.holds hv hp hP) ?_ hlo (fun k n heq =>
        hdata _ k n he' heq)).trans ih
      have hg := hp.reach
      rw [slotOf_file] at hg
      rw [h.isDir hv hg]
      exact hfile

theorem Edits.outside (h : Edits P v v') (hv : DiskOk v) (hx : ¬ InDisk x)
    (hP : ∀ e, P e → e ≠ .buffer) : v' x = v x := by
  induction h with
  | refl => rfl
  | step h he' he ih => exact (he.outside (h.diskOk hv) hx (hP _ he')).trans ih

end Runs

end Jos
