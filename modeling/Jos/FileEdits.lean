import Jos.SlotStores

/-!
# What the file system does to the disk

`Edit` is one change of the memory that the file server sees: a block is taken for a
slot or given back, bytes or the size of a file change, a directory grows or gets an
entry.  Every edit keeps a disk in order (`Edit.diskOk`); `Edits` is a sequence of them.
-/

namespace Jos

open Bytes

/-- What a change is about. -/
inductive FileEdit where
  /-- Bytes outside the disk. -/
  | buffer
  /-- Block `b` is taken for index `i` of file `f`. -/
  | take (f i b : Nat)
  /-- Block `b` is taken for the indirect block of `f`. -/
  | takeIndirect (f b : Nat)
  /-- Bytes `k` to `k + n` of file `f`. -/
  | data (f k n : Nat)
  | resize (f : Nat) (size : U32)
  | clear (p : Slot)
  /-- A directory grows by a block, which it does not have yet. -/
  | grow (dir : Nat)
  /-- A file at `f` gets a name. -/
  | entry (f : Nat)

/-- A record that is zero, but for the name. -/
def BlankFile (v : Bytes.Memory) (f : Nat) : Prop :=
  ∀ a, 128 ≤ a → a < 180 → v (f + a) = 0#8

/-- A directory has whole blocks, and none beyond its size.  It may grow to one more
than a file can have. -/
structure DirShape (v : Bytes.Memory) (dir : Nat) : Prop where
  size : ∃ n, n ≤ 1035 ∧ fileSize v dir = BitVec.ofNat 32 (4096 * n)
  beyond : ∀ i b, dirNblocks v dir ≤ i → ¬ (slotOf dir i).Has v b

/-- A disk that is in order. -/
structure DiskOk (v : Bytes.Memory) : Prop where
  checked : Checked v
  owned : Owned v
  dirs : ∀ dir, Reach v dir → IsDir v dir → DirShape v dir

inductive Edit (v : Bytes.Memory) : FileEdit → Bytes.Memory → Prop where
  | buffer {v' : Bytes.Memory} : DiskEq v v' → Edit v .buffer v'
  | take {f i b : Nat} {w : U32} :
      Reach v f → (slotOf f i).Exists v → (slotOf f i).val v = 0 → Free v b → w.toNat = b →
      (IsDir v f → i < dirNblocks v f ∧ NoNames v b) →
      Edit v (.take f i b) (setWord (takeBit v b) ((slotOf f i).va v) w)
  | takeIndirect {f b : Nat} {w : U32} :
      Reach v f → indirectOf v f = 0 → Free v b → w.toNat = b → ZeroBlock v b →
      Edit v (.takeIndirect f b) (setWord (takeBit v b) (fIndirectVa f) w)
  | data {f i b lo n : Nat} {v' : Bytes.Memory} :
      Holds v (slotOf f i) b → ¬ IsDir v f → lo + n ≤ 4096 →
      (∀ x, x < blkVa b + lo ∨ blkVa b + lo + n ≤ x → v' x = v x) →
      Edit v (.data f (4096 * i + lo) n) v'
  | resize {f : Nat} {size : U32} :
      Reach v f → ¬ IsDir v f → Edit v (.resize f size) (setWord v (fSizeVa f) size)
  | clear {p : Slot} {b : Nat} :
      Holds v p b → ¬ IsDir v p.file →
      Edit v (.clear p) (setWord (freeBit v b) (p.va v) 0#32)
  | grow {dir n : Nat} :
      Reach v dir → IsDir v dir → n ≤ 1034 → fileSize v dir = BitVec.ofNat 32 (4096 * n) →
      Edit v (.grow dir) (setWord v (fSizeVa dir) (BitVec.ofNat 32 (4096 * (n + 1))))
  | entry {b j : Nat} {v' : Bytes.Memory} :
      DirBlock v b → j < blkfiles → v (fileVa b j) = 0#8 → BlankFile v (fileVa b j) →
      (∀ x, x < fileVa b j ∨ fileVa b j + 128 ≤ x → v' x = v x) → v' (fileVa b j) ≠ 0#8 →
      Edit v (.entry (fileVa b j)) v'

/-- Some edits, all of a kind. -/
inductive Edits (P : FileEdit → Prop) (v : Bytes.Memory) : Bytes.Memory → Prop where
  | refl : Edits P v v
  | step {v₁ v₂ : Bytes.Memory} {e : FileEdit} :
      Edits P v v₁ → P e → Edit v₁ e v₂ → Edits P v v₂

section Chains

variable {P Q : FileEdit → Prop} {v v₁ v₂ : Bytes.Memory} {e : FileEdit}

theorem Edits.one (hP : P e) (h : Edit v e v₁) : Edits P v v₁ := .step .refl hP h

theorem Edits.trans (h : Edits P v v₁) (h' : Edits P v₁ v₂) : Edits P v v₂ := by
  induction h' with
  | refl => exact h
  | step _ hP hedit ih => exact .step ih hP hedit

theorem Edits.mono (h : Edits P v v₁) (hPQ : ∀ e, P e → Q e) : Edits Q v v₁ := by
  induction h with
  | refl => exact .refl
  | step _ hP hedit ih => exact .step ih (hPQ _ hP) hedit

end Chains

/-! ## One edit -/

section Sizes

variable {v v' : Bytes.Memory} {dir f n : Nat}

theorem dirNblocks_eq (hn : n ≤ 1035) (h : fileSize v dir = BitVec.ofNat 32 (4096 * n)) :
    dirNblocks v dir = n := by
  have hnat : (BitVec.ofNat 32 (4096 * n)).toNat = 4096 * n := by
    rw [BitVec.toNat_ofNat]
    omega
  unfold dirNblocks
  rw [show word v (fSizeVa dir) = fileSize v dir from rfl, h, sdiv_nat (by omega), hnat]
  omega

end Sizes

section Taking

variable {v v' : Bytes.Memory} {f g i b c : Nat} {w : U32} {p q : Slot}

theorem Free.lt (h : Free v b) : b < diskBlocks v := h.1

theorem DiskOk.unheld (h : DiskOk v) (hb : Free v b) : ∀ q, ¬ Holds v q b := fun q hq =>
  h.owned.used q b hq hb

theorem DiskOk.free_ge (h : DiskOk v) (hb : Free v b) : firstBlock v ≤ b :=
  Nat.le_of_not_lt (fun hlt => h.checked.reserved b hlt hb)

/-- A bit of the bitmap and a slot are written. -/
theorem slotStore_bits {v₁ : Bytes.Memory} (hbits : BitsOnly v v₁) :
    SlotStore v (setWord v₁ (p.va v) w) p w where
  word := word_setWord_self
  rest := fun x hx hx' => by
    rw [setWord_of_apart hx]
    exact hbits x hx'

/-- What happens to the bitmap is not undone by the slot. -/
theorem free_slotStore {v₁ : Bytes.Memory} (howned : Owned v) (hp : Live v p)
    (hbits : BitsOnly v v₁) : Free (setWord v₁ (p.va v) w) c ↔ Free v₁ c := by
  have hfar := hp.not_bitmap howned
  have hstore : SlotStore v (setWord v₁ (p.va v) w) p w := slotStore_bits hbits
  refine free_congr ?_ (fun x hle hlt => setWord_of_apart ?_)
  · rw [hstore.diskBlocks howned hp, hbits.diskBlocks]
  · rw [hbits.firstBlock] at hlt
    omega

/-- A slot without a block gets a free one. -/
theorem take_gains (h : DiskOk v) (hp : Live v p) (hzero : p.val v = 0) (hb : Free v b)
    (hw : w.toNat = b) (hblank : ∀ dir i, IsDir v dir → p = slotOf dir i → NoNames v b)
    (hblock : ∀ f, p = .indirect f → ZeroBlock v b) :
    Gains v (setWord (takeBit v b) (p.va v) w) p b :=
  (slotStore_bits (takeBit_bitsOnly hb.lt)).gains h.owned hp (fun _ => not_has_of_zero hzero)
    (h.unheld hb) (h.free_ge hb) hw hblank hblock

theorem take_free (h : DiskOk v) (hp : Live v p) (hb : Free v b) :
    Free (setWord (takeBit v b) (p.va v) w) c ↔ Free v c ∧ c ≠ b := by
  rw [free_slotStore h.owned hp (takeBit_bitsOnly hb.lt), free_takeBit hb.lt]

theorem clear_loses (h : DiskOk v) (hp : Holds v p b) (hfile : ¬ IsDir v p.file) :
    Loses v (setWord (freeBit v b) (p.va v) 0#32) p :=
  (slotStore_bits (freeBit_bitsOnly (h.owned.range p b hp).2)).loses h.owned
    ⟨hp.reach, hp.has.exist⟩ rfl hfile

theorem clear_free (h : DiskOk v) (hp : Holds v p b) :
    Free (setWord (freeBit v b) (p.va v) 0#32) c ↔ Free v c ∨ c = b := by
  have hb := (h.owned.range p b hp).2
  rw [free_slotStore h.owned ⟨hp.reach, hp.has.exist⟩ (freeBit_bitsOnly hb), free_freeBit hb]

theorem Checked.of_free (h : Checked v) (hblocks : diskBlocks v' = diskBlocks v)
    (hfree : ∀ c, Free v' c → Free v c ∨ firstBlock v ≤ c) : Checked v' where
  blocks := by
    rw [hblocks]
    exact h.blocks
  reserved := fun c hc hf => by
    unfold firstBlock at hc
    rw [hblocks] at hc
    rcases hfree c hf with hf | hle
    · exact h.reserved c hc hf
    · exact absurd hc (Nat.not_lt.mpr hle)

theorem SlotStore.fileSize (howned : Owned v) (hp : Live v p) (h : SlotStore v v' p w)
    (hf : Reach v f) : Jos.fileSize v' f = Jos.fileSize v f :=
  h.field howned hp hf (a := 128) (by decide)

/-- A directory keeps its shape if its size stays and no slot beyond it gets a block. -/
theorem DirShape.of_slots (h : DirShape v f) (hsize : fileSize v' f = fileSize v f)
    (hhas : ∀ i b, dirNblocks v f ≤ i → (slotOf f i).Has v' b → (slotOf f i).Has v b) :
    DirShape v' f := by
  have hnblocks : dirNblocks v' f = dirNblocks v f := by
    unfold dirNblocks
    rw [show word v' (fSizeVa f) = word v (fSizeVa f) from hsize]
  refine ⟨by rw [hsize]; exact h.size, fun i b hi hb => ?_⟩
  rw [hnblocks] at hi
  exact h.beyond i b hi (hhas i b hi hb)

/-- A block is taken for a slot, with the conditions for a directory and for an indirect
block. -/
theorem DiskOk.gain (h : DiskOk v) (hp : Live v p) (hzero : p.val v = 0) (hb : Free v b)
    (hw : w.toNat = b)
    (hdir : ∀ dir i, IsDir v dir → p = slotOf dir i → i < dirNblocks v dir ∧ NoNames v b)
    (hblock : ∀ f, p = .indirect f → ZeroBlock v b) :
    DiskOk (setWord (takeBit v b) (p.va v) w) := by
  have hstore : SlotStore v (setWord (takeBit v b) (p.va v) w) p w :=
    slotStore_bits (takeBit_bitsOnly hb.lt)
  have hgains := take_gains h hp hzero hb hw (fun dir i htype hpi => (hdir dir i htype hpi).2)
    hblock
  have hfree : ∀ c, Free (setWord (takeBit v b) (p.va v) w) c ↔ Free v c ∧ c ≠ b :=
    fun c => take_free h hp hb
  have hblocks := hstore.diskBlocks h.owned hp
  refine ⟨h.checked.of_free hblocks (fun c hf => Or.inl ((hfree c).mp hf).1), ?_, ?_⟩
  · exact hgains.owned hp.reach h.owned (fun _ => not_has_of_zero hzero) (h.unheld hb)
      (hstore.firstBlock h.owned hp) hblocks ⟨h.free_ge hb, hb.lt⟩
      (fun hf => ((hfree b).mp hf).2 rfl) (fun c hf => ((hfree c).mp hf).1)
  · intro dir hreach htype
    replace hreach := hgains.reach.mp hreach
    replace htype := (hgains.fields.type dir hreach).mp htype
    refine (h.dirs dir hreach htype).of_slots (hstore.fileSize h.owned hp hreach)
      (fun i c hi hhas => ?_)
    rcases (hgains.has _ c (by rw [slotOf_file]; exact hreach)).mp hhas with hold | ⟨hpi, -⟩
    · exact hold
    · exact absurd (hdir dir i htype hpi.symm).1 (Nat.not_lt.mpr hi)

/-- A block is given back. -/
theorem DiskOk.lose (h : DiskOk v) (hp : Holds v p b) (hfile : ¬ IsDir v p.file) :
    DiskOk (setWord (freeBit v b) (p.va v) 0#32) := by
  have hlive : Live v p := ⟨hp.reach, hp.has.exist⟩
  have hrange := h.owned.range p b hp
  have hstore : SlotStore v (setWord (freeBit v b) (p.va v) 0#32) p 0#32 :=
    slotStore_bits (freeBit_bitsOnly hrange.2)
  have hloses := clear_loses h hp hfile
  have hfree : ∀ c, Free (setWord (freeBit v b) (p.va v) 0#32) c ↔ Free v c ∨ c = b :=
    fun c => clear_free h hp
  have hblocks := hstore.diskBlocks h.owned hlive
  refine ⟨h.checked.of_free hblocks (fun c hf => ((hfree c).mp hf).imp id ?_), ?_, ?_⟩
  · rintro rfl
    exact hrange.1
  · exact hloses.owned h.owned hp (hstore.firstBlock h.owned hlive) hblocks
      (fun c hf => (hfree c).mp hf)
  · intro dir hreach htype
    replace hreach := hloses.reach.mp hreach
    replace htype := (hloses.fields.type dir hreach).mp htype
    exact (h.dirs dir hreach htype).of_slots (hstore.fileSize h.owned hlive hreach)
      (fun i c _ hhas => ((hloses.has _ c (by rw [slotOf_file]; exact hreach)).mp hhas).1)

end Taking

section Writing

variable {v v' : Bytes.Memory} {f g i b c k n lo x : Nat} {size : U32} {p q : Slot}

/-- The bytes of a file that is no directory are not `Meta`. -/
theorem data_not_meta (howned : Owned v) (hp : Holds v (slotOf f i) b) (hfile : ¬ IsDir v f)
    (hle : blkVa b ≤ x) (hlt : x < blkVa b + 4096) : ¬ Meta v x := by
  refine not_meta_of_block (howned.range _ b hp).1 ?_ ?_ hle hlt
  · rintro c hc rfl
    obtain ⟨dir, i', htype, -, hholds⟩ := hc.holds
    obtain ⟨rfl, -⟩ := slotOf_inj (howned.inj _ _ c hholds hp)
    exact hfile htype
  · rintro g c hc rfl
    exact slotOf_ne_indirect (howned.inj _ _ c hp hc)

/-- Two memories with the same bits and, but for `SameTree`, any bytes. -/
theorem DiskOk.same (h : DiskOk v) (hsame : SameTree v v') (hblocks : diskBlocks v' = diskBlocks v)
    (hfree : ∀ c, Free v' c → Free v c)
    (hsize : ∀ dir, Reach v dir → IsDir v dir → fileSize v' dir = fileSize v dir) : DiskOk v' := by
  refine ⟨h.checked.of_free hblocks (fun c hf => Or.inl (hfree c hf)),
    h.owned.of_holds (fun _ _ => hsame.holds) hblocks hfree, ?_⟩
  intro dir hreach htype
  replace hreach := hsame.reach.mp hreach
  replace htype := (hsame.fields.type dir hreach).mp htype
  exact (h.dirs dir hreach htype).of_slots (hsize dir hreach htype)
    (fun i c _ hhas => (hsame.has _ c (by rw [slotOf_file]; exact hreach)).mp hhas)

/-- What is written into a block of data. -/
def DataWrite (v v' : Bytes.Memory) (b : Nat) : Prop :=
  ∀ x, x < blkVa b ∨ blkVa b + 4096 ≤ x → v' x = v x

theorem DataWrite.meta (h : DataWrite v v' b) (howned : Owned v) (hp : Holds v (slotOf f i) b)
    (hfile : ¬ IsDir v f) : ∀ x, Meta v x → v' x = v x := by
  intro x hx
  refine h x ?_
  by_cases hle : blkVa b ≤ x
  · exact Or.inr (Nat.le_of_not_lt (fun hlt => data_not_meta howned hp hfile hle hlt hx))
  · exact Or.inl (Nat.lt_of_not_le hle)

theorem DataWrite.bits (h : DataWrite v v' b) (hb : firstBlock v ≤ b) :
    diskBlocks v' = diskBlocks v ∧ ∀ c, Free v' c ↔ Free v c := by
  have htwo := firstBlock_ge (v := v)
  have hva := blkVa_not_bitmap hb
  have hfirst : blkVa 2 ≤ blkVa (firstBlock v) := by
    unfold blkVa blksize
    omega
  have hsuper := snblocksVa_lt
  have hblocks : diskBlocks v' = diskBlocks v :=
    congrArg BitVec.toNat (word_congr (fun x hle hlt => h x (by omega)))
  exact ⟨hblocks, fun c => free_congr hblocks (fun x hle hlt => h x (by omega))⟩

theorem DiskOk.write (h : DiskOk v) (hw : DataWrite v v' b) (hp : Holds v (slotOf f i) b)
    (hfile : ¬ IsDir v f) : DiskOk v' := by
  have hmeta := hw.meta h.owned hp hfile
  obtain ⟨hblocks, hfree⟩ := hw.bits (h.owned.range _ b hp).1
  exact h.same (sameTree_of_meta hmeta) hblocks (fun c hf => (hfree c).mp hf)
    (fun dir hdir _ => frame_word hmeta hdir (by unfold fSizeVa; omega) (by unfold fSizeVa; omega))

theorem DiskOk.buffer (h : DiskOk v) (hdisk : DiskEq v v') : DiskOk v' := by
  have hmeta := hdisk.meta h.checked.blocks h.owned
  exact h.same (sameTree_of_meta hmeta) hdisk.diskBlocks (fun c hf => hdisk.free.mp hf)
    (fun dir hdir _ => frame_word hmeta hdir (by unfold fSizeVa; omega) (by unfold fSizeVa; omega))

/-! ### The size of a file -/

/-- The bytes that change when the size of a file is set. -/
def SizeStore (v v' : Bytes.Memory) (f : Nat) : Prop :=
  ∀ x, x < f + 128 ∨ f + 132 ≤ x → v' x = v x

theorem sizeStore_setWord : SizeStore v (setWord v (fSizeVa f) size) f := fun _ hx =>
  setWord_of_apart hx

section

variable (howned : Owned v) (hf : Reach v f) (h : SizeStore v v' f)

include howned hf h

theorem SizeStore.slot (hp : Live v p) : word v' (p.va v) = word v (p.va v) := by
  have hfar := hp.fields_apart howned hf
  exact word_congr (fun x hle hlt => h x (by omega))

theorem SizeStore.has (hp : Reach v p.file) : p.Has v' c ↔ p.Has v c :=
  has_of_words (fun _ hq => h.slot howned hf hq) hp

theorem SizeStore.type (hg : Reach v g) : IsDir v' g ↔ IsDir v g := by
  have hword : word v' (fTypeVa g) = word v (fTypeVa g) := by
    refine word_congr (fun x hle hlt => h x ?_)
    unfold fTypeVa at *
    by_cases hfg : f = g
    · omega
    · have hfar := hf.apart howned hg hfg
      omega
  unfold IsDir
  rw [hword]

theorem SizeStore.name {j : Nat} (hb : DirBlock v b) :
    v' (fileVa b j) = v (fileVa b j) := by
  have htwo := (hb.range howned).1
  refine h _ ?_
  rcases hf.shape with rfl | ⟨c, k, hc, hk, -, rfl⟩
  · unfold rootVa superVa
    unfold fileVa blkVa diskmap blksize
    omega
  · unfold fileVa blkVa diskmap blksize blkfiles at *
    omega

theorem SizeStore.other (hg : Reach v g) (hne : g ≠ f) : fileSize v' g = fileSize v g := by
  have hfar := hf.apart howned hg hne.symm
  exact word_congr (fun x hle hlt => h x (by unfold fSizeVa at *; omega))

theorem SizeStore.bits : diskBlocks v' = diskBlocks v ∧ ∀ c, Free v' c ↔ Free v c := by
  have hbits := hf.not_bitmap howned
  have hsuper := snblocksVa_lt
  have hroot : rootVa ≤ f := by
    rcases hf.shape with rfl | ⟨c, k, hc, hk, -, rfl⟩
    · exact Nat.le_refl _
    · have htwo := (hc.range howned).1
      unfold rootVa superVa
      unfold fileVa blkVa diskmap blksize
      omega
  have hsuper' : snblocksVa + 4 ≤ rootVa := by decide
  have hblocks : diskBlocks v' = diskBlocks v :=
    congrArg BitVec.toNat (word_congr (fun x hle hlt => h x (by omega)))
  exact ⟨hblocks, fun c => free_congr hblocks (fun x hle hlt => h x (by omega))⟩

/-- The size of a file that is no directory. -/
theorem SizeStore.sameTree (hfile : ¬ IsDir v f) : SameTree v v' where
  fields := ⟨fun _ hg => h.type howned hf hg, fun g hg htype => by
    have hne : g ≠ f := by
      rintro rfl
      exact hfile htype
    unfold dirNblocks
    rw [show word v' (fSizeVa g) = word v (fSizeVa g) from h.other howned hf hg hne],
    fun _ _ hb _ => h.name howned hf hb⟩
  has := fun _ _ hq => h.has howned hf hq

end

theorem DiskOk.resize (h : DiskOk v) (hf : Reach v f) (hfile : ¬ IsDir v f)
    (hsize : SizeStore v v' f) : DiskOk v' := by
  obtain ⟨hblocks, hfree⟩ := hsize.bits h.owned hf
  refine h.same (hsize.sameTree h.owned hf hfile) hblocks (fun c hc => (hfree c).mp hc)
    (fun dir hdir htype => hsize.other h.owned hf hdir ?_)
  rintro rfl
  exact hfile htype

/-- A directory grows by a block that it does not have. -/
theorem SizeStore.grow_entry (howned : Owned v) (hf : Reach v f) (h : SizeStore v v' f)
    (hshape : DirShape v f) (hn : dirNblocks v' f = dirNblocks v f + 1) (hg : Reach v g) :
    Entry v' g x ↔ Entry v g x := by
  have hhas : ∀ i c, (slotOf g i).Has v' c ↔ (slotOf g i).Has v c := fun i c =>
    h.has howned hf (by rw [slotOf_file]; exact hg)
  have hindex : ∀ i c, (slotOf g i).Has v c →
      (i < dirNblocks v' g ↔ i < dirNblocks v g) := fun i c hc => by
    by_cases hgf : g = f
    · subst hgf
      have hlt : i < dirNblocks v g := Nat.lt_of_not_le (fun hle => hshape.beyond i c hle hc)
      exact iff_of_true (by omega) hlt
    · unfold dirNblocks
      rw [show word v' (fSizeVa g) = word v (fSizeVa g) from h.other howned hf hg hgf]
  constructor
  · rintro ⟨htype, i, c, j, hi, hc, hj, rfl, hname⟩
    replace htype := (h.type howned hf hg).mp htype
    replace hc := (hhas i c).mp hc
    replace hi := (hindex i c hc).mp hi
    rw [h.name howned hf (.of_has hg htype hi hc)] at hname
    exact ⟨htype, i, c, j, hi, hc, hj, rfl, hname⟩
  · rintro ⟨htype, i, c, j, hi, hc, hj, rfl, hname⟩
    refine ⟨(h.type howned hf hg).mpr htype, i, c, j, (hindex i c hc).mpr hi, (hhas i c).mpr hc,
      hj, rfl, ?_⟩
    rw [h.name howned hf (.of_has hg htype hi hc)]
    exact hname

theorem DiskOk.grow (h : DiskOk v) (hf : Reach v f) (htype : IsDir v f) (hn : n ≤ 1034)
    (hold : fileSize v f = BitVec.ofNat 32 (4096 * n)) (hsize : SizeStore v v' f)
    (hnew : fileSize v' f = BitVec.ofNat 32 (4096 * (n + 1))) :
    DiskOk v' ∧ (∀ g, Reach v' g ↔ Reach v g) ∧ ∀ q c, Holds v' q c ↔ Holds v q c := by
  have hshape := h.dirs f hf htype
  have hblocks := dirNblocks_eq (Nat.le_succ_of_le hn) hold
  have hblocks' := dirNblocks_eq (Nat.succ_le_succ hn) hnew
  have hreach : ∀ g, Reach v' g ↔ Reach v g := fun g =>
    reach_iff (fun _ _ hg => hsize.grow_entry h.owned hf hshape (by omega) hg)
  have hholds : ∀ q c, Holds v' q c ↔ Holds v q c := fun q c =>
    ⟨fun hq => ⟨(hreach _).mp hq.reach, (hsize.has h.owned hf ((hreach _).mp hq.reach)).mp hq.has⟩,
      fun hq => ⟨(hreach _).mpr hq.reach, (hsize.has h.owned hf hq.reach).mpr hq.has⟩⟩
  obtain ⟨hdisk, hfree⟩ := hsize.bits h.owned hf
  refine ⟨⟨h.checked.of_free hdisk (fun c hc => Or.inl ((hfree c).mp hc)),
    h.owned.of_holds hholds hdisk (fun c hc => (hfree c).mp hc), ?_⟩, hreach, hholds⟩
  intro dir hdir htype'
  replace hdir := (hreach dir).mp hdir
  replace htype' := (hsize.type h.owned hf hdir).mp htype'
  by_cases heq : dir = f
  · subst heq
    refine ⟨⟨n + 1, by omega, hnew⟩, fun i c hi hc => ?_⟩
    rw [hsize.has h.owned hf (by rw [slotOf_file]; exact hf)] at hc
    exact hshape.beyond i c (by omega) hc
  · exact (h.dirs dir hdir htype').of_slots (hsize.other h.owned hf hdir heq)
      (fun i c _ hc => (hsize.has h.owned hf (by rw [slotOf_file]; exact hdir)).mp hc)

end Writing

/-! ### A new name -/

section Names

variable {v v' : Bytes.Memory} {dir f g b c j x : Nat} {p q : Slot}

/-- The bytes that change when a record gets a name. -/
def NameStore (v v' : Bytes.Memory) (f : Nat) : Prop :=
  ∀ x, x < f ∨ f + 128 ≤ x → v' x = v x

section

variable (howned : Owned v) (hb : DirBlock v b) (hj : j < blkfiles)
  (h : NameStore v v' (fileVa b j))

include howned hb hj h

theorem NameStore.slot (hp : Live v p) : word v' (p.va v) = word v (p.va v) := by
  have hfar := hp.record_apart howned hb hj
  exact word_congr (fun x hle hlt => h x (by omega))

theorem NameStore.has (hp : Reach v p.file) : p.Has v' c ↔ p.Has v c :=
  has_of_words (fun _ hq => h.slot howned hb hj hq) hp

omit hj in
/-- The type and the size of a file. -/
theorem NameStore.field {a : Nat} (hg : Reach v g) (ha : 128 ≤ a) (ha' : a + 4 ≤ 256) :
    word v' (g + a) = word v (g + a) := by
  have htwo := (hb.range howned).1
  refine word_congr (fun x hle hlt => h x ?_)
  rcases hg.shape with rfl | ⟨c, k, hc, hk, -, rfl⟩
  · unfold rootVa superVa at *
    unfold fileVa blkVa diskmap blksize at *
    omega
  · unfold fileVa blkVa diskmap blksize blkfiles at *
    omega

omit hj in
theorem NameStore.type (hg : Reach v g) : IsDir v' g ↔ IsDir v g := by
  unfold IsDir
  rw [show fTypeVa g = g + 132 from rfl, h.field howned hb hg (by decide) (by decide)]

omit howned hb hj in
theorem NameStore.name {k : Nat} (hne : fileVa c k ≠ fileVa b j) :
    v' (fileVa c k) = v (fileVa c k) := by
  refine h _ ?_
  unfold fileVa blkVa diskmap blksize at *
  omega

omit hj in
theorem NameStore.bits : diskBlocks v' = diskBlocks v ∧ ∀ c, Free v' c ↔ Free v c := by
  have hrange := hb.range howned
  have hva := blkVa_not_bitmap hrange.2.1
  have hfirst : blkVa 2 ≤ blkVa (firstBlock v) := by
    have htwo := firstBlock_ge (v := v)
    unfold blkVa blksize
    omega
  have hsuper := snblocksVa_lt
  have hle' : blkVa b ≤ fileVa b j := Nat.le_add_right _ _
  have hblocks : diskBlocks v' = diskBlocks v :=
    congrArg BitVec.toNat (word_congr (fun x hle hlt => h x (by omega)))
  exact ⟨hblocks, fun c => free_congr hblocks (fun x hle hlt => h x (by omega))⟩

theorem NameStore.entry (hold : v (fileVa b j) = 0#8) (hnew : v' (fileVa b j) ≠ 0#8)
    (hdir : Reach v dir) :
    Entry v' dir g ↔ Entry v dir g ∨ (g = fileVa b j ∧ IsDir v dir ∧
      ∃ i, i < dirNblocks v dir ∧ (slotOf dir i).Has v b) := by
  have htype := h.type howned hb hdir
  have hnblocks : dirNblocks v' dir = dirNblocks v dir := by
    unfold dirNblocks
    rw [show fSizeVa dir = dir + 128 from rfl, h.field howned hb hdir (by decide) (by decide)]
  have hhas : ∀ i c, (slotOf dir i).Has v' c ↔ (slotOf dir i).Has v c := fun i c =>
    h.has howned hb hj (by rw [slotOf_file]; exact hdir)
  constructor
  · rintro ⟨ht, i, c, k, hi, hc, hk, rfl, hname⟩
    rw [hnblocks] at hi
    replace hc := (hhas i c).mp hc
    by_cases heq : fileVa c k = fileVa b j
    · have hcb : c = b := by
        unfold fileVa blkVa blksize blkfiles at *
        omega
      subst hcb
      exact Or.inr ⟨heq, htype.mp ht, i, hi, hc⟩
    · rw [h.name heq] at hname
      exact Or.inl ⟨htype.mp ht, i, c, k, hi, hc, hk, rfl, hname⟩
  · rintro (⟨ht, i, c, k, hi, hc, hk, rfl, hname⟩ | ⟨rfl, ht, i, hi, hc⟩)
    · refine ⟨htype.mpr ht, i, c, k, by rw [hnblocks]; exact hi, (hhas i c).mpr hc, hk, rfl, ?_⟩
      by_cases heq : fileVa c k = fileVa b j
      · rw [heq]
        exact hnew
      · rw [h.name heq]
        exact hname
    · exact ⟨htype.mpr ht, i, b, j, by rw [hnblocks]; exact hi, (hhas i b).mpr hc, hj, rfl, hnew⟩

omit howned hb hj in
/-- The record is blank still, and so the new file is empty. -/
theorem NameStore.blank (hblank : BlankFile v (fileVa b j)) :
    ¬ IsDir v' (fileVa b j) ∧ ∀ (p : Slot) (c : Nat), p.file = fileVa b j → ¬ p.Has v' c := by
  have hword : ∀ a, 128 ≤ a → a + 4 ≤ 180 → word v' (fileVa b j + a) = 0#32 := fun a ha ha' =>
    word_zero (fun x hle hlt => by
      rw [h x (by omega), show x = fileVa b j + (x - fileVa b j) by omega]
      exact hblank _ (by omega) (by omega))
  have hind : indirectOf v' (fileVa b j) = 0 :=
    congrArg BitVec.toNat (hword 176 (by decide) (by decide))
  refine ⟨fun htype => ?_, fun p c hp hc => ?_⟩
  · have hzero := hword 132 (by decide) (by decide)
    rw [show word v' (fileVa b j + 132) = ftypeDir from htype] at hzero
    exact absurd hzero (by decide)
  · cases p with
    | direct f i =>
        obtain rfl : f = fileVa b j := hp
        have hi : i < 10 := hc.exist
        have hzero := congrArg BitVec.toNat (hword (136 + 4 * i) (by omega) (by omega))
        rw [← Nat.add_assoc] at hzero
        exact hc.ne (hc.val.symm.trans hzero)
    | indirect f =>
        obtain rfl : f = fileVa b j := hp
        exact hc.ne (hc.val.symm.trans hind)
    | entry f k =>
        obtain rfl : f = fileVa b j := hp
        exact hc.exist.1 hind

section

variable (hold : v (fileVa b j) = 0#8) (hnew : v' (fileVa b j) ≠ 0#8)
  (hblank : BlankFile v (fileVa b j))

include hold hnew hblank

theorem NameStore.reach : Reach v' g ↔ Reach v g ∨ g = fileVa b j := by
  have hup : ∀ g, Reach v g → Reach v' g := fun g hg => by
    induction hg with
    | root => exact Reach.root
    | @entry dir i c k hdir htype hi hhas hk hname ih =>
        exact ih.entry_of ((h.entry howned hb hj hold hnew hdir).mpr
          (Or.inl ⟨htype, i, c, k, hi, hhas, hk, rfl, hname⟩))
  constructor
  · intro hg
    induction hg with
    | root => exact Or.inl Reach.root
    | @entry dir i c k _ htype hi hhas hk hname ih =>
        rcases ih with hdir | rfl
        · rcases (h.entry howned hb hj hold hnew hdir).mp
            ⟨htype, i, c, k, hi, hhas, hk, rfl, hname⟩ with hentry | ⟨heq, -⟩
          · exact Or.inl (hdir.entry_of hentry)
          · exact Or.inr heq
        · exact absurd htype (h.blank hblank).1
  · rintro (hg | rfl)
    · exact hup g hg
    · obtain ⟨dir, i, htype, hi, hholds⟩ := hb.holds
      have hdir := hholds.reach
      rw [slotOf_file] at hdir
      exact (hup dir hdir).entry_of ((h.entry howned hb hj hold hnew hdir).mpr
        (Or.inr ⟨rfl, htype, i, hi, hholds.has⟩))

theorem NameStore.holds : Holds v' q c ↔ Holds v q c := by
  constructor
  · rintro ⟨hreach, hhas⟩
    rcases (h.reach howned hb hj hold hnew hblank).mp hreach with hq | heq
    · exact ⟨hq, (h.has howned hb hj hq).mp hhas⟩
    · exact absurd hhas ((h.blank hblank).2 q c heq)
  · rintro ⟨hq, hhas⟩
    exact ⟨(h.reach howned hb hj hold hnew hblank).mpr (Or.inl hq),
      (h.has howned hb hj hq).mpr hhas⟩

omit howned in
theorem DiskOk.name (hok : DiskOk v) : DiskOk v' := by
  have howned := hok.owned
  obtain ⟨hdisk, hfree⟩ := h.bits howned hb
  have hholds : ∀ q c, Holds v' q c ↔ Holds v q c := fun q c =>
    h.holds howned hb hj hold hnew hblank
  refine ⟨hok.checked.of_free hdisk (fun c hc => Or.inl ((hfree c).mp hc)),
    howned.of_holds hholds hdisk (fun c hc => (hfree c).mp hc), ?_⟩
  intro dir hdir htype
  rcases (h.reach howned hb hj hold hnew hblank).mp hdir with hdir | rfl
  · replace htype := (h.type howned hb hdir).mp htype
    exact (hok.dirs dir hdir htype).of_slots (h.field howned hb hdir (a := 128) (by decide)
      (by decide)) (fun i c _ hc => (h.has howned hb hj (by rw [slotOf_file]; exact hdir)).mp hc)
  · exact absurd htype (h.blank hblank).1

end

end

end Names

/-! ## All edits -/

section Edits

variable {v v' : Bytes.Memory} {e : FileEdit} {f g i b c x : Nat} {p : Slot}

/-- A live slot of index `i`. -/
theorem Reach.live (hf : Reach v f) (hp : (slotOf f i).Exists v) : Live v (slotOf f i) :=
  ⟨by rw [slotOf_file]; exact hf, hp⟩

/-- Block `b` is taken, with the conditions of `Edit.take`. -/
theorem Edit.take_gains {w : U32} (h : DiskOk v) (hf : Reach v f)
    (hexist : (slotOf f i).Exists v) (hzero : (slotOf f i).val v = 0) (hb : Free v b)
    (hw : w.toNat = b) (hdir : IsDir v f → i < dirNblocks v f ∧ NoNames v b) :
    DiskOk (setWord (takeBit v b) ((slotOf f i).va v) w) ∧
      Gains v (setWord (takeBit v b) ((slotOf f i).va v) w) (slotOf f i) b := by
  have hcond : ∀ dir k, IsDir v dir → slotOf f i = slotOf dir k →
      k < dirNblocks v dir ∧ NoNames v b := by
    intro dir k htype heq
    obtain ⟨rfl, rfl⟩ := slotOf_inj heq
    exact hdir htype
  have hnot : ∀ g, slotOf f i = .indirect g → ZeroBlock v b := fun g heq =>
    absurd heq slotOf_ne_indirect
  exact ⟨h.gain (hf.live hexist) hzero hb hw hcond hnot,
    Jos.take_gains h (hf.live hexist) hzero hb hw
      (fun dir k htype heq => (hcond dir k htype heq).2) hnot⟩

theorem Edit.takeIndirect_gains {w : U32} (h : DiskOk v) (hf : Reach v f)
    (hzero : indirectOf v f = 0) (hb : Free v b) (hw : w.toNat = b) (hblock : ZeroBlock v b) :
    DiskOk (setWord (takeBit v b) (fIndirectVa f) w) ∧
      Gains v (setWord (takeBit v b) (fIndirectVa f) w) (.indirect f) b := by
  have hlive : Live v (.indirect f) := ⟨hf, trivial⟩
  have hnot : ∀ dir k, Slot.indirect f = slotOf dir k → False := fun dir k heq =>
    slotOf_ne_indirect heq.symm
  exact ⟨h.gain hlive hzero hb hw (fun dir k _ heq => (hnot dir k heq).elim) (fun _ _ => hblock),
    Jos.take_gains h hlive hzero hb hw (fun dir k _ heq => (hnot dir k heq).elim)
      (fun _ _ => hblock)⟩

/-- Every edit keeps a disk in order. -/
theorem Edit.diskOk (he : Edit v e v') (h : DiskOk v) : DiskOk v' := by
  cases he with
  | buffer hdisk => exact h.buffer hdisk
  | take hf hexist hzero hb hw hdir => exact (Edit.take_gains h hf hexist hzero hb hw hdir).1
  | takeIndirect hf hzero hb hw hblock => exact (Edit.takeIndirect_gains h hf hzero hb hw hblock).1
  | data hp hfile hlo hrest => exact h.write (fun x hx => hrest x (by omega)) hp hfile
  | resize hf hfile => exact h.resize hf hfile sizeStore_setWord
  | clear hp hfile => exact h.lose hp hfile
  | grow hf htype hn hsize =>
      exact (h.grow hf htype hn hsize sizeStore_setWord word_setWord_self).1
  | entry hb hj hold hblank hrest hnew => exact DiskOk.name hb hj hrest hold hnew hblank h

/-- No file is lost, and one is found only if it gets a name. -/
theorem Edit.reach (he : Edit v e v') (h : DiskOk v) :
    Reach v' g ↔ Reach v g ∨ e = .entry g := by
  cases he with
  | buffer hdisk =>
      rw [frame_reach (hdisk.meta h.checked.blocks h.owned)]
      exact (or_iff_left (by simp)).symm
  | take hf hexist hzero hb hw hdir =>
      rw [(Edit.take_gains h hf hexist hzero hb hw hdir).2.reach]
      exact (or_iff_left (by simp)).symm
  | takeIndirect hf hzero hb hw hblock =>
      rw [(Edit.takeIndirect_gains h hf hzero hb hw hblock).2.reach]
      exact (or_iff_left (by simp)).symm
  | data hp hfile hlo hrest =>
      rw [frame_reach (DataWrite.meta (fun x hx => hrest x (by omega)) h.owned hp hfile)]
      exact (or_iff_left (by simp)).symm
  | resize hf hfile =>
      rw [(sizeStore_setWord.sameTree h.owned hf hfile).reach]
      exact (or_iff_left (by simp)).symm
  | clear hp hfile =>
      rw [(clear_loses h hp hfile).reach]
      exact (or_iff_left (by simp)).symm
  | grow hf htype hn hsize =>
      rw [(h.grow hf htype hn hsize sizeStore_setWord word_setWord_self).2.1]
      exact (or_iff_left (by simp)).symm
  | entry hb hj hold hblank hrest hnew =>
      rw [NameStore.reach h.owned hb hj hrest hold hnew hblank, FileEdit.entry.injEq]
      exact or_congr_right eq_comm

end Edits

end Jos
