import Jos.BlockBits
import Jos.FileContents

/-!
# Stores to the slots of files

A block is given to a slot that has none (`Gains`), or is taken from one that has it
(`Loses`).  The first adds the pair to `Holds`, the second takes it away, and the same
files can be reached as before, as long as the block brings no names into a directory.
-/

namespace Jos

open Bytes

/-- There are null bytes in block `b` only. -/
def ZeroBlock (v : Bytes.Memory) (b : Nat) : Prop :=
  ∀ x, blkVa b ≤ x → x < blkVa b + 4096 → v x = 0#8

/-- Directory `dir` has an entry at `f`, with a name. -/
def Entry (v : Bytes.Memory) (dir f : Nat) : Prop :=
  IsDir v dir ∧ ∃ i b j, i < dirNblocks v dir ∧ (slotOf dir i).Has v b ∧ j < blkfiles ∧
    f = fileVa b j ∧ v f ≠ 0#8

/-- Files have the same types, and directories the same sizes and names. -/
structure SameFields (v v' : Bytes.Memory) : Prop where
  type : ∀ f, Reach v f → (IsDir v' f ↔ IsDir v f)
  nblocks : ∀ f, Reach v f → IsDir v f → dirNblocks v' f = dirNblocks v f
  names : ∀ b j, DirBlock v b → j < blkfiles → v' (fileVa b j) = v (fileVa b j)

/-- All slots have the blocks that they had. -/
structure SameTree (v v' : Bytes.Memory) : Prop where
  fields : SameFields v v'
  has : ∀ (q : Slot) (c : Nat), Reach v q.file → (q.Has v' c ↔ q.Has v c)

/-- Slot `p` has block `b` now, and everything else is the same. -/
structure Gains (v v' : Bytes.Memory) (p : Slot) (b : Nat) : Prop where
  fields : SameFields v v'
  has : ∀ q c, Reach v q.file → (q.Has v' c ↔ q.Has v c ∨ (q = p ∧ c = b))
  blank : ∀ dir i, IsDir v dir → p = slotOf dir i → NoNames v' b

/-- Slot `p` has no block now, and neither have the slots in an indirect block that it
had. -/
structure Loses (v v' : Bytes.Memory) (p : Slot) : Prop where
  fields : SameFields v v'
  has : ∀ q c, Reach v q.file →
    (q.Has v' c ↔ q.Has v c ∧ q ≠ p ∧ ∀ f j, p = .indirect f → q ≠ .entry f j)
  file : ¬ IsDir v p.file

/-- The word `w` is stored in slot `p`, and the bitmap may change. -/
structure SlotStore (v v' : Bytes.Memory) (p : Slot) (w : U32) : Prop where
  word : word v' (p.va v) = w
  rest : ∀ x, x < p.va v ∨ p.va v + 4 ≤ x → x < blkVa 2 ∨ blkVa (firstBlock v) ≤ x →
    v' x = v x

section Tree

variable {v v' : Bytes.Memory} {dir f g b c : Nat} {p q : Slot}

theorem Reach.entry_of (hdir : Reach v dir) (h : Entry v dir f) : Reach v f := by
  obtain ⟨htype, i, b, j, hi, hhas, hj, rfl, hname⟩ := h
  exact Reach.entry hdir htype hi hhas hj hname

/-- The same files can be reached if directories have the same entries. -/
theorem reach_iff (h : ∀ dir f, Reach v dir → (Entry v' dir f ↔ Entry v dir f)) :
    Reach v' f ↔ Reach v f := by
  constructor
  · intro hf
    induction hf with
    | root => exact Reach.root
    | @entry dir i b j _ htype hi hhas hj hname ih =>
        exact ih.entry_of ((h dir _ ih).mp ⟨htype, i, b, j, hi, hhas, hj, rfl, hname⟩)
  · intro hf
    induction hf with
    | root => exact Reach.root
    | @entry dir i b j hdir htype hi hhas hj hname ih =>
        exact ih.entry_of ((h dir _ hdir).mpr ⟨htype, i, b, j, hi, hhas, hj, rfl, hname⟩)

theorem DirBlock.of_has {i : Nat} (hdir : Reach v dir) (htype : IsDir v dir)
    (hi : i < dirNblocks v dir) (hhas : (slotOf dir i).Has v b) : DirBlock v b :=
  ⟨htype, hi, by rw [slotOf_file]; exact hdir, hhas⟩

/-- Ownership is about the slots that hold blocks. -/
theorem Owned.of_holds (h : Owned v) (hholds : ∀ q c, Holds v' q c ↔ Holds v q c)
    (hblocks : diskBlocks v' = diskBlocks v) (hfree : ∀ c, Free v' c → Free v c) : Owned v' where
  inj := fun p q c hp hq => h.inj p q c ((hholds p c).mp hp) ((hholds q c).mp hq)
  range := fun p c hp => by
    unfold firstBlock
    rw [hblocks]
    exact h.range p c ((hholds p c).mp hp)
  used := fun p c hp hc => h.used p c ((hholds p c).mp hp) (hfree c hc)

/-! ### No slot changes -/

theorem SameTree.entry (h : SameTree v v') (hdir : Reach v dir) :
    Entry v' dir f ↔ Entry v dir f := by
  have hhas : ∀ i c, (slotOf dir i).Has v' c ↔ (slotOf dir i).Has v c := fun i c =>
    h.has _ c (by rw [slotOf_file]; exact hdir)
  constructor
  · rintro ⟨htype, i, c, j, hi, hc, hj, rfl, hname⟩
    replace htype := (h.fields.type dir hdir).mp htype
    rw [h.fields.nblocks dir hdir htype] at hi
    replace hc := (hhas i c).mp hc
    refine ⟨htype, i, c, j, hi, hc, hj, rfl, ?_⟩
    rw [← h.fields.names c j (.of_has hdir htype hi hc) hj]
    exact hname
  · rintro ⟨htype, i, c, j, hi, hc, hj, rfl, hname⟩
    refine ⟨(h.fields.type dir hdir).mpr htype, i, c, j, ?_, (hhas i c).mpr hc, hj, rfl, ?_⟩
    · rw [h.fields.nblocks dir hdir htype]
      exact hi
    · rw [h.fields.names c j (.of_has hdir htype hi hc) hj]
      exact hname

theorem SameTree.reach (h : SameTree v v') : Reach v' f ↔ Reach v f :=
  reach_iff (fun _ _ hdir => h.entry hdir)

theorem SameTree.holds (h : SameTree v v') : Holds v' q c ↔ Holds v q c := by
  constructor
  · rintro ⟨hreach, hhas⟩
    replace hreach := h.reach.mp hreach
    exact ⟨hreach, (h.has q c hreach).mp hhas⟩
  · rintro ⟨hreach, hhas⟩
    exact ⟨h.reach.mpr hreach, (h.has q c hreach).mpr hhas⟩

/-- Slots have what they had if their words are the same. -/
theorem has_of_words (h : ∀ q, Live v q → word v' (q.va v) = word v (q.va v))
    (hp : Reach v p.file) : p.Has v' c ↔ p.Has v c := by
  refine slot_has_congr ?_ (fun hexist => h p ⟨hp, hexist⟩)
  rintro g j rfl
  exact congrArg BitVec.toNat (h (.indirect g) ⟨hp, trivial⟩)

/-- What is not `Meta` can be written. -/
theorem sameTree_of_meta (h : ∀ x, Meta v x → v' x = v x) : SameTree v v' where
  fields := ⟨fun _ hf => frame_isDir h hf, fun _ hf _ => frame_dirNblocks h hf,
    fun _ _ hb hj => frame_name h hb hj⟩
  has := fun _ _ hq => frame_has h hq

/-! ### A slot gains a block -/

theorem Gains.entry (h : Gains v v' p b) (hdir : Reach v dir) :
    Entry v' dir f ↔ Entry v dir f := by
  constructor
  · rintro ⟨htype, i, c, j, hi, hhas, hj, rfl, hname⟩
    replace htype := (h.fields.type dir hdir).mp htype
    rw [h.fields.nblocks dir hdir htype] at hi
    rcases (h.has _ c (by rw [slotOf_file]; exact hdir)).mp hhas with hhas | ⟨hp, rfl⟩
    · refine ⟨htype, i, c, j, hi, hhas, hj, rfl, ?_⟩
      rw [← h.fields.names c j (.of_has hdir htype hi hhas) hj]
      exact hname
    · exact absurd (h.blank dir i htype hp.symm j hj) hname
  · rintro ⟨htype, i, c, j, hi, hhas, hj, rfl, hname⟩
    refine ⟨(h.fields.type dir hdir).mpr htype, i, c, j, ?_,
      (h.has _ c (by rw [slotOf_file]; exact hdir)).mpr (Or.inl hhas), hj, rfl, ?_⟩
    · rw [h.fields.nblocks dir hdir htype]
      exact hi
    · rw [h.fields.names c j (.of_has hdir htype hi hhas) hj]
      exact hname

theorem Gains.reach (h : Gains v v' p b) : Reach v' f ↔ Reach v f :=
  reach_iff (fun _ _ hdir => h.entry hdir)

theorem Gains.holds (h : Gains v v' p b) (hp : Reach v p.file) :
    Holds v' q c ↔ Holds v q c ∨ (q = p ∧ c = b) := by
  constructor
  · rintro ⟨hreach, hhas⟩
    replace hreach := h.reach.mp hreach
    exact ((h.has q c hreach).mp hhas).imp (fun hh => ⟨hreach, hh⟩) id
  · rintro (⟨hreach, hhas⟩ | ⟨rfl, rfl⟩)
    · exact ⟨h.reach.mpr hreach, (h.has q c hreach).mpr (Or.inl hhas)⟩
    · exact ⟨h.reach.mpr hp, (h.has q c hp).mpr (Or.inr ⟨rfl, rfl⟩)⟩

/-- Ownership stays if the block was not held and is on the disk and in use. -/
theorem Gains.owned (h : Gains v v' p b) (hp : Reach v p.file) (howned : Owned v)
    (hnone : ∀ c, ¬ p.Has v c) (hunheld : ∀ q, ¬ Holds v q b)
    (hfirst : firstBlock v' = firstBlock v) (hblocks : diskBlocks v' = diskBlocks v)
    (hrange : firstBlock v ≤ b ∧ b < diskBlocks v) (hused : ¬ Free v' b)
    (hfree : ∀ c, Free v' c → Free v c) : Owned v' where
  inj := fun q r c hq hr => by
    rcases (h.holds hp).mp hq with hq | ⟨rfl, rfl⟩
    · rcases (h.holds hp).mp hr with hr | ⟨rfl, rfl⟩
      · exact howned.inj q r c hq hr
      · exact absurd hq (hunheld q)
    · rcases (h.holds hp).mp hr with hr | ⟨rfl, -⟩
      · exact absurd hr (hunheld r)
      · rfl
  range := fun q c hq => by
    rw [hfirst, hblocks]
    rcases (h.holds hp).mp hq with hq | ⟨-, rfl⟩
    · exact howned.range q c hq
    · exact hrange
  used := fun q c hq => by
    rcases (h.holds hp).mp hq with hq | ⟨-, rfl⟩
    · exact fun hf => howned.used q c hq (hfree c hf)
    · exact hused

/-! ### A slot loses its block -/

theorem Loses.entry (h : Loses v v' p) (hdir : Reach v dir) :
    Entry v' dir f ↔ Entry v dir f := by
  have hsame : IsDir v dir → ∀ i c, (slotOf dir i).Has v' c ↔ (slotOf dir i).Has v c := by
    intro htype i c
    rw [h.has _ c (by rw [slotOf_file]; exact hdir)]
    refine ⟨And.left, fun hhas => ⟨hhas, ?_, ?_⟩⟩
    · rintro rfl
      exact h.file (by rw [slotOf_file]; exact htype)
    · rintro g j rfl hentry
      have hfile : dir = g := by
        have hcongr := congrArg Slot.file hentry
        rwa [slotOf_file] at hcongr
      exact h.file (hfile ▸ htype)
  constructor
  · rintro ⟨htype, i, c, j, hi, hhas, hj, rfl, hname⟩
    replace htype := (h.fields.type dir hdir).mp htype
    rw [h.fields.nblocks dir hdir htype] at hi
    replace hhas := (hsame htype i c).mp hhas
    refine ⟨htype, i, c, j, hi, hhas, hj, rfl, ?_⟩
    rw [← h.fields.names c j (.of_has hdir htype hi hhas) hj]
    exact hname
  · rintro ⟨htype, i, c, j, hi, hhas, hj, rfl, hname⟩
    refine ⟨(h.fields.type dir hdir).mpr htype, i, c, j, ?_, (hsame htype i c).mpr hhas, hj,
      rfl, ?_⟩
    · rw [h.fields.nblocks dir hdir htype]
      exact hi
    · rw [h.fields.names c j (.of_has hdir htype hi hhas) hj]
      exact hname

theorem Loses.reach (h : Loses v v' p) : Reach v' f ↔ Reach v f :=
  reach_iff (fun _ _ hdir => h.entry hdir)

theorem Loses.holds (h : Loses v v' p) : Holds v' q c ↔
    Holds v q c ∧ q ≠ p ∧ ∀ f j, p = .indirect f → q ≠ .entry f j := by
  constructor
  · rintro ⟨hreach, hhas⟩
    replace hreach := h.reach.mp hreach
    obtain ⟨hhas, hrest⟩ := (h.has q c hreach).mp hhas
    exact ⟨⟨hreach, hhas⟩, hrest⟩
  · rintro ⟨⟨hreach, hhas⟩, hrest⟩
    exact ⟨h.reach.mpr hreach, (h.has q c hreach).mpr ⟨hhas, hrest⟩⟩

/-- Ownership stays if at most the block that the slot had becomes free. -/
theorem Loses.owned (h : Loses v v' p) (howned : Owned v) (hp : Holds v p b)
    (hfirst : firstBlock v' = firstBlock v) (hblocks : diskBlocks v' = diskBlocks v)
    (hfree : ∀ c, Free v' c → Free v c ∨ c = b) : Owned v' where
  inj := fun q r c hq hr => howned.inj q r c (h.holds.mp hq).1 (h.holds.mp hr).1
  range := fun q c hq => by
    rw [hfirst, hblocks]
    exact howned.range q c (h.holds.mp hq).1
  used := fun q c hq hf => by
    obtain ⟨hold, hne, -⟩ := h.holds.mp hq
    rcases hfree c hf with hf | rfl
    · exact howned.used q c hold hf
    · exact hne (howned.inj q p c hold hp)

end Tree

/-! ## The bytes that are stored -/

section Stores

variable {v v' : Bytes.Memory} {f b c : Nat} {p q : Slot} {w : U32}

/-- There is no block in a slot that is zero. -/
theorem not_has_of_zero (hzero : p.val v = 0) : ¬ p.Has v c := fun h =>
  h.ne (h.val.symm.trans hzero)

/-- A file is not in the bitmap. -/
theorem Reach.not_bitmap (howned : Owned v) (hf : Reach v f) :
    f + 256 ≤ blkVa 2 ∨ blkVa (firstBlock v) ≤ f := by
  rcases hf.shape with rfl | ⟨b, j, hb, hj, -, rfl⟩
  · exact Or.inl (by decide)
  · have hrange := hb.range howned
    unfold fileVa blkVa blksize
    omega

theorem blkVa_not_bitmap (hb : firstBlock v ≤ b) : blkVa (firstBlock v) ≤ blkVa b := by
  unfold blkVa blksize
  omega

section

variable (howned : Owned v) (hp : Live v p) (h : SlotStore v v' p w)

include howned hp h

theorem SlotStore.field {a : Nat} (hf : Reach v f) (ha : a + 4 ≤ 136) :
    Bytes.word v' (f + a) = Bytes.word v (f + a) := by
  have hfar := hp.fields_apart howned hf
  have hbits := hf.not_bitmap howned
  exact word_congr (fun x hle hlt => h.rest x (by omega) (by omega))

theorem SlotStore.fields : SameFields v v' where
  type := fun f hf => by
    unfold IsDir
    rw [show fTypeVa f = f + 132 from rfl, h.field howned hp hf (by decide)]
  nblocks := fun f hf _ => by
    unfold dirNblocks
    rw [show fSizeVa f = f + 128 from rfl, h.field howned hp hf (by decide)]
  names := fun b j hb hj => by
    have hfar := hp.record_apart howned hb hj
    have hfirst := blkVa_not_bitmap (hb.range howned).2.1
    have hva : blkVa b ≤ fileVa b j := Nat.le_add_right _ _
    exact h.rest _ (by omega) (by omega)

theorem SlotStore.word_other (hq : Live v q) (hne : q ≠ p) :
    Bytes.word v' (q.va v) = Bytes.word v (q.va v) := by
  have hfar := hq.apart howned hp hne
  have hbits := hq.not_bitmap howned
  exact word_congr (fun x hle hlt => h.rest x (by omega) (by omega))

theorem SlotStore.indirectOf (hf : Reach v f) (hne : p ≠ .indirect f) :
    Jos.indirectOf v' f = Jos.indirectOf v f :=
  congrArg BitVec.toNat (h.word_other howned hp (q := .indirect f) ⟨hf, trivial⟩ hne.symm)

/-- The other slots have what they had, if they are not in an indirect block that has
just changed. -/
theorem SlotStore.has_other (hq : Reach v q.file) (hne : q ≠ p)
    (hentry : ∀ f j, p = .indirect f → q ≠ .entry f j) : q.Has v' c ↔ q.Has v c := by
  refine slot_has_congr ?_ (fun hexist => h.word_other howned hp ⟨hq, hexist⟩ hne)
  rintro f j rfl
  exact h.indirectOf howned hp hq (fun heq => hentry f j heq rfl)

theorem SlotStore.va_self : p.va v' = p.va v := by
  refine slot_va_congr ?_
  rintro f j rfl
  exact h.indirectOf howned hp hp.reach (by simp)

theorem SlotStore.has_self : p.Has v' c ↔ w.toNat = c ∧ c ≠ 0 := by
  have hexist : p.Exists v' := by
    have hold := hp.exist
    cases p with
    | direct f i => exact hold
    | indirect f => exact hold
    | entry f j =>
        unfold Slot.Exists at hold ⊢
        simp only at hold ⊢
        rw [h.indirectOf howned hp (f := f) hp.reach (by simp)]
        exact hold
  have hval : p.val v' = w.toNat := by
    unfold Slot.val
    rw [h.va_self howned hp, h.word]
  constructor
  · rintro ⟨-, hc, hne⟩
    exact ⟨hval.symm.trans hc, hne⟩
  · rintro ⟨hc, hne⟩
    exact ⟨hexist, hval.trans hc, hne⟩

theorem SlotStore.diskBlocks : Jos.diskBlocks v' = Jos.diskBlocks v := by
  have hfar := hp.root_apart howned
  have hsuper : snblocksVa + 4 ≤ rootVa := by decide
  have hbits := snblocksVa_lt
  exact congrArg BitVec.toNat
    (word_congr (fun x hle hlt => h.rest x (by omega) (by omega)))

theorem SlotStore.firstBlock : Jos.firstBlock v' = Jos.firstBlock v := by
  unfold Jos.firstBlock
  rw [h.diskBlocks howned hp]

/-- A slot of blocks that had none gets block `b`. -/
theorem SlotStore.gains (hnone : ∀ c, ¬ p.Has v c) (hb : ∀ q, ¬ Holds v q b)
    (hlo : Jos.firstBlock v ≤ b) (hw : w.toNat = b)
    (hblank : ∀ dir i, IsDir v dir → p = slotOf dir i → NoNames v b)
    (hzero : ∀ f, p = .indirect f → ZeroBlock v b) : Gains v v' p b := by
  have htwo := firstBlock_ge (v := v)
  have hfar := hp.unheld_apart hb (Nat.le_trans htwo hlo)
  have hbits := blkVa_not_bitmap hlo
  have hbytes : ∀ x, blkVa b ≤ x → x < blkVa b + 4096 → v' x = v x := fun x hle hlt =>
    h.rest x (by omega) (by omega)
  have hne : b ≠ 0 := by omega
  refine ⟨h.fields howned hp, fun q c hq => ?_, fun dir i htype hpi j hj => ?_⟩
  · by_cases hqp : q = p
    · subst hqp
      rw [h.has_self howned hp, hw]
      constructor
      · rintro ⟨rfl, -⟩
        exact Or.inr ⟨rfl, rfl⟩
      · rintro (hold | ⟨-, rfl⟩)
        · exact absurd hold (hnone c)
        · exact ⟨rfl, hne⟩
    · by_cases hin : ∃ f j, p = .indirect f ∧ q = .entry f j
      · -- the slots in the new indirect block are zero
        obtain ⟨f, j, rfl, rfl⟩ := hin
        have hold : ¬ Slot.Has v (.entry f j) c := fun hhas =>
          hnone _ ⟨trivial, rfl, hhas.exist.1⟩
        have hind : Jos.indirectOf v' f = b := (congrArg BitVec.toNat h.word).trans hw
        refine iff_of_false (fun hhas => ?_) (not_or.mpr ⟨hold, fun heq => hqp heq.1⟩)
        have hj : j < 1024 := hhas.exist.2
        refine not_has_of_zero ?_ hhas
        unfold Slot.val Slot.va
        simp only
        rw [hind, word_zero (fun x hle hlt => ?_)]
        · rfl
        · rw [hbytes x (by omega) (by omega)]
          exact hzero f rfl x (by omega) (by omega)
      · rw [h.has_other howned hp hq hqp (fun f j hpf hqf => hin ⟨f, j, hpf, hqf⟩)]
        exact ⟨Or.inl, fun hor => hor.resolve_right (fun heq => hqp heq.1)⟩
  · have hj' : j < 16 := hj
    unfold fileVa
    rw [hbytes _ (by omega) (by omega)]
    exact hblank dir i htype hpi j hj

/-- A slot is cleared. -/
theorem SlotStore.loses (hw : w = 0#32) (hfile : ¬ IsDir v p.file) : Loses v v' p := by
  refine ⟨h.fields howned hp, fun q c hq => ?_, hfile⟩
  by_cases hqp : q = p
  · subst hqp
    rw [h.has_self howned hp, hw]
    refine iff_of_false ?_ (fun hh => hh.2.1 rfl)
    rintro ⟨rfl, hne⟩
    exact hne rfl
  · by_cases hin : ∃ f j, p = .indirect f ∧ q = .entry f j
    · obtain ⟨f, j, rfl, rfl⟩ := hin
      have hind : Jos.indirectOf v' f = 0 := by
        unfold Jos.indirectOf
        rw [show fIndirectVa f = (Slot.indirect f).va v from rfl, h.word, hw]
        rfl
      exact iff_of_false (fun hhas => hhas.exist.1 hind) (fun hh => hh.2.2 f j rfl rfl)
    · rw [h.has_other howned hp hq hqp (fun f j hpf hqf => hin ⟨f, j, hpf, hqf⟩)]
      exact ⟨fun hhas => ⟨hhas, hqp, fun f j hpf hqf => hin ⟨f, j, hpf, hqf⟩⟩, And.left⟩

end

end Stores

end Jos
