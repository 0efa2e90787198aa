import Jos.FileSystem

/-!
# Files, slots and who owns a block

`Reach` are the files that a path can lead to, and a slot is a place where such a
file keeps a block number.  A slot *holds* a block if it is not zero.

The results say how that changes when bytes are written: `reach_of_reach` if files
can only be lost, and `reach_or` if one file is changed and is to stay reachable.
-/

namespace Jos

open Bytes

section Tree

variable (v : Bytes.Memory)

/-- `super->s_nblocks`. -/
def diskBlocks : Nat := (word v snblocksVa).toNat

/-- The first block after the bitmap. -/
def firstBlock : Nat := 2 + (diskBlocks v + 32767) / 32768

/-- The address of block `b`. -/
def blkVa (b : Nat) : Nat := diskmap + b * blksize

/-- The address of file `j` of a block of a directory. -/
def fileVa (b j : Nat) : Nat := blkVa b + 256 * j

/-- `f->f_indirect`. -/
def indirectOf (f : Nat) : Nat := (word v (fIndirectVa f)).toNat

/-- The number of blocks that are searched for a name. -/
def dirNblocks (dir : Nat) : Nat := ((word v (fSizeVa dir)).sdiv 4096#32).toNat

def IsDir (f : Nat) : Prop := word v (fTypeVa f) = ftypeDir

/-- A slot of a file. -/
inductive Slot where
  | direct (f i : Nat)
  | indirect (f : Nat)
  | entry (f j : Nat)
deriving DecidableEq

/-- The file that a slot belongs to. -/
def Slot.file : Slot → Nat
  | .direct f _ => f
  | .indirect f => f
  | .entry f _ => f

/-- The address of a slot. -/
def Slot.va : Slot → Nat
  | .direct f i => fDirectVa f i
  | .indirect f => fIndirectVa f
  | .entry f j => blkVa (indirectOf v f) + 4 * j

/-- The block number in a slot. -/
def Slot.val (p : Slot) : Nat := (word v (p.va v)).toNat

/-- There is such a slot. -/
def Slot.Exists : Slot → Prop
  | .direct _ i => i < ndirect
  | .indirect _ => True
  | .entry f j => indirectOf v f ≠ 0 ∧ j < nindirect

/-- The slot of index `i` of a file. -/
def slotOf (f i : Nat) : Slot :=
  if i < ndirect then .direct f i else .entry f (i - ndirect)

/-- Slot `p` has block `b`. -/
structure Slot.Has (p : Slot) (b : Nat) : Prop where
  exist : p.Exists v
  val : p.val v = b
  ne : b ≠ 0

/-- The files that are reachable from `super->s_root`: entries with a name, in the
blocks of a directory. -/
inductive Reach : Nat → Prop where
  | root : Reach rootVa
  | entry {dir i b j : Nat} :
      Reach dir → IsDir v dir → i < dirNblocks v dir → (slotOf dir i).Has v b →
      j < blkfiles → v (fileVa b j) ≠ 0#8 → Reach (fileVa b j)

/-- A slot of a reachable file. -/
structure Live (p : Slot) : Prop where
  reach : Reach v p.file
  exist : p.Exists v

/-- A slot of a reachable file has block `b`. -/
structure Holds (p : Slot) (b : Nat) : Prop where
  reach : Reach v p.file
  has : p.Has v b

/-- Block `b` is a block of a reachable directory. -/
inductive DirBlock (b : Nat) : Prop where
  | intro {dir i : Nat} :
      IsDir v dir → i < dirNblocks v dir → Holds v (slotOf dir i) b → DirBlock b

/-- What `check_super` and `check_bitmap` check: the blocks before the first one are
in use. -/
structure Checked : Prop where
  blocks : diskBlocks v ≤ disksize / blksize
  reserved : ∀ b, b < firstBlock v → ¬ Free v b

/-- The blocks of the slots are distinct, beyond the bitmap, on the disk and in
use. -/
structure Owned : Prop where
  inj : ∀ p q b, Holds v p b → Holds v q b → p = q
  range : ∀ p b, Holds v p b → firstBlock v ≤ b ∧ b < diskBlocks v
  used : ∀ p b, Holds v p b → ¬ Free v b

/-- No entry of block `b` has a name. -/
def NoNames (b : Nat) : Prop := ∀ j, j < blkfiles → v (fileVa b j) = 0#8

/-- The string at an address. -/
def NameAt (f : Nat) (name : List U8) : Prop :=
  bytesAt v f (name.length + 1) = name ++ [0#8]

instance (f : Nat) (name : List U8) : Decidable (NameAt v f name) :=
  inferInstanceAs (Decidable (_ = _))

end Tree

section Facts

variable {v v' : Bytes.Memory} {f g b c i j : Nat} {p q : Slot}

@[simp] theorem slotOf_file : (slotOf f i).file = f := by
  unfold slotOf
  split <;> rfl

theorem slotOf_ne_indirect : slotOf f i ≠ .indirect g := by
  unfold slotOf
  split <;> simp

theorem slotOf_inj (h : slotOf f i = slotOf g j) : f = g ∧ i = j := by
  unfold slotOf ndirect at h
  split at h <;> split at h
  · cases h
    exact ⟨rfl, rfl⟩
  · cases h
  · cases h
  · have hf : f = g := (Slot.entry.inj h).1
    have hi := (Slot.entry.inj h).2
    exact ⟨hf, by omega⟩

theorem DirBlock.holds (h : DirBlock v b) :
    ∃ dir i, IsDir v dir ∧ i < dirNblocks v dir ∧ Holds v (slotOf dir i) b := by
  obtain ⟨hdir, hi, hholds⟩ := h
  exact ⟨_, _, hdir, hi, hholds⟩

theorem firstBlock_ge : 2 ≤ firstBlock v := by
  unfold firstBlock
  omega

/-- A reachable file is the root, or is in a block of a directory. -/
theorem Reach.shape (h : Reach v f) :
    f = rootVa ∨ ∃ b j, DirBlock v b ∧ j < blkfiles ∧ v f ≠ 0#8 ∧ f = fileVa b j := by
  cases h with
  | root => exact Or.inl rfl
  | @entry dir i b j hdir htype hi hhas hj hname =>
      exact Or.inr ⟨b, j, ⟨htype, hi, by rw [slotOf_file]; exact hdir, hhas⟩, hj, hname, rfl⟩

theorem DirBlock.range (howned : Owned v) (h : DirBlock v b) :
    2 ≤ b ∧ firstBlock v ≤ b ∧ b < diskBlocks v := by
  obtain ⟨dir, i, -, -, hholds⟩ := h.holds
  obtain ⟨hlo, hhi⟩ := howned.range _ b hholds
  exact ⟨Nat.le_trans firstBlock_ge hlo, hlo, hhi⟩

/-- Records of files do not overlap. -/
theorem Reach.apart (howned : Owned v) (hf : Reach v f) (hg : Reach v g) (hne : f ≠ g) :
    f + 256 ≤ g ∨ g + 256 ≤ f := by
  rcases hf.shape with rfl | ⟨b, j, hb, hj, -, rfl⟩
  · rcases hg.shape with rfl | ⟨c, k, hc, -, -, rfl⟩
    · exact absurd rfl hne
    · have hc2 := (hc.range howned).1
      unfold rootVa superVa fileVa blkVa diskmap blksize
      omega
  · rcases hg.shape with rfl | ⟨c, k, hc, hk, -, rfl⟩
    · have hb2 := (hb.range howned).1
      unfold rootVa superVa fileVa blkVa diskmap blksize
      omega
    · unfold fileVa blkVa diskmap blksize blkfiles at *
      omega

/-! ## Where slots are -/

section Places

variable (howned : Owned v)

include howned

/-- A file is not in an indirect block. -/
theorem Reach.indirect_apart (hf : Reach v f) (hc : Holds v (.indirect g) c) :
    f + 256 ≤ blkVa c ∨ blkVa c + 4096 ≤ f := by
  have hlo := (howned.range _ c hc).1
  have h2 := firstBlock_ge (v := v)
  rcases hf.shape with rfl | ⟨b, j, hb, hj, -, rfl⟩
  · unfold rootVa superVa blkVa diskmap blksize
    omega
  · obtain ⟨dir, i, -, -, hholds⟩ := hb.holds
    have hne : b ≠ c := by
      rintro rfl
      exact slotOf_ne_indirect (howned.inj _ _ b hholds hc)
    unfold fileVa blkVa diskmap blksize blkfiles at *
    omega

omit howned in
/-- The indirect block of a slot in it. -/
theorem Live.entry_block (hp : Live v (.entry f j)) :
    Holds v (.indirect f) (indirectOf v f) ∧ j < 1024 :=
  ⟨⟨hp.reach, trivial, rfl, hp.exist.1⟩, hp.exist.2⟩

omit howned in
/-- A slot is in the record of its file, or in the indirect block. -/
theorem Live.cases (hp : Live v p) :
    (∃ f k, Reach v f ∧ k ≤ 10 ∧ p.va v = f + 136 + 4 * k ∧
      p = if k < 10 then .direct f k else .indirect f) ∨
    ∃ f j, j < 1024 ∧ Holds v (.indirect f) (indirectOf v f) ∧ p = .entry f j ∧
      p.va v = blkVa (indirectOf v f) + 4 * j := by
  cases p with
  | direct f i =>
      have hi : i < 10 := hp.exist
      exact Or.inl ⟨f, i, hp.reach, by omega, rfl, (if_pos hi).symm⟩
  | indirect f => exact Or.inl ⟨f, 10, hp.reach, by omega, rfl, rfl⟩
  | entry f j =>
      obtain ⟨hblock, hj⟩ := hp.entry_block
      exact Or.inr ⟨f, j, hj, hblock, rfl, rfl⟩

/-- Two slots do not overlap. -/
theorem Live.apart (hp : Live v p) (hq : Live v q) (hne : p ≠ q) :
    p.va v + 4 ≤ q.va v ∨ q.va v + 4 ≤ p.va v := by
  rcases hp.cases with ⟨f, k, hf, hk, hpva, hp'⟩ | ⟨f, j, hj, hblock, hp', hpva⟩
  · rcases hq.cases with ⟨g, l, hg, hl, hqva, hq'⟩ | ⟨g, l, hl, hblock, -, hqva⟩
    · by_cases hfg : f = g
      · subst hfg
        have hkl : k ≠ l := by
          rintro rfl
          exact hne (hp'.trans hq'.symm)
        omega
      · have hfar := hf.apart howned hg hfg
        omega
    · have hfar := hf.indirect_apart howned hblock
      omega
  · rcases hq.cases with ⟨g, l, hg, hl, hqva, -⟩ | ⟨g, l, hl, hblock', hq', hqva⟩
    · have hfar := hg.indirect_apart howned hblock
      omega
    · by_cases hfg : f = g
      · subst hfg
        have hjl : j ≠ l := by
          rintro rfl
          exact hne (hp'.trans hq'.symm)
        omega
      · have hblocks : indirectOf v f ≠ indirectOf v g := by
          intro heq
          exact hfg (Slot.indirect.inj (howned.inj _ _ _ hblock (heq ▸ hblock')))
        unfold blkVa blksize at hpva hqva
        omega

/-- A slot is not in the name, the size or the type of an entry of a directory. -/
theorem Live.record_apart (hp : Live v p) (hb : DirBlock v b) (hj : j < blkfiles) :
    p.va v + 4 ≤ fileVa b j ∨ fileVa b j + 136 ≤ p.va v := by
  have hb2 := (hb.range howned).1
  obtain ⟨dir, i, -, -, hholds⟩ := hb.holds
  rcases hp.cases with ⟨f, k, hf, hk, hpva, -⟩ | ⟨f, k, hk, hblock, -, hpva⟩
  · rcases hf.shape with rfl | ⟨c, l, hc, hl, -, rfl⟩
    · unfold rootVa superVa at hpva
      unfold fileVa blkVa diskmap blksize at *
      omega
    · unfold fileVa blkVa diskmap blksize blkfiles at *
      omega
  · have hne : b ≠ indirectOf v f := by
      intro heq
      exact slotOf_ne_indirect (howned.inj _ _ _ hholds (heq ▸ hblock))
    unfold fileVa blkVa diskmap blksize blkfiles at *
    omega

theorem Live.root_apart (hp : Live v p) : rootVa + 136 ≤ p.va v := by
  rcases hp.cases with ⟨f, k, hf, hk, hpva, -⟩ | ⟨f, k, hk, hblock, -, hpva⟩
  · rcases hf.shape with rfl | ⟨c, l, hc, hl, -, rfl⟩
    · omega
    · have hc2 := (hc.range howned).1
      unfold rootVa superVa
      unfold fileVa blkVa diskmap blksize at *
      omega
  · have hlo := (howned.range _ _ hblock).1
    have h2 := firstBlock_ge (v := v)
    unfold rootVa superVa
    unfold blkVa diskmap blksize at *
    omega

/-- A slot is not in the name, the size or the type of a file. -/
theorem Live.fields_apart (hp : Live v p) (hg : Reach v g) :
    p.va v + 4 ≤ g ∨ g + 136 ≤ p.va v := by
  rcases hg.shape with rfl | ⟨b, j, hb, hj, -, rfl⟩
  · exact Or.inr (hp.root_apart howned)
  · exact hp.record_apart howned hb hj

omit howned in
/-- The block that the slot is in is one of those that are held, or the super block. -/
theorem Live.unheld_apart (hp : Live v p) (hb : ∀ q, ¬ Holds v q b) (hlo : 2 ≤ b) :
    p.va v + 4 ≤ blkVa b ∨ blkVa b + 4096 ≤ p.va v := by
  rcases hp.cases with ⟨f, k, hf, hk, hpva, -⟩ | ⟨f, k, hk, hblock, -, hpva⟩
  · rcases hf.shape with rfl | ⟨c, l, hc, hl, -, rfl⟩
    · unfold rootVa superVa at hpva
      unfold blkVa diskmap blksize at *
      omega
    · obtain ⟨dir, i, -, -, hholds⟩ := hc.holds
      have hne : b ≠ c := by
        rintro rfl
        exact hb _ hholds
      unfold fileVa blkVa diskmap blksize blkfiles at *
      omega
  · have hne : b ≠ indirectOf v f := by
      rintro rfl
      exact hb _ hblock
    unfold blkVa diskmap blksize at *
    omega

/-- A slot is not in the bitmap. -/
theorem Live.not_bitmap (hp : Live v p) :
    p.va v + 4 ≤ blkVa 2 ∨ blkVa (firstBlock v) ≤ p.va v := by
  rcases hp.cases with ⟨f, k, hf, hk, hpva, -⟩ | ⟨f, k, hk, hblock, -, hpva⟩
  · rcases hf.shape with rfl | ⟨c, l, hc, hl, -, rfl⟩
    · unfold rootVa superVa at hpva
      unfold blkVa diskmap blksize at *
      omega
    · have hc2 := (hc.range howned).2.1
      unfold fileVa blkVa diskmap blksize at *
      omega
  · have hlo := (howned.range _ _ hblock).1
    unfold blkVa diskmap blksize at *
    omega

end Places

end Facts

end Jos
