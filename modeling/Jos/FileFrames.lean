import Jos.BlockReads

/-!
# What a write leaves alone

`Meta` are the bytes that say which files there are and which blocks they have: the
records of the reachable files, their indirect blocks and the blocks of directories.
A write anywhere else changes no slot (`frame_holds`) and no file (`frame_reach`).

The bytes of files are in the blocks of the other slots; `fileByte` is what is there.
-/

namespace Jos

open Programs Bytes

/-- The bytes of records, of indirect blocks and of blocks of directories. -/
inductive Meta (v : Bytes.Memory) (x : Nat) : Prop where
  | record {f : Nat} : Reach v f → f ≤ x → x < f + 256 → Meta v x
  | indirect {f b : Nat} :
      Holds v (.indirect f) b → blkVa b ≤ x → x < blkVa b + 4096 → Meta v x
  | dir {b : Nat} : DirBlock v b → blkVa b ≤ x → x < blkVa b + 4096 → Meta v x

/-- Byte `k` of file `f`, if it has the block. -/
def fileByte (v : Bytes.Memory) (f k : Nat) : U8 :=
  v (blkVa ((slotOf f (k / 4096)).val v) + k % 4096)

/-- File `f` has blocks for the indices below `n`. -/
def HasBlocks (v : Bytes.Memory) (f n : Nat) : Prop :=
  ∀ i, i < n → ∃ b, (slotOf f i).Has v b

section Frames

variable {v v' : Bytes.Memory} {f g b x : Nat} {p : Slot}

section Slots

/-- A slot is found with one word at most, the number of an indirect block. -/
theorem slot_exists_congr (h : ∀ f j, p = .entry f j → indirectOf v' f = indirectOf v f) :
    p.Exists v' ↔ p.Exists v := by
  cases p with
  | direct f i => exact Iff.rfl
  | indirect f => exact Iff.rfl
  | entry f j =>
      unfold Slot.Exists
      simp only
      rw [h f j rfl]

theorem slot_va_congr (h : ∀ f j, p = .entry f j → indirectOf v' f = indirectOf v f) :
    p.va v' = p.va v := by
  cases p with
  | direct f i => rfl
  | indirect f => rfl
  | entry f j =>
      unfold Slot.va
      simp only
      rw [h f j rfl]

/-- A slot has what it had, if it is where it was and its word is the same. -/
theorem slot_has_congr (h : ∀ f j, p = .entry f j → indirectOf v' f = indirectOf v f)
    (hword : p.Exists v → word v' (p.va v) = word v (p.va v)) :
    p.Has v' b ↔ p.Has v b := by
  have hexist := slot_exists_congr h
  have hval : p.Exists v → p.val v' = p.val v := fun hp => by
    unfold Slot.val
    rw [slot_va_congr h, hword hp]
  constructor
  · rintro ⟨hp, hb, hne⟩
    exact ⟨hexist.mp hp, (hval (hexist.mp hp)).symm.trans hb, hne⟩
  · rintro ⟨hp, hb, hne⟩
    exact ⟨hexist.mpr hp, (hval hp).trans hb, hne⟩

end Slots

/-- Of the blocks behind the bitmap, `Meta` are those that a file has for its indirect block or a
directory for its entries. -/
theorem not_meta_of_block (hlo : firstBlock v ≤ b) (hdir : ∀ c, DirBlock v c → c ≠ b)
    (hind : ∀ g c, Holds v (.indirect g) c → c ≠ b)
    (hle : blkVa b ≤ x) (hlt : x < blkVa b + 4096) : ¬ Meta v x := by
  have htwo := firstBlock_ge (v := v)
  intro hmeta
  cases hmeta with
  | @record g hg hle' hlt' =>
      rcases hg.shape with rfl | ⟨c, j, hc, hj, -, rfl⟩
      · unfold rootVa superVa at *
        unfold blkVa diskmap blksize at *
        omega
      · have hne := hdir c hc
        unfold fileVa blkVa diskmap blksize blkfiles at *
        omega
  | @indirect g c hc hle' hlt' =>
      have hne := hind g c hc
      unfold blkVa blksize at *
      omega
  | @dir c hc hle' hlt' =>
      have hne := hdir c hc
      unfold blkVa blksize at *
      omega

section Writes

variable (h : ∀ x, Meta v x → v' x = v x)

include h

theorem frame_word {a : Nat} (hf : Reach v f) (hle : f ≤ a) (hlt : a + 4 ≤ f + 256) :
    word v' a = word v a :=
  word_congr (fun x hx hx' => h x (Meta.record hf (by omega) (by omega)))

theorem frame_indirectOf (hf : Reach v f) : indirectOf v' f = indirectOf v f := by
  unfold indirectOf
  rw [frame_word h hf (by unfold fIndirectVa; omega) (by unfold fIndirectVa; omega)]

theorem frame_isDir (hf : Reach v f) : IsDir v' f ↔ IsDir v f := by
  unfold IsDir
  rw [frame_word h hf (by unfold fTypeVa; omega) (by unfold fTypeVa; omega)]

theorem frame_dirNblocks (hf : Reach v f) : dirNblocks v' f = dirNblocks v f := by
  unfold dirNblocks
  rw [frame_word h hf (by unfold fSizeVa; omega) (by unfold fSizeVa; omega)]

theorem frame_indirect (hf : Reach v p.file) :
    ∀ f j, p = .entry f j → indirectOf v' f = indirectOf v f := by
  rintro f j rfl
  exact frame_indirectOf h hf

theorem frame_slot (hp : Live v p) : word v' (p.va v) = word v (p.va v) := by
  rcases hp.cases with ⟨f, k, hf', hk, hva, -⟩ | ⟨f, j, hj, hblock, -, hva⟩
  · rw [hva, frame_word h hf' (by omega) (by omega)]
  · refine word_congr (fun x hx hx' => h x ?_)
    exact Meta.indirect hblock (by omega) (by omega)

theorem frame_val (hp : Live v p) : p.val v' = p.val v := by
  unfold Slot.val
  rw [slot_va_congr (frame_indirect h hp.reach), frame_slot h hp]

theorem frame_has (hf : Reach v p.file) : p.Has v' b ↔ p.Has v b :=
  slot_has_congr (frame_indirect h hf) (fun hexist => frame_slot h ⟨hf, hexist⟩)

theorem frame_name {j : Nat} (hb : DirBlock v b) (hj : j < blkfiles) :
    v' (fileVa b j) = v (fileVa b j) := by
  unfold blkfiles at hj
  refine h _ (Meta.dir hb ?_ ?_)
  · exact Nat.le_add_right _ _
  · unfold fileVa
    omega

/-- The same files can be reached. -/
theorem frame_reach : Reach v' f ↔ Reach v f := by
  constructor
  · intro hf
    induction hf with
    | root => exact Reach.root
    | @entry dir i b j _ htype hi hhas hj hname ih =>
        have htype' := (frame_isDir h ih).mp htype
        rw [frame_dirNblocks h ih] at hi
        have hhas' := (frame_has h (by rw [slotOf_file]; exact ih)).mp hhas
        have hb : DirBlock v b := ⟨htype', hi, by rw [slotOf_file]; exact ih, hhas'⟩
        rw [frame_name h hb hj] at hname
        exact Reach.entry ih htype' hi hhas' hj hname
  · intro hf
    induction hf with
    | root => exact Reach.root
    | @entry dir i b j hdir htype hi hhas hj hname ih =>
        have hb : DirBlock v b := ⟨htype, hi, by rw [slotOf_file]; exact hdir, hhas⟩
        refine Reach.entry ih ((frame_isDir h hdir).mpr htype) ?_
          ((frame_has h (by rw [slotOf_file]; exact hdir)).mpr hhas) hj ?_
        · rw [frame_dirNblocks h hdir]
          exact hi
        · rw [frame_name h hb hj]
          exact hname

/-- The same slots have the same blocks. -/
theorem frame_holds : Holds v' p b ↔ Holds v p b := by
  constructor
  · rintro ⟨hreach, hhas⟩
    have hf := (frame_reach h).mp hreach
    exact ⟨hf, (frame_has h hf).mp hhas⟩
  · rintro ⟨hreach, hhas⟩
    exact ⟨(frame_reach h).mpr hreach, (frame_has h hreach).mpr hhas⟩

/-- Ownership stays if no block that is held becomes free. -/
theorem frame_owned (howned : Owned v) (hfirst : firstBlock v' = firstBlock v)
    (hblocks : diskBlocks v' = diskBlocks v)
    (hfree : ∀ p b, Holds v p b → Free v' b → Free v b) : Owned v' where
  inj := fun p q b hp hq => howned.inj p q b ((frame_holds h).mp hp) ((frame_holds h).mp hq)
  range := fun p b hp => by
    rw [hfirst, hblocks]
    exact howned.range p b ((frame_holds h).mp hp)
  used := fun p b hp hf =>
    howned.used p b ((frame_holds h).mp hp) (hfree p b ((frame_holds h).mp hp) hf)

end Writes

end Frames

end Jos
